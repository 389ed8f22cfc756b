import Pullrun.Proof.Service.Session
import Pullrun.Proof.Store.Accounting

/-!
# An export, imported

The two halves meet at *rows*, digests with their bytes: what the exporter has read of every node and blob
the root reaches, and what the importer checks and writes.

Nodes are read through a cache that always agrees with the files (`Session.run_coherent`), whatever directory the
store was opened on. Blobs are read through a cache that does not.
-/

namespace Pullrun

open List Disk FileMap Digest

/-! ## Rows -/

namespace FileMap

def insertAll (m : FileMap Bytes) (rows : List (Digest × Bytes)) : FileMap Bytes :=
  rows.foldl (fun m row => m.insert row.1 row.2) m

variable {rows : List (Digest × Bytes)}

theorem lookup_insertAll_of_not_mem {d : Digest} (h : d ∉ rows.map Prod.fst) (m : FileMap Bytes) :
    (insertAll m rows).lookup d = m.lookup d := by
  induction rows generalizing m with
  | nil => rfl
  | cons row rows ih =>
    rw [map_cons, mem_cons, not_or] at h
    rw [insertAll, foldl_cons]
    exact (ih h.2 _).trans (by rw [lookup_insert_if, if_neg h.1])

theorem lookup_insertAll_of_mem (hnd : (rows.map Prod.fst).Nodup) {row : Digest × Bytes}
    (h : row ∈ rows) (m : FileMap Bytes) : (insertAll m rows).lookup row.1 = some row.2 := by
  induction rows generalizing m with
  | nil => exact absurd h (by simp)
  | cons first rows ih =>
    rw [map_cons, nodup_cons] at hnd
    rw [insertAll, foldl_cons]
    rcases mem_cons.mp h with rfl | h
    · exact (lookup_insertAll_of_not_mem hnd.1 _).trans (by rw [lookup_insert_if, if_pos rfl])
    · exact ih hnd.2 h _

theorem lookup_insertAll_empty (hnd : (rows.map Prod.fst).Nodup) (d : Digest) (b : Bytes) :
    (insertAll ∅ rows).lookup d = some b ↔ (d, b) ∈ rows := by
  refine ⟨fun h => ?_, fun h => lookup_insertAll_of_mem hnd h ∅⟩
  by_cases hd : d ∈ rows.map Prod.fst
  · obtain ⟨row, hrow, rfl⟩ := mem_map.mp hd
    rw [lookup_insertAll_of_mem hnd hrow ∅] at h
    injection h with h
    exact h ▸ hrow
  · rw [lookup_insertAll_of_not_mem hd, Finmap.lookup_empty] at h
    cases h

end FileMap

namespace Cache

/-- Reading the listed digests one after the other, no read meets an entry that differs from the
    file. -/
def ReadsFresh (files : FileMap Bytes) : Cache → List Digest → Prop
  | _, [] => True
  | k, d :: ds =>
    (∀ b, k.entries.lookup d = some b → files.lookup d = some b) ∧
      ReadsFresh files (k.read files d).2 ds

variable {k : Cache} {files : FileMap Bytes} {ds : List Digest}

/-- What a read leaves in the cache was there before, or is the file that was read. -/
theorem read_entry {d e : Digest} {b : Bytes} (h : (k.read files d).2.entries.lookup e = some b) :
    k.entries.lookup e = some b ∨ files.lookup e = some b := by
  unfold Cache.read at h
  split at h
  · exact .inl (evictLru_subset (k := { k with lru := k.lru.erase d ++ [d] }) h)
  · split at h
    · exact .inl h
    · rename_i data hfile
      change Finmap.lookup e (k.evictLru.entries.insert d data) = some b at h
      rw [lookup_insert_if] at h
      split at h
      · rename_i he
        rw [he]
        exact .inr (hfile.trans h)
      · exact .inl (evictLru_subset h)

theorem readsFresh_of_fresh
    (h : ∀ d ∈ ds, ∀ b, k.entries.lookup d = some b → files.lookup d = some b) :
    k.ReadsFresh files ds := by
  induction ds generalizing k with
  | nil => trivial
  | cons d ds ih =>
    refine ⟨h d mem_cons_self, ih fun e he b hb => ?_⟩
    rcases read_entry hb with hb | hb
    · exact h e (mem_cons_of_mem _ he) b hb
    · exact hb

/-- The cache has no limit, or one of zero, which is none. -/
def Unlimited (k : Cache) : Prop := ∀ max, k.maxBytes = some max → max = 0

theorem Unlimited.evictLru (h : k.Unlimited) : k.evictLru = k := by
  unfold Cache.evictLru
  split
  · rfl
  · rename_i max hmax
    rw [if_pos (h max hmax)]

theorem Unlimited.read (h : k.Unlimited) (d : Digest) :
    (k.read files d).2.Unlimited ∧ ∀ e b, k.entries.lookup e = some b →
      (k.read files d).2.entries.lookup e = some b := by
  unfold Cache.read
  split
  · have htouch : k.touch d = { k with lru := k.lru.erase d ++ [d] } :=
      Unlimited.evictLru (k := { k with lru := k.lru.erase d ++ [d] }) h
    rw [htouch]
    exact ⟨h, fun _ _ hb => hb⟩
  · rename_i hnone
    split
    · exact ⟨h, fun _ _ hb => hb⟩
    · rw [load, h.evictLru]
      refine ⟨h, fun e b hb => ?_⟩
      change Finmap.lookup e (k.entries.insert d _) = some b
      rw [lookup_insert_if, if_neg ?_, hb]
      rintro rfl
      rw [hnone] at hb
      cases hb

/-- Where nothing is evicted, a stale entry is met. -/
theorem ReadsFresh.fresh (hk : k.Unlimited) (h : k.ReadsFresh files ds) :
    ∀ d ∈ ds, ∀ b, k.entries.lookup d = some b → files.lookup d = some b := by
  induction ds generalizing k with
  | nil => exact forall_mem_nil _
  | cons d ds ih =>
    obtain ⟨hfirst, hrest⟩ := h
    obtain ⟨hk', hkeep⟩ := hk.read d
    exact forall_mem_cons.mpr ⟨hfirst, fun e he b hb => ih hk' hrest e he b (hkeep e b hb)⟩

end Cache

namespace DagTar

open MmapStore Sample

def entriesOf (dir : Str) (rows : List (Digest × Bytes)) : List (Str × Bytes) :=
  rows.map fun row => (dir ++ row.1.asHex, row.2)

def rowBytes (rows : List (Digest × Bytes)) : ℕ := (rows.map (·.2.length)).sum

/-! ## Export -/

variable {s : MmapStore} {c : Codec} {ds : List Digest} {json : Json}

theorem writeEntries_get (dir : Str) (err : Str → StoreError → OciError)
    (hcoh : s.Coherent) (h : ∀ d ∈ ds, s.disk.hasNode d = true) :
    ∃ rows s', writeEntries MmapStore.get dir err s ds = (.ok (entriesOf dir rows), s') ∧
      SameFiles s s' ∧ rows.map Prod.fst = ds ∧ ∀ row ∈ rows, s.disk.nodes.lookup row.1 = some row.2 := by
  induction ds generalizing s with
  | nil => exact ⟨[], s, rfl, .refl hcoh, rfl, by simp⟩
  | cons d ds ih =>
    obtain ⟨b, hb⟩ := Option.isSome_iff_exists.mp (h d mem_cons_self)
    obtain ⟨hcoh', hdisk, hval⟩ := get_coherent hcoh d
    obtain ⟨cache, hframe⟩ := get_frame s d
    rw [hb] at hval
    have hsame : SameFiles s (s.get d).2 := ⟨hcoh', hdisk, by rw [hframe]⟩
    obtain ⟨rows, s', hw, hs', hfst, hrows⟩ := ih hcoh' fun e he => by
      rw [hdisk]; exact h e (mem_cons_of_mem _ he)
    refine ⟨(d, b) :: rows, s', ?_, hsame.trans hs', by rw [map_cons, hfst], ?_⟩
    · rw [writeEntries]
      rcases hg : s.get d with ⟨r, s1⟩
      rw [hg] at hval hw
      dsimp only at hval
      subst hval
      simp only [hw]
      rfl
    · rintro row hrow
      rcases mem_cons.mp hrow with rfl | hrow
      · exact hb
      · rw [hdisk] at hrows
        exact hrows row hrow

theorem writeEntries_getBlob (dir : Str) (err : Str → StoreError → OciError)
    (h : ∀ d ∈ ds, s.disk.hasBlob d = true) :
    ∃ rows s', writeEntries getBlob dir err s ds = (.ok (entriesOf dir rows), s') ∧
      rows.map Prod.fst = ds ∧
      ((∀ row ∈ rows, s.disk.blobs.lookup row.1 = some row.2) ↔
        s.blobCache.ReadsFresh s.disk.blobs ds) := by
  induction ds generalizing s with
  | nil => exact ⟨[], s, rfl, rfl, by simp [Cache.ReadsFresh]⟩
  | cons d ds ih =>
    obtain ⟨file, hfile⟩ := Option.isSome_iff_exists.mp (h d mem_cons_self)
    -- the cached bytes if there are any, else the file
    obtain ⟨b, hread, hfresh⟩ : ∃ b, (s.blobCache.read s.disk.blobs d).1 = some b ∧
        (s.disk.blobs.lookup d = some b ↔
          ∀ b', s.blobCache.entries.lookup d = some b' → s.disk.blobs.lookup d = some b') := by
      unfold Cache.read
      cases hc : s.blobCache.entries.lookup d with
      | some b => exact ⟨b, rfl, by simp⟩
      | none => exact ⟨file, by simp only [hfile], by simp [hfile]⟩
    have hget : s.getBlob d =
        (.ok b, { s with blobCache := (s.blobCache.read s.disk.blobs d).2 }) := by
      unfold getBlob
      rcases hr : s.blobCache.read s.disk.blobs d with ⟨o, k⟩
      rw [hr] at hread
      dsimp only at hread
      rw [hread]
    obtain ⟨rows, s', hw, hfst, hiff⟩ :=
      ih (s := { s with blobCache := (s.blobCache.read s.disk.blobs d).2 })
        fun e he => h e (mem_cons_of_mem _ he)
    refine ⟨(d, b) :: rows, s', ?_, by rw [map_cons, hfst], ?_⟩
    · rw [writeEntries, hget]
      simp only [hw]
      rfl
    · rw [Cache.ReadsFresh, ← hfresh, ← hiff]
      exact forall_mem_cons

/-! ## Import -/

theorem nodesDir_ne_manifest (hex : Str) : nodesDir ++ hex ≠ manifestName := by
  simp [nodesDir, manifestName]

theorem blobsDir_ne_manifest (hex : Str) : blobsDir ++ hex ≠ manifestName := by
  simp [blobsDir, manifestName]

theorem stripPrefix_nodesDir_blobsDir (hex : Str) :
    stripPrefix nodesDir (blobsDir ++ hex) = none := by
  have : nodesDir.isPrefixOf (blobsDir ++ hex) = false := by
    simp [nodesDir, blobsDir, isPrefixOf]
  rw [stripPrefix, if_neg (by rw [this]; simp)]

def Checks (c : Codec) (row : Digest × Bytes) : Prop :=
  c.sha256 row.2 = row.1 ∧ ∃ n, c.checkArchivedRoot row.2 = .ok n

theorem importEntries_append (c : Codec) (json : Json) (as bs : Archive) (s : MmapStore)
    (p : Progress) :
    importEntries c json (as ++ bs) s p =
      match importEntries c json as s p with
      | (.error e, s) => (.error e, s)
      | (.ok p, s) => importEntries c json bs s p := by
  fun_induction importEntries c json as s p with
  | case1 s p => rfl
  | case2 e rest s p => rfl
  | case3 data rest s p ih => exact ih
  | case4 path e rest s p => rfl
  | case5 path buf rest s p e s' he => simp only [cons_append, importEntries, he]
  | case6 path buf rest s p p' s' he ih => simp only [cons_append, importEntries, he, ih]

/-- How entries under `dir` are imported: counted if `has` says that the file is there, else
    written. -/
structure Imports (c : Codec) (json : Json) (dir : Str) (rows : List (Digest × Bytes))
    (has : MmapStore → Digest → Bool) (write : MmapStore → Digest × Bytes → MmapStore) : Prop where
  entry : ∀ row ∈ rows, ∀ s p, importEntry c json (dir ++ row.1.asHex) row.2 s p =
    if has s row.1 then (.ok { p with bytesDedup := p.bytesDedup + row.2.length }, s)
    else (.ok { p with bytesStored := p.bytesStored + row.2.length }, write s row)
  frame : ∀ s row d, d ≠ row.1 → has (write s row) d = has s d

section Imports

variable {c : Codec} {json : Json} {dir : Str} {rows : List (Digest × Bytes)}
  {has : MmapStore → Digest → Bool} {write : MmapStore → Digest × Bytes → MmapStore}

theorem Imports.tail {row : Digest × Bytes} (h : Imports c json dir (row :: rows) has write) :
    Imports c json dir rows has write :=
  ⟨fun r hr => h.entry r (mem_cons_of_mem _ hr), h.frame⟩

theorem Imports.fresh (h : Imports c json dir rows has write) (hnd : (rows.map Prod.fst).Nodup)
    (hs : ∀ row ∈ rows, has s row.1 = false) (p : Progress) :
    importEntries c json (readBack (entriesOf dir rows)) s p =
      (.ok { p with bytesStored := p.bytesStored + rowBytes rows }, rows.foldl write s) := by
  induction rows generalizing s p with
  | nil => rfl
  | cons row rows ih =>
    rw [map_cons, nodup_cons] at hnd
    have hstep := h.entry row mem_cons_self s p
    rw [hs row mem_cons_self, if_neg (by simp)] at hstep
    have hrest : ∀ r ∈ rows, has (write s row) r.1 = false := by
      intro r hr
      rw [h.frame s row r.1 fun he => hnd.1 (he ▸ mem_map_of_mem hr)]
      exact hs r (mem_cons_of_mem _ hr)
    have hgo := ih h.tail hnd.2 hrest { p with bytesStored := p.bytesStored + row.2.length }
    simp only [entriesOf, readBack, map_cons, importEntries, hstep] at hgo ⊢
    rw [hgo]
    simp only [rowBytes, map_cons, sum_cons, Nat.add_assoc, foldl_cons]

theorem Imports.dup (h : Imports c json dir rows has write)
    (hs : ∀ row ∈ rows, has s row.1 = true) (p : Progress) :
    importEntries c json (readBack (entriesOf dir rows)) s p =
      (.ok { p with bytesDedup := p.bytesDedup + rowBytes rows }, s) := by
  induction rows generalizing p with
  | nil => rfl
  | cons row rows ih =>
    have hstep := h.entry row mem_cons_self s p
    rw [hs row mem_cons_self, if_pos rfl] at hstep
    have hgo := ih h.tail (fun r hr => hs r (mem_cons_of_mem _ hr))
      { p with bytesDedup := p.bytesDedup + row.2.length }
    simp only [entriesOf, readBack, map_cons, importEntries, hstep] at hgo ⊢
    rw [hgo]
    simp only [rowBytes, map_cons, sum_cons, Nat.add_assoc]

end Imports

def writeNodeRow (s : MmapStore) (row : Digest × Bytes) : MmapStore :=
  { s with disk := s.disk.writeNode row.1 row.2 }

def writeBlobRow (s : MmapStore) (row : Digest × Bytes) : MmapStore :=
  { s with disk := s.disk.writeBlob row.1 row.2 }

theorem imports_nodes (json : Json) {rows : List (Digest × Bytes)} (h : ∀ row ∈ rows, Checks c row) :
    Imports c json nodesDir rows MmapStore.exists writeNodeRow where
  entry row hrow s p := by
    obtain ⟨hsha, n, hn⟩ := h row hrow
    simp only [importEntry, if_neg (nodesDir_ne_manifest _), stripPrefix_append, importNode,
      fromHex_asHex, hsha, ne_eq, not_true_eq_false, if_false, hn, writeNodeRow]
  frame s row d hd := by
    unfold MmapStore.exists hasNode
    rw [show (writeNodeRow s row).disk.nodes = s.disk.nodes.insert row.1 row.2 from rfl,
      lookup_insert_if, if_neg hd]
    rfl

theorem imports_blobs (c : Codec) (json : Json) (rows : List (Digest × Bytes)) :
    Imports c json blobsDir rows (fun s => s.disk.hasBlob) writeBlobRow where
  entry row _ s p := by
    simp only [importEntry, if_neg (blobsDir_ne_manifest _), stripPrefix_nodesDir_blobsDir,
      stripPrefix_append, importBlob, fromHex_asHex, putBlobBlocking]
    split <;> rfl
  frame s row d hd := by
    unfold hasBlob
    rw [show (writeBlobRow s row).disk.blobs = s.disk.blobs.insert row.1 row.2 from rfl,
      lookup_insert_if, if_neg hd]

theorem foldl_writeRow (rows : List (Digest × Bytes)) (s : MmapStore) :
    rows.foldl writeNodeRow s =
        { s with disk := { s.disk with nodes := s.disk.nodes.insertAll rows } } ∧
      rows.foldl writeBlobRow s =
        { s with disk := { s.disk with blobs := s.disk.blobs.insertAll rows } } := by
  induction rows generalizing s with
  | nil => exact ⟨rfl, rfl⟩
  | cons row rows ih => exact ⟨(ih _).1, (ih _).2⟩

/-- The importer accepts only node entries that check. -/
theorem checks_of_importEntries {rows : List (Digest × Bytes)} {s s' : MmapStore} {p p' : Progress}
    (h : importEntries c json (readBack (entriesOf nodesDir rows)) s p = (.ok p', s')) :
    ∀ row ∈ rows, Checks c row := by
  induction rows generalizing s p with
  | nil => exact forall_mem_nil _
  | cons row rows ih =>
    have hentry : importEntry c json (nodesDir ++ row.1.asHex) row.2 s p =
        importNode c row.1.asHex row.2 s p := by
      rw [importEntry, if_neg (nodesDir_ne_manifest _), stripPrefix_append]
    simp only [entriesOf, readBack, map_cons, importEntries, hentry] at h ih
    by_cases hrow : Checks c row
    · refine forall_mem_cons.mpr ⟨hrow, ?_⟩
      split at h
      · cases h
      · exact ih h
    · exfalso
      rcases hn : importNode c row.1.asHex row.2 s p with ⟨e | p1, s1⟩
      · rw [hn] at h
        cases h
      · simp only [importNode, fromHex_asHex] at hn
        split at hn
        · cases hn
        · rename_i hsha
          split at hn
          · cases hn
          · rename_i n hok
            exact hrow ⟨not_not.mp hsha, n, hok⟩

/-! ## A whole archive -/

/-- `serde_json` reads the manifest back. -/
def ReadsBack (json : Json) (m : ExportManifest) : Prop :=
  ∃ b, json.toVec m = .ok b ∧ json.fromSlice b = .ok m

def archiveOf (manifest : Bytes) (nodes blobs : List (Digest × Bytes)) : List (Str × Bytes) :=
  (manifestName, manifest) :: entriesOf nodesDir nodes ++ entriesOf blobsDir blobs

def exportedBytes (entries : List (Str × Bytes)) : ℕ :=
  ((entries.filter (·.1 ≠ manifestName)).map (·.2.length)).sum

theorem entriesOf_filter {dir : Str} (hdir : ∀ hex, dir ++ hex ≠ manifestName)
    (rows : List (Digest × Bytes)) :
    (entriesOf dir rows).filter (·.1 ≠ manifestName) = entriesOf dir rows := by
  refine filter_eq_self.mpr fun e he => ?_
  obtain ⟨row, -, rfl⟩ := mem_map.mp he
  simpa using hdir row.1.asHex

theorem exportedBytes_archiveOf (manifest : Bytes) (nodes blobs : List (Digest × Bytes)) :
    exportedBytes (archiveOf manifest nodes blobs) = rowBytes nodes + rowBytes blobs := by
  rw [exportedBytes, archiveOf, filter_append, filter_cons_of_neg (by simp),
    entriesOf_filter nodesDir_ne_manifest, entriesOf_filter blobsDir_ne_manifest, map_append,
    sum_append, entriesOf, entriesOf, map_map, map_map]
  rfl

section Archive

variable {c : Codec} {json : Json} {manifest : Bytes} {m : ExportManifest}
  {nodes blobs : List (Digest × Bytes)}

theorem importDagFromTar_archiveOf (hm : json.fromSlice manifest = .ok m) (s : MmapStore) :
    importDagFromTar c json s (readBack (archiveOf manifest nodes blobs)) =
      match importEntries c json (readBack (entriesOf nodesDir nodes)) s
        { rootDigest := m.rootDigest, foundManifest := true } with
      | (.error e, s) => (.error e, s)
      | (.ok p, s) =>
        match importEntries c json (readBack (entriesOf blobsDir blobs)) s p with
        | (.error e, s) => (.error e, s)
        | (.ok p, s) =>
          if p.foundManifest then (.ok (p.rootDigest, p.bytesStored, p.bytesDedup), s)
          else (.error .manifestNotFound, s) := by
  have hsplit : readBack (archiveOf manifest nodes blobs) =
      .ok ⟨some manifestName, .ok manifest⟩ ::
        (readBack (entriesOf nodesDir nodes) ++ readBack (entriesOf blobsDir blobs)) := by
    rw [archiveOf, readBack, map_append, map_cons]
    rfl
  have hfirst : importEntry c json manifestName manifest s {} =
      (.ok { rootDigest := m.rootDigest, foundManifest := true }, s) := by
    simp only [importEntry, if_pos, hm]
  rw [importDagFromTar, hsplit, importEntries]
  simp only [hfirst]
  rw [importEntries_append]
  rcases importEntries c json (readBack (entriesOf nodesDir nodes)) s
    { rootDigest := m.rootDigest, foundManifest := true } with ⟨e | p, s1⟩
  · rfl
  · rfl

theorem importDagFromTar_fresh (hm : json.fromSlice manifest = .ok m)
    (hc : ∀ row ∈ nodes, Checks c row) (hnd : (nodes.map Prod.fst).Nodup)
    (hbnd : (blobs.map Prod.fst).Nodup) (m1 m2 : Option ℕ) :
    importDagFromTar c json (openOn empty m1 m2) (readBack (archiveOf manifest nodes blobs)) =
      (.ok (m.rootDigest, rowBytes nodes + rowBytes blobs, 0),
        openOn { empty with
          nodes := insertAll ∅ nodes
          blobs := insertAll ∅ blobs } m1 m2) := by
  have hnone : ∀ d, (openOn empty m1 m2).exists d = false := by
    intro d
    simp [MmapStore.exists, openOn, Cache.empty, hasNode, empty]
  rw [importDagFromTar_archiveOf hm,
    (imports_nodes json hc).fresh hnd (fun row _ => hnone row.1), (foldl_writeRow _ _).1]
  dsimp only
  rw [(imports_blobs c json blobs).fresh hbnd (fun row _ => by
    simp [openOn, hasBlob, empty]), (foldl_writeRow _ _).2]
  simp only [Nat.zero_add, if_true]
  rfl

theorem importDagFromTar_dup (hm : json.fromSlice manifest = .ok m)
    (hc : ∀ row ∈ nodes, Checks c row)
    (hn : ∀ row ∈ nodes, s.exists row.1 = true)
    (hb : ∀ row ∈ blobs, s.disk.hasBlob row.1 = true) :
    importDagFromTar c json s (readBack (archiveOf manifest nodes blobs)) =
      (.ok (m.rootDigest, 0, rowBytes nodes + rowBytes blobs), s) := by
  rw [importDagFromTar_archiveOf hm, (imports_nodes json hc).dup hn]
  dsimp only
  rw [(imports_blobs c json blobs).dup hb]
  simp only [Nat.zero_add, if_true]

end Archive

/-! ## The round trip -/

/-- Imported into an empty store, `entries` give back what `root` reaches in `s`: its nodes, their
    blobs, and no other file. -/
def RoundTrip (c : Codec) (json : Json) (s : MmapStore) (root : Digest)
    (entries : List (Str × Bytes)) : Prop :=
  ∀ m₁ m₂, ∃ s₂,
    importDagFromTar c json (openOn Disk.empty m₁ m₂) (readBack entries) =
      (.ok (root.asHex, exportedBytes entries, 0), s₂) ∧
    (∀ d b, s₂.disk.nodes.lookup d = some b ↔
      (s.disk.graph c).Reach root d ∧ s.disk.nodes.lookup d = some b) ∧
    (∀ d b, s₂.disk.blobs.lookup d = some b ↔
      (s.disk.graph c).Reach root d ∧ s.disk.hasNode d = true ∧ s.disk.blobs.lookup d = some b) ∧
    s₂.disk.refcounts = ∅ ∧ s₂.disk.ops = [] ∧
    ∃ s₃, importDagFromTar c json s₂ (readBack entries) =
      (.ok (root.asHex, 0, exportedBytes entries), s₃) ∧ s₃.disk = s₂.disk

theorem reachFrom_singleton {G : RefGraph Digest} {root d : Digest} :
    G.ReachFrom [root] d ↔ G.Reach root d := by
  simp [RefGraph.ReachFrom]

/-- What the exporter of `root` has read: every node that is reached and stored, and bytes for every blob of
    one. -/
structure Exported (c : Codec) (json : Json) (s : MmapStore) (root : Digest) (manifest : Bytes)
    (nodes blobs : List (Digest × Bytes)) : Prop where
  manifest : ∃ m, json.fromSlice manifest = .ok m ∧ m.rootDigest = root.asHex
  nodup : (nodes.map Prod.fst).Nodup
  blobsNodup : (blobs.map Prod.fst).Nodup
  nodeRow : ∀ d b, (d, b) ∈ nodes ↔ (s.disk.graph c).Reach root d ∧ s.disk.nodes.lookup d = some b
  blobRow : ∀ d, d ∈ blobs.map Prod.fst ↔
    (s.disk.graph c).Reach root d ∧ s.disk.hasNode d = true ∧ s.disk.hasBlob d = true
  fresh : (∀ row ∈ blobs, s.disk.blobs.lookup row.1 = some row.2) ↔
    s.blobCache.ReadsFresh s.disk.blobs (blobs.map Prod.fst)

section Exported

variable {root : Digest} {manifest : Bytes} {nodes blobs : List (Digest × Bytes)}

theorem Exported.roundTrip (h : Exported c json s root manifest nodes blobs)
    (hcheck : ∀ row ∈ nodes, Checks c row)
    (hfresh : ∀ row ∈ blobs, s.disk.blobs.lookup row.1 = some row.2) :
    RoundTrip c json s root (archiveOf manifest nodes blobs) := by
  obtain ⟨m, hm, hroot⟩ := h.manifest
  intro m1 m2
  have himport := importDagFromTar_fresh hm hcheck h.nodup h.blobsNodup m1 m2
  rw [hroot] at himport
  rw [exportedBytes_archiveOf]
  refine ⟨_, himport, fun d b => ?_, fun d b => ?_, rfl, rfl, ?_⟩
  · exact (lookup_insertAll_empty h.nodup d b).trans (h.nodeRow d b)
  · refine (lookup_insertAll_empty h.blobsNodup d b).trans ⟨fun hrow => ?_, ?_⟩
    · obtain ⟨hreach, hstored, -⟩ := (h.blobRow d).mp (mem_map_of_mem hrow)
      exact ⟨hreach, hstored, hfresh (d, b) hrow⟩
    · rintro ⟨hreach, hstored, hb⟩
      have hmem := (h.blobRow d).mpr ⟨hreach, hstored, by rw [hasBlob, hb]; rfl⟩
      obtain ⟨row, hrow, rfl⟩ := mem_map.mp hmem
      rw [hfresh row hrow] at hb
      injection hb with hb
      exact hb ▸ hrow
  · refine ⟨_, ?_, rfl⟩
    rw [importDagFromTar_dup hm hcheck ?_ ?_, hroot]
    · intro row hrow
      rw [MmapStore.exists, Bool.or_eq_true]
      refine Or.inr ?_
      change ((insertAll ∅ nodes).lookup row.1).isSome = true
      rw [lookup_insertAll_of_mem h.nodup hrow]
      rfl
    · intro row hrow
      change ((insertAll ∅ blobs).lookup row.1).isSome = true
      rw [lookup_insertAll_of_mem h.blobsNodup hrow]
      rfl

/-- And conversely: an entry that does not check is refused, and a stale blob is imported. -/
theorem Exported.of_roundTrip (h : Exported c json s root manifest nodes blobs)
    (htrip : RoundTrip c json s root (archiveOf manifest nodes blobs)) :
    (∀ row ∈ nodes, Checks c row) ∧ ∀ row ∈ blobs, s.disk.blobs.lookup row.1 = some row.2 := by
  obtain ⟨m, hm, hroot⟩ := h.manifest
  obtain ⟨s₂, hs₂, -, hb, -⟩ := htrip none none
  have hcheck : ∀ row ∈ nodes, Checks c row := by
    rw [importDagFromTar_archiveOf hm] at hs₂
    split at hs₂
    · cases hs₂
    · rename_i himport
      exact checks_of_importEntries himport
  refine ⟨hcheck, fun row hrow => ?_⟩
  rw [importDagFromTar_fresh hm hcheck h.nodup h.blobsNodup] at hs₂
  obtain ⟨-, rfl⟩ := Prod.mk.inj hs₂
  exact ((hb row.1 row.2).mp ((lookup_insertAll_empty h.blobsNodup _ _).mpr hrow)).2.2

end Exported

/-- `serde_json` reads the manifest back that an export of `root` writes. -/
def ManifestReadsBack (c : Codec) (json : Json) (s : MmapStore) (root : Digest) : Prop :=
  ∀ nodes blobs s₁, s.walkReachable c [root] = (.ok (nodes, blobs), s₁) →
    ReadsBack json ⟨root.asHex, dagFormat, nodes.length, blobs.length⟩

theorem export_succeeds {root : Digest} (hcoh : s.Coherent)
    (hval : ∀ d, (s.disk.graph c).Reach root d → ¬ Invalid c s.disk d)
    (hjson : ManifestReadsBack c json s root) :
    ∃ manifest nodes blobs s', exportDagToTar c json s root.asHex =
      (.ok (archiveOf manifest nodes blobs), s') ∧ Exported c json s root manifest nodes blobs := by
  obtain ⟨nodes, blobs, s₁, hwalk⟩ := walkReachable_succeeds hcoh
    fun d hd => hval d (reachFrom_singleton.mp hd)
  obtain ⟨hsame, hnd, hblobs, -, hmem⟩ := walkReachable_ok hcoh hwalk
  obtain ⟨manifest, hto, hfrom⟩ := hjson nodes blobs s₁ hwalk
  have hstored : ∀ d ∈ nodes, s₁.disk.hasNode d = true := by
    intro d hd
    rw [hsame.disk]
    exact ((hmem d).mp hd).2
  obtain ⟨nrows, s₂, hnw, hsame₂, hnfst, hnrows⟩ :=
    writeEntries_get nodesDir .readNode hsame.coherent hstored
  rw [hsame.disk] at hnrows
  have hdisk₂ : s₂.disk = s.disk := hsame₂.disk.trans hsame.disk
  have hhave : ∀ d ∈ blobs, s₂.disk.hasBlob d = true := by
    intro d hd
    rw [hdisk₂]
    rw [hblobs] at hd
    exact (mem_filter.mp hd).2
  obtain ⟨brows, s₃, hbw, hbfst, hiff⟩ := writeEntries_getBlob blobsDir .readBlob hhave
  rw [hdisk₂, hsame₂.blobCache, hsame.blobCache, ← hbfst] at hiff
  refine ⟨manifest, nrows, brows, s₃, ?_, ⟨_, hfrom, rfl⟩, hnfst ▸ hnd, ?_, fun d b => ?_, fun d => ?_,
    hiff⟩
  · simp only [exportDagToTar, walkDagCollect, fromHex_asHex, hwalk, hto, hnw, hbw]
    rfl
  · rw [hbfst, hblobs]
    exact hnd.filter _
  · rw [← reachFrom_singleton]
    constructor
    · intro hrow
      have hd : d ∈ nodes := hnfst ▸ mem_map_of_mem (f := Prod.fst) hrow
      exact ⟨((hmem d).mp hd).1, hnrows _ hrow⟩
    · rintro ⟨hreach, hb⟩
      have hd : d ∈ nrows.map Prod.fst := by
        rw [hnfst, hmem d]
        exact ⟨hreach, by rw [hasNode, hb]; rfl⟩
      obtain ⟨row, hrow, rfl⟩ := mem_map.mp hd
      rw [hnrows row hrow] at hb
      injection hb with hb
      exact hb ▸ hrow
  · rw [hbfst, hblobs, mem_filter, hmem d, reachFrom_singleton, and_assoc]

/-- The walk of an export refuses a node that does not validate. -/
theorem valid_of_export {root d : Digest} {entries : List (Str × Bytes)} {s' : MmapStore} (hcoh : s.Coherent)
    (h : exportDagToTar c json s root.asHex = (.ok entries, s'))
    (hd : (s.disk.graph c).Reach root d) : ¬ Invalid c s.disk d := by
  intro hinv
  rcases hwalk : s.walkReachable c [root] with ⟨e | ⟨nodes, blobs⟩, s₁⟩
  · simp only [exportDagToTar, walkDagCollect, fromHex_asHex, hwalk] at h
    cases h
  · obtain ⟨-, -, -, hval, hmem⟩ := walkReachable_ok hcoh hwalk
    obtain ⟨b, why, hb, hwhy⟩ := hinv
    have hnode : s.disk.hasNode d = true := by rw [hasNode, hb]; rfl
    exact hval d ((hmem d).mpr ⟨reachFrom_singleton.mpr hd, hnode⟩) ⟨b, why, hb, hwhy⟩

/-! ## Which stores come through -/

end DagTar

namespace Session

open MmapStore

variable {c : Codec} {json : Json} {s s' : Session}

theorem removeTag_coherent {store : MmapStore} (h : store.Coherent) (root : Digest) :
    (store.removeTag c root).2.Coherent := by
  have hstart : MmapStore.Coherent { store with disk := (store.disk.decrementRefcount root).2 } := by
    change store.cache.Coherent (store.disk.decrementRefcount root).2.nodes
    rw [decrementRefcount, setRefcount_nodes]
    exact h
  unfold removeTag
  dsimp only
  split
  · exact hstart
  · have hrun := Worklist.run_keeps .stalled (removeTagVisit c) (fun st => st.1.Coherent) (fun v st hst => ?_)
      (walkFuel c (store.disk.decrementRefcount root).2 1) [root] []
      ({ store with disk := (store.disk.decrementRefcount root).2 }, 0) hstart
    · split <;> simpa only [*] using hrun
    · obtain ⟨hget, -, -⟩ := getArchived_coherent c hst v
      fun_cases removeTagVisit c v st with
      | case1 _ _ _ _ archived _ hs' _ _ hdrop =>
        rw [hs'] at hget
        have hleft := dropNode_coherent hget v archived.edges
        rwa [hdrop] at hleft
      | case2 _ _ _ _ _ _ hs' _ _ hdrop =>
        rw [hs'] at hget
        have hleft := dropNode_coherent hget v []
        rwa [hdrop] at hleft
      | case3 _ _ _ _ _ _ hs' => rwa [hs'] at hget
      | case4 => exact hst

theorem import_coherent {store : MmapStore} (h : store.Coherent) (archive : DagTar.Archive) :
    (DagTar.importDagFromTar c json store archive).2.Coherent := by
  refine (DagTar.importDagFromTar_writes c json store archive).keeps (fun s1 s2 hw hs => ?_) h
  cases hw with
  | @node d b n hfile hd hn habs =>
    rw [exists_coherent hs, Bool.eq_false_iff] at habs
    exact Cache.Coherent.write hs (by simpa [hasNode] using habs) b
  | @blob d data hfile => exact coherent_putBlob hs d data

theorem collect_coherent {gc : GarbageCollector} {now : ℕ} {listing roots : List Digest}
    (h : s.store.Coherent) (hlist : s.Collects listing roots) :
    (GarbageCollector.collectListed c gc now listing s.store roots).2.Coherent := by
  rcases hr : GarbageCollector.collectListed c gc now listing s.store roots with ⟨r, store⟩
  rcases GarbageCollector.collectListed_inv h hr with ⟨-, -, hcoh, -⟩ | ⟨report, -, -, hcoll⟩
  · exact hcoh
  · obtain ⟨swept, hrec⟩ := hcoll.reclaimed h hlist.1
    exact hrec.coherent

/-- **Nodes are read as they are on disk**: every call keeps the node cache in step with the files. -/
theorem call_coherent {a : Call} (h : s.store.Coherent) (hcall : call c json s a = some s') :
    s'.store.Coherent := by
  cases a with
  | get d => cases hcall; exact (get_coherent h d).1
  | getBlob d =>
    cases hcall
    change MmapStore.Coherent (s.store.getBlob d).2
    unfold MmapStore.getBlob
    split <;> exact h
  | evict d =>
    cases hcall
    intro e b he
    change (s.store.cache.evictEntry d).entries.lookup e = some b at he
    rw [Cache.evictEntry_lookup] at he
    split at he
    · cases he
    · exact h e b he
  | op op =>
    cases op with
    | put node => cases hcall; exact putBlocking_coherent h node
    | putBlob d data => cases hcall; exact coherent_putBlob h d data
    | tag d => cases hcall; exact coherent_incrementRefcount h d
    | removeTag d =>
      simp only [call, step, Option.ite_none_right_eq_some, Option.some.injEq] at hcall
      rw [← hcall.2]
      exact removeTag_coherent h d
    | collect now force listing roots =>
      simp only [call, step, Option.ite_none_right_eq_some, Option.some.injEq] at hcall
      rw [← hcall.2]
      exact collect_coherent h hcall.1
    | importImage archive =>
      cases hcall
      have himport : (DagTar.importDagFromTar c json _ archive).2.Coherent := import_coherent h archive
      unfold importImage
      split
      · rename_i heq; rwa [heq] at himport
      · rename_i heq
        rw [heq] at himport
        split
        · exact himport
        · exact coherent_incrementRefcount himport _

/-- A store opened on the directory `k`. -/
def openedOn (k : Disk) (maxNode maxBlob : Option ℕ) : Session := ⟨.openOn k maxNode maxBlob, 0⟩

theorem run_coherent {k : Disk} {maxNode maxBlob : Option ℕ} {calls : List Call}
    (hrun : Schedule.run (call c json) (openedOn k maxNode maxBlob) calls = some s) :
    s.store.Coherent :=
  Schedule.run_inv' (fun s => s.store.Coherent) (fun _ _ _ h hcall => call_coherent h hcall)
    (coherent_openOn _ _ _) hrun

end Session

namespace DagTar

open MmapStore Sample

/-- The export of `root` succeeds, and its archive imports as what `root` reaches. -/
def Transfers (c : Codec) (json : Json) (s : MmapStore) (root : Digest) : Prop :=
  ∃ entries s', exportDagToTar c json s root.asHex = (.ok entries, s') ∧ RoundTrip c json s root entries

/-- Every node file that `root` reaches is valid and hashes to its name, and the blob cache holds nothing
    else for it than its blob file. -/
def Transferable (c : Codec) (s : MmapStore) (root : Digest) : Prop :=
  ∀ d b, (s.disk.graph c).Reach root d → s.disk.nodes.lookup d = some b →
    Checks c (d, b) ∧ (s.disk.hasBlob d = true →
      ∀ data, s.blobCache.entries.lookup d = some data → s.disk.blobs.lookup d = some data)

theorem Transferable.transfers {root : Digest} (hcoh : s.Coherent)
    (hjson : ManifestReadsBack c json s root) (h : Transferable c s root) : Transfers c json s root := by
  have hval : ∀ d, (s.disk.graph c).Reach root d → ¬ Invalid c s.disk d := by
    rintro d hd ⟨b, why, hb, hwhy⟩
    obtain ⟨⟨-, n, hn⟩, -⟩ := h d b hd hb
    rw [hn] at hwhy
    cases hwhy
  obtain ⟨manifest, nodes, blobs, s', hexp, hrows⟩ := export_succeeds hcoh hval hjson
  refine ⟨_, s', hexp, hrows.roundTrip (fun row hrow => ?_) (hrows.fresh.mpr ?_)⟩
  · obtain ⟨hreach, hb⟩ := (hrows.nodeRow row.1 row.2).mp hrow
    exact (h row.1 row.2 hreach hb).1
  · refine Cache.readsFresh_of_fresh fun d hd => ?_
    obtain ⟨hreach, hnode, hblob⟩ := (hrows.blobRow d).mp hd
    obtain ⟨b, hb⟩ := Option.isSome_iff_exists.mp hnode
    exact (h d b hreach hb).2 hblob

/-- **What comes through an export and an import.** Whatever directory the store was opened on and whatever
    was done to it: if the node files that the root reaches are sound and no blob of theirs is cached stale,
    the archive gives them back. Where the blob cache evicts nothing the converse holds too. -/
theorem export_import_iff (c : Codec) (json : Json) (k : Disk) (maxNode maxBlob : Option ℕ)
    (calls : List Session.Call) {s : Session}
    (hrun : Schedule.run (Session.call c json) (Session.openedOn k maxNode maxBlob) calls = some s)
    (root : Digest) (hjson : ManifestReadsBack c json s.store root) :
    (Transferable c s.store root → Transfers c json s.store root) ∧
      (s.store.blobCache.Unlimited →
        (Transfers c json s.store root ↔ Transferable c s.store root)) := by
  have hcoh := Session.run_coherent hrun
  refine ⟨fun h => h.transfers hcoh hjson, fun hunlimited => ⟨?_, fun h => h.transfers hcoh hjson⟩⟩
  rintro ⟨entries, s', hexp, htrip⟩ d b hreach hb
  obtain ⟨manifest, nodes, blobs, s'', hexp', hrows⟩ :=
    export_succeeds hcoh (fun d hd => valid_of_export hcoh hexp hd) hjson
  obtain ⟨rfl, -⟩ : entries = archiveOf manifest nodes blobs ∧ s' = s'' := by
    simpa using hexp.symm.trans hexp'
  obtain ⟨hcheck, hfresh⟩ := hrows.of_roundTrip htrip
  refine ⟨hcheck (d, b) ((hrows.nodeRow d b).mpr ⟨hreach, hb⟩), fun hblob => ?_⟩
  have hmem := (hrows.blobRow d).mpr ⟨hreach, by rw [hasNode, hb]; rfl, hblob⟩
  exact (hrows.fresh.mp hfresh).fresh hunlimited d hmem

/-! ## A fresh cache and a stale one -/

/-- The manifest of an image that is one file with a blob. -/
def leafManifest : ExportManifest := ⟨Sample.leafD.asHex, dagFormat, 1, 1⟩

def sampleJson : Json := jsonOf [leafManifest]

/-- A directory with a node file that is not one. -/
def strayDisk : Disk := { Disk.empty with nodes := Finmap.insert Sample.otherD [0] ∅ }

def leafCalls : List Session.Call :=
  [.op (.put Sample.leaf), .op (.putBlob Sample.leafD [104, 105]), .op (.tag Sample.leafD),
    .getBlob Sample.leafD]

def freshStore : MmapStore :=
  (((openOn strayDisk none none).put Sample.codec Sample.leaf).2.putBlob Sample.leafD [104, 105]
    |>.incrementRefcount Sample.leafD).getBlob Sample.leafD |>.2

theorem freshStore_graph : ∀ d, (freshStore.disk.graph Sample.codec).Reach Sample.leafD d →
    d = Sample.leafD := by
  have hout : (freshStore.disk.graph codec).out leafD = [] := by decide +kernel
  intro d hd
  induction hd with
  | refl => rfl
  | tail _ hedge ih =>
    subst ih
    change _ ∈ (freshStore.disk.graph codec).out leafD at hedge
    rw [hout] at hedge
    cases hedge

theorem export_import_freshStore :
    ∃ entries s', exportDagToTar Sample.codec sampleJson freshStore Sample.leafD.asHex =
        (.ok entries, s') ∧
      RoundTrip Sample.codec sampleJson freshStore Sample.leafD entries := by
  have hlen : (freshStore.walkReachable codec [leafD]).1 = .ok ([leafD], [leafD]) := by decide +kernel
  have hfile : freshStore.disk.nodes.lookup leafD = some (Codec.archive leaf) := by decide +kernel
  have hleaf : codec.sha256 (Codec.archive leaf) = leafD ∧
      codec.checkArchivedRoot (Codec.archive leaf) = .ok leaf := by decide +kernel
  have hcached : freshStore.blobCache.entries.lookup leafD = some [104, 105] ∧
      freshStore.disk.blobs.lookup leafD = some [104, 105] := by decide +kernel
  refine (export_import_iff codec sampleJson strayDisk none none leafCalls (s := ⟨freshStore, {leafD}⟩)
    rfl leafD ?_).1 ?_
  · intro nodes blobs s₁ hwalk
    rw [hwalk] at hlen
    obtain ⟨rfl, rfl⟩ := Prod.mk.inj (Except.ok.inj hlen)
    exact ⟨_, rfl, by decide +kernel⟩
  · intro d b hreach hb
    obtain rfl := freshStore_graph d hreach
    rw [show _ = _ from hfile] at hb
    injection hb with hb
    subst hb
    refine ⟨⟨hleaf.1, _, hleaf.2⟩, fun _ data hdata => ?_⟩
    rw [show _ = _ from hcached.1] at hdata
    rw [← hdata]
    exact hcached.2

def leafArchive (blob : Bytes) : Archive :=
  readBack (archiveOf (manifestJson leafManifest) [(Sample.leafD, Codec.archive Sample.leaf)]
    [(Sample.leafD, blob)])

/-- The image is imported with a wrong blob, read, removed, and imported with the right one. -/
def staleStore : MmapStore :=
  let s := (importDagFromTar Sample.codec sampleJson new (leafArchive [0])).2
  let s := (s.incrementRefcount Sample.leafD).getBlob Sample.leafD |>.2
  let s := (s.removeTag Sample.codec Sample.leafD).2
  let s := (importDagFromTar Sample.codec sampleJson s (leafArchive [104, 105])).2
  s.incrementRefcount Sample.leafD

theorem staleStore_export_stale :
    ∃ entries s', exportDagToTar Sample.codec sampleJson staleStore Sample.leafD.asHex =
        (.ok entries, s') ∧
      staleStore.disk.blobs.lookup Sample.leafD = some [104, 105] ∧
      (blobsDir ++ Sample.leafD.asHex, [0]) ∈ entries ∧
      ¬ RoundTrip Sample.codec sampleJson staleStore Sample.leafD entries := by
  have hexp : (exportDagToTar codec sampleJson staleStore leafD.asHex).1 =
      .ok (archiveOf (manifestJson leafManifest) [(leafD, Codec.archive leaf)]
        [(leafD, [0])]) := by decide +kernel
  have hfile : staleStore.disk.blobs.lookup leafD = some [104, 105] := by decide +kernel
  have hblob : (importDagFromTar codec sampleJson (openOn empty none none)
      (leafArchive [0])).2.disk.blobs.lookup leafD = some [0] := by decide +kernel
  rcases hrun : exportDagToTar codec sampleJson staleStore leafD.asHex with ⟨r, s'⟩
  rw [hrun] at hexp
  dsimp only at hexp
  subst hexp
  refine ⟨_, s', rfl, hfile, mem_append_right _ (mem_singleton.mpr rfl),
    fun h => ?_⟩
  obtain ⟨s₂, hs₂, -, hb, -⟩ := h none none
  have hs₂' : s₂.disk.blobs.lookup leafD = some [0] := by
    rw [← hblob, leafArchive, hs₂]
  have hwrong := ((hb leafD [0]).mp hs₂').2.2
  rw [hfile] at hwrong
  exact absurd hwrong (by decide)

end DagTar

end Pullrun
