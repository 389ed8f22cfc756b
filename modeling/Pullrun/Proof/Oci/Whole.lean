import Pullrun.Oci.Sample
import Pullrun.Proof.Oci.Place

/-!
# A layer from the archive to the root directory

For a layer of directories, files and symlinks without two dots in a row in its paths the two halves
meet: the conversion comes to an end, it fails only if a serializer refuses what it is given
(`convert_error`), and what is materialized from it is the layer, with nothing missing and nothing added.

No codec serializes every node: the digests are fewer than the nodes, and a lawful codec gives no two nodes
one digest. So a refusal is a case of the statement and not excluded by a hypothesis.
-/

namespace Pullrun

open FileTree OciMaterializer List Option

section

variable {F : Formats} {L : Layer} {s : MmapStore} {archive : Archive} {image : PulledImage}
  {seeds : ImageSeeds} {pairs : List (Item × (Str × DirectoryEntry))} {fuel : ℕ}

/-! ## The conversion ends -/

theorem childDigests_ne_none
    {storeSub : Str → MmapStore → Option (Except ConvertError Digest × MmapStore)} {path : Str}
    {es : List DirectoryEntry}
    (hsub : ∀ e ∈ es, e.isDir = true → ∀ s, storeSub (subPath path e.name) s ≠ none)
    (s : MmapStore) : childDigests storeSub path es s ≠ none := by
  induction es generalizing s with
  | nil => exact some_ne_none _
  | cons e es ih =>
    have ih' := ih fun e' he' => hsub e' (mem_cons_of_mem _ he')
    rw [childDigests]
    split
    · rename_i hnone
      split at hnone
      · exact absurd hnone (hsub e mem_cons_self ‹_› s)
      · cases hnone
    · exact some_ne_none _
    · split
      · exact absurd ‹_› (ih' _)
      · exact some_ne_none _
      · exact some_ne_none _

theorem storeTrees_ne_none (h : EntriesOf F L s pairs) :
    ∀ {fuel : ℕ} {q : Loc}, q.Ok → (∀ i ∈ L.entries, i.loc.length < q.length + fuel) → 0 < fuel →
      ∀ s, storeTrees F (pairs.map Prod.snd) fuel q.text s ≠ none := by
  intro fuel
  induction fuel with
  | zero => exact fun _ _ hpos => absurd hpos (by decide)
  | succ fuel ih =>
    intro q hq hlen _ s
    rw [storeTrees]
    split
    · rename_i hnone
      refine absurd hnone (childDigests_ne_none (fun e he hdir s => ?_) s)
      rw [h.entriesIn_text hq] at he
      obtain ⟨p, hp, rfl⟩ := mem_map.mp he
      obtain ⟨hp, hparent⟩ := mem_filter.mp hp
      have hparent : p.1.parent = q := by simpa using hparent
      rw [h.subPath_name hp hparent]
      have hloc : p.1.loc.length = q.length + 1 := by
        rw [(h.ok hp).loc_eq, hparent, length_append, length_singleton]
      have hfuel := hlen p.1 (h.mem_entries hp)
      exact ih (h.ok hp).names (fun i hi => by have := hlen i hi; omega) (by omega) s
    · exact some_ne_none _
    · exact some_ne_none _

theorem convertLayer_ne_none (hs : s.Sound F.codec) (hread : ReadFrom F archive L)
    {seeds : ℕ → Seed} (hfuel : ∀ i ∈ L.entries, i.loc.length < fuel) (hpos : 0 < fuel) :
    convertLayer F seeds fuel archive s ≠ none := by
  rw [convertLayer]
  split
  · exact some_ne_none _
  rename_i x s1 hx
  obtain ⟨-, -, -, hentries⟩ := hread hs hx
  obtain ⟨pairs, hpairs, hsnd⟩ := EntriesOf.of_forall₂ hentries
  split
  · exact some_ne_none _
  rename_i ws s2 hw
  have hroot : storeTrees F (pairs.map Prod.snd) fuel [] s2 ≠ none :=
    storeTrees_ne_none hpairs (q := []) (by simp [Loc.Ok]) (by simpa using hfuel) hpos s2
  rw [← hsnd]
  split
  · exact absurd ‹_› hroot
  · exact some_ne_none _
  · exact some_ne_none _

theorem convert_ne_none (hs : s.Sound F.codec) (hread : ReadFrom F archive L)
    (himage : image.layers = [archive]) :
    ∃ N, ∀ fuel, N ≤ fuel → convert F seeds fuel image s ≠ none := by
  refine ⟨(L.entries.map fun i => i.loc.length).sum + 1, fun fuel hfuel => ?_⟩
  have hlayer : convertLayer F (seeds.xattrs 0) fuel archive s ≠ none := by
    refine convertLayer_ne_none hs hread (fun i hi => ?_) (by omega)
    have := le_sum_of_mem (mem_map_of_mem (f := fun i : Item => i.loc.length) hi)
    omega
  rw [convert, himage, convertLayers]
  cases hl : convertLayer F (seeds.xattrs 0) fuel archive s with
  | none => exact absurd hl hlayer
  | some out =>
    obtain ⟨_ | d, s1⟩ := out
    · exact some_ne_none _
    · exact some_ne_none _

/-! ## The conversion fails only if a serializer does -/

/-- The error is that of `rkyv` on a node, or the panic over an entry that `serde_json` refuses. -/
def Unserializable (F : Formats) (e : ConvertError) : Prop :=
  (∃ node why, F.codec.toBytes node = .error why ∧
    e = .store (.serialization s!"rkyv serialization failed: {why}")) ∨
  ∃ (entry : DirectoryEntry) (why : String), F.json.toVec entry.toValue = .error why ∧ e = .panicked why

variable {e : ConvertError} {s' : MmapStore}

theorem unserializable_of_put {node : DagNode} {err : StoreError}
    (h : s.putBlocking F.codec node = (.error err, s')) : Unserializable F (.store err) := by
  unfold MmapStore.putBlocking at h
  split at h
  · rename_i why hbytes
    cases h
    exact .inl ⟨node, why, hbytes, rfl⟩
  · dsimp only at h
    split at h <;> cases h

theorem storeFile_error {size : UInt64} {data : Bytes} {err : StoreError}
    (h : storeFile F.codec s size data = (.error err, s')) : Unserializable F (.store err) := by
  unfold storeFile at h
  split at h
  · rename_i hput
    cases h
    exact unserializable_of_put hput
  · split at h <;> cases h

/-- Every entry of the archive can be read. -/
def Archive.Readable (archive : Archive) : Prop :=
  ∀ x ∈ archive, ∃ path header pax data, x = .ok ⟨.ok path, .ok header, pax, .ok data⟩

theorem Layer.readable_archive (L : Layer) : L.archive.Readable := by
  intro x hx
  obtain ⟨i, -, rfl⟩ := mem_map.mp hx
  exact ⟨_, _, _, _, rfl⟩

theorem scanEntry_error {seed : Seed} {path : Str} {header : Header} {pax : List (Str × Bytes)}
    {data : Bytes} {p p' : Scan}
    (h : scanEntry F.codec seed path header pax (.ok data) p = (.error e, p')) : Unserializable F e := by
  unfold scanEntry at h
  split at h
  · cases h
  · split at h
    · cases h
    · dsimp only at h
      split at h
      · rename_i hstore
        cases h
        exact storeFile_error hstore
      · cases h

theorem scan_error {seeds : ℕ → Seed} {p p' : Scan} {i : ℕ} (hread : archive.Readable)
    (h : scan F.codec seeds i archive p = (.error e, p')) : Unserializable F e := by
  induction archive generalizing i p with
  | nil => cases h
  | cons x archive ih =>
    obtain ⟨⟨path, header, pax, data, rfl⟩, hrest⟩ := forall_mem_cons.mp hread
    rw [scan] at h
    dsimp only at h
    split at h
    · exact ih hrest h
    · split at h
      · rename_i hentry
        cases h
        exact scanEntry_error hentry
      · exact ih hrest h

theorem finishEntries_error {raws : List RawEntry}
    (h : finishEntries F.codec raws s = (.error e, s')) : Unserializable F e := by
  fun_induction finishEntries F.codec raws s with
  | case1 => cases h
  | case2 _ _ _ _ _ _ hput =>
    cases h
    exact unserializable_of_put hput
  | case3 _ _ _ _ _ _ _ _ _ hrest ih | case5 _ _ _ _ _ _ hrest ih =>
    cases h
    exact ih hrest
  | case4 | case6 => cases h

theorem putNode_error {node : DagNode} (h : putNode F.codec node s = (.error e, s')) :
    Unserializable F e := by
  unfold putNode at h
  split at h
  · rename_i hput
    cases h
    exact unserializable_of_put hput
  · cases h

theorem inlineBytes_error {es : List DirectoryEntry} {why : String}
    (h : DirectoryEntry.inlineBytes F.json es = .error why) : Unserializable F (.panicked why) := by
  induction es with
  | nil => cases h
  | cons entry es ih =>
    rw [DirectoryEntry.inlineBytes] at h
    split at h
    · cases h
    · rename_i hline
      cases h
      unfold DirectoryEntry.toInlineBytes at hline
      split at hline
      · cases hline
      · rename_i hvec
        cases hline
        exact .inr ⟨entry, why, hvec, rfl⟩
    · rename_i hrest _
      cases h
      exact ih hrest

theorem storeTree_error {path : Str} {es : List DirectoryEntry} {edges : List Digest}
    (h : storeTree F path es edges s = (.error e, s')) : Unserializable F e := by
  unfold storeTree at h
  split at h
  · rename_i hinline
    cases h
    exact inlineBytes_error hinline
  · split at h
    · rename_i hput
      cases h
      exact putNode_error hput
    · exact putNode_error h

theorem childDigests_error
    {storeSub : Str → MmapStore → Option (Except ConvertError Digest × MmapStore)} {path : Str}
    {es : List DirectoryEntry}
    (hsub : ∀ {path s e s'}, storeSub path s = some (.error e, s') → Unserializable F e)
    (h : childDigests storeSub path es s = some (.error e, s')) : Unserializable F e := by
  induction es generalizing s s' with
  | nil => cases h
  | cons entry es ih =>
    rw [childDigests] at h
    split at h
    · cases h
    · rename_i hone
      cases h
      split at hone
      · exact hsub hone
      · cases hone
    · split at h
      · cases h
      · rename_i hrest
        cases h
        exact ih hrest
      · cases h

theorem storeTrees_error {entries : List (Str × DirectoryEntry)} {path : Str}
    (h : storeTrees F entries fuel path s = some (.error e, s')) : Unserializable F e := by
  induction fuel generalizing path s e s' with
  | zero => cases h
  | succ fuel ih =>
    rw [storeTrees] at h
    split at h
    · cases h
    · rename_i hchildren
      cases h
      exact childDigests_error ih hchildren
    · exact storeTree_error (Option.some.inj h)

theorem convertLayer_error (hs : s.Sound F.codec) (hread : ReadFrom F archive L)
    (hreadable : archive.Readable) (hwhiteouts : L.whiteouts = []) {seeds : ℕ → Seed}
    (h : convertLayer F seeds fuel archive s = some (.error e, s')) : Unserializable F e := by
  rw [convertLayer] at h
  split at h
  · rename_i hextract
    cases h
    unfold extractTarEntries at hextract
    split at hextract
    · rename_i hscan
      cases hextract
      exact scan_error hreadable hscan
    · split at hextract
      · rename_i hfinish
        cases hextract
        exact finishEntries_error hfinish
      · cases hextract
  · rename_i x s1 hextract
    obtain ⟨-, -, hnone, -⟩ := hread hs hextract
    rw [hwhiteouts, map_nil] at hnone
    rw [hnone, storeWhiteouts] at h
    dsimp only at h
    split at h
    · cases h
    · rename_i htrees
      cases h
      exact storeTrees_error htrees
    · rw [addWhiteouts, if_pos rfl] at h
      cases h

/-- **A layer that can be read is converted, unless a serializer refuses a node or an entry.** -/
theorem convert_error (hs : s.Sound F.codec) (hread : ReadFrom F archive L)
    (hreadable : archive.Readable) (hwhiteouts : L.whiteouts = []) (himage : image.layers = [archive])
    (h : convert F seeds fuel image s = some (.error e, s')) : Unserializable F e := by
  rw [convert, himage, convertLayers] at h
  cases hl : convertLayer F (seeds.xattrs 0) fuel archive s with
  | none =>
    rw [hl] at h
    cases h
  | some out =>
    rw [hl] at h
    obtain ⟨e' | d, s1⟩ := out
    · cases h
      exact convertLayer_error hs hread hreadable hwhiteouts hl
    · exact putNode_error (Option.some.inj h)

/-! ## What is materialized -/

theorem materializeInto_shows (hc : F.codec.Lawful) (hj : F.json.Lawful) (hx : F.text.Lawful)
    (hread : ReadFrom F archive L) (himage : image.layers = [archive])
    (hs : s.Sound F.codec) {manifest : Digest} {s' : MmapStore}
    (hconvert : convert F seeds fuel image s = some (.ok manifest, s')) {root : Loc}
    {fs : Fs Bytes Attr} (hroot : fs.nodes.InPlace root)
    (hempty : ∀ rel, rel ≠ [] → fs.lookup (root ++ rel) = none) {fuel' : ℕ}
    (hfuel : 2 * fuel + 2 ≤ fuel') :
    ∃ fs', materializeInto F.json F.text (s'.view F.codec) fuel' manifest root fs =
        some (.ok (), fs') ∧
      ∀ rel, rel ≠ [] →
        (fs'.lookup (root ++ rel)).map Inode.shape = L.keptOver (fun _ => none) rel := by
  obtain ⟨hs', -, ds, inline, hds, hmanifest⟩ :=
    convert_spec hc (by rw [himage]; exact .cons hread .nil) hs hconvert
  obtain ⟨d, ds, hd, hnil, rfl⟩ := forall₂_cons_right_iff.mp hds
  cases hnil
  obtain ⟨fs', hfs', hshows⟩ := materializeLayer_empty hc hj hx hs' hd
    (show 2 * (fuel - 1) + 2 ≤ fuel' by omega) hroot hempty
  refine ⟨fs', ?_, hshows.shows⟩
  rw [materializeInto, Fs.createDirAll_inPlace hroot]
  simp only [hmanifest.view_getArchived hc hs', forEach, hfs']

theorem Layer.keptOver_eq_at (hreal : ∀ i ∈ L.items, i.kind.isReal = true)
    (hdots : ∀ i ∈ L.items, containsDotDot i.path = false) : L.keptOver (fun _ => none) = L.at? := by
  funext p
  by_cases h : ∃ i ∈ L.items, i.loc = p
  · obtain ⟨i, hi, rfl⟩ := h
    rw [keptOver_of_mem (mem_entries.mpr ⟨hi, hdots i hi, hreal i hi⟩), at?, find_real hi (hreal i hi)]
  · push Not at h
    have hnone : (L.items.find? fun i => i.loc = p ∧ i.kind.isReal = true) = none := by
      refine find?_eq_none.mpr fun i hi => ?_
      simp [h i hi]
    rw [keptOver_of_not_mem fun i hi => h i (mem_entries.mp hi).1, at?, hnone]

end

open Sample

set_option maxRecDepth 20000

end Pullrun
