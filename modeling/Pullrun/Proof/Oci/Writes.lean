import Pullrun.Oci.Converter

/-!
# The converter writes through the store

A conversion changes the store by `put`, by `put_blob` and, where a layer node is read back, by what
a read leaves in the cache — and by nothing else, whether it succeeds or fails half-way.
-/

namespace Pullrun

namespace MmapStore

inductive Write (c : Codec) : MmapStore → MmapStore → Prop
  | put (s : MmapStore) (n : DagNode) : Write c s (s.put c n).2
  | putBlob (s : MmapStore) (d : Digest) (data : Bytes) : Write c s (s.putBlob d data)
  | getArchived (s : MmapStore) (d : Digest) : Write c s (s.getArchived c d).2

def Writes (c : Codec) : MmapStore → MmapStore → Prop := Relation.ReflTransGen (Write c)

namespace Writes

variable {c : Codec} {s s' s'' : MmapStore}

theorem refl (s : MmapStore) : Writes c s s := Relation.ReflTransGen.refl

theorem trans (h : Writes c s s') (h' : Writes c s' s'') : Writes c s s'' :=
  Relation.ReflTransGen.trans h h'

theorem of_eq {α : Type} {x : α × MmapStore} {r : α} (h : Writes c s x.2) (hx : x = (r, s')) :
    Writes c s s' := by
  rw [hx] at h
  exact h

theorem of_put {n : DagNode} {r : Except StoreError Digest} (h : s.putBlocking c n = (r, s')) :
    Writes c s s' :=
  of_eq (.single (.put s n)) h

theorem keeps {P : MmapStore → Prop} (hP : ∀ s s', Write c s s' → P s → P s') (h : Writes c s s')
    (hs : P s) : P s' := by
  induction h with
  | refl => exact hs
  | tail _ hw ih => exact hP _ _ hw ih

end Writes

end MmapStore

open MmapStore

variable {F : Formats} {c : Codec} {r : Except ConvertError (List Digest)}

/-! ## Layers -/

theorem storeFile_writes (s : MmapStore) (size : UInt64) (data : Bytes) :
    Writes c s (storeFile c s size data).2 := by
  fun_cases storeFile c s size data with
  | case1 _ _ hput | case3 _ _ hput => exact .of_put hput
  | case2 digest s1 hput => exact (Writes.of_put hput).trans (.single (.putBlob s1 digest data))

theorem scanEntry_writes (seed : Seed) (path : Str) (h : Header) (pax : List (Str × Bytes))
    (data : Except String Bytes) (p : Scan) :
    Writes c p.store (scanEntry c seed path h pax data p).2.store := by
  fun_cases scanEntry c seed path h pax data p with
  | case1 | case2 | case3 => exact .refl _
  | case4 _ _ data _ _ hs | case5 _ _ data _ _ hs =>
    exact (storeFile_writes p.store h.size data).of_eq hs

theorem scan_writes (seeds : ℕ → Seed) (i : ℕ) (archive : Archive) (p : Scan) :
    Writes c p.store (scan c seeds i archive p).2.store := by
  fun_induction scan c seeds i archive p with
  | case1 | case2 | case3 | case5 => exact .refl _
  | case4 => assumption
  | case6 i entry rest p path hpath hskip h hh e p' hs =>
    have := scanEntry_writes (c := c) (seeds i) path h entry.pax entry.data p
    rw [hs] at this
    exact this
  | case7 i entry rest p path hpath hskip h hh p' hs ih =>
    have := scanEntry_writes (c := c) (seeds i) path h entry.pax entry.data p
    rw [hs] at this
    exact this.trans ih

theorem finishEntries_writes (raws : List RawEntry) (s : MmapStore) :
    Writes c s (finishEntries c raws s).2 := by
  fun_induction finishEntries c raws s with
  | case1 => exact .refl _
  | case2 _ _ _ _ _ _ hput => exact .of_put hput
  | case3 _ _ _ _ _ _ hput _ _ hrest ih | case4 _ _ _ _ _ _ hput _ _ hrest ih =>
    exact (Writes.of_put hput).trans (ih.of_eq hrest)
  | case5 _ _ _ _ _ _ hrest ih | case6 _ _ _ _ _ _ hrest ih => exact ih.of_eq hrest

theorem extractTarEntries_writes (seeds : ℕ → Seed) (archive : Archive) (s : MmapStore) :
    Writes c s (extractTarEntries c seeds archive s).2 := by
  have h1 := scan_writes (c := c) seeds 0 archive { store := s }
  fun_cases extractTarEntries c seeds archive s with
  | case1 _ _ hscan =>
    rw [hscan] at h1
    exact h1
  | case2 _ hscan _ _ hf | case3 _ hscan _ _ hf =>
    rw [hscan] at h1
    exact h1.trans ((finishEntries_writes _ _).of_eq hf)

/-! ## Trees -/

theorem putNode_writes (node : DagNode) (s : MmapStore) : Writes c s (putNode c node s).2 := by
  fun_cases putNode c node s with
  | case1 _ _ hput | case2 _ _ hput => exact .of_put hput

theorem storeTree_writes (currentPath : Str) (children : List DirectoryEntry) (edges : List Digest)
    (s : MmapStore) : Writes F.codec s (storeTree F currentPath children edges s).2 := by
  fun_cases storeTree F currentPath children edges s with
  | case1 => exact .refl _
  | case2 _ _ _ _ hput => exact (putNode_writes _ s).of_eq hput
  | case3 _ _ _ s1 hput => exact ((putNode_writes _ s).of_eq hput).trans (putNode_writes _ s1)

theorem childDigests_writes
    {storeSub : Str → MmapStore → Option (Except ConvertError Digest × MmapStore)}
    (hsub : ∀ path s r s', storeSub path s = some (r, s') → Writes c s s') (currentPath : Str)
    (children : List DirectoryEntry) {s s' : MmapStore}
    (h : childDigests storeSub currentPath children s = some (r, s')) : Writes c s s' := by
  have hone : ∀ {entry : DirectoryEntry} {s r s1}, (if entry.isDir then
      storeSub (subPath currentPath entry.name) s else some (.ok entry.digest, s)) = some (r, s1) →
      Writes c s s1 := by
    intro entry s r s1 heq
    split at heq
    · exact hsub _ _ _ _ heq
    · cases heq
      exact .refl _
  fun_induction childDigests storeSub currentPath children s generalizing r s' with
  | case1 =>
    cases h
    exact .refl _
  | case2 | case4 => cases h
  | case3 _ _ _ _ _ heq =>
    cases h
    exact hone heq
  | case5 _ _ _ _ _ heq _ _ hrest ih | case6 _ _ _ _ _ heq _ _ hrest ih =>
    cases h
    exact (hone heq).trans (ih hrest)

theorem storeTrees_writes (entries : List (Str × DirectoryEntry)) (fuel : ℕ) (path : Str)
    (s : MmapStore) (r : Except ConvertError Digest) (s' : MmapStore)
    (h : storeTrees F entries fuel path s = some (r, s')) : Writes F.codec s s' := by
  induction fuel generalizing path s r s' with
  | zero => cases h
  | succ fuel ih =>
    rw [storeTrees] at h
    split at h
    · cases h
    · rename_i hchildren
      cases h
      exact childDigests_writes ih path _ hchildren
    · rename_i edges s1 hchildren
      exact (childDigests_writes ih path _ hchildren).trans
        ((storeTree_writes _ _ _ s1).of_eq (Option.some.inj h))

/-! ## Images -/

theorem storeWhiteouts_writes (ws : List WhiteoutEntry) (s : MmapStore) :
    Writes F.codec s (storeWhiteouts F ws s).2 := by
  fun_induction storeWhiteouts F ws s with
  | case1 => exact .refl _
  | case2 _ _ _ _ _ hput => exact .of_put hput
  | case3 _ _ _ _ _ hput _ _ hrest ih | case4 _ _ _ _ _ hput _ _ hrest ih =>
    exact (Writes.of_put hput).trans (ih.of_eq hrest)

theorem addWhiteouts_writes (whiteouts : List Digest) (layer : Digest) (s : MmapStore) :
    Writes F.codec s (addWhiteouts F whiteouts layer s).2 := by
  have hget : Writes F.codec s (s.getArchived F.codec layer).2 := .single (.getArchived s layer)
  fun_cases addWhiteouts F whiteouts layer s with
  | case1 => exact .refl _
  | case2 _ _ _ hg => exact hget.of_eq hg
  | case3 _ _ s1 hg => exact (hget.of_eq hg).trans (putNode_writes _ s1)

theorem convertLayer_writes (seeds : ℕ → Seed) (fuel : ℕ) (archive : Archive) {s s' : MmapStore}
    {r : Except ConvertError Digest} (h : convertLayer F seeds fuel archive s = some (r, s')) :
    Writes F.codec s s' := by
  have h1 := extractTarEntries_writes (c := F.codec) seeds archive s
  revert h
  fun_cases convertLayer F seeds fuel archive s with
  | case1 _ _ hx =>
    rintro ⟨⟩
    exact h1.of_eq hx
  | case2 x s1 hx _ _ hw =>
    rintro ⟨⟩
    exact (h1.of_eq hx).trans ((storeWhiteouts_writes x.whiteouts s1).of_eq hw)
  | case3 => rintro ⟨⟩
  | case4 x s1 hx _ _ hw _ _ ht =>
    rintro ⟨⟩
    exact ((h1.of_eq hx).trans ((storeWhiteouts_writes x.whiteouts s1).of_eq hw)).trans
      (storeTrees_writes _ _ _ _ _ _ ht)
  | case5 x s1 hx ws _ hw layer s3 ht =>
    intro h
    exact (((h1.of_eq hx).trans ((storeWhiteouts_writes x.whiteouts s1).of_eq hw)).trans
      (storeTrees_writes _ _ _ _ _ _ ht)).trans
      ((addWhiteouts_writes ws layer s3).of_eq (Option.some.inj h))

theorem convertLayers_writes (seeds : ImageSeeds) (fuel i : ℕ) (layers : List Archive) {s s' : MmapStore}
    (h : convertLayers F seeds fuel i layers s = some (r, s')) : Writes F.codec s s' := by
  fun_induction convertLayers F seeds fuel i layers s generalizing r s' with
  | case1 =>
    cases h
    exact .refl _
  | case2 | case4 => cases h
  | case3 _ _ _ _ _ _ hl =>
    cases h
    exact convertLayer_writes _ _ _ hl
  | case5 _ _ _ _ _ _ hl _ _ hrest ih | case6 _ _ _ _ _ _ hl _ _ hrest ih =>
    cases h
    exact (convertLayer_writes _ _ _ hl).trans (ih hrest)

theorem convert_writes {seeds : ImageSeeds} {fuel : ℕ} {image : PulledImage} {s s' : MmapStore}
    {r : Except ConvertError Digest} (h : convert F seeds fuel image s = some (r, s')) :
    Writes F.codec s s' := by
  unfold convert at h
  split at h
  · cases h
  · rename_i hl
    cases h
    exact convertLayers_writes _ _ _ _ hl
  · rename_i layers s1 hl
    exact (convertLayers_writes _ _ _ _ hl).trans ((putNode_writes _ s1).of_eq (Option.some.inj h))

end Pullrun
