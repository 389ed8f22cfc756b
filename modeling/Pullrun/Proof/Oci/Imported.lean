import Pullrun.Oci.DagTar

/-!
# What an import leaves in the store

`import_dag_from_tar` goes through the entries of an archive and writes node files and blob files as
it finds them.
-/

namespace Pullrun

namespace DagTar

def HasEntry (archive : Archive) (path : Str) (data : Bytes) : Prop :=
  .ok ⟨some path, .ok data⟩ ∈ archive

def HasFile (dir : Str) (archive : Archive) (d : Digest) (data : Bytes) : Prop :=
  ∃ path digestStr, HasEntry archive path data ∧ Digest.stripPrefix dir path = some digestStr ∧
    Digest.fromHex digestStr = .ok d

/-- One write of an import: a node that validates, is hashed to its digest and is not in the store
    yet, or a blob. -/
inductive ImportWrite (c : Codec) (archive : Archive) : MmapStore → MmapStore → Prop
  | node (s : MmapStore) {d : Digest} {b : Bytes} {n : DagNode} (hfile : HasFile nodesDir archive d b)
      (hd : c.sha256 b = d) (hn : c.checkArchivedRoot b = .ok n) (habs : s.exists d = false) :
      ImportWrite c archive s { s with disk := s.disk.writeNode d b }
  | blob (s : MmapStore) {d : Digest} {data : Bytes} (hfile : HasFile blobsDir archive d data) :
      ImportWrite c archive s (s.putBlobBlocking d data)

def ImportWrites (c : Codec) (archive : Archive) : MmapStore → MmapStore → Prop :=
  Relation.ReflTransGen (ImportWrite c archive)

variable {c : Codec} {json : Json} {archive : Archive}

variable {s s' : MmapStore} {path digestStr : Str} {data buf : Bytes} {p p' : Progress}
  {entries : Archive} {d : Digest}

theorem ImportWrites.keeps {P : MmapStore → Prop}
    (hP : ∀ s s', ImportWrite c archive s s' → P s → P s') (h : ImportWrites c archive s s')
    (hs : P s) : P s' := by
  induction h with
  | refl => exact hs
  | tail _ hw ih => exact hP _ _ hw ih

/-! ## However it ends -/

theorem importNode_writes (hentry : HasEntry archive path data)
    (hpath : Digest.stripPrefix nodesDir path = some digestStr) (s : MmapStore) (p : Progress) :
    ImportWrites c archive s (importNode c digestStr data s p).2 := by
  fun_cases importNode c digestStr data s p with
  | case1 | case2 | case3 | case4 => exact .refl
  | case5 d hd _ hsha n hn habs =>
    exact .single (.node s ⟨path, digestStr, hentry, hpath, hd⟩ (not_not.mp hsha) hn
      (Bool.eq_false_iff.mpr habs))

theorem importBlob_writes (hentry : HasEntry archive path data)
    (hpath : Digest.stripPrefix blobsDir path = some digestStr) (s : MmapStore) (p : Progress) :
    ImportWrites c archive s (importBlob digestStr data s p).2 := by
  fun_cases importBlob digestStr data s p with
  | case1 => exact .refl
  | case2 d hd | case3 d hd => exact .single (.blob s ⟨path, digestStr, hentry, hpath, hd⟩)

theorem importEntry_writes (hentry : HasEntry archive path buf) (s : MmapStore)
    (p : Progress) : ImportWrites c archive s (importEntry c json path buf s p).2 := by
  fun_cases importEntry c json path buf s p with
  | case1 | case2 | case5 => exact .refl
  | case3 _ digestStr hnode => exact importNode_writes hentry hnode s p
  | case4 _ _ digestStr hblob => exact importBlob_writes hentry hblob s p

theorem importEntries_writes (hsub : entries ⊆ archive) (s : MmapStore)
    (p : Progress) : ImportWrites c archive s (importEntries c json entries s p).2 := by
  fun_induction importEntries c json entries s p with
  | case1 | case2 | case4 => exact .refl
  | case3 _ rest s p ih => exact ih fun e he => hsub (List.mem_cons_of_mem _ he)
  | case5 path buf rest s p e s' hr =>
    have hone := @importEntry_writes c json _ _ _ (hsub List.mem_cons_self) s p
    exact hr ▸ hone
  | case6 path buf rest s p p' s' hr ih =>
    have hone := @importEntry_writes c json _ _ _ (hsub List.mem_cons_self) s p
    exact (hr ▸ hone).trans (ih fun e he => hsub (List.mem_cons_of_mem _ he))

/-- **An import changes the store by single writes of files that the archive has**, however it
    ends. -/
theorem importDagFromTar_writes (c : Codec) (json : Json) (s : MmapStore) (archive : Archive) :
    ImportWrites c archive s (importDagFromTar c json s archive).2 := by
  rw [importDagFromTar_store]
  exact importEntries_writes (List.Subset.refl archive) s {}

/-! ## When it succeeds -/

theorem ImportWrite.exists_mono (h : ImportWrite c archive s s')
    (hd : s.exists d = true) : s'.exists d = true := by
  cases h with
  | node hfile hsha hn habs =>
    rw [MmapStore.exists, Bool.or_eq_true] at hd ⊢
    exact hd.imp_right fun hk => (Disk.hasNode_writeNode _ _ _ _).mpr (.inr hk)
  | blob hfile =>
    rw [MmapStore.putBlobBlocking]
    split <;> exact hd

theorem importNode_ok (h : importNode c digestStr data s p = (.ok p', s')) :
    (∀ d, Digest.fromHex digestStr = .ok d → s'.exists d = true) ∧
      p'.rootDigest = p.rootDigest ∧ p'.foundManifest = p.foundManifest := by
  revert h
  fun_cases importNode c digestStr data s p with
  | case1 | case2 | case3 => rintro ⟨⟩
  | case4 d hd _ _ _ _ hex =>
    rintro ⟨⟩
    refine ⟨fun d' hd' => ?_, rfl, rfl⟩
    cases hd.symm.trans hd'
    exact hex
  | case5 d hd =>
    rintro ⟨⟩
    refine ⟨fun d' hd' => ?_, rfl, rfl⟩
    cases hd.symm.trans hd'
    rw [MmapStore.exists, Bool.or_eq_true]
    exact .inr ((Disk.hasNode_writeNode _ _ _ _).mpr (.inl rfl))

theorem importEntry_root (h : importEntry c json path buf s p = (.ok p', s')) :
    (p'.rootDigest = p.rootDigest ∧ p'.foundManifest = p.foundManifest) ∨
      path = manifestName ∧ ∃ m, json.fromSlice buf = .ok m ∧ p'.rootDigest = m.rootDigest := by
  revert h
  fun_cases importEntry c json path buf s p with
  | case1 => rintro ⟨⟩
  | case2 hpath m hm =>
    rintro ⟨⟩
    exact .inr ⟨hpath, m, hm, rfl⟩
  | case3 => exact fun h => .inl (importNode_ok h).2
  | case4 _ _ digestStr =>
    fun_cases importBlob digestStr buf s p with
    | case1 => rintro ⟨⟩
    | case2 | case3 =>
      intro h
      cases (Prod.mk.inj h).1
      exact .inl ⟨rfl, rfl⟩
  | case5 =>
    rintro ⟨⟩
    exact .inl ⟨rfl, rfl⟩

def NamesRoot (json : Json) (archive : Archive) (rootDigest : Str) : Prop :=
  ∃ buf m, HasEntry archive manifestName buf ∧ json.fromSlice buf = .ok m ∧
    m.rootDigest = rootDigest

theorem importEntries_ok (h : importEntries c json entries s p = (.ok p', s')) :
    (∀ d b, HasFile nodesDir entries d b → s'.exists d = true) ∧
      (p'.rootDigest = p.rootDigest ∧ p'.foundManifest = p.foundManifest ∨
        NamesRoot json entries p'.rootDigest) := by
  have hlater : ∀ {entry rest q}, NamesRoot json rest q → NamesRoot json (entry :: rest) q := by
    rintro entry rest q ⟨buf, m, hentry, hm⟩
    exact ⟨buf, m, List.mem_cons_of_mem _ hentry, hm⟩
  fun_induction importEntries c json entries s p with
  | case1 s p =>
    cases h
    refine ⟨?_, .inl ⟨rfl, rfl⟩⟩
    rintro d b ⟨path, digestStr, hentry, -⟩
    cases hentry
  | case2 | case4 | case5 => cases h
  | case3 _ rest s p ih =>
    obtain ⟨hnodes, hroot⟩ := ih h
    refine ⟨?_, hroot.imp_right hlater⟩
    rintro d b ⟨path, digestStr, hentry, hpath⟩
    rcases List.mem_cons.mp hentry with heq | hentry
    · cases heq
    · exact hnodes d b ⟨path, digestStr, hentry, hpath⟩
  | case6 path buf rest s p p1 store hr ih =>
    obtain ⟨hnodes, hroot⟩ := ih h
    have hstays : ∀ {d}, store.exists d = true → s'.exists d = true := by
      intro d hd
      have hw : ImportWrites c rest store (importEntries c json rest store p1).2 :=
        importEntries_writes (List.Subset.refl rest) store p1
      rw [h] at hw
      exact hw.keeps (P := fun s => s.exists d = true) (fun _ _ hw => hw.exists_mono) hd
    refine ⟨?_, ?_⟩
    · rintro d b ⟨path', digestStr, hentry, hpath, hd⟩
      rcases List.mem_cons.mp hentry with heq | hentry
      · -- the entry at hand
        cases heq
        refine hstays ?_
        have hman : path ≠ manifestName := by
          rintro rfl
          have hnone : Digest.stripPrefix nodesDir manifestName = none := by decide
          rw [hnone] at hpath
          cases hpath
        rw [importEntry, if_neg hman, hpath] at hr
        exact (importNode_ok hr).1 d hd
      · exact hnodes d b ⟨path', digestStr, hentry, hpath, hd⟩
    · rcases hroot with ⟨hsame, hfound⟩ | hnamed
      · rcases importEntry_root hr with ⟨hroot, hfound'⟩ | ⟨rfl, m, hm, hroot⟩
        · exact .inl ⟨hsame.trans hroot, hfound.trans hfound'⟩
        · exact .inr ⟨buf, m, List.mem_cons_self, hm, hroot.symm.trans hsame.symm⟩
      · exact .inr (hlater hnamed)

/-- **What a successful import has established**: every node of the archive is in the store, and a
    manifest of the archive names the root. -/
theorem importDagFromTar_ok {rootDigest : Str} {sizes : ℕ × ℕ}
    (h : importDagFromTar c json s archive = (.ok (rootDigest, sizes), s')) :
    (∀ d b, HasFile nodesDir archive d b → s'.exists d = true) ∧
      NamesRoot json archive rootDigest := by
  revert h
  fun_cases importDagFromTar c json s archive with
  | case1 | case3 => rintro ⟨⟩
  | case2 p store hr hfound =>
    rintro ⟨⟩
    obtain ⟨hnodes, hroot⟩ := importEntries_ok hr
    refine ⟨hnodes, hroot.resolve_left ?_⟩
    rintro ⟨-, hnot⟩
    rw [hnot] at hfound
    cases hfound

end DagTar

end Pullrun
