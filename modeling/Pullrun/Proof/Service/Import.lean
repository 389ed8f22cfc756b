import Pullrun.Proof.Oci.Imported
import Pullrun.Proof.Service.Refcounts

/-!
# Imported images and the counts

`import_dag_from_tar` writes node files directly, so the edges of an imported node are counted
nowhere.
-/

namespace Pullrun

open Option Disk

namespace Session

open List MmapStore DagTar Sample Schedule

/-! ## What an import does -/

def Grows (s t : MmapStore) : Prop :=
  ∀ d b, s.disk.nodes.lookup d = some b → t.disk.nodes.lookup d = some b

theorem Grows.refl (s : MmapStore) : Grows s s := fun _ _ h => h

theorem Grows.trans {s t u : MmapStore} (h1 : Grows s t) (h2 : Grows t u) : Grows s u :=
  fun d b h => h2 d b (h1 d b h)

variable {d : Digest}

theorem Grows.hasNode {s t : MmapStore} (h : Grows s t)
    (hd : s.disk.hasNode d = true) : t.disk.hasNode d = true := by
  obtain ⟨b, hb⟩ := isSome_iff_exists.mp hd
  rw [Disk.hasNode, h d b hb]
  rfl

theorem grows_writeNode {s : MmapStore} (hd : ¬ s.disk.hasNode d = true) (b : Bytes) :
    Grows s { s with disk := s.disk.writeNode d b } := by
  intro e b' he
  change Finmap.lookup e (s.disk.nodes.insert d b) = some b'
  rw [FileMap.lookup_insert_if]
  by_cases hed : e = d
  · subst hed
    exact absurd (by rw [hasNode, he]; rfl) hd
  · rw [if_neg hed]
    exact he

theorem grows_putBlob (s : MmapStore) (d : Digest) (data : Bytes) : Grows s (s.putBlob d data) := by
  intro e b he
  rw [(putBlob_frame s d data).1]
  exact he

theorem grows_incrementRefcount (s : MmapStore) (d : Digest) : Grows s (s.incrementRefcount d) := by
  intro e b he
  change (s.disk.setRefcount d _).nodes.lookup e = some b
  rw [setRefcount_nodes]
  exact he

variable {c : Codec} {s t : Session} {json : Json} {archive : DagTar.Archive} {r : Digest}

theorem grows_put (s : MmapStore) (n : DagNode) : Grows s (s.put c n).2 := by
  unfold put putBlocking
  cases hb : c.toBytes n with
  | error e => exact Grows.refl s
  | ok b =>
    dsimp only
    split
    · exact Grows.refl s
    · rename_i hn
      intro d b' h
      change (incrementEdges _ _).nodes.lookup d = some b'
      rw [incrementEdges_nodes]
      exact grows_writeNode hn b d b' h

/-- The node entry `digestStr` of an archive brings no edges into the store `s`: it has none, or
    it is stored already. -/
def EntryCounted (c : Codec) (s : MmapStore) (digestStr : Str) (data : Bytes) : Prop :=
  ∀ d n, Digest.fromHex digestStr = .ok d → c.checkArchivedRoot data = .ok n → n.edges ≠ [] →
    s.disk.hasNode d = true

def ArchiveCounted (c : Codec) (s : MmapStore) (archive : DagTar.Archive) : Prop :=
  ∀ path data digestStr, .ok ⟨some path, .ok data⟩ ∈ archive →
    Digest.stripPrefix nodesDir path = some digestStr → EntryCounted c s digestStr data

theorem Sound.writeNode (h : Sound c s) {b : Bytes} {n : DagNode}
    (hd : ¬ s.store.disk.hasNode d = true) (hn : c.checkArchivedRoot b = .ok n)
    (hedges : n.edges = []) :
    Sound c { s with store := { s.store with disk := s.store.disk.writeNode d b } } where
  coherent := Cache.Coherent.write h.coherent (by simpa [hasNode] using hd) b
  valid := h.valid.writeNode d hn
  positive := h.positive
  balanced := by
    have hgraph := graph_writeNode_incrementEdges (k := s.store.disk) (d := d) hn
    rw [hedges] at hgraph
    change ((s.store.disk.writeNode d b).graph c).Balanced _
    rw [show s.store.disk.writeNode d b = incrementEdges (s.store.disk.writeNode d b) [] from rfl,
      hgraph]
    exact h.balanced.add fun hm => hd (mem_graph_stored.mp hm)

theorem Sound.importWrite (hcounted : ArchiveCounted c s.store archive) {store store' : MmapStore}
    (hw : ImportWrite c archive store store')
    (h : Sound c { s with store := store } ∧ Grows s.store store) :
    Sound c { s with store := store' } ∧ Grows s.store store' := by
  obtain ⟨h, hg⟩ := h
  cases hw with
  | node hfile hsha hn habs =>
    rw [exists_coherent h.coherent, Bool.eq_false_iff] at habs
    rename_i d b n
    obtain ⟨path, digestStr, hentry, hpath, hd⟩ := hfile
    -- by the condition the node has no edges to count
    have hedges : n.edges = [] := by
      by_contra hne
      exact habs (hg.hasNode (hcounted path b digestStr hentry hpath d n hd hn hne))
    exact ⟨h.writeNode habs hn hedges, hg.trans (grows_writeNode habs b)⟩
  | blob hfile =>
    exact ⟨h.putBlob _ _, hg.trans (grows_putBlob store _ _)⟩

theorem Sound.importImage (h : Sound c s) (hcounted : ArchiveCounted c s.store archive) :
    Sound c (s.importImage c json archive) ∧
      Grows s.store (s.importImage c json archive).store := by
  have hloop := (importDagFromTar_writes c json s.store archive).keeps
    (P := fun store => Sound c { s with store := store } ∧ Grows s.store store)
    (fun _ _ => Sound.importWrite hcounted) ⟨h, Grows.refl _⟩
  unfold Session.importImage
  cases hr : importDagFromTar c json s.store archive with
  | mk r store =>
    rw [hr] at hloop
    cases r with
    | error e => exact hloop
    | ok result =>
      dsimp only
      cases Digest.fromHex result.1 with
      | error e => exact hloop
      | ok root =>
        exact ⟨hloop.1.addTag root, hloop.2.trans (grows_incrementRefcount store root)⟩

/-! ## Over whole sessions -/

def Op.IsCountedOrImport : Op → Prop
  | .importImage _ => True
  | op => op.IsCounted

def ImportsCounted (c : Codec) (s : Session) : Op → Prop
  | .importImage archive => ArchiveCounted c s.store archive
  | _ => True

theorem Sound.step {ns : List DagNode} (hf : c.FaithfulOn ns) {op : Op}
    (h : Sound c s) (hop : op.IsCountedOrImport) (hput : ∀ n, op = .put n → n ∈ ns)
    (hok : ImportsCounted c s op) (hstep : step c json s op = some t) :
    Sound c t ∧ ∀ r v b, r ∈ t.tags → (s.graph c).Reach r v →
      s.store.disk.nodes.lookup v = some b → t.store.disk.nodes.lookup v = some b := by
  cases op with
  | put n =>
    obtain ⟨b, hb⟩ := hf n (hput n rfl)
    injection hstep with hstep
    subst hstep
    exact ⟨h.put hb, fun r v b _ _ hv => grows_put s.store n v b hv⟩
  | tag d =>
    injection hstep with hstep
    subst hstep
    exact ⟨h.addTag d, fun r v b _ _ hv => grows_incrementRefcount s.store d v b hv⟩
  | removeTag d =>
    obtain ⟨-, -, ht, hsurv, hrel⟩ := h.removeTag hstep
    refine ⟨ht, ?_⟩
    intro r v b hr hreach hv
    have hstored : v ∈ (s.graph c).stored := mem_graph_stored.mpr (by rw [hasNode, hv]; rfl)
    have hkept : t.store.disk.hasNode v = true := by
      rw [← mem_graph_stored]
      exact hrel.protects r v (.inl (Multiset.count_pos.mpr hr))
        (RefGraph.setRc_reach.mpr hreach) hstored
    rw [hsurv.nodes v hkept]
    exact hv
  | importImage archive =>
    injection hstep with hstep
    subst hstep
    obtain ⟨ht, hg⟩ := h.importImage hok
    exact ⟨ht, fun r v b _ _ hv => hg v b hv⟩
  | putBlob d data => exact hop.elim
  | collect now force listing roots => exact hop.elim

def StaysTagged (c : Codec) (json : Json) (r : Digest) (s : Session) (ops : List Op) : Prop :=
  Schedule.Meets (step c json) (fun s op => ∀ t, step c json s op = some t → r ∈ t.tags) s ops

theorem step_tags {op : Op} (hne : op ≠ .removeTag r) (hr : r ∈ s.tags)
    (hstep : step c json s op = some t) : r ∈ t.tags := by
  revert hstep
  fun_cases step c json s op with
  | case1 | case2 | case7 => rintro ⟨⟩; exact hr
  | case3 => rintro ⟨⟩; exact Multiset.mem_cons_of_mem hr
  | case4 d => rintro ⟨⟩; exact (Multiset.mem_erase_of_ne fun he => hne (by rw [he])).mpr hr
  | case5 | case8 => rintro ⟨⟩
  | case6 archive =>
    rintro ⟨⟩
    unfold importImage
    split
    · exact hr
    · split
      · exact hr
      · exact Multiset.mem_cons_of_mem hr

theorem staysTagged_of_ne {ops : List Op} (hne : ∀ op ∈ ops, op ≠ .removeTag r)
    (hr : r ∈ s.tags) : StaysTagged c json r s ops := by
  induction ops generalizing s with
  | nil => trivial
  | cons op ops ih =>
    have hnext : ∀ t, step c json s op = some t → r ∈ t.tags :=
      fun t ht => step_tags (hne op mem_cons_self) hr ht
    exact ⟨hnext, fun t ht => ih (fun o ho => hne o (mem_cons_of_mem _ ho)) (hnext t ht)⟩

/-- **What a tagged root reaches stays stored while it is tagged**, in every session whose imports
    bring no uncounted edges. -/
theorem tagged_nodes_stay {c : Codec} {json : Json} {before after : List Op} {m₁ m₂ : Option ℕ}
    {s t : Session} {r v : Digest} (hops : ∀ op ∈ before ++ after, op.IsCountedOrImport)
    (hf : c.FaithfulOn (putNodes (before ++ after)))
    (himports : Schedule.Meets (step c json) (ImportsCounted c) (start m₁ m₂) (before ++ after))
    (hbefore : Schedule.run (step c json) (start m₁ m₂) before = some s)
    (hafter : Schedule.run (step c json) s after = some t) (hstays : StaysTagged c json r s after)
    (hreach : (s.graph c).Reach r v) (hv : s.store.disk.hasNode v = true) :
    t.store.disk.hasNode v = true := by
  have hput : ∀ op ∈ before ++ after, ∀ n, op = Op.put n → n ∈ putNodes (before ++ after) := by
    intro op hop n hn
    subst hn
    exact mem_putNodes hop
  obtain ⟨himp₁, himp₂⟩ := (meets_append hbefore).mp himports
  have hs : Sound c s := by
    refine run_inv (Sound c) (fun s op => ImportsCounted c s op ∧ op ∈ before) ?_
      (sound_start c m₁ m₂) himp₁.mem hbefore
    intro s op t hs hok hstep
    have hmem : op ∈ before ++ after := mem_append_left _ hok.2
    exact (Sound.step hf hs (hops op hmem) (hput op hmem) hok.1 hstep).1
  -- the rest of the run keeps the files of everything `r` reached in `s`
  have hinv : Sound c t ∧ ∀ u b, (s.graph c).Reach r u → s.store.disk.nodes.lookup u = some b →
      t.store.disk.nodes.lookup u = some b := by
    refine run_inv (fun t => Sound c t ∧ ∀ u b, (s.graph c).Reach r u →
        s.store.disk.nodes.lookup u = some b → t.store.disk.nodes.lookup u = some b)
      (fun s op => (ImportsCounted c s op ∧ ∀ t, step c json s op = some t → r ∈ t.tags) ∧
        op ∈ after) ?_ ⟨hs, fun _ _ _ hb => hb⟩ (himp₂.and hstays).mem hafter
    intro s₁ op s₂ hs₁ hok hstep
    have hmem : op ∈ before ++ after := mem_append_right _ hok.2
    obtain ⟨hs₂, hkeep⟩ := Sound.step hf hs₁.1 (hops op hmem) (hput op hmem) hok.1.1 hstep
    refine ⟨hs₂, ?_⟩
    intro u b hu hb
    refine hkeep r u b (hok.1.2 s₂ hstep) ?_ (hs₁.2 u b hu hb)
    refine RefGraph.Reach.transfer ?_ hu
    intro p hp hstored
    obtain ⟨bp, hbp⟩ := isSome_iff_exists.mp (mem_graph_stored.mp hstored)
    rw [graph_out, graph_out, edgesOf, edgesOf, hs₁.2 p bp hp hbp, hbp]
  obtain ⟨b, hb⟩ := isSome_iff_exists.mp hv
  rw [hasNode, hinv.2 v b hreach hb]
  rfl

/-! ## Two sessions -/

def sampleJson : Json :=
  jsonOf [⟨Sample.leafD.asHex, dagFormat, 1, 0⟩, ⟨Sample.imageAD.asHex, dagFormat, 2, 0⟩]

def exported (root : Digest) : DagTar.Archive :=
  let store := ((MmapStore.new.put Sample.codec Sample.leaf).2.put Sample.codec Sample.imageA).2
  match (exportDagToTar Sample.codec sampleJson store root.asHex).1 with
  | .ok entries => readBack entries
  | .error _ => []

def otherImage : List Op :=
  [.put Sample.imageB, .tag Sample.imageBD, .removeTag Sample.imageBD]

theorem otherImage_ne (d : Digest) (hd : d ≠ imageBD) : ∀ op ∈ otherImage, op ≠ .removeTag d := by
  intro op hop he
  subst he
  simp only [otherImage, mem_cons, reduceCtorEq, Op.removeTag.injEq, not_mem_nil,
    or_false, false_or] at hop
  exact hd hop

theorem import_loses_node :
    ∃ s t, Schedule.run (step Sample.codec sampleJson) (start none none)
        [.importImage (exported Sample.imageAD)] = some s ∧
      Schedule.run (step Sample.codec sampleJson) s otherImage = some t ∧
      StaysTagged Sample.codec sampleJson Sample.imageAD s otherImage ∧
      Sample.imageAD ∈ s.tags ∧ Sample.imageAD ∈ t.tags ∧
      (s.graph Sample.codec).Reach Sample.imageAD Sample.leafD ∧
      s.store.disk.hasNode Sample.leafD = true ∧ ¬ t.store.disk.hasNode Sample.leafD = true := by
  obtain ⟨s, hrun₁, hstag, hedge, hleaf, t, hrun₂, httag, hgone⟩ :
      ∃ s, run (step codec sampleJson) (start none none) [.importImage (exported imageAD)] = some s ∧
        imageAD ∈ s.tags ∧ leafD ∈ s.store.disk.edgesOf codec imageAD ∧
        s.store.disk.hasNode leafD = true ∧
        ∃ t, run (step codec sampleJson) s otherImage = some t ∧ imageAD ∈ t.tags ∧
          ¬ t.store.disk.hasNode leafD = true := by decide +kernel
  refine ⟨s, t, hrun₁, hrun₂, ?_, hstag, httag, .single hedge, hleaf, hgone⟩
  exact staysTagged_of_ne (otherImage_ne _ (by decide +kernel)) hstag

theorem archiveCounted_exported_leaf (s : MmapStore) : ArchiveCounted codec s (exported leafD) := by
  have harch : exported leafD =
      readBack [(manifestName, manifestJson ⟨leafD.asHex, dagFormat, 1, 0⟩),
        (nodesDir ++ leafD.asHex, Codec.archive leaf)] := by decide +kernel
  have hmanifest : Digest.stripPrefix nodesDir manifestName = none := by decide
  have hleaf : codec.checkArchivedRoot (Codec.archive leaf) = .ok leaf := by
    decide +kernel
  intro path data digestStr hmem hstrip d n _ hn hne
  rw [harch] at hmem
  simp only [readBack, map_cons, map_nil, mem_cons, Except.ok.injEq,
    TarEntry.mk.injEq, some.injEq, not_mem_nil, or_false] at hmem
  cases hmem with
  | inl h =>
    rw [h.1, hmanifest] at hstrip
    cases hstrip
  | inr h =>
    -- the only node entry is the file, which has no edges
    rw [h.2, hleaf] at hn
    injection hn with hn
    subst hn
    exact absurd rfl hne

theorem tagged_nodes_stay_sample :
    ∃ s t, Schedule.run (step Sample.codec sampleJson) (start none none)
        [.importImage (exported Sample.leafD), .put Sample.imageA, .tag Sample.imageAD] = some s ∧
      Schedule.run (step Sample.codec sampleJson) s otherImage = some t ∧
      t.store.disk.hasNode Sample.leafD = true := by
  obtain ⟨before, hbefore⟩ : ∃ ops, ops = [Op.importImage (exported leafD),
      .put imageA, .tag imageAD] := ⟨_, rfl⟩
  obtain ⟨s, hrun₁, hstag, hedge, hleaf, t, hrun₂, -⟩ :
      ∃ s, run (step codec sampleJson) (start none none) before = some s ∧ imageAD ∈ s.tags ∧
        leafD ∈ s.store.disk.edgesOf codec imageAD ∧ s.store.disk.hasNode leafD = true ∧
        ∃ t, run (step codec sampleJson) s otherImage = some t ∧ True := by
    rw [hbefore]
    decide +kernel
  have hsub : putNodes (before ++ otherImage) ⊆ nodes := by
    rw [hbefore]
    decide
  have hops : ∀ op ∈ before ++ otherImage, op.IsCountedOrImport := by
    rw [hbefore]
    simp [otherImage, Op.IsCountedOrImport, Op.IsCounted]
  have himports : Meets (step codec sampleJson) (ImportsCounted codec)
      (start none none) (before ++ otherImage) := by
    refine meets_of_forall ?_
    intro s op hop
    rw [hbefore] at hop
    simp only [otherImage, cons_append, nil_append, mem_cons, not_mem_nil,
      or_false] at hop
    rcases hop with rfl | rfl | rfl | rfl | rfl | rfl
    · exact archiveCounted_exported_leaf s.store
    all_goals trivial
  refine ⟨s, t, hbefore ▸ hrun₁, hrun₂, ?_⟩
  exact tagged_nodes_stay hops (codec_faithfulOn.mono hsub) himports hrun₁ hrun₂
    (staysTagged_of_ne (otherImage_ne _ (by decide +kernel)) hstag) (.single hedge) hleaf

end Session

end Pullrun
