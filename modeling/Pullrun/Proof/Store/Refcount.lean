import Pullrun.Store.Mmap

/-!
# What `put` and `remove_tag` do to the graph

The two operations that create and destroy references, as statements about `Disk.graph`.
-/

namespace Pullrun

open RefGraph Disk

namespace Disk

def Valid (c : Codec) (k : Disk) : Prop :=
  ∀ d b, k.nodes.lookup d = some b → ∃ n, c.checkArchivedRoot b = .ok n

theorem valid_empty (c : Codec) : Valid c empty := by
  intro d b h
  rw [empty, Finmap.lookup_empty] at h
  cases h

variable {c : Codec}

theorem Valid.of_nodes_eq {k k' : Disk} (h : Valid c k) (he : k'.nodes = k.nodes) :
    Valid c k' := by
  intro d b hb
  rw [he] at hb
  exact h d b hb

theorem Valid.writeNode {k : Disk} (h : Valid c k) (d : Digest) {b : Bytes}
    {n : DagNode} (hc : c.checkArchivedRoot b = .ok n) : Valid c (k.writeNode d b) := by
  intro e b' hb
  change Finmap.lookup e (k.nodes.insert d b) = some b' at hb
  rw [FileMap.lookup_insert_if] at hb
  split at hb
  · injection hb with hb
    exact ⟨n, hb ▸ hc⟩
  · exact h e b' hb

theorem Valid.erase {k k' : Disk} (h : Valid c k) {d : Digest}
    (he : k'.nodes = k.nodes.erase d) : Valid c k' := by
  intro e b hb
  rw [he, FileMap.lookup_erase_if] at hb
  split at hb
  · cases hb
  · exact h e b hb

end Disk

namespace MmapStore

/-! ## `put` -/

@[simp] theorem incrementEdges_nodes (k : Disk) (es : List Digest) :
    (incrementEdges k es).nodes = k.nodes := by
  induction es generalizing k with
  | nil => rfl
  | cons e es ih => rw [incrementEdges, ih]; exact Disk.setRefcount_nodes _ _ _

theorem incrementEdges_getRefcount (k : Disk) (es : List Digest) (d : Digest) :
    (incrementEdges k es).getRefcount d = k.getRefcount d + es.count d := by
  induction es generalizing k with
  | nil => rfl
  | cons e es ih =>
    rw [incrementEdges, ih, Disk.incrementRefcount, getRefcount_setRefcount]
    by_cases h : d = e
    · rw [if_pos h, h, List.count_cons_self]; omega
    · rw [if_neg h, List.count_cons_of_ne (Ne.symm h)]

variable {k : Disk} {c : Codec} {s s₀ s₁ : MmapStore} {n : DagNode} {b : Bytes} {v root d : Digest}
  {P : RefGraph Digest → Prop} {w : Digest → ℕ}

theorem incrementEdges_positive (h : k.Positive) (es : List Digest) :
    (incrementEdges k es).Positive := by
  induction es generalizing k with
  | nil => exact h
  | cons e es ih => exact ih (h.setRefcount e _)

theorem putBlocking_disk (hb : c.toBytes n = .ok b) :
    putBlocking c s n = (.ok (c.sha256 b),
      if s.disk.hasNode (c.sha256 b) then s
      else { s with disk := incrementEdges (s.disk.writeNode (c.sha256 b) b) n.edges }) := by
  unfold putBlocking
  rw [hb]
  dsimp only
  split <;> rfl

theorem graph_writeNode_incrementEdges (hc : c.checkArchivedRoot b = .ok n) :
    (incrementEdges (k.writeNode d b) n.edges).graph c = (k.graph c).add d n.edges := by
  refine graph_ext (fun e => ?_) (fun e => ?_) (fun e => ?_)
  · rw [mem_graph_stored]
    change _ ↔ e ∈ insert d (k.graph c).stored
    rw [Finset.mem_insert, mem_graph_stored, ← hasNode_writeNode k d e b]
    simp only [hasNode, incrementEdges_nodes]
  · rw [graph_out, edgesOf_congr (incrementEdges_nodes _ _),
      edgesOf_writeNode c k d e b hc]
    rfl
  · rw [graph_rc, incrementEdges_getRefcount]
    rfl

theorem putBlocking_coherent (h : s.Coherent) (n : DagNode) : (putBlocking c s n).2.Coherent := by
  unfold putBlocking
  split
  · exact h
  · dsimp only
    split
    · exact h
    · rename_i hn
      change s.cache.Coherent (incrementEdges _ _).nodes
      rw [incrementEdges_nodes]
      exact Cache.Coherent.write h (by simpa [hasNode] using hn) _

theorem putBlocking_valid (h : s.disk.Valid c) (he : c.Encodes n b) :
    (putBlocking c s n).2.disk.Valid c := by
  rw [putBlocking_disk he.1]
  dsimp only
  split
  · exact h
  · exact (h.writeNode _ he.2).of_nodes_eq (incrementEdges_nodes _ _)

theorem hasNode_put (hb : c.toBytes n = .ok b) (d : Digest) :
    (s.put c n).2.disk.hasNode d = true ↔ d = c.sha256 b ∨ s.disk.hasNode d = true := by
  rw [put, putBlocking_disk hb]
  dsimp only
  split
  · rename_i hstored
    refine ⟨.inr, fun h => h.elim (fun he => ?_) id⟩
    rw [he]
    exact hstored
  · rw [← hasNode_writeNode s.disk (c.sha256 b) d b]
    simp only [hasNode, incrementEdges_nodes]

theorem putBlocking_positive (h : s.disk.Positive) (he : c.toBytes n = .ok b) :
    (putBlocking c s n).2.disk.Positive := by
  rw [putBlocking_disk he]
  dsimp only
  split
  · exact h
  · exact incrementEdges_positive (k := s.disk.writeNode _ _) h _

/-- **`put` keeps the counts balanced**, for any weight. -/
theorem putBlocking_balanced (h : (s.disk.graph c).Balanced w)
    (he : c.Encodes n b) : ((putBlocking c s n).2.disk.graph c).Balanced w := by
  rw [putBlocking_disk he.1]
  dsimp only
  split
  · exact h
  · rename_i hn
    rw [graph_writeNode_incrementEdges he.2]
    exact h.add fun hm => hn (mem_graph_stored.mp hm)

/-! ## `remove_tag` -/

theorem decrementEdges_keeps {α : Type} {P : Disk → α}
    (hset : ∀ k d n, P (k.setRefcount d n) = P k) (k : Disk) (es : List Digest) :
    P (decrementEdges k es).2 = P k := by
  induction es generalizing k with
  | nil => rfl
  | cons e es ih => exact (ih _).trans (hset _ _ _)

@[simp] theorem decrementEdges_nodes (k : Disk) (es : List Digest) :
    (decrementEdges k es).2.nodes = k.nodes :=
  decrementEdges_keeps (P := nodes) Disk.setRefcount_nodes k es

@[simp] theorem decrementEdges_blobs (k : Disk) (es : List Digest) :
    (decrementEdges k es).2.blobs = k.blobs :=
  decrementEdges_keeps (P := blobs) Disk.setRefcount_blobs k es

theorem decrementEdges_positive (h : k.Positive) (es : List Digest) :
    (decrementEdges k es).2.Positive := by
  induction es generalizing k with
  | nil => exact h
  | cons e es ih => exact ih (h.setRefcount e _)

theorem decrementEdges_release (k : Disk) (es : List Digest) :
    (decrementEdges k es).1 = (release k.getRefcount es).1 ∧
      (decrementEdges k es).2.getRefcount = (release k.getRefcount es).2 := by
  induction es generalizing k with
  | nil => exact ⟨rfl, rfl⟩
  | cons e es ih =>
    have hup : (k.setRefcount e (k.getRefcount e - 1)).getRefcount
        = Function.update k.getRefcount e (k.getRefcount e - 1) := by
      funext d
      rw [getRefcount_setRefcount, Function.update_apply]
    obtain ⟨h1, h2⟩ := ih (k.setRefcount e (k.getRefcount e - 1))
    rw [hup] at h1 h2
    simp only [decrementEdges, decrementRefcount, release]
    refine ⟨?_, h2⟩
    rw [h1]
    rfl

theorem dropNode_disk (s : MmapStore) (v : Digest) (es : List Digest) :
    (s.dropNode v es).2.disk =
      (((decrementEdges s.disk es).2.removeNode v).removeBlob v).removeRefcount v := rfl

theorem dropNode_coherent (h : s.Coherent) (v : Digest) (es : List Digest) :
    (s.dropNode v es).2.Coherent := by
  change (s.cache.evictEntry v).Coherent ((decrementEdges s.disk es).2.nodes.erase v)
  rw [decrementEdges_nodes]
  exact Cache.Coherent.evictEntry h v

/-- **One iteration of the cascade is one `drop`.** -/
theorem graph_dropNode (c : Codec) (s : MmapStore) (v : Digest) :
    (s.dropNode v (s.disk.edgesOf c v)).2.disk.graph c = (s.disk.graph c).drop v := by
  rw [dropNode_disk]
  refine graph_ext (fun e => ?_) (fun e => ?_) (fun e => ?_)
  · rw [mem_graph_stored]
    change ((decrementEdges s.disk _).2.removeNode v).hasNode e = true ↔
      e ∈ (s.disk.graph c).stored.erase v
    rw [hasNode_removeNode, Finset.mem_erase, mem_graph_stored]
    simp only [hasNode, decrementEdges_nodes]
  · change edgesOf c ((decrementEdges s.disk _).2.removeNode v) e = _
    rw [edgesOf_removeNode, edgesOf_congr (decrementEdges_nodes _ _)]
    rfl
  · change (removeRefcount _ v).getRefcount e = _
    rw [getRefcount_removeRefcount]
    change (if e = v then 0 else (decrementEdges s.disk _).2.getRefcount e) = _
    rw [(decrementEdges_release s.disk _).2, release_rc]
    rfl

theorem removeTagVisit_stored (hcoh : s.Coherent) (hval : s.disk.Valid c)
    (hv : s.disk.hasNode v = true) (freed : ℕ) :
    ∃ s₁ : MmapStore, s₁.Coherent ∧ s₁.disk = s.disk ∧ s₁.blobCache = s.blobCache ∧
      removeTagVisit c v (s, freed) =
        (.ok (s₁.dropNode v (s.disk.edgesOf c v)).1,
          ((s₁.dropNode v (s.disk.edgesOf c v)).2,
            freed + fileSize s.disk.nodes v + fileSize s.disk.blobs v)) := by
  obtain ⟨b, hb⟩ := Option.isSome_iff_exists.mp hv
  obtain ⟨n, hn⟩ := hval v b hb
  obtain ⟨hcoh', hdisk, hres⟩ := getArchived_coherent c hcoh v
  obtain ⟨cache, hframe⟩ := getArchived_frame c s v
  simp only [hb, hn] at hres
  rw [edgesOf_ok hb hn]
  refine ⟨(s.getArchived c v).2, hcoh', hdisk, by rw [hframe], ?_⟩
  simp only [removeTagVisit, if_pos hv]
  rcases hr : s.getArchived c v with ⟨r, s₁⟩
  rw [hr] at hres
  simp only at hres
  subst hres
  rfl

/-- What a walk that removes nodes leaves of the other files: blobs go with their nodes, the blob
    cache is not touched, surviving nodes keep their bytes. -/
structure Survives (s₀ s : MmapStore) : Prop where
  nodes : ∀ d, s.disk.hasNode d = true → s.disk.nodes.lookup d = s₀.disk.nodes.lookup d
  blobs : ∀ d, s.disk.blobs.lookup d =
    if s₀.disk.hasNode d = true ∧ ¬ s.disk.hasNode d = true then none else s₀.disk.blobs.lookup d
  shrinks : ∀ d, s.disk.hasNode d = true → s₀.disk.hasNode d = true
  ops : s.disk.ops = s₀.disk.ops
  blobCache : s.blobCache = s₀.blobCache
  positive : s₀.disk.Positive → s.disk.Positive

theorem Survives.refl (s : MmapStore) : Survives s s where
  nodes _ _ := rfl
  blobs d := by rw [if_neg]; tauto
  shrinks _ h := h
  ops := rfl
  blobCache := rfl
  positive h := h

theorem Survives.trans {s2 : MmapStore} (h1 : Survives s₀ s₁) (h2 : Survives s₁ s2) :
    Survives s₀ s2 where
  nodes d hd := by rw [h2.nodes d hd, h1.nodes d (h2.shrinks d hd)]
  blobs d := by
    rw [h2.blobs d, h1.blobs d]
    have h1' := h1.shrinks d
    have h2' := h2.shrinks d
    by_cases hs2 : s2.disk.hasNode d = true
    · simp [hs2, h2' hs2]
    · by_cases hs1 : s₁.disk.hasNode d = true
      · simp [hs2, hs1, h1' hs1]
      · simp [hs2, hs1]
  shrinks d hd := h1.shrinks d (h2.shrinks d hd)
  ops := by rw [h2.ops, h1.ops]
  blobCache := by rw [h2.blobCache, h1.blobCache]
  positive h := h2.positive (h1.positive h)

theorem Survives.dropNode (h : Survives s₀ s) (hd : s₁.disk = s.disk)
    (hbc : s₁.blobCache = s.blobCache) (hv : s.disk.hasNode v = true) (es : List Digest) :
    Survives s₀ (s₁.dropNode v es).2 := by
  have hnodes : (s₁.dropNode v es).2.disk.nodes = s.disk.nodes.erase v := by
    rw [dropNode_disk]
    change (decrementEdges s₁.disk es).2.nodes.erase v = _
    rw [decrementEdges_nodes, hd]
  have hblobs : (s₁.dropNode v es).2.disk.blobs = s.disk.blobs.erase v := by
    rw [dropNode_disk]
    change (decrementEdges s₁.disk es).2.blobs.erase v = _
    rw [decrementEdges_blobs, hd]
  have hhas : ∀ d, (s₁.dropNode v es).2.disk.hasNode d = true ↔ d ≠ v ∧ s.disk.hasNode d = true := by
    intro d
    rw [← hasNode_removeNode]
    simp only [hasNode, hnodes, removeNode]
  refine ⟨fun d hd' => ?_, fun d => ?_, fun d hd' => h.shrinks d ((hhas d).mp hd').2, ?_, ?_,
    fun hpos => ?_⟩
  · obtain ⟨hne, hs⟩ := (hhas d).mp hd'
    rw [hnodes, FileMap.lookup_erase_if, if_neg hne]
    exact h.nodes d hs
  · rw [hblobs, FileMap.lookup_erase_if]
    by_cases hdv : d = v
    · rw [if_pos hdv, if_pos]
      subst hdv
      exact ⟨h.shrinks d hv, fun hc => ((hhas d).mp hc).1 rfl⟩
    · rw [if_neg hdv, h.blobs d]
      have : (s₁.dropNode v es).2.disk.hasNode d = true ↔ s.disk.hasNode d = true := by
        rw [hhas d]; tauto
      simp only [this]
  · rw [dropNode_disk]
    have hops := decrementEdges_keeps (P := Disk.ops) setRefcount_ops s₁.disk es
    exact hops.trans (by rw [hd, h.ops])
  · change s₁.blobCache = _
    rw [hbc, h.blobCache]
  · have hpos1 : s₁.disk.Positive := hd ▸ h.positive hpos
    exact Positive.removeRefcount (k := ((decrementEdges s₁.disk es).2.removeNode v).removeBlob v)
      (decrementEdges_positive hpos1 es) v

/-- The loop invariant of `remove_tag`, started from the store `s₀`. -/
def Cascades (c : Codec) (P : RefGraph Digest → Prop) (root : Digest) (s₀ : MmapStore)
    (queue seen : List Digest) (st : MmapStore × ℕ) : Prop :=
  st.1.Coherent ∧ st.1.disk.Valid c ∧ Survives s₀ st.1 ∧
    RefGraph.Swept (s₀.disk.graph c) root queue seen (st.1.disk.graph c) ∧ P (st.1.disk.graph c)

/-- Dropping a vertex whose counter is zero keeps `P`. -/
def DropKeeps (P : RefGraph Digest → Prop) : Prop :=
  ∀ G v, P G → v ∈ G.stored → G.rc v = 0 → P (G.drop v)

theorem Cascades.visit (hdrop : DropKeeps P) {queue seen : List Digest}
    {st : MmapStore × ℕ} (h : Cascades c P root s₀ (v :: queue) seen st) :
    Worklist.Visits (Cascades c P root s₀) (fun _ _ => False)
      (fun _ st => (st.1.disk.graph c).edgeCount) v queue seen st (removeTagVisit c v st) := by
  obtain ⟨s, freed⟩ := st
  obtain ⟨hcoh, hval, hsurv, hswept, hP⟩ := h
  by_cases hv : s.disk.hasNode v = true
  · obtain ⟨s₁, hcoh1, hdisk₁, hbc1, heq⟩ := removeTagVisit_stored hcoh hval hv freed
    rw [heq]
    have hmem : v ∈ (s.disk.graph c).stored := mem_graph_stored.mpr hv
    have hgraph : (s₁.dropNode v (s.disk.edgesOf c v)).2.disk.graph c = (s.disk.graph c).drop v := by
      rw [← hdisk₁, graph_dropNode, hdisk₁]
    have hnext : (s₁.dropNode v (s.disk.edgesOf c v)).1
        = (release (s.disk.graph c).rc ((s.disk.graph c).out v)).1 :=
      (decrementEdges_release s₁.disk _).1.trans (by rw [hdisk₁]; rfl)
    refine ⟨⟨dropNode_coherent hcoh1 v _, ?_, hsurv.dropNode hdisk₁ hbc1 hv _, ?_⟩, ?_⟩
    · refine Valid.erase (k := s.disk) hval (d := v) ?_
      rw [dropNode_disk]
      change (decrementEdges s₁.disk _).2.nodes.erase v = _
      rw [decrementEdges_nodes, hdisk₁]
    · dsimp only
      rw [hgraph, hnext]
      exact ⟨hswept.dropped hmem, hdrop _ v hP hmem (hswept.zero v (by simp))⟩
    · dsimp only
      rw [hgraph, hnext]
      have h1 := edgeCount_drop hmem
      have h2 := length_release_le (s.disk.graph c).rc ((s.disk.graph c).out v)
      omega
  · simp only [removeTagVisit, if_neg hv]
    refine ⟨⟨hcoh, hval, hsurv, ?_⟩, by simp⟩
    rw [List.append_nil]
    exact ⟨hswept.absent fun hm => hv (mem_graph_stored.mp hm), hP⟩

/-- **What `remove_tag` does, whatever the counts are worth.** -/
theorem removeTag_swept (hdrop : DropKeeps P) (hcoh : s.Coherent)
    (hval : s.disk.Valid c) {G0 : RefGraph Digest}
    (hG0 : (s.disk.graph c).setRc root (s.disk.getRefcount root - 1) = G0) (hP : P G0) :
    ∃ freed s', removeTag c s root = (.ok freed, s') ∧ s'.Coherent ∧ s'.disk.Valid c ∧
      Survives s s' ∧ P (s'.disk.graph c) ∧
      (0 < G0.rc root ∧ s'.disk.graph c = G0 ∨
        G0.rc root = 0 ∧ ∃ seen, RefGraph.Swept G0 root [] seen (s'.disk.graph c)) := by
  let k := s.disk.setRefcount root (s.disk.getRefcount root - 1)
  let s₀ : MmapStore := { s with disk := k }
  have hgraph : k.graph c = G0 := by
    rw [← hG0]
    exact graph_setRefcount c s.disk root _
  have hrc : G0.rc root = s.disk.getRefcount root - 1 := by
    rw [← hG0, setRc_rc, if_pos rfl]
  have hcoh0 : s₀.Coherent := by
    change s.cache.Coherent k.nodes
    rw [setRefcount_nodes]
    exact hcoh
  have hval0 : k.Valid c := hval.of_nodes_eq (setRefcount_nodes _ _ _)
  have hsurv₀ : Survives s s₀ := by
    have hn : s₀.disk.nodes = s.disk.nodes := setRefcount_nodes _ _ _
    refine ⟨fun d _ => by rw [hn], fun d => ?_, fun d hd => ?_, setRefcount_ops _ _ _, rfl,
      fun hpos => hpos.setRefcount _ _⟩
    · rw [show s₀.disk.blobs = s.disk.blobs from setRefcount_blobs _ _ _, if_neg]
      simp only [hasNode, hn]
      tauto
    · simpa only [hasNode, hn] using hd
  by_cases hpos : 0 < s.disk.getRefcount root - 1
  · exact ⟨0, s₀, if_pos hpos, hcoh0, hval0, hsurv₀, hgraph ▸ hP, .inl ⟨hrc ▸ hpos, hgraph⟩⟩
  · have hz : G0.rc root = 0 := by omega
    have hstart : Cascades c P root s₀ [root] [] (s₀, 0) := by
      refine ⟨hcoh0, hval0, Survives.refl s₀, ?_⟩
      change Swept (k.graph c) root [root] [] (k.graph c) ∧ P (k.graph c)
      rw [hgraph]
      exact ⟨Swept.start hz, hP⟩
    have hends := Worklist.run_rule .stalled (removeTagVisit c) (Cascades c P root s₀)
      (fun _ _ _ _ hs hi => ⟨hi.1, hi.2.1, hi.2.2.1, hi.2.2.2.1.skip hs, hi.2.2.2.2⟩)
      (fun _ _ _ _ _ hi => hi.visit hdrop) (walkFuel c k 1) [root] [] (s₀, 0) hstart
      (by
        change 1 + (k.graph c).edgeCount < 1 + (k.graph c).edgeCount + 1
        omega)
    rcases hrun : Worklist.run StoreError.stalled (removeTagVisit c) (walkFuel c k 1) [root] [] (s₀, 0)
      with ⟨e | seen, s', freed⟩
    · rw [hrun] at hends
      exact hends.elim
    · rw [hrun] at hends
      obtain ⟨hcoh', hval', hsurv', hswept, hP'⟩ := hends
      change Swept (k.graph c) root [] seen _ at hswept
      rw [hgraph] at hswept
      refine ⟨freed, s', (if_neg hpos).trans ?_, hcoh', hval', hsurv₀.trans hsurv', hP',
        .inr ⟨hz, seen, hswept⟩⟩
      rw [hrun]

/-- **`remove_tag` releases one reference.** It succeeds, and the graph it leaves is the one
    `RefGraph.Released` describes, at the weight with the reference taken off. -/
theorem removeTag_released (hcoh : s.Coherent) (hval : s.disk.Valid c)
    (hb : (s.disk.graph c).Balanced w) (hw : 0 < w root) :
    ∃ freed s', removeTag c s root = (.ok freed, s') ∧ s'.Coherent ∧ s'.disk.Valid c ∧
      Survives s s' ∧
      RefGraph.Released ((s.disk.graph c).setRc root (s.disk.getRefcount root - 1))
        (Function.update w root (w root - 1)) root (s'.disk.graph c) := by
  have hb0 : ((s.disk.graph c).setRc root (s.disk.getRefcount root - 1)).Balanced
      (Function.update w root (w root - 1)) := hb.decr hw
  have hdrop : DropKeeps (Balanced · (Function.update w root (w root - 1))) :=
    fun _ _ hb hv hz => Balanced.drop hb hv hz
  obtain ⟨freed, s', heq, hcoh', hval', hsurv, hb', hend⟩ :=
    removeTag_swept hdrop hcoh hval rfl hb0
  refine ⟨freed, s', heq, hcoh', hval', hsurv, ?_⟩
  rcases hend with ⟨hpos, hsame⟩ | ⟨-, seen, hswept⟩
  · rw [hsame]
    exact released_of_pos hb0 hpos
  · exact Cascading.released ⟨hswept, hb'⟩

/-! ## What one step does to the surplus

A count beyond the in-degree, digest by digest, for the steps that concurrent requests take. -/

theorem surplus_congr {k' : Disk} (hn : k'.nodes = k.nodes) (hr : k'.refcounts = k.refcounts)
    (e : Digest) : (k'.graph c).surplus e = (k.graph c).surplus e := by
  rw [surplus, surplus, inDeg_congr hn]
  simp only [graph_rc, getRefcount, hr]

theorem surplus_setRefcount (c : Codec) (k : Disk) (d e : Digest) (n : ℕ) :
    ((k.setRefcount d n).graph c).surplus e
      = if e = d then (n : ℤ) - (k.graph c).inDeg e else (k.graph c).surplus e := by
  rw [surplus, surplus, inDeg_congr (setRefcount_nodes k d n),
    graph_rc, graph_rc, getRefcount_setRefcount]
  split <;> rfl

theorem surplus_writeNode (hc : c.checkArchivedRoot b = .ok n) (hd : k.hasNode d = false) (e : Digest) :
    ((k.writeNode d b).graph c).surplus e = (k.graph c).surplus e - n.edges.count e := by
  have hin : ((k.writeNode d b).graph c).inDeg e = (k.graph c).inDeg e + n.edges.count e := by
    have hadd := graph_writeNode_incrementEdges (k := k) (d := d) hc
    rw [← inDeg_congr (incrementEdges_nodes (k.writeNode d b) n.edges), hadd]
    refine inDeg_add (fun hm => ?_) e
    rw [mem_graph_stored, hd] at hm
    cases hm
  rw [surplus, surplus, hin]
  change ((k.getRefcount e : ℕ) : ℤ) - _ = (k.getRefcount e : ℤ) - _ - _
  omega

theorem surplus_incrementRefcount (c : Codec) (k : Disk) (edge e : Digest) :
    ((k.incrementRefcount edge).2.graph c).surplus e = (k.graph c).surplus e + [edge].count e := by
  have hin : ((k.incrementRefcount edge).2.graph c).inDeg e = (k.graph c).inDeg e :=
    inDeg_congr (setRefcount_nodes _ _ _) e
  have hrc : (k.incrementRefcount edge).2.getRefcount e
      = if e = edge then k.getRefcount edge + 1 else k.getRefcount e :=
    getRefcount_setRefcount _ _ _ _
  rw [surplus, surplus, hin, graph_rc, graph_rc, hrc,
    List.count_singleton]
  by_cases h : e = edge
  · subst h
    simp only [if_true, beq_self_eq_true]
    omega
  · rw [if_neg h, if_neg (by simpa using Ne.symm h)]
    omega

theorem surplus_decrementRefcount (c : Codec) {child : Digest} (h : 1 ≤ k.getRefcount child)
    (e : Digest) :
    ((k.decrementRefcount child).2.graph c).surplus e
      = (k.graph c).surplus e - [child].count e := by
  rw [show (k.decrementRefcount child).2 = k.setRefcount child (k.getRefcount child - 1) from rfl,
    surplus_setRefcount, List.count_singleton, surplus, graph_rc]
  by_cases he : e = child
  · subst he
    simp only [if_true, beq_self_eq_true]
    omega
  · rw [if_neg he, if_neg (by simpa using Ne.symm he)]
    omega

theorem surplus_removeNode (c : Codec) (k : Disk) (d e : Digest) :
    ((k.removeNode d).graph c).surplus e = (k.graph c).surplus e + (k.edgesOf c d).count e := by
  cases hd : k.nodes.lookup d with
  | none =>
    rw [removeNode, FileMap.erase_absent hd, edgesOf_absent hd, List.count_nil]
    exact (add_zero _).symm
  | some b =>
    have hmem : d ∈ (k.graph c).stored := mem_graph_stored.mpr (by rw [hasNode, hd]; rfl)
    have hsum := inDeg_drop hmem e
    have hin : ((k.removeNode d).graph c).inDeg e = ((k.graph c).drop d).inDeg e := by
      have hout : ((k.removeNode d).graph c).out = ((k.graph c).drop d).out :=
        funext fun p => edgesOf_removeNode c k d p
      have hstored : ((k.removeNode d).graph c).stored = ((k.graph c).drop d).stored := by
        ext p
        rw [mem_graph_stored, hasNode_removeNode, ← mem_graph_stored (c := c)]
        exact Finset.mem_erase.symm
      rw [inDeg, inDeg, hstored, hout]
    rw [surplus, surplus, hin, graph_rc, graph_rc]
    change ((k.getRefcount e : ℕ) : ℤ) - _ = (k.getRefcount e : ℤ) - _ + _
    rw [graph_out] at hsum
    omega

theorem surplus_removeRefcount (c : Codec) (h : k.getRefcount d = 0) (e : Digest) :
    ((k.removeRefcount d).graph c).surplus e = (k.graph c).surplus e := by
  have hrc : (k.removeRefcount d).getRefcount e = k.getRefcount e := by
    rw [getRefcount_removeRefcount]
    split
    · rename_i he
      rw [he, h]
    · rfl
  have hin : ((k.removeRefcount d).graph c).inDeg e = (k.graph c).inDeg e := inDeg_congr rfl e
  rw [surplus, surplus, hin, graph_rc, graph_rc, hrc]

end MmapStore

end Pullrun
