import Pullrun.Proof.Gc.Collect
import Pullrun.Service.Session

/-!
# What the operations of a session keep

`Sound` is the invariant reference counting rests on: the node cache agrees with the disk, every
stored node validates, and the count of every digest is its number of tags plus the number of edge
occurrences from stored nodes.
-/

namespace Pullrun

open Multiset Disk

namespace Session

open MmapStore

abbrev graph (c : Codec) (s : Session) : RefGraph Digest := s.store.disk.graph c

structure Sound (c : Codec) (s : Session) : Prop where
  coherent : s.store.Coherent
  valid : s.store.disk.Valid c
  positive : s.store.disk.Positive
  balanced : (s.graph c).Balanced (s.tags.count ·)

theorem sound_start (c : Codec) (m1 m2 : Option ℕ) : Sound c (start m1 m2) where
  coherent := coherent_openOn _ _ _
  valid := valid_empty c
  positive d := by simp [start, openOn, empty]
  balanced := by
    have hzero : ((start m1 m2).tags.count ·) = fun _ => 0 := funext fun d => count_zero d
    rw [hzero]
    exact empty_balanced c

/-! ## Storing -/

variable {c : Codec} {s t : Session} {ns : List DagNode} {n : DagNode} {d : Digest} {b : Bytes}

theorem Sound.put (h : Sound c s) (he : c.Encodes n b) :
    Sound c { s with store := (s.store.put c n).2 } where
  coherent := putBlocking_coherent h.coherent n
  valid := putBlocking_valid h.valid he
  positive := putBlocking_positive h.positive he.1
  balanced := putBlocking_balanced h.balanced he

theorem putBlob_frame (s : MmapStore) (d : Digest) (data : Bytes) :
    (s.putBlob d data).disk.nodes = s.disk.nodes ∧
      (s.putBlob d data).disk.refcounts = s.disk.refcounts ∧
      (s.putBlob d data).cache = s.cache := by
  unfold putBlob putBlobBlocking
  split <;> exact ⟨rfl, rfl, rfl⟩

theorem coherent_putBlob {s : MmapStore} (h : s.Coherent) (d : Digest) (data : Bytes) :
    (s.putBlob d data).Coherent := by
  obtain ⟨hn, -, hc⟩ := putBlob_frame s d data
  change (s.putBlob d data).cache.Coherent (s.putBlob d data).disk.nodes
  rw [hn, hc]
  exact h

theorem coherent_incrementRefcount {s : MmapStore} (h : s.Coherent) (d : Digest) :
    (s.incrementRefcount d).Coherent := by
  change s.cache.Coherent (s.disk.setRefcount d _).nodes
  rw [setRefcount_nodes]
  exact h

theorem graph_congr {k k' : Disk} (hn : k'.nodes = k.nodes) (hr : k'.refcounts = k.refcounts) :
    k'.graph c = k.graph c := by
  refine graph_ext (fun d => ?_) (edgesOf_congr hn) (fun d => ?_)
  · rw [mem_graph_stored, mem_graph_stored, hasNode, hasNode, hn]
  · simp only [graph_rc, getRefcount, hr]

theorem Sound.putBlob (h : Sound c s) (d : Digest) (data : Bytes) :
    Sound c { s with store := s.store.putBlob d data } := by
  obtain ⟨hn, hr, -⟩ := putBlob_frame s.store d data
  refine ⟨coherent_putBlob h.coherent d data, h.valid.of_nodes_eq hn, h.positive.of_eq hr, ?_⟩
  change ((s.store.putBlob d data).disk.graph c).Balanced _
  rw [graph_congr hn hr]
  exact h.balanced

/-! ## Tagging -/

theorem count_cons_update (tags : Multiset Digest) (d : Digest) :
    ((d ::ₘ tags).count ·) = Function.update (tags.count ·) d (tags.count d + 1) := by
  funext e
  rw [Function.update_apply]
  by_cases h : e = d
  · rw [if_pos h, h, count_cons_self]
  · rw [if_neg h, count_cons_of_ne h]

theorem count_erase_update (tags : Multiset Digest) (d : Digest) :
    ((tags.erase d).count ·) = Function.update (tags.count ·) d (tags.count d - 1) := by
  funext e
  rw [Function.update_apply]
  by_cases h : e = d
  · rw [if_pos h, h, count_erase_self]
  · rw [if_neg h, count_erase_of_ne h]

theorem graph_addTag (c : Codec) (s : Session) (d : Digest) :
    (s.addTag d).graph c = (s.graph c).setRc d (s.store.disk.getRefcount d + 1) :=
  graph_setRefcount c s.store.disk d _

theorem Sound.addTag (h : Sound c s) (d : Digest) :
    Sound c (s.addTag d) where
  coherent := coherent_incrementRefcount h.coherent d
  valid := h.valid.of_nodes_eq (setRefcount_nodes _ _ _)
  positive := h.positive.setRefcount d _
  balanced := by
    rw [graph_addTag]
    change RefGraph.Balanced _ ((d ::ₘ s.tags).count ·)
    rw [count_cons_update]
    exact h.balanced.incr d

/-! ## Removing a tag -/

theorem Sound.removeTag {json : Json} (h : Sound c s)
    (hstep : step c json s (.removeTag d) = some t) :
    d ∈ s.tags ∧ t.tags = s.tags.erase d ∧ Sound c t ∧ Survives s.store t.store ∧
      RefGraph.Released ((s.graph c).setRc d (s.store.disk.getRefcount d - 1)) (t.tags.count ·) d
        (t.graph c) := by
  rw [step] at hstep
  split at hstep
  · rename_i hd
    obtain ⟨freed, s', heq, hcoh, hval, hsurv, hrel⟩ :=
      removeTag_released h.coherent h.valid h.balanced (count_pos.mpr hd)
    injection hstep with hstep
    subst hstep
    rw [heq]
    rw [← count_erase_update] at hrel
    exact ⟨hd, rfl, ⟨hcoh, hval, hsurv.positive h.positive, hrel.balanced⟩, hsurv, hrel⟩
  · cases hstep

/-! ## Where the edges come from -/

def EdgesIn (c : Codec) (ns : List DagNode) (s : Session) : Prop :=
  ∀ p q, (s.graph c).Edge p q → c.Child ns p q

theorem EdgesIn.acyclic (h : EdgesIn c ns s) (hac : c.Acyclic ns) : (s.graph c).Acyclic :=
  fun v hv => hac v (Relation.TransGen.mono h _ _ hv)

theorem edgesIn_start (c : Codec) (ns : List DagNode) (m1 m2 : Option ℕ) :
    EdgesIn c ns (start m1 m2) := by
  intro p q he
  exact absurd he.mem_stored (by simp [start, openOn, Disk.graph, Disk.empty])

theorem EdgesIn.of_edges (h : EdgesIn c ns s)
    (hsub : ∀ p q, (t.graph c).Edge p q → (s.graph c).Edge p q) : EdgesIn c ns t :=
  fun p q he => h p q (hsub p q he)

theorem EdgesIn.put (h : EdgesIn c ns s) (hn : n ∈ ns)
    (he : c.Encodes n b) : EdgesIn c ns { s with store := (s.store.put c n).2 } := by
  intro p q hedge
  change ((putBlocking c s.store n).2.disk.graph c).Edge p q at hedge
  rw [putBlocking_disk he.1] at hedge
  dsimp only at hedge
  split at hedge
  · exact h p q hedge
  · rw [graph_writeNode_incrementEdges he.2] at hedge
    change q ∈ (if p = c.sha256 b then n.edges else (s.graph c).out p) at hedge
    split at hedge
    · rename_i hp
      exact ⟨n, hn, by rw [he.digest?, hp], hedge⟩
    · exact h p q hedge

theorem EdgesIn.removeTag (h : EdgesIn c ns s) {w : Digest → ℕ} {n : ℕ}
    (hrel : RefGraph.Released ((s.graph c).setRc d n) w d (t.graph c)) : EdgesIn c ns t := by
  refine h.of_edges fun p q he => ?_
  have hout := (hrel.sub p he.mem_stored).2
  rw [RefGraph.Edge, hout] at he
  exact he

end Session

end Pullrun
