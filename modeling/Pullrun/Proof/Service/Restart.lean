import Pullrun.Proof.Store.Recompute
import Pullrun.Service.Daemon

/-!
# Removing images over restarts

`put` does not count the edges of a node that is on disk already: they were counted when it was
written.
-/

namespace Pullrun

open Option RefGraph Disk

namespace Daemon

open MmapStore Sample Schedule

variable {c : Codec} {s : Daemon} {roots : List Digest} {n : DagNode} {b : Bytes}

abbrev graph (c : Codec) (s : Daemon) : RefGraph Digest := s.store.disk.graph c

def Tagged (c : Codec) (s : Daemon) (v : Digest) : Prop := ∃ r ∈ s.imageTags, (s.graph c).Reach r v

/-- The condition on a restart: no stored node outside what is tagged has an edge into it. -/
def RestartsCounted (c : Codec) (s : Daemon) : Op c → Prop
  | .restart _ _ _ => ∀ p v, (s.graph c).Edge p v → s.Tagged c v → s.Tagged c p
  | _ => True

structure Stocked (c : Codec) (s : MmapStore) : Prop where
  coherent : s.Coherent
  valid : s.disk.Valid c
  closed : (s.disk.graph c).Closed

structure Kept (c : Codec) (s : Daemon) : Prop extends Stocked c s.store where
  counted : ∃ w, (s.graph c).Balanced w ∧ ∀ r ∈ s.imageTags, 0 < w r

theorem kept_start (c : Codec) (m1 m2 : Option ℕ) : Kept c (start m1 m2) where
  coherent := coherent_openOn _ _ _
  valid := valid_empty c
  closed p v he := absurd he.mem_stored (by simp [start, openOn, Disk.graph, Disk.empty])
  counted := ⟨_, empty_balanced c, fun r hr => absurd hr (by simp [start])⟩

/-! ## Storing an image -/

theorem Stocked.put {s : MmapStore} (h : Stocked c s)
    (he : c.Encodes n b) (hedges : ∀ e ∈ n.edges, s.disk.hasNode e = true) :
    Stocked c (s.put c n).2 where
  coherent := putBlocking_coherent h.coherent n
  valid := putBlocking_valid h.valid he
  closed p v hedge := by
    rw [mem_graph_stored, hasNode_put he.1]
    refine Or.inr ?_
    rw [MmapStore.put, putBlocking_disk he.1] at hedge
    dsimp only at hedge
    split at hedge
    · exact mem_graph_stored.mp (h.closed p v hedge)
    · rw [graph_writeNode_incrementEdges he.2] at hedge
      change v ∈ (if p = c.sha256 b then n.edges else (s.disk.graph c).out p) at hedge
      split at hedge
      · exact hedges v hedge
      · exact mem_graph_stored.mp (h.closed p v hedge)

theorem Stocked.convert {s : MmapStore} {w : Digest → ℕ} (h : Stocked c s)
    (hb : (s.disk.graph c).Balanced w) (stored : List Digest) {nodes : List (DagNode × Bytes)}
    (hstored : ∀ d ∈ stored, s.disk.hasNode d = true) (hfirst : ChildrenFirst c stored nodes)
    (henc : ∀ p ∈ nodes, c.Encodes p.1 p.2) :
    Stocked c (s.convert c nodes) ∧ ((s.convert c nodes).disk.graph c).Balanced w := by
  induction nodes generalizing s stored with
  | nil => exact ⟨h, hb⟩
  | cons p rest ih =>
    have he : c.Encodes p.1 p.2 := henc p List.mem_cons_self
    refine ih (h.put he fun e hm => hstored e (hfirst.1 e hm)) (putBlocking_balanced hb he) _ ?_
      hfirst.2 fun q hq => henc q (List.mem_cons_of_mem _ hq)
    intro d hd
    rw [hasNode_put he.1]
    rcases List.mem_cons.mp hd with hd | hd
    · exact .inl hd
    · exact .inr (hstored d hd)

theorem Kept.put (h : Kept c s) (image : Image c) :
    Kept c { s with store := s.store.convert c image.nodes } := by
  obtain ⟨w, hb, hw⟩ := h.counted
  obtain ⟨hstocked, hbalanced⟩ := h.toStocked.convert hb [] (by simp)
    image.childrenFirst image.encodes
  exact ⟨hstocked, w, hbalanced, hw⟩

/-! ## Tagging and removing -/

theorem Stocked.of_nodes {s s' : MmapStore} (h : Stocked c s) (hcoh : s'.Coherent)
    (hn : s'.disk.nodes = s.disk.nodes) : Stocked c s' where
  coherent := hcoh
  valid := h.valid.of_nodes_eq hn
  closed p v he := by
    have hedge : (s.disk.graph c).Edge p v := by
      change v ∈ s.disk.edgesOf c p
      rw [← edgesOf_congr hn]
      exact he
    have := mem_graph_stored.mp (h.closed p v hedge)
    rw [mem_graph_stored, hasNode, hn]
    exact this

theorem Kept.tag (h : Kept c s) (root : Digest) :
    Kept c ⟨s.store.incrementRefcount root, insert root s.imageTags⟩ := by
  obtain ⟨w, hb, hw⟩ := h.counted
  have hn : (s.store.incrementRefcount root).disk.nodes = s.store.disk.nodes :=
    setRefcount_nodes _ _ _
  have hcoh : (s.store.incrementRefcount root).Coherent := by
    rw [Coherent, hn]
    exact h.coherent
  refine ⟨h.toStocked.of_nodes hcoh hn, Function.update w root (w root + 1), ?_, ?_⟩
  · change ((s.store.disk.setRefcount root _).graph c).Balanced _
    rw [graph_setRefcount]
    exact hb.incr root
  · intro r hr
    rw [Function.update_apply]
    split
    · omega
    · rename_i hne
      exact hw r ((Finset.mem_insert.mp hr).resolve_left hne)

theorem Kept.remove (h : Kept c s) {root : Digest} (hroot : root ∈ s.imageTags) :
    Kept c ⟨(s.store.removeTag c root).2, s.imageTags.erase root⟩ ∧
    ∀ r ∈ s.imageTags.erase root, ∀ v, (s.graph c).Reach r v → s.store.disk.hasNode v = true →
      (s.store.removeTag c root).2.disk.hasNode v = true := by
  obtain ⟨w, hb, hw⟩ := h.counted
  obtain ⟨freed, s', heq, hcoh, hval, -, hrel⟩ :=
    removeTag_released h.coherent h.valid hb (hw root hroot)
  rw [heq]
  -- a root that stays tagged keeps its weight
  have hw' : ∀ r ∈ s.imageTags.erase root, 0 < Function.update w root (w root - 1) r := by
    intro r hr
    rw [Finset.mem_erase] at hr
    rw [Function.update_of_ne hr.1]
    exact hw r hr.2
  refine ⟨⟨⟨hcoh, hval, ?_⟩, _, hrel.balanced, hw'⟩, ?_⟩
  · exact hrel.closed h.closed
  · intro r hr v hreach hv
    have hmem : v ∈ (s.graph c).stored := mem_graph_stored.mpr hv
    have hkept := hrel.protects r v (.inl (hw' r hr)) hreach hmem
    exact mem_graph_stored.mp hkept

/-! ## Restarting -/

theorem tagged_iff (hroots : (roots : Multiset Digest) = s.imageTags.val) (v : Digest) :
    (s.graph c).ReachFrom roots v ↔ s.Tagged c v := by
  have hmem : ∀ r, r ∈ roots ↔ r ∈ s.imageTags := by
    intro r
    rw [← Finset.mem_val, ← hroots, Multiset.mem_coe]
  simp only [ReachFrom, Tagged, hmem]

theorem Kept.restart (h : Kept c s) {m1 m2 : Option ℕ}
    (hroots : (roots : Multiset Digest) = s.imageTags.val)
    (hok : ∀ p v, (s.graph c).Edge p v → s.Tagged c v → s.Tagged c p) :
    Kept c { s with store := rebuild c (.openOn s.store.disk m1 m2) roots } := by
  classical
  obtain ⟨w, hb, hw⟩ := h.counted
  rw [rebuild]
  split
  · exact ⟨h.toStocked.of_nodes (coherent_openOn _ _ _) rfl, w, hb, hw⟩
  · obtain ⟨s', heq, hcoh, hn, -, hrc⟩ :=
      recomputeAllRefcounts_spec (coherent_openOn s.store.disk m1 m2) h.valid roots
    rw [heq]
    refine ⟨h.toStocked.of_nodes hcoh hn, _, Balanced.recount roots hb ?_ ?_ ?_, ?_⟩
    · intro v
      exact inDeg_congr hn v
    · intro v
      have hv := hrc v
      rw [openOn, h.closed.live_eq] at hv
      rw [graph_rc, hv]
      by_cases hreach : (s.graph c).ReachFrom roots v
      · rw [if_pos hreach, if_neg (Nat.ne_of_gt (recount_pos_iff.mpr hreach))]
      · have hz : (s.graph c).recount roots v = 0 := by
          by_contra hne
          exact hreach (recount_pos_iff.mp (Nat.pos_of_ne_zero hne))
        rw [if_neg hreach, if_pos hz]
        rfl
    · intro p v he hv
      rw [tagged_iff hroots] at hv ⊢
      exact hok p v he hv
    · intro r hr
      have hmem : r ∈ roots := by
        rw [← Multiset.mem_coe, hroots]
        exact hr
      rw [if_pos (.root hmem)]
      exact List.count_pos_iff.mpr hmem

/-! ## Runs -/

theorem Kept.step {t : Daemon} {op : Op c} (h : Kept c s) (hok : RestartsCounted c s op)
    (hstep : step c s op = some t) : Kept c t := by
  revert hstep
  fun_cases Daemon.step c s op with
  | case1 image => rintro ⟨⟩; exact h.put image
  | case2 root => rintro ⟨⟩; exact h.tag root
  | case3 root hroot => rintro ⟨⟩; exact (h.remove hroot).1
  | case4 => rintro ⟨⟩; exact h
  | case5 m1 m2 roots hroots => rintro ⟨⟩; exact h.restart hroots hok
  | case6 => rintro ⟨⟩

/-- **No removal deletes a node that a still tagged image needs**, in every run whose restarts find
    no untagged parent of a tagged node. -/
theorem removals_keep_tagged {c : Codec} {ops : List (Op c)} {m₁ m₂ : Option ℕ} {s t : Daemon}
    {root : Digest} (hok : Schedule.Meets (step c) (RestartsCounted c) (start m₁ m₂) ops)
    (hrun : Schedule.run (step c) (start m₁ m₂) ops = some s)
    (hstep : step c s (.remove root) = some t) :
    ∀ r ∈ t.imageTags, ∀ v, (s.graph c).Reach r v → s.store.disk.hasNode v = true →
      t.store.disk.hasNode v = true := by
  have hkept : Kept c s :=
    run_inv (Kept c) (RestartsCounted c) (fun _ _ _ h hok hst => h.step hok hst)
      (kept_start c m₁ m₂) hok hrun
  rw [step] at hstep
  split at hstep
  · rename_i hroot
    injection hstep with hstep
    subst hstep
    exact (hkept.remove hroot).2
  · injection hstep with hstep
    subst hstep
    exact fun _ _ _ _ hv => hv

/-- Two images over one file, the second not tagged, and a restart; then the second is pulled. -/
def repulled : List (Op Sample.codec) :=
  [.put Sample.X, .put Sample.A, .tag Sample.imageAD, .restart none none [Sample.imageAD],
    .put Sample.X, .tag Sample.imageXD]

theorem restart_loses_node :
    ∃ s t, Schedule.run (step Sample.codec) (start none none) repulled = some s ∧
      step Sample.codec s (.remove Sample.imageXD) = some t ∧ Sample.imageAD ∈ t.imageTags ∧
      (s.graph Sample.codec).Reach Sample.imageAD Sample.leafD ∧
      s.store.disk.hasNode Sample.leafD = true ∧ t.store.disk.hasNode Sample.leafD = false := by
  obtain ⟨s, hrun, hedge, hleaf, t, hremove, htag, hgone⟩ :
      ∃ s, run (step codec) (start none none) repulled = some s ∧
        leafD ∈ s.store.disk.edgesOf codec imageAD ∧ s.store.disk.hasNode leafD = true ∧
        ∃ t, step codec s (.remove imageXD) = some t ∧ imageAD ∈ t.imageTags ∧
          t.store.disk.hasNode leafD = false := by decide +kernel
  exact ⟨s, t, hrun, hremove, htag, (Reach.refl _).tail hedge, hleaf, hgone⟩

def bothTagged : List (Op Sample.codec) :=
  [.put Sample.X, .tag Sample.imageXD, .put Sample.A, .tag Sample.imageAD,
    .restart none none [Sample.imageXD, Sample.imageAD]]

theorem removals_keep_tagged_bothTagged :
    ∃ s t, Schedule.run (step Sample.codec) (start none none) bothTagged = some s ∧
      step Sample.codec s (.remove Sample.imageXD) = some t ∧
      ∀ r ∈ t.imageTags, ∀ v, (s.graph Sample.codec).Reach r v →
        s.store.disk.hasNode v = true → t.store.disk.hasNode v = true := by
  obtain ⟨s, hrun, t, hremove, -⟩ : ∃ s, run (step codec) (start none none) bothTagged = some s ∧
      ∃ t, step codec s (.remove imageXD) = some t ∧ True := by decide +kernel
  obtain ⟨s₄, hrun₄, hedges⟩ : ∃ s, run (step codec) (start none none) (bothTagged.take 4) = some s ∧
      ∀ p ∈ s.store.disk.nodes.keys, s.store.disk.edgesOf codec p = [] ∨ p ∈ s.imageTags := by
    decide +kernel
  have hok : Meets (step codec) (RestartsCounted codec) (start none none)
      (bothTagged.take 4 ++ bothTagged.drop 4) := by
    refine (meets_append hrun₄).mpr ⟨?_, ?_, fun _ _ => trivial⟩
    · refine meets_of_forall fun s op hop => ?_
      simp only [bothTagged, List.take_succ_cons, List.take_zero, List.mem_cons,
        List.not_mem_nil, or_false] at hop
      rcases hop with rfl | rfl | rfl | rfl <;> trivial
    · -- a stored node with an edge is a tagged root
      intro p v he _
      have hp := hedges p he.mem_stored
      refine ⟨p, hp.resolve_left fun hnil => ?_, Reach.refl p⟩
      change v ∈ s₄.store.disk.edgesOf codec p at he
      rw [hnil] at he
      exact absurd he (by simp)
  exact ⟨s, t, hrun, hremove, removals_keep_tagged hok hrun hremove⟩

end Daemon

end Pullrun
