import Pullrun.Lib.Recount
import Pullrun.Proof.Store.Walk

/-!
# What `recompute_all_refcounts` writes

It counts the occurrences of the roots and of the edges it follows, and then overwrites the count
of every digest it counted.
-/

namespace Pullrun

open List Prod Disk

namespace MmapStore

/-! ## The map of counts -/

/-- The map holds the positive values of `f`, each key once. -/
structure Tallies (counts : List (Digest × ℕ)) (f : Digest → ℕ) : Prop where
  nodup : (counts.map Prod.fst).Nodup
  lookup : ∀ d, counts.lookup d = if f d = 0 then none else some (f d)

theorem lookup_cons_if (e k : Digest) (n : ℕ) (counts : List (Digest × ℕ)) :
    List.lookup e ((k, n) :: counts) = if e = k then some n else counts.lookup e := by
  rw [lookup_cons]
  by_cases h : e = k
  · rw [if_pos h, beq_iff_eq.mpr h]
  · rw [if_neg h, beq_eq_false_iff_ne.mpr h]

theorem lookup_bump (d e : Digest) (counts : List (Digest × ℕ)) :
    (bump d counts).lookup e
      = if e = d then some ((counts.lookup d).getD 0 + 1) else counts.lookup e := by
  induction counts with
  | nil => rw [bump, lookup_cons_if]; rfl
  | cons entry counts ih =>
    obtain ⟨k, n⟩ := entry
    rw [bump, lookup_cons_if, lookup_cons_if]
    by_cases hk : k = d
    · subst hk
      rw [if_pos rfl, if_pos rfl, lookup_cons_if]
      by_cases he : e = k
      · rw [if_pos he, if_pos he]; rfl
      · rw [if_neg he, if_neg he, if_neg he]
    · rw [if_neg hk, if_neg (Ne.symm hk), lookup_cons_if, ih]
      by_cases he : e = k
      · rw [if_pos he, if_pos he, if_neg (by rw [he]; exact hk)]
      · rw [if_neg he, if_neg he]

theorem keys_bump (d : Digest) (counts : List (Digest × ℕ)) :
    (bump d counts).map fst
      = if d ∈ counts.map fst then counts.map fst else counts.map fst ++ [d] := by
  induction counts with
  | nil => rfl
  | cons entry counts ih =>
    obtain ⟨k, n⟩ := entry
    rw [bump]
    by_cases hk : k = d
    · simp [hk]
    · have hdk : d ≠ k := Ne.symm hk
      rw [if_neg hk, map_cons, ih, map_cons]
      by_cases hm : d ∈ counts.map fst
      · rw [if_pos hm, if_pos (mem_cons_of_mem _ hm)]
      · rw [if_neg hm, if_neg (by simp only [mem_cons, not_or]; exact ⟨hdk, hm⟩)]
        rfl

variable {counts : List (Digest × ℕ)} {f : Digest → ℕ}

theorem Tallies.bump (h : Tallies counts f) (d : Digest) :
    Tallies (bump d counts) fun e => f e + [d].count e where
  nodup := by
    rw [keys_bump]
    split
    · exact h.nodup
    · rename_i hd
      refine nodup_append.mpr ⟨h.nodup, nodup_singleton d, ?_⟩
      intro a ha b hb hab
      rw [hab, mem_singleton.mp hb] at ha
      exact hd ha
  lookup e := by
    rw [lookup_bump, h.lookup d, h.lookup e, count_singleton]
    by_cases he : e = d
    · subst he
      by_cases hz : f e = 0 <;> simp [hz]
    · have hde : (d == e) = false := beq_eq_false_iff_ne.mpr (Ne.symm he)
      simp [he, hde]

theorem tallies_nil : Tallies [] fun _ => 0 where
  nodup := nodup_nil
  lookup _ := rfl

theorem Tallies.congr {g : Digest → ℕ} (h : Tallies counts f) (hfg : ∀ d, g d = f d) :
    Tallies counts g := by
  have : g = f := funext hfg
  rwa [this]

theorem Tallies.bumps (h : Tallies counts f) (ds : List Digest) :
    Tallies (ds.foldl (fun counts d => MmapStore.bump d counts) counts) fun e => f e + ds.count e := by
  induction ds generalizing counts f with
  | nil => exact h
  | cons d ds ih =>
    refine (ih (h.bump d)).congr fun e => ?_
    rw [count_cons, count_singleton]
    omega

theorem countEdges_eq (k : Disk) (es : List Digest) (counts : List (Digest × ℕ)) :
    countEdges k es counts = (es.filter k.hasNode,
      (es.filter k.hasNode).foldl (fun counts d => bump d counts) counts) := by
  induction es generalizing counts with
  | nil => rfl
  | cons e es ih =>
    rw [countEdges]
    by_cases he : k.hasNode e = true
    · rw [if_pos he, ih, filter_cons_of_pos he]
      rfl
    · rw [if_neg he, ih, filter_cons_of_neg he]

/-! ## Writing the counts -/

@[simp] theorem writeCounts_nodes (k : Disk) (counts : List (Digest × ℕ)) :
    (writeCounts k counts).nodes = k.nodes := by
  induction counts generalizing k with
  | nil => rfl
  | cons entry counts ih => rw [writeCounts, ih, setRefcount_nodes]

theorem writeCounts_positive {k : Disk} (h : k.Positive) (counts : List (Digest × ℕ)) :
    (writeCounts k counts).Positive := by
  induction counts generalizing k with
  | nil => exact h
  | cons entry counts ih => exact ih (h.setRefcount _ _)

theorem writeCounts_absent {k : Disk} {d : Digest} (hd : d ∉ counts.map fst) :
    (writeCounts k counts).getRefcount d = k.getRefcount d := by
  induction counts generalizing k with
  | nil => rfl
  | cons entry counts ih =>
    simp only [map_cons, mem_cons, not_or] at hd
    rw [writeCounts, ih hd.2, getRefcount_setRefcount, if_neg hd.1]

theorem writeCounts_getRefcount {k : Disk} (hnodup : (counts.map fst).Nodup) (d : Digest) :
    (writeCounts k counts).getRefcount d = (counts.lookup d).getD (k.getRefcount d) := by
  induction counts generalizing k with
  | nil => rfl
  | cons entry counts ih =>
    obtain ⟨e, n⟩ := entry
    rw [map_cons, nodup_cons] at hnodup
    rw [writeCounts, lookup_cons_if]
    by_cases he : d = e
    · subst he
      rw [writeCounts_absent hnodup.1, getRefcount_setRefcount, if_pos rfl, if_pos rfl]
      rfl
    · rw [ih hnodup.2, getRefcount_setRefcount, if_neg he, if_neg he]

theorem Tallies.write (h : Tallies counts f) (k : Disk) (d : Digest) :
    (writeCounts k counts).getRefcount d = if f d = 0 then k.getRefcount d else f d := by
  rw [writeCounts_getRefcount h.nodup, h.lookup d]
  split <;> rfl

/-! ## The loop -/

/-- The loop invariant of `recompute_all_refcounts`. -/
def Recounts (c : Codec) (s₀ : MmapStore) (roots queue seen : List Digest)
    (st : MmapStore × List (Digest × ℕ)) : Prop :=
  SameFiles s₀ st.1 ∧ RefGraph.Searching (s₀.disk.graph c).live roots queue seen ∧
    Tallies st.2 ((s₀.disk.graph c).live.tally roots seen)

theorem live_out (c : Codec) (k : Disk) (v : Digest) :
    (k.graph c).live.out v = (k.edgesOf c v).filter k.hasNode := by
  refine filter_congr fun u _ => ?_
  by_cases hu : k.hasNode u = true
  · rw [hu, decide_eq_true_iff, mem_graph_stored]
    exact hu
  · rw [Bool.eq_false_iff.mpr hu, decide_eq_false_iff_not, mem_graph_stored]
    exact hu

theorem recomputeVisit_eq {c : Codec} {s0 s : MmapStore} (hsame : SameFiles s0 s)
    (hval : s0.disk.Valid c) (v : Digest) (counts : List (Digest × ℕ)) :
    ∃ s', SameFiles s0 s' ∧ recomputeVisit c v (s, counts)
      = (.ok ((s0.disk.graph c).live.out v), (s',
          ((s0.disk.graph c).live.out v).foldl (fun counts d => bump d counts) counts)) := by
  rw [live_out]
  simp only [recomputeVisit, hsame.disk]
  by_cases hv : s0.disk.hasNode v = true
  · obtain ⟨b, hb⟩ := Option.isSome_iff_exists.mp hv
    obtain ⟨n, hn⟩ := hval v b hb
    have hread := hsame.trans (getArchived_sameFiles c hsame.coherent v)
    obtain ⟨-, -, hres⟩ := getArchived_coherent c hsame.coherent v
    simp only [hsame.disk, hb, hn] at hres
    rcases hr : s.getArchived c v with ⟨r, s'⟩
    rw [hr] at hread hres
    dsimp only at hread hres
    subst hres
    refine ⟨s', hread, ?_⟩
    rw [if_pos hv, edgesOf_ok hb hn]
    dsimp only
    rw [countEdges_eq, hread.disk]
  · have hl : s0.disk.nodes.lookup v = none := by
      cases hl : s0.disk.nodes.lookup v with
      | none => rfl
      | some b => exact absurd (by rw [hasNode, hl]; rfl) hv
    rw [if_neg hv, edgesOf_absent hl]
    exact ⟨s, hsame, rfl⟩

theorem Recounts.visit {c : Codec} {s0 : MmapStore} (hval : s0.disk.Valid c)
    {roots queue seen : List Digest} {v : Digest} {st : MmapStore × List (Digest × ℕ)}
    (hnew : v ∉ seen) (h : Recounts c s0 roots (v :: queue) seen st) :
    Worklist.Visits (Recounts c s0 roots) (fun _ _ => False)
      (fun seen _ => (s0.disk.graph c).live.unseenEdges seen) v queue seen st
      (recomputeVisit c v st) := by
  obtain ⟨s, counts⟩ := st
  obtain ⟨hsame, hsearch, htally⟩ := h
  obtain ⟨s', hsame', heq⟩ := recomputeVisit_eq hsame hval v counts
  rw [heq]
  refine ⟨⟨hsame', hsearch.visit, ?_⟩, RefGraph.unseenEdges_visit hnew⟩
  refine (htally.bumps _).congr fun d => ?_
  exact RefGraph.tally_cons _ roots hnew d

theorem unseenEdges_live_le (G : RefGraph Digest) : G.live.unseenEdges [] ≤ G.edgeCount := by
  rw [RefGraph.unseenEdges_nil]
  exact Finset.sum_le_sum fun p _ => length_filter_le _ _

/-- **What a rebuild leaves.** On valid node files it succeeds, touches nothing but counts, and the
    count of a digest the roots reach becomes the recount. -/
theorem recomputeAllRefcounts_spec {c : Codec} {s : MmapStore} (hcoh : s.Coherent)
    (hval : s.disk.Valid c) (roots : List Digest) :
    ∃ s', recomputeAllRefcounts c s roots = (.ok (), s') ∧ s'.Coherent ∧
      s'.disk.nodes = s.disk.nodes ∧ (s.disk.Positive → s'.disk.Positive) ∧
      ∀ d, s'.disk.getRefcount d = if (s.disk.graph c).live.recount roots d = 0
        then s.disk.getRefcount d else (s.disk.graph c).live.recount roots d := by
  have hstart : Recounts c s roots roots []
      (s, roots.foldl (fun counts root => bump root counts) []) := by
    refine ⟨.refl hcoh, .start _ _, (tallies_nil.bumps roots).congr fun d => ?_⟩
    rw [RefGraph.tally_nil, Nat.zero_add]
  have hends := Worklist.run_rule .stalled (recomputeVisit c) (Recounts c s roots)
    (fun _ _ _ _ hs hi => ⟨hi.1, hi.2.1.skip hs, hi.2.2⟩)
    (fun _ _ _ _ hs hi => hi.visit hval hs) (walkFuel c s.disk roots.length) roots [] _ hstart
    (by
      have := unseenEdges_live_le (s.disk.graph c)
      change roots.length + _ < roots.length + (s.disk.graph c).edgeCount + 1
      omega)
  unfold recomputeAllRefcounts
  dsimp only
  rcases hrun : Worklist.run StoreError.stalled (recomputeVisit c) (walkFuel c s.disk roots.length) roots []
    (s, roots.foldl (fun counts root => bump root counts) []) with ⟨e | seen, s', counts⟩
  · rw [hrun] at hends
    exact absurd hends id
  · rw [hrun] at hends
    obtain ⟨hsame, hsearch, htally⟩ := hends
    dsimp only at hsame htally
    refine ⟨_, rfl, ?_, ?_, ?_, ?_⟩
    · change s'.cache.Coherent (writeCounts s'.disk counts).nodes
      rw [writeCounts_nodes]
      exact hsame.coherent
    · rw [writeCounts_nodes, hsame.disk]
    · intro hpos
      rw [← hsame.disk] at hpos
      exact writeCounts_positive hpos counts
    · intro d
      rw [htally.write, hsearch.tally_eq, hsame.disk]

end MmapStore

end Pullrun
