import Pullrun.Lib.RefGraph

/-!
# Searching a graph from a set of roots

The invariant of a breadth-first search, for a loop of the shape of `Lib/Worklist.lean` that pops
a vertex, skips it if it was seen, and otherwise appends its children. It is about `queue` and
`seen` only, so that a loop which computes something on the way carries it unchanged.

`unseenEdges` is the potential such a loop runs on: a first visit appends as many elements as the
vertex has edges, and those edges are then no longer unseen.
-/

namespace RefGraph

open List

variable {V : Type*} {roots : List V} {G : RefGraph V}

def ReachFrom (G : RefGraph V) (roots : List V) (v : V) : Prop := ∃ r ∈ roots, G.Reach r v

theorem ReachFrom.root {r : V} (h : r ∈ roots) :
    G.ReachFrom roots r := ⟨r, h, Reach.refl r⟩

theorem ReachFrom.tail {p v : V} (h : G.ReachFrom roots p)
    (he : G.Edge p v) : G.ReachFrom roots v := by
  obtain ⟨r, hr, hp⟩ := h
  exact ⟨r, hr, hp.tail he⟩

theorem reachFrom_congr {H : RefGraph V}
    (hout : ∀ p, G.ReachFrom roots p → H.out p = G.out p) (v : V) :
    H.ReachFrom roots v ↔ G.ReachFrom roots v := by
  constructor
  · rintro ⟨r, hr, hreach⟩
    induction hreach with
    | refl => exact .root hr
    | tail _ he ih =>
      refine ih.tail ?_
      rw [Edge, ← hout _ ih]
      exact he
  · rintro ⟨r, hr, hreach⟩
    induction hreach with
    | refl => exact .root hr
    | @tail p v hp he ih =>
      refine ih.tail ?_
      rw [Edge, hout p ⟨r, hr, hp⟩]
      exact he

section Potential

variable [DecidableEq V]

def unseenEdges (G : RefGraph V) (seen : List V) : ℕ :=
  ∑ p ∈ G.stored.filter (· ∉ seen), (G.out p).length

theorem unseenEdges_nil (G : RefGraph V) : G.unseenEdges [] = G.edgeCount := by
  simp [unseenEdges, edgeCount]

theorem unseenEdges_cons_le (G : RefGraph V) (v : V) (seen : List V) :
    G.unseenEdges (v :: seen) ≤ G.unseenEdges seen := by
  refine Finset.sum_le_sum_of_subset fun p hp => ?_
  simp only [Finset.mem_filter, mem_cons, not_or] at hp ⊢
  exact ⟨hp.1, hp.2.2⟩

theorem unseenEdges_visit {v : V} {seen : List V} (hv : v ∉ seen) :
    (G.out v).length + G.unseenEdges (v :: seen) ≤ G.unseenEdges seen := by
  by_cases hs : v ∈ G.stored
  · have hmem : v ∈ G.stored.filter (· ∉ seen) := by simp [hs, hv]
    have herase : G.stored.filter (· ∉ v :: seen) = (G.stored.filter (· ∉ seen)).erase v := by
      ext p
      simp only [Finset.mem_filter, Finset.mem_erase, mem_cons, not_or]
      tauto
    unfold unseenEdges
    rw [herase, add_comm, Finset.sum_erase_add _ _ hmem]
  · rw [G.out_absent v hs, length_nil, Nat.zero_add]
    exact unseenEdges_cons_le G v seen

end Potential

structure Searching (G : RefGraph V) (roots queue seen : List V) : Prop where
  started : ∀ r ∈ roots, r ∈ seen ∨ r ∈ queue
  closed : ∀ p ∈ seen, ∀ c, G.Edge p c → c ∈ seen ∨ c ∈ queue
  reached : ∀ v, v ∈ seen ∨ v ∈ queue → G.ReachFrom roots v

namespace Searching

variable {G : RefGraph V} {roots queue seen : List V} {v : V}

theorem start (G : RefGraph V) (roots : List V) : Searching G roots roots [] where
  started r hr := Or.inr hr
  closed p hp := absurd hp (by simp)
  reached v hv := ⟨v, hv.resolve_left (by simp), Reach.refl v⟩

theorem skip (h : Searching G roots (v :: queue) seen) (hv : v ∈ seen) :
    Searching G roots queue seen := by
  have hpop : ∀ u, u ∈ seen ∨ u ∈ v :: queue → u ∈ seen ∨ u ∈ queue := by
    rintro u (hs | hq)
    · exact .inl hs
    · rcases mem_cons.mp hq with rfl | hq
      · exact .inl hv
      · exact .inr hq
  exact ⟨fun r hr => hpop r (h.started r hr), fun p hp c he => hpop c (h.closed p hp c he),
    fun u hu => h.reached u (hu.imp_right fun hq => mem_cons_of_mem _ hq)⟩

theorem visit (h : Searching G roots (v :: queue) seen) :
    Searching G roots (queue ++ G.out v) (v :: seen) := by
  have hpop : ∀ u, u ∈ seen ∨ u ∈ v :: queue → u ∈ v :: seen ∨ u ∈ queue ++ G.out v := by
    rintro u (hs | hq)
    · exact .inl (mem_cons_of_mem _ hs)
    · rcases mem_cons.mp hq with rfl | hq
      · exact .inl mem_cons_self
      · exact .inr (mem_append_left _ hq)
  refine ⟨fun r hr => hpop r (h.started r hr), fun p hp c he => ?_, ?_⟩
  · rcases mem_cons.mp hp with rfl | hp
    · exact .inr (mem_append_right _ he)
    · exact hpop c (h.closed p hp c he)
  · have hv : G.ReachFrom roots v := h.reached v (.inr mem_cons_self)
    rintro u (hu | hu)
    · rcases mem_cons.mp hu with rfl | hu
      · exact hv
      · exact h.reached u (.inl hu)
    · rcases mem_append.mp hu with hu | hu
      · exact h.reached u (.inr (mem_cons_of_mem _ hu))
      · obtain ⟨r, hr, hreach⟩ := hv
        exact ⟨r, hr, hreach.tail hu⟩

theorem mem_seen_iff (h : Searching G roots [] seen) : v ∈ seen ↔ G.ReachFrom roots v := by
  refine ⟨fun hv => h.reached v (.inl hv), ?_⟩
  rintro ⟨r, hr, hreach⟩
  induction hreach with
  | refl => exact (h.started r hr).resolve_right (by simp)
  | tail _ he ih => exact (h.closed _ ih _ he).resolve_right (by simp)

end Searching

end RefGraph
