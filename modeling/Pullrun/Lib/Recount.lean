import Pullrun.Lib.Cascade
import Pullrun.Lib.Search

/-!
# Counting references while searching

A search from a list of roots that adds one to the counter of every root occurrence and of every
edge it follows ends with `recount`: root occurrences plus edge occurrences *from what the roots
reach*. That is less than the in-degree as soon as an unreachable node points into the reachable
part. `Balanced.recount` is the other case: overwriting the counters of the reachable part with the
recount keeps the balance if no edge enters that part from outside.
-/

namespace RefGraph

open Finset List

variable {V : Type*}

def Closed (G : RefGraph V) : Prop := ∀ p v, G.Edge p v → v ∈ G.stored

variable [DecidableEq V]

/-- The graph without its dangling edges. -/
def live (G : RefGraph V) : RefGraph V where
  stored := G.stored
  out v := (G.out v).filter (· ∈ G.stored)
  rc := G.rc
  out_absent v hv := by rw [G.out_absent v hv, List.filter_nil]

variable {G : RefGraph V} {roots seen : List V} {w : V → ℕ}

theorem Closed.live_eq (h : G.Closed) : G.live = G := by
  have hout : G.live.out = G.out := by
    funext v
    exact filter_eq_self.mpr fun u hu => decide_eq_true (h v u hu)
  cases G
  simp only [live] at hout ⊢
  simp only [hout]

theorem Released.closed {G0 : RefGraph V} {root : V} (h : Released G0 w root G)
    (hclosed : G0.Closed) : G.Closed := by
  intro p v he
  by_contra hv
  have he0 : G0.Edge p v := by
    rw [Edge, ← (h.sub p he.mem_stored).2]
    exact he
  have hz := h.dropped_zero v (hclosed p v he0) hv
  exact (h.balanced.zero_iff.mp hz).2 p he

/-- What a search from the roots has counted for `v` when it has seen `seen`. -/
def tally (G : RefGraph V) (roots seen : List V) (v : V) : ℕ :=
  roots.count v + ∑ p ∈ seen.toFinset, (G.out p).count v

theorem tally_nil (G : RefGraph V) (roots : List V) (v : V) : G.tally roots [] v = roots.count v := by
  simp [tally]

theorem tally_cons (G : RefGraph V) (roots : List V) {p : V} (hp : p ∉ seen) (v : V) :
    G.tally roots (p :: seen) v = G.tally roots seen v + (G.out p).count v := by
  have hp' : p ∉ seen.toFinset := by rwa [mem_toFinset]
  rw [tally, tally, toFinset_cons, sum_insert hp']
  omega

open Classical in
/-- Root occurrences, plus edge occurrences from the stored nodes the roots reach. -/
noncomputable def recount (G : RefGraph V) (roots : List V) (v : V) : ℕ :=
  roots.count v + ∑ p ∈ G.stored with G.ReachFrom roots p, (G.out p).count v

theorem Searching.tally_eq (h : Searching G roots [] seen) (v : V) :
    G.tally roots seen v = G.recount roots v := by
  classical
  rw [tally, recount]
  congr 1
  -- what was seen and is not stored has no edges
  refine (sum_subset ?_ ?_).symm
  · intro p hp
    exact mem_toFinset.mpr (h.mem_seen_iff.mpr (mem_filter.mp hp).2)
  · intro p hp hn
    have hreach := h.mem_seen_iff.mp (mem_toFinset.mp hp)
    have hs : p ∉ G.stored := fun hs => hn (mem_filter.mpr ⟨hs, hreach⟩)
    rw [G.out_absent p hs]
    rfl

theorem recount_pos_iff {v : V} : 0 < G.recount roots v ↔ G.ReachFrom roots v := by
  classical
  rw [recount, Nat.add_pos_iff_pos_or_pos, count_pos_iff, sum_pos_iff]
  constructor
  · rintro (hr | ⟨p, hp, hc⟩)
    · exact .root hr
    · exact ReachFrom.tail (mem_filter.mp hp).2 (count_pos_iff.mp hc)
  · rintro ⟨r, hr, hreach⟩
    by_cases hv : v = r
    · exact .inl (hv ▸ hr)
    · obtain ⟨p, hp, he⟩ := hreach.exists_parent hv
      exact .inr ⟨p, mem_filter.mpr ⟨he.mem_stored, r, hr, hp⟩, count_pos_iff.mpr he⟩

theorem recount_eq_inDeg {v : V} (hsep : ∀ p, G.Edge p v → G.ReachFrom roots p) :
    G.recount roots v = roots.count v + G.inDeg v := by
  classical
  rw [recount, inDeg]
  congr 1
  refine sum_subset (filter_subset _ _) ?_
  intro p hp hn
  refine count_eq_zero.mpr fun he => hn ?_
  exact mem_filter.mpr ⟨hp, hsep p he⟩

open Classical in
theorem Balanced.recount {H : RefGraph V} (roots : List V) (hb : G.Balanced w)
    (hin : ∀ v, H.inDeg v = G.inDeg v)
    (hrc : ∀ v, H.rc v = if G.ReachFrom roots v then G.recount roots v else G.rc v)
    (hsep : ∀ p v, G.Edge p v → G.ReachFrom roots v → G.ReachFrom roots p) :
    H.Balanced fun v => if G.ReachFrom roots v then roots.count v else w v := by
  intro v
  rw [hrc v, hin v]
  dsimp only
  by_cases hv : G.ReachFrom roots v
  · rw [if_pos hv, if_pos hv]
    exact recount_eq_inDeg fun p he => hsep p v he hv
  · rw [if_neg hv, if_neg hv]
    exact hb v

end RefGraph
