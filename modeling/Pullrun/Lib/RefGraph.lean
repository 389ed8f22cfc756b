import Mathlib.Algebra.Order.BigOperators.Group.Finset
import Mathlib.Data.Fintype.EquivFin

/-!
# Reference-counted graphs

A finite set of stored nodes, each with a list of out-edges, and a counter for every vertex. The
edges may point at vertices that are not stored (a *dangling* edge is counted like any other), and
a node may list one child several times.

`Balanced G w` is the one invariant reference counting lives by: every counter is the vertex's
external weight plus the number of edge occurrences that point to it. The weight is a parameter
and not a field, because what counts as an external reference differs from one use to the next — a
tag, a root that a rebuild counted, a reference that was taken and forgotten.
-/

/-- Stored nodes with their out-edges, and a counter per vertex. -/
structure RefGraph (V : Type*) where
  stored : Finset V
  out : V → List V
  rc : V → ℕ
  out_absent : ∀ v, v ∉ stored → out v = []

namespace RefGraph

open Finset

variable {V : Type*}

def Edge (G : RefGraph V) (p c : V) : Prop := c ∈ G.out p

/-- Reachability through stored nodes; the end point need not be stored. -/
def Reach (G : RefGraph V) : V → V → Prop := Relation.ReflTransGen G.Edge

def Acyclic (G : RefGraph V) : Prop := ∀ v, ¬ Relation.TransGen G.Edge v v

variable {G : RefGraph V} {a v p c b : V} {w : V → ℕ} {n : ℕ}

theorem Edge.mem_stored (h : G.Edge p c) : p ∈ G.stored := by
  by_contra hp
  rw [Edge, G.out_absent p hp] at h
  exact absurd h (by simp)

theorem Reach.refl (v : V) : G.Reach v v := Relation.ReflTransGen.refl

theorem Reach.trans (h1 : G.Reach a b) (h2 : G.Reach b c) : G.Reach a c :=
  Relation.ReflTransGen.trans h1 h2

theorem Reach.tail (h : G.Reach a b) (he : G.Edge b c) : G.Reach a c :=
  Relation.ReflTransGen.tail h he

theorem Reach.exists_parent (h : G.Reach a b) (hne : b ≠ a) : ∃ p, G.Reach a p ∧ G.Edge p b := by
  rcases Relation.ReflTransGen.cases_tail h with heq | ⟨p, hp, he⟩
  · exact absurd heq hne
  · exact ⟨p, hp, he⟩

variable {H : RefGraph V}

theorem Reach.transfer (hout : ∀ p, G.Reach a p → p ∈ G.stored → H.out p = G.out p)
    (h : G.Reach a v) : H.Reach a v := by
  induction h with
  | refl => exact Reach.refl a
  | @tail p q hp he ih =>
    refine ih.tail ?_
    rw [Edge, hout p hp he.mem_stored]
    exact he

theorem acyclic_of_rank (rank : V → ℕ) (h : ∀ p ∈ G.stored, ∀ c ∈ G.out p, rank c < rank p) :
    G.Acyclic := by
  intro v hv
  have hlt : Relation.TransGen (fun a b : ℕ => b < a) (rank v) (rank v) :=
    hv.lift rank fun p c (he : G.Edge p c) => h p he.mem_stored c he
  rw [Relation.transGen_eq_self] at hlt
  exact Nat.lt_irrefl _ hlt

theorem Acyclic.parent_not_reach (h : G.Acyclic) (he : G.Edge p c) : ¬ G.Reach c p :=
  fun hr => h c (Relation.TransGen.tail' hr he)

/-- **A finite acyclic set has a source.** Stated contrapositively, which is how it is used: a
    finite set in which everything has a parent inside the set is empty. -/
theorem Acyclic.eq_empty_of_parents (hac : G.Acyclic) {S : Finset V}
    (hpar : ∀ x ∈ S, ∃ p ∈ S, G.Edge p x) : S = ∅ := by
  by_contra hne
  obtain ⟨x0, hx0⟩ := nonempty_iff_ne_empty.mpr hne
  let r : S → S → Prop := fun a b => Relation.TransGen G.Edge a b
  have : IsTrans S r := ⟨fun _ _ _ h1 h2 => Relation.TransGen.trans h1 h2⟩
  have : Std.Irrefl r := ⟨fun a h => hac a h⟩
  have hwf : WellFounded r := Finite.wellFounded_of_trans_of_irrefl r
  obtain ⟨m, -, hmin⟩ := hwf.has_min Set.univ ⟨⟨x0, hx0⟩, trivial⟩
  obtain ⟨p, hp, he⟩ := hpar m m.2
  exact hmin ⟨p, hp⟩ trivial (Relation.TransGen.single he)

variable [DecidableEq V] {es : List V}

/-- The number of edge occurrences that point to `v` from stored nodes, with multiplicity. -/
def inDeg (G : RefGraph V) (v : V) : ℕ := ∑ p ∈ G.stored, (G.out p).count v

def Balanced (G : RefGraph V) (w : V → ℕ) : Prop := ∀ v, G.rc v = w v + G.inDeg v

def Light (G : RefGraph V) (w : V → ℕ) : Prop := ∀ v, G.rc v ≤ w v + G.inDeg v

theorem Balanced.light (hb : G.Balanced w) : G.Light w :=
  fun v => (hb v).le

theorem inDeg_pos_iff : 0 < G.inDeg v ↔ ∃ p, G.Edge p v := by
  rw [inDeg, sum_pos_iff]
  constructor
  · rintro ⟨p, -, hp⟩
    exact ⟨p, List.count_pos_iff.mp hp⟩
  · rintro ⟨p, hp⟩
    exact ⟨p, hp.mem_stored, List.count_pos_iff.mpr hp⟩

theorem inDeg_of_sub (hsub : H.stored ⊆ G.stored) (hout : ∀ p ∈ H.stored, H.out p = G.out p)
    (hgone : ∀ p ∈ G.stored, p ∉ H.stored → G.out p = []) (v : V) : H.inDeg v = G.inDeg v := by
  unfold inDeg
  have hsame : ∑ p ∈ H.stored, (H.out p).count v = ∑ p ∈ H.stored, (G.out p).count v := by
    refine sum_congr rfl ?_
    intro p hp
    rw [hout p hp]
  rw [hsame]
  refine sum_subset hsub ?_
  intro p hp hn
  rw [hgone p hp hn]
  rfl

theorem count_le_inDeg : (G.out p).count v ≤ G.inDeg v := by
  by_cases hp : p ∈ G.stored
  · exact single_le_sum (f := fun q => (G.out q).count v) (fun _ _ => Nat.zero_le _) hp
  · rw [G.out_absent p hp]; simp

theorem count_add_count_le_inDeg {q : V} (hne : p ≠ q) :
    (G.out p).count v + (G.out q).count v ≤ G.inDeg v := by
  by_cases hp : p ∈ G.stored
  · by_cases hq : q ∈ G.stored
    · rw [inDeg, ← sum_pair (f := fun r => (G.out r).count v) hne]
      refine sum_le_sum_of_subset ?_
      exact insert_subset hp (singleton_subset_iff.mpr hq)
    · rw [G.out_absent q hq, List.count_nil]
      exact count_le_inDeg
  · rw [G.out_absent p hp, List.count_nil, Nat.zero_add]
    exact count_le_inDeg

theorem Balanced.zero_iff (hb : G.Balanced w) : G.rc v = 0 ↔ w v = 0 ∧ ∀ p, ¬ G.Edge p v := by
  rw [hb v, Nat.add_eq_zero_iff, ← not_exists, ← inDeg_pos_iff]
  omega

/-- **Everything stored hangs off a weight**, once no stored counter is zero: climbing parents
    from a node that hangs off nothing would never end. -/
theorem Balanced.reach_of_weight (hb : G.Balanced w) (hac : G.Acyclic)
    (hpos : ∀ v ∈ G.stored, 0 < G.rc v) (hv : v ∈ G.stored) : ∃ r, 0 < w r ∧ G.Reach r v := by
  classical
  let S := G.stored.filter fun x => ¬ ∃ r, 0 < w r ∧ G.Reach r x
  have hS : S = ∅ := by
    refine hac.eq_empty_of_parents fun x hx => ?_
    obtain ⟨hxs, hxn⟩ := mem_filter.mp hx
    have hw : w x = 0 := by
      by_contra hne
      exact hxn ⟨x, Nat.pos_of_ne_zero hne, Reach.refl x⟩
    have hin : 0 < G.inDeg x := by
      have := hpos x hxs
      rw [hb x] at this
      omega
    obtain ⟨p, hp⟩ := inDeg_pos_iff.mp hin
    refine ⟨p, mem_filter.mpr ⟨hp.mem_stored, ?_⟩, hp⟩
    rintro ⟨r, hr, hreach⟩
    exact hxn ⟨r, hr, hreach.tail hp⟩
  by_contra hn
  have : v ∈ S := mem_filter.mpr ⟨hv, hn⟩
  rw [hS] at this
  exact absurd this (by simp)

/-! ## Changing the counters

One counter at a time; the nodes are not touched. -/

def setRc (G : RefGraph V) (v : V) (n : ℕ) : RefGraph V :=
  { G with rc := Function.update G.rc v n }

@[simp] theorem setRc_stored : (G.setRc v n).stored = G.stored := rfl
@[simp] theorem setRc_inDeg {u : V} : (G.setRc v n).inDeg u = G.inDeg u := rfl
@[simp] theorem setRc_reach {b : V} : (G.setRc v n).Reach a b ↔ G.Reach a b := Iff.rfl

theorem setRc_rc {u : V} : (G.setRc v n).rc u = if u = v then n else G.rc u := by
  simp only [setRc, Function.update_apply]

theorem Balanced.setRc {m : ℕ} (hb : G.Balanced w) (hn : n = m + G.inDeg v) :
    (G.setRc v n).Balanced (Function.update w v m) := by
  intro u
  rw [setRc_rc, setRc_inDeg, Function.update_apply]
  by_cases h : u = v
  · subst h; rw [if_pos rfl, if_pos rfl, hn]
  · rw [if_neg h, if_neg h, hb u]

theorem Balanced.incr (hb : G.Balanced w) (v : V) :
    (G.setRc v (G.rc v + 1)).Balanced (Function.update w v (w v + 1)) :=
  hb.setRc (by rw [hb v]; omega)

theorem Balanced.decr (hb : G.Balanced w) (hv : 0 < w v) :
    (G.setRc v (G.rc v - 1)).Balanced (Function.update w v (w v - 1)) :=
  hb.setRc (by rw [hb v]; omega)

/-! ## Adding and dropping a node -/

def add (G : RefGraph V) (v : V) (es : List V) : RefGraph V where
  stored := insert v G.stored
  out u := if u = v then es else G.out u
  rc u := G.rc u + es.count u
  out_absent u hu := by
    rw [Finset.mem_insert, not_or] at hu
    rw [if_neg hu.1]
    exact G.out_absent u hu.2

/-- A node leaves: its edge occurrences are taken off their targets and its counter is cleared. -/
def drop (G : RefGraph V) (v : V) : RefGraph V where
  stored := G.stored.erase v
  out u := if u = v then [] else G.out u
  rc u := if u = v then 0 else G.rc u - (G.out v).count u
  out_absent u hu := by
    by_cases h : u = v
    · rw [if_pos h]
    · rw [if_neg h]
      exact G.out_absent u fun hm => hu (Finset.mem_erase.mpr ⟨h, hm⟩)

theorem inDeg_add (hv : v ∉ G.stored) (u : V) : (G.add v es).inDeg u = G.inDeg u + es.count u := by
  have hrest : ∑ p ∈ G.stored, ((G.add v es).out p).count u = G.inDeg u := by
    refine sum_congr rfl fun p hp => ?_
    have hne : p ≠ v := fun h => hv (h ▸ hp)
    simp only [add, if_neg hne]
  have hins : (G.add v es).inDeg u = ∑ p ∈ insert v G.stored, ((G.add v es).out p).count u := rfl
  rw [hins, sum_insert hv, hrest]
  simp only [add, if_true]
  omega

theorem Balanced.add (hb : G.Balanced w) (hv : v ∉ G.stored) : (G.add v es).Balanced w := by
  intro u
  rw [inDeg_add hv]
  change G.rc u + es.count u = _
  rw [hb u]
  omega

theorem sum_out_drop (f : List V → ℕ) (hv : v ∈ G.stored) :
    ∑ p ∈ (G.drop v).stored, f ((G.drop v).out p) + f (G.out v) = ∑ p ∈ G.stored, f (G.out p) := by
  have hrest : ∑ p ∈ G.stored.erase v, f ((G.drop v).out p)
      = ∑ p ∈ G.stored.erase v, f (G.out p) := by
    refine sum_congr rfl fun p hp => ?_
    simp only [drop, if_neg (ne_of_mem_erase hp)]
  have herase : (G.drop v).stored = G.stored.erase v := rfl
  rw [herase, hrest]
  exact sum_erase_add _ _ hv

theorem inDeg_drop (hv : v ∈ G.stored) (u : V) :
    (G.drop v).inDeg u + (G.out v).count u = G.inDeg u :=
  sum_out_drop (·.count u) hv

/-- What a counter holds beyond the in-degree. -/
def surplus (G : RefGraph V) (v : V) : ℤ := G.rc v - G.inDeg v

theorem balanced_iff_surplus : G.Balanced w ↔ ∀ v, G.surplus v = w v := by
  refine forall_congr' fun v => ?_
  rw [surplus]
  omega

theorem surplus_add (hv : v ∉ G.stored) (u : V) : (G.add v es).surplus u = G.surplus u := by
  rw [surplus, surplus, inDeg_add hv]
  change ((G.rc u + es.count u : ℕ) : ℤ) - _ = _
  omega

def edgeCount (G : RefGraph V) : ℕ := ∑ p ∈ G.stored, (G.out p).length

theorem edgeCount_drop (hv : v ∈ G.stored) :
    (G.drop v).edgeCount + (G.out v).length = G.edgeCount :=
  sum_out_drop (·.length) hv

/-- Dropping a node whose counter is zero keeps the balance: nothing pointed to it, so clearing its
    counter loses nothing. -/
theorem Balanced.drop (hb : G.Balanced w) (hv : v ∈ G.stored) (hz : G.rc v = 0) :
    (G.drop v).Balanced w := by
  intro u
  have hin := inDeg_drop hv u
  have hu := hb u
  change (if u = v then 0 else G.rc u - (G.out v).count u) = _
  by_cases h : u = v
  · subst h
    rw [if_pos rfl]
    omega
  · rw [if_neg h]
    omega

theorem Light.drop (hl : G.Light w) (hv : v ∈ G.stored) : (G.drop v).Light w := by
  intro u
  have hin := inDeg_drop hv u
  have hu := hl u
  change (if u = v then 0 else G.rc u - (G.out v).count u) ≤ _
  split <;> omega

end RefGraph
