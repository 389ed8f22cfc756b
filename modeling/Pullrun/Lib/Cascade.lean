import Pullrun.Lib.RefGraph

/-!
# Cascading release

Releasing the last external reference of a root drops the root, which takes its edges off its
children, which may bring some of *them* to zero, and so on. The loop that does this keeps a queue
of vertices whose counter has reached zero and a record of the vertices it has already handled.

This file says what holds between two iterations (`Swept`), that each of the three kinds of
iteration keeps it, and what it amounts to once the queue is empty.
-/

namespace RefGraph

open List

variable {V : Type*} [DecidableEq V] {w : V → ℕ} {root : V}

/-- Subtract one from each listed counter in turn, and list those that this brings to zero. -/
def release (rc : V → ℕ) : List V → List V × (V → ℕ)
  | [] => ([], rc)
  | c :: cs =>
    let rc' := Function.update rc c (rc c - 1)
    let (zs, rc'') := release rc' cs
    (if rc c - 1 = 0 then c :: zs else zs, rc'')

theorem release_rc (rc : V → ℕ) (cs : List V) (u : V) :
    (release rc cs).2 u = rc u - cs.count u := by
  induction cs generalizing rc with
  | nil => simp [release]
  | cons c cs ih =>
    simp only [release]
    rw [ih, Function.update_apply]
    by_cases h : u = c
    · subst h
      rw [if_pos rfl, count_cons_self]
      omega
    · rw [if_neg h, count_cons_of_ne (Ne.symm h)]

/-- A vertex is listed exactly when it was released at all and its counter ends at zero. -/
theorem mem_release (rc : V → ℕ) (cs : List V) (u : V) :
    u ∈ (release rc cs).1 ↔ u ∈ cs ∧ rc u ≤ cs.count u := by
  induction cs generalizing rc with
  | nil => simp [release]
  | cons c cs ih =>
    simp only [release]
    have hih := ih (Function.update rc c (rc c - 1))
    rw [Function.update_apply] at hih
    by_cases h : u = c
    · subst h
      rw [if_pos rfl] at hih
      have hcons : (u ∈ cs ∧ rc u - 1 ≤ cs.count u) ∨ rc u - 1 = 0 ↔ rc u ≤ cs.count u + 1 := by
        constructor
        · rintro (⟨-, hle⟩ | hz) <;> omega
        · intro hle
          by_cases hz : rc u - 1 = 0
          · exact .inr hz
          · exact .inl ⟨count_pos_iff.mp (by omega), by omega⟩
      rw [count_cons_self]
      split
      · rename_i hz
        simp only [mem_cons, true_or, true_iff]
        exact ⟨trivial, by omega⟩
      · rename_i hz
        rw [hih, ← hcons]
        simp [hz]
    · rw [if_neg h] at hih
      rw [count_cons_of_ne (Ne.symm h)]
      split
      · rw [mem_cons, hih, mem_cons]
        simp [h]
      · rw [hih, mem_cons]
        simp [h]

theorem length_release_le (rc : V → ℕ) (cs : List V) : (release rc cs).1.length ≤ cs.length := by
  induction cs generalizing rc with
  | nil => simp [release]
  | cons c cs ih =>
    have := ih (Function.update rc c (rc c - 1))
    simp only [release]
    split <;> simp only [length_cons] <;> omega

/-! ## What holds between two iterations

`G₀` is the graph the loop starts from and `root` the vertex whose last reference was released;
`queue` and `seen` are the loop's own, and `G` is the graph as it now stands. -/

/-- What the loop keeps whatever the counters are worth. `pending` is the half that makes the result
    exact: a stored counter that stands at zero is waiting in the queue, unless it stood at zero
    before the loop began and nothing that lists the vertex has been handled since. -/
structure Swept (G₀ : RefGraph V) (root : V) (queue seen : List V) (G : RefGraph V) : Prop where
  stored : ∀ u, u ∈ G.stored ↔ u ∈ G₀.stored ∧ u ∉ seen
  out : ∀ u ∈ G.stored, G.out u = G₀.out u
  zero : ∀ u ∈ queue, G.rc u = 0
  seen_zero : ∀ u ∈ seen, G.rc u = 0
  reached : ∀ u, u ∈ queue ∨ u ∈ seen → G₀.Reach root u
  pending : ∀ u ∈ G.stored, G.rc u = 0 →
    u ∈ queue ∨ (G₀.rc u = 0 ∧ u ≠ root ∧ ∀ p ∈ seen, ¬ G₀.Edge p u)

namespace Swept

variable {G₀ G : RefGraph V} {w : V → ℕ} {root u : V} {queue seen : List V}

theorem start (hz : G₀.rc root = 0) : Swept G₀ root [root] [] G₀ where
  stored u := by simp
  out u _ := rfl
  zero u hu := by rw [mem_singleton.mp hu]; exact hz
  seen_zero u hu := absurd hu (by simp)
  reached u hu := by
    rcases hu with hu | hu
    · rw [mem_singleton.mp hu]; exact Reach.refl root
    · exact absurd hu (by simp)
  pending u _ hu := by
    by_cases h : u = root
    · exact .inl (by simp [h])
    · exact .inr ⟨hu, h, fun p hp => absurd hp (by simp)⟩

omit [DecidableEq V] in
theorem edge_of_edge (h : Swept G₀ root queue seen G) {p c : V} (he : G.Edge p c) :
    G₀.Edge p c := by
  rw [Edge, ← h.out p he.mem_stored]
  exact he

section

variable (h : Swept G₀ root (u :: queue) seen G)
include h

omit [DecidableEq V] in
theorem skip (hu : u ∈ seen) : Swept G₀ root queue seen G where
  stored := h.stored
  out := h.out
  zero x hx := h.zero x (mem_cons_of_mem _ hx)
  seen_zero := h.seen_zero
  reached x hx := h.reached x (hx.imp_left (mem_cons_of_mem _))
  pending x hx hz := by
    rcases h.pending x hx hz with hq | hq
    · rcases mem_cons.mp hq with rfl | hq
      · exact absurd hu ((h.stored x).mp hx).2
      · exact .inl hq
    · exact .inr hq

theorem absent (hu : u ∉ G.stored) : Swept G₀ root queue (u :: seen) G where
  stored x := by
    rw [h.stored x, mem_cons, not_or]
    constructor
    · intro hx
      exact ⟨hx.1, fun he => hu (he ▸ (h.stored x).mpr hx), hx.2⟩
    · exact fun hx => ⟨hx.1, hx.2.2⟩
  out := h.out
  zero x hx := h.zero x (mem_cons_of_mem _ hx)
  seen_zero x hx := by
    rcases mem_cons.mp hx with rfl | hx
    · exact h.zero x (by simp)
    · exact h.seen_zero x hx
  reached x hx := by
    refine h.reached x ?_
    rcases hx with hx | hx
    · exact .inl (mem_cons_of_mem _ hx)
    · rcases mem_cons.mp hx with rfl | hx
      · exact .inl (by simp)
      · exact .inr hx
  pending x hx hz := by
    rcases h.pending x hx hz with hq | ⟨hz0, hne, hpar⟩
    · rcases mem_cons.mp hq with rfl | hq
      · exact absurd hx hu
      · exact .inl hq
    · refine Or.inr ⟨hz0, hne, fun p hp he => ?_⟩
      rcases mem_cons.mp hp with rfl | hp
      · -- not stored now, so not stored at the start or seen before
        by_cases hs : p ∈ seen
        · exact hpar p hs he
        · exact hu ((h.stored p).mpr ⟨he.mem_stored, hs⟩)
      · exact hpar p hp he

/-- **A stored vertex is dropped**, and the children this brings to zero join the queue. -/
theorem dropped (hu : u ∈ G.stored) :
    Swept G₀ root (queue ++ (release G.rc (G.out u)).1) (u :: seen) (G.drop u) := by
  have hz : G.rc u = 0 := h.zero u (by simp)
  have hrc : ∀ x, G.rc x = 0 → (G.drop u).rc x = 0 := by
    intro x hx
    change (if x = u then 0 else G.rc x - (G.out u).count x) = 0
    split <;> omega
  have hru : G₀.Reach root u := h.reached u (.inl (by simp))
  refine ⟨?_, ?_, ?_, ?_, ?_, ?_⟩
  · intro x
    change x ∈ G.stored.erase u ↔ _
    rw [Finset.mem_erase, h.stored x, mem_cons, not_or]
    exact ⟨fun hx => ⟨hx.2.1, hx.1, hx.2.2⟩, fun hx => ⟨hx.2.1, hx.1, hx.2.2⟩⟩
  · intro x hx
    obtain ⟨hne, hx⟩ := Finset.mem_erase.mp hx
    change (if x = u then [] else G.out x) = _
    rw [if_neg hne]
    exact h.out x hx
  · intro x hx
    rcases mem_append.mp hx with hx | hx
    · exact hrc x (h.zero x (mem_cons_of_mem _ hx))
    · have hle := ((mem_release _ _ _).mp hx).2
      change (if x = u then 0 else G.rc x - (G.out u).count x) = 0
      split <;> omega
  · intro x hx
    rcases mem_cons.mp hx with rfl | hx
    · exact hrc x hz
    · exact hrc x (h.seen_zero x hx)
  · intro x hx
    rcases hx with hx | hx
    · rcases mem_append.mp hx with hx | hx
      · exact h.reached x (.inl (mem_cons_of_mem _ hx))
      · have he : G.Edge u x := ((mem_release _ _ _).mp hx).1
        exact hru.tail (h.edge_of_edge he)
    · rcases mem_cons.mp hx with rfl | hx
      · exact hru
      · exact h.reached x (.inr hx)
  · intro x hx hxz
    obtain ⟨hne, hxs⟩ := Finset.mem_erase.mp hx
    change (if x = u then 0 else G.rc x - (G.out u).count x) = 0 at hxz
    rw [if_neg hne] at hxz
    -- A child of `u` at zero has been queued, whether or not it was at zero before.
    by_cases hxu : x ∈ G.out u
    · exact .inl (mem_append_right _ ((mem_release _ _ _).mpr ⟨hxu, by omega⟩))
    · rw [count_eq_zero_of_not_mem hxu, Nat.sub_zero] at hxz
      rcases h.pending x hxs hxz with hq | ⟨hz0, hroot, hpar⟩
      · rcases mem_cons.mp hq with rfl | hq
        · exact absurd rfl hne
        · exact .inl (mem_append_left _ hq)
      · refine Or.inr ⟨hz0, hroot, fun p hp he => ?_⟩
        rcases mem_cons.mp hp with rfl | hp
        · rw [Edge, ← h.out p hu] at he
          exact hxu he
        · exact hpar p hp he

end

/-- A node below the root that is still there at the end is kept by something other than the
    root, provided no counter is higher than its weight and its in-degree. -/
theorem kept (h : Swept G₀ root [] seen G) (hl : G.Light w) (hac : G₀.Acyclic)
    {v : V} (hv : v ∈ G.stored) (hrv : G₀.Reach root v) :
    ∃ t, (0 < w t ∨ (t ∈ G₀.stored ∧ ¬ G₀.Reach root t)) ∧ G₀.Reach t v := by
  classical
  let Keeps : V → Prop := fun x =>
    ∃ t, (0 < w t ∨ (t ∈ G₀.stored ∧ ¬ G₀.Reach root t)) ∧ G₀.Reach t x
  let S := G.stored.filter fun x => G₀.Reach root x ∧ ¬ Keeps x
  have hS : S = ∅ := by
    refine hac.eq_empty_of_parents fun x hx => ?_
    obtain ⟨hxs, hxr, hxn⟩ := Finset.mem_filter.mp hx
    have hw : w x = 0 := by
      by_contra hne
      exact hxn ⟨x, .inl (Nat.pos_of_ne_zero hne), Reach.refl x⟩
    -- Its parent on the way from the root is still stored: else its counter would be zero, and it
    -- would have been queued when that parent was dropped.
    have hin : 0 < G.inDeg x := by
      by_contra hnone
      have hle := hl x
      rcases h.pending x hxs (by omega) with hq | ⟨-, hne, hpar⟩
      · exact absurd hq (by simp)
      · obtain ⟨p, -, he⟩ := hxr.exists_parent hne
        have hp : p ∉ G.stored := by
          intro hp
          refine hnone (inDeg_pos_iff.mpr ⟨p, ?_⟩)
          rw [Edge, h.out p hp]
          exact he
        refine hpar p ?_ he
        by_contra hs
        exact hp ((h.stored p).mpr ⟨he.mem_stored, hs⟩)
    obtain ⟨p, hp⟩ := inDeg_pos_iff.mp hin
    have hp0 : G₀.Edge p x := h.edge_of_edge hp
    have hpr : G₀.Reach root p := by
      by_contra hn
      exact hxn ⟨p, .inr ⟨hp0.mem_stored, hn⟩, Relation.ReflTransGen.single hp0⟩
    refine ⟨p, Finset.mem_filter.mpr ⟨hp.mem_stored, hpr, ?_⟩, hp0⟩
    rintro ⟨t, ht, hreach⟩
    exact hxn ⟨t, ht, hreach.tail hp0⟩
  by_contra hn
  have : v ∈ S := Finset.mem_filter.mpr ⟨hv, hrv, hn⟩
  rw [hS] at this
  exact absurd this (by simp)

theorem inDeg_root (h : Swept G₀ root [] seen G) (hac : G₀.Acyclic) :
    G.inDeg root = G₀.inDeg root := by
  have hsub : G.stored ⊆ G₀.stored := fun p hp => ((h.stored p).mp hp).1
  have hsame : G.inDeg root = ∑ p ∈ G.stored, (G₀.out p).count root :=
    Finset.sum_congr rfl fun p hp => by rw [h.out p hp]
  rw [hsame]
  refine Finset.sum_subset hsub fun p hp hn => count_eq_zero_of_not_mem fun he => ?_
  refine hac.parent_not_reach (p := p) he (h.reached p (.inr ?_))
  by_contra hs
  exact hn ((h.stored p).mpr ⟨hp, hs⟩)

end Swept

structure Cascading (G₀ : RefGraph V) (w : V → ℕ) (root : V) (queue seen : List V)
    (G : RefGraph V) : Prop extends Swept G₀ root queue seen G where
  balanced : G.Balanced w

namespace Cascading

variable {G₀ G : RefGraph V} {w : V → ℕ} {root : V} {queue seen : List V}

/-- Whatever carries weight, or lies outside the root's reach, **protects everything below it**:
    the nodes it reaches are still stored. -/
theorem protects (h : Cascading G₀ w root queue seen G) {t v : V}
    (ht : 0 < w t ∨ (t ∈ G₀.stored ∧ ¬ G₀.Reach root t)) (hr : G₀.Reach t v)
    (hv : v ∈ G₀.stored) : v ∈ G.stored := by
  have hseen : t ∉ seen := by
    intro hs
    rcases ht with hw | ⟨-, hn⟩
    · have := (h.balanced.zero_iff.mp (h.seen_zero t hs)).1
      omega
    · exact hn (h.reached t (.inr hs))
  induction hr with
  | refl => exact (h.stored t).mpr ⟨hv, hseen⟩
  | @tail b c _ he ih =>
    -- The parent is still stored, so the child still has a parent and was never released.
    have hb : b ∈ G.stored := ih he.mem_stored
    refine (h.stored c).mpr ⟨hv, fun hs => ?_⟩
    refine (h.balanced.zero_iff.mp (h.seen_zero c hs)).2 b ?_
    rw [Edge, h.out b hb]
    exact he

/-- **What a finished cascade has dropped**: the nodes below the root that no weight reaches and
    no node outside the root's reach points to, however indirectly. -/
theorem dropped_iff (h : Cascading G₀ w root [] seen G) (hac : G₀.Acyclic)
    {v : V} (hv : v ∈ G₀.stored) :
    v ∉ G.stored ↔ G₀.Reach root v ∧ (¬ ∃ t, 0 < w t ∧ G₀.Reach t v) ∧
      ¬ ∃ p, p ∈ G₀.stored ∧ ¬ G₀.Reach root p ∧ G₀.Reach p v := by
  constructor
  · intro hn
    have hseen : v ∈ seen := by
      by_contra hs
      exact hn ((h.stored v).mpr ⟨hv, hs⟩)
    refine ⟨h.reached v (.inr hseen), ?_, ?_⟩
    · rintro ⟨t, ht, hr⟩
      exact hn (h.protects (.inl ht) hr hv)
    · rintro ⟨p, hp, hnr, hr⟩
      exact hn (h.protects (.inr ⟨hp, hnr⟩) hr hv)
  · rintro ⟨hr, hnt, hnp⟩ hs
    obtain ⟨t, ht | ⟨hts, htn⟩, hreach⟩ := h.toSwept.kept h.balanced.light hac hs hr
    · exact hnt ⟨t, ht, hreach⟩
    · exact hnp ⟨t, hts, htn, hreach⟩

end Cascading

/-! ## Releasing one reference, whole

Whether or not the loop ran: the counter of the root was positive after the release, and nothing
happened, or it was zero and the loop emptied its queue. -/

/-- The graph `G` after one reference to `root` was released from a graph whose counters, with
    that reference already taken off, were `G₀`'s. -/
structure Released (G₀ : RefGraph V) (w : V → ℕ) (root : V) (G : RefGraph V) : Prop where
  balanced : G.Balanced w
  sub : ∀ u ∈ G.stored, u ∈ G₀.stored ∧ G.out u = G₀.out u
  protects : ∀ t v, (0 < w t ∨ (t ∈ G₀.stored ∧ ¬ G₀.Reach root t)) → G₀.Reach t v →
    v ∈ G₀.stored → v ∈ G.stored
  fresh : ∀ u ∈ G.stored, G.rc u = 0 → G₀.rc u = 0 ∧ u ≠ root
  dropped_zero : ∀ u ∈ G₀.stored, u ∉ G.stored → G.rc u = 0
  dropped_iff : G₀.Acyclic → ∀ v ∈ G₀.stored, v ∉ G.stored ↔
    G₀.Reach root v ∧ (¬ ∃ t, 0 < w t ∧ G₀.Reach t v) ∧
      ¬ ∃ p, p ∈ G₀.stored ∧ ¬ G₀.Reach root p ∧ G₀.Reach p v

theorem Cascading.released {G₀ G : RefGraph V} {seen : List V}
    (h : Cascading G₀ w root [] seen G) : Released G₀ w root G where
  balanced := h.balanced
  sub u hu := ⟨((h.stored u).mp hu).1, h.out u hu⟩
  protects _ _ ht hr hv := h.protects ht hr hv
  fresh u hu hz := by
    obtain ⟨hz0, hne, -⟩ := (h.pending u hu hz).resolve_left (by simp)
    exact ⟨hz0, hne⟩
  dropped_zero u hu hn := by
    by_cases hs : u ∈ seen
    · exact h.seen_zero u hs
    · exact absurd ((h.stored u).mpr ⟨hu, hs⟩) hn
  dropped_iff hac _ hv := h.dropped_iff hac hv

theorem Released.below {G₀ G : RefGraph V} {a v : V} (h : Released G₀ w root G)
    (ha : a ∈ G.stored) (hr : G₀.Reach a v) (hv : v ∈ G₀.stored) : v ∈ G.stored := by
  induction hr with
  | refl => exact ha
  | @tail p q _ he ih =>
    have hp : p ∈ G.stored := ih he.mem_stored
    have hin : 0 < G.inDeg q := by
      refine inDeg_pos_iff.mpr ⟨p, ?_⟩
      rw [Edge, (h.sub p hp).2]
      exact he
    by_contra hn
    have hzero := h.dropped_zero q hv hn
    rw [h.balanced q] at hzero
    omega

theorem released_of_pos {G₀ : RefGraph V} (hb : G₀.Balanced w)
    (hpos : 0 < G₀.rc root) : Released G₀ w root G₀ where
  balanced := hb
  sub u hu := ⟨hu, rfl⟩
  protects _ _ _ _ hv := hv
  fresh u _ hz := ⟨hz, fun he => by rw [he] at hz; omega⟩
  dropped_zero u hu hn := absurd hu hn
  dropped_iff hac v hv := by
    refine ⟨fun hn => absurd hv hn, ?_⟩
    rintro ⟨hr, hnt, hnp⟩
    exfalso
    by_cases hw : 0 < w root
    · exact hnt ⟨root, hw, hr⟩
    · have hin : 0 < G₀.inDeg root := by
        have := hb root
        omega
      obtain ⟨p, hp⟩ := inDeg_pos_iff.mp hin
      exact hnp ⟨p, hp.mem_stored, hac.parent_not_reach hp,
        (Relation.ReflTransGen.single hp).trans hr⟩

end RefGraph
