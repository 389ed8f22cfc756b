import Pullrun.Vm.Pool

/-!
# When the pool keeps to its size

A refill that has begun may still add as many machines as it found missing.
-/

namespace Pullrun.Vm.VmPool

open Function Schedule

variable {poolSize : ℕ} {s s' : VmPool} {t : RefillTask}

theorem outstanding_goOn (n : ℕ) : (goOn n).outstanding = n := by
  cases n <;> rfl

structure Inv (poolSize : ℕ) (s : VmPool) : Prop where
  room : ∀ t, s.pool.length + (s.tasks t).outstanding ≤ poolSize
  one : ∀ t t', (s.tasks t).outstanding ≠ 0 → (s.tasks t').outstanding ≠ 0 → t = t'
  taps : s.alive.Pairwise fun v w => v.tapName ≠ w.tapName
  /-- The machine that is being booted may have its name. -/
  tapped : ∀ t b n, s.tasks t = .tapped b n → ∀ vm ∈ s.alive, vm.tapName ≠ poolTapName b

theorem inv_new : (new).Inv poolSize where
  room _ := Nat.zero_le _
  one _ _ h := absurd rfl h
  taps := .nil
  tapped t b n h := by cases h

theorem Inv.sound (hs : s.Inv poolSize) : s.Sound poolSize :=
  ⟨le_trans (Nat.le_add_right _ _) (hs.room .initial), hs.taps⟩

theorem Inv.shrink (hs : s.Inv poolSize) {pool alive : List PoolVm}
    (hpool : pool.length ≤ s.pool.length) (halive : alive.Sublist s.alive) :
    { s with pool := pool, alive := alive }.Inv poolSize where
  room t := le_trans (Nat.add_le_add_right hpool _) (hs.room t)
  one := hs.one
  taps := hs.taps.sublist halive
  tapped t b n h vm hvm := hs.tapped t b n h vm (halive.subset hvm)

theorem Inv.alone (hs : s.Inv poolSize) (h : (s.tasks t).outstanding ≠ 0) :
    ∀ t', t' ≠ t → (s.tasks t').outstanding = 0 := by
  intro t' hne
  by_contra hbusy
  exact hne (hs.one t' t hbusy h)

theorem inv_update {r : Refill} {pool alive : List PoolVm} {filled : Bool} {serial : ℕ}
    (halone : ∀ t', t' ≠ t → (s.tasks t').outstanding = 0)
    (hroom : pool.length + r.outstanding ≤ poolSize)
    (htaps : alive.Pairwise fun v w => v.tapName ≠ w.tapName)
    (htapped : ∀ b n, r = .tapped b n → ∀ vm ∈ alive, vm.tapName ≠ poolTapName b) :
    VmPool.Inv poolSize ⟨pool, alive, update s.tasks t r, filled, serial⟩ where
  room t' := by
    dsimp only
    by_cases h : t' = t
    · rw [h, update_self]
      exact hroom
    · rw [update_of_ne h, halone t' h]
      exact le_trans (Nat.add_le_add_left (Nat.zero_le _) _) hroom
  one t1 t2 h1 h2 := by
    have heq : ∀ t', (update s.tasks t r t').outstanding ≠ 0 → t' = t := by
      intro t' hbusy
      by_contra h
      rw [update_of_ne h] at hbusy
      exact hbusy (halone t' h)
    rw [heq t1 h1, heq t2 h2]
  taps := htaps
  tapped t' b n h vm hvm := by
    dsimp only at h
    by_cases heq : t' = t
    · rw [heq, update_self] at h
      exact htapped b n h vm hvm
    · have hbusy := halone t' heq
      rw [update_of_ne heq] at h
      rw [h] at hbusy
      cases hbusy

theorem Inv.idle (hs : s.Inv poolSize) (t : RefillTask) :
    { s with tasks := update s.tasks t .idle }.Inv poolSize := by
  have hupdate : ∀ t', update s.tasks t .idle t' = .idle ∨
      update s.tasks t .idle t' = s.tasks t' := by
    intro t'
    rw [update_apply]
    split
    · exact .inl rfl
    · exact .inr rfl
  constructor
  · intro t'
    dsimp only
    rcases hupdate t' with h | h
    · rw [h]
      exact hs.sound.1
    · rw [h]
      exact hs.room t'
  · intro t1 t2 h1 h2
    dsimp only at h1 h2
    rcases hupdate t1 with h | h
    · rw [h] at h1
      exact absurd rfl h1
    · rcases hupdate t2 with h' | h'
      · rw [h'] at h2
        exact absurd rfl h2
      · rw [h] at h1
        rw [h'] at h2
        exact hs.one t1 t2 h1 h2
  · exact hs.taps
  · intro t' b n h
    dsimp only at h
    rcases hupdate t' with h' | h'
    · rw [h'] at h
      cases h
    · rw [h'] at h
      exact hs.tapped t' b n h

theorem tapName_ne_of_digits {vm : PoolVm} {b : Fin 16 → UInt8} (h : poolDigits vm.b ≠ poolDigits b) :
    vm.tapName ≠ poolTapName b :=
  fun heq => h ((poolTapName_eq_iff vm.b b).mp heq)

theorem Inv.step (hs : s.Inv poolSize) {a : Action} (horderly : s.Orderly a)
    (h : s.step poolSize a = some s') : s'.Inv poolSize := by
  revert h
  fun_cases s.step poolSize a with
  | case1 | case3 | case5 | case7 | case9 => rintro ⟨⟩
  | case2 t ht =>
    rintro ⟨⟩
    refine inv_update horderly ?_ hs.taps ?_
    · have hroom := hs.sound.1
      rw [outstanding_goOn]
      omega
    · intro b n hr
      cases hn : poolSize - s.pool.length with
      | zero | succ k => rw [hn] at hr; cases hr
  | case4 t b n ht =>
    rintro ⟨⟩
    have hroom := hs.room t
    rw [ht] at hroom
    refine inv_update (hs.alone (by rw [ht]; exact Nat.succ_ne_zero n)) hroom hs.taps ?_
    rintro _ _ ⟨⟩ vm hvm
    exact tapName_ne_of_digits (horderly vm hvm)
  | case6 t b n ht =>
    rintro ⟨⟩
    have hroom := hs.room t
    rw [ht] at hroom
    refine inv_update (hs.alone (by rw [ht]; exact Nat.succ_ne_zero n)) hroom ?_ (by rintro _ _ ⟨⟩)
    exact List.pairwise_cons.mpr ⟨fun vm hvm => (hs.tapped t b n ht vm hvm).symm, hs.taps⟩
  | case8 t vm n ht =>
    rintro ⟨⟩
    have hroom := hs.room t
    rw [ht, Refill.outstanding] at hroom
    refine inv_update (hs.alone (by rw [ht]; exact Nat.succ_ne_zero n)) ?_ hs.taps ?_
    · rw [outstanding_goOn, List.length_append, List.length_singleton]
      omega
    · intro b k hr
      cases n <;> cases hr
  | case10 t => rintro ⟨⟩; exact hs.idle t
  | case11 => rintro ⟨⟩; exact hs.shrink (by rw [List.length_tail]; exact Nat.sub_le _ _) (.refl _)
  | case12 => rintro ⟨⟩; exact hs.shrink (List.length_filter_le _ _) (.refl _)
  | case13 => rintro ⟨⟩; exact hs.shrink le_rfl List.filter_sublist

/-- **A pool that is refilled by one task at a time keeps to its size, and a boot whose id is told apart by
    three digits takes no tap device away.** -/
theorem sound_of_orderly (poolSize : ℕ) {as : List Action}
    (h : Schedule.Meets (step poolSize) Orderly new as) :
    Schedule.Meets (step poolSize)
      (fun s a => (∀ s', s.step poolSize a = some s' → s'.Sound poolSize) ∧ s.KeepsTaps poolSize a)
      new as := by
  refine Meets.of_inv (Inv poolSize) (fun s a s' hs horderly => hs.step horderly) ?_ inv_new h
  intro s a hs horderly
  refine ⟨fun s' h => (hs.step horderly h).sound, ?_⟩
  cases a with
  | createTap t b => exact fun _ vm hvm => tapName_ne_of_digits (horderly vm hvm)
  | _ => trivial

def sameBytes (x : UInt8) : Fin 16 → UInt8 := fun _ => x

def boot (t : RefillTask) (x : UInt8) : List Action := [.createTap t (sameBytes x), .spawn t, .push t]

def refilledTwice : List Action :=
  .begin .initial :: boot .initial 1 ++ boot .initial 2 ++
    [.acquire, .begin .periodic] ++ boot .periodic 3

theorem refilledTwice_sound : Schedule.Meets (step 2)
    (fun s a => (∀ s', s.step 2 a = some s' → s'.Sound 2) ∧ s.KeepsTaps 2 a) new refilledTwice :=
  sound_of_orderly 2 (by decide +kernel)

def bothBegin : List Action :=
  [.begin .initial, .begin .periodic] ++ boot .initial 1 ++ boot .periodic 2

/-- Two ids that have their first three digits in common: they differ in the fourth byte. -/
def sameDigits : List Action :=
  .begin .initial :: boot .initial 1 ++
    [.createTap .initial (Function.update (sameBytes 1) 3 2), .spawn .initial]

instance (n : ℕ) (s : VmPool) : Decidable (s.Sound n) := inferInstanceAs (Decidable (_ ∧ _))

instance (n : ℕ) (s : VmPool) : ∀ a, Decidable (s.KeepsTaps n a)
  | .createTap _ _ => inferInstanceAs (Decidable (_ → _))
  | .begin _ | .spawn _ | .push _ | .fail _ | .acquire | .checkHealth _ | .exit _ =>
    inferInstanceAs (Decidable True)

theorem too_many_and_same_tap :
    (Schedule.run (step 1) new bothBegin).map (fun s => s.pool.length) = some 2 ∧
      (Schedule.run (step 2) new sameDigits).map (fun s => s.alive.map PoolVm.tapName) =
        some ["tap-pool-010".toList, "tap-pool-010".toList] ∧
      ¬ Schedule.Meets (step 1)
        (fun s a => (∀ s', s.step 1 a = some s' → s'.Sound 1) ∧ s.KeepsTaps 1 a) new bothBegin ∧
      ¬ Schedule.Meets (step 2)
        (fun s a => (∀ s', s.step 2 a = some s' → s'.Sound 2) ∧ s.KeepsTaps 2 a) new sameDigits := by
  decide +kernel

end Pullrun.Vm.VmPool
