import Pullrun.Proof.Net.Proxy
import Pullrun.Vm.Executor

/-!
# A teardown that comes late

`stop` leaves a task behind that will tear down whatever is recorded under its id when it runs.
-/

namespace Pullrun.Vm.Executor

open Net Schedule List ProxyNetwork Function

/-! ## Who holds a handle -/

def handlesOf : Option Create → List Handle
  | some c => c.collected.proxyHandles
  | none => []

def holds (s : Executor) : Str ⊕ ℕ → List Handle
  | .inl id => s.proxy.recorded id
  | .inr call => handlesOf (s.creates call)

structure Inv (s : Executor) : Prop where
  bound : ∀ x, ∀ h ∈ s.holds x, h.task < s.proxy.next
  once : ∀ x y h h', h ∈ s.holds x → h' ∈ s.holds y → h.task = h'.task → x = y
  active : ∀ call c, s.creates call = some c → s.Active c

theorem inv_new : new.Inv where
  bound x h hh := by cases x <;> cases hh
  once x y h h' hh := by cases x <;> cases hh
  active call c h := by cases h

variable {s s' : Executor} {call : ℕ} {c : Create} {a : Action}

theorem Inv.of_holds (hs : s.Inv) (σ : Str ⊕ ℕ ≃ Str ⊕ ℕ) (z : Str ⊕ ℕ)
    (hnext : s.proxy.next ≤ s'.proxy.next)
    (hholds : ∀ x, ∀ h ∈ s'.holds x, h ∈ s.holds (σ x) ∨
      x = z ∧ h.task = s.proxy.next ∧ s.proxy.next < s'.proxy.next)
    (hactive : ∀ call c, s'.creates call = some c → s'.Active c) : s'.Inv where
  bound x h hh := by
    rcases hholds x h hh with hold | ⟨-, htask, hlt⟩
    · have := hs.bound _ h hold
      omega
    · omega
  once x y h h' hh hh' heq := by
    rcases hholds x h hh with hold | ⟨hx, htask, -⟩ <;> rcases hholds y h' hh' with hold' | ⟨hy, htask', -⟩
    · exact σ.injective (hs.once _ _ h h' hold hold' heq)
    · have := hs.bound _ h hold
      omega
    · have := hs.bound _ h' hold'
      omega
    · rw [hx, hy]
  active := hactive

/-! ## Steps -/

/-- All that a step can do. A turn of the loop gives up or passes over a rule, or it starts a
    listener. -/
inductive Steps (s : Executor) : Action → Executor → Prop
  | stop (id : Str) (spawns : Bool) :
      Steps s (.stop id spawns) { s with teardowns := if spawns then id :: s.teardowns else s.teardowns }
  | create (call : ℕ) (id : Str) (rules : List NetworkRule) (hnone : s.creates call = none) :
      Steps s (.create call id rules)
        { s with creates := Function.update s.creates call (some ⟨id, rules, {}⟩) }
  | pass (call : ℕ) (answer : Option UInt16) (c : Create) (o : Option Create)
      (hc : s.creates call = some c) (ho : ∀ c' ∈ o, c'.id = c.id ∧ c'.collected = c.collected) :
      Steps s (.bind call answer) { s with creates := Function.update s.creates call o }
  | start (call : ℕ) (answer : Option UInt16) (c : Create) (rules : List NetworkRule) (port : UInt16)
      (mappings : List (UInt16 × UInt16)) (hc : s.creates call = some c) :
      Steps s (.bind call answer)
        { s with
          proxy := { s.proxy with
            live := ⟨s.proxy.next, c.id, port⟩ :: s.proxy.live
            next := s.proxy.next + 1 }
          creates := Function.update s.creates call (some ⟨c.id, rules,
            ⟨c.collected.proxyHandles ++ [⟨s.proxy.next, some port⟩], mappings⟩⟩) }
  | record (call : ℕ) (c : Create) (hc : s.creates call = some c) :
      Steps s (.record call)
        { s with
          proxy := s.proxy.record c.id c.collected
          creates := Function.update s.creates call none }
  | teardown (id : Str) :
      Steps s (.teardown id)
        { s with proxy := s.proxy.teardown id, teardowns := s.teardowns.erase id }

theorem steps_bindNext {rule : NetworkRule} {rules : List NetworkRule}
    {answer : Option UInt16} (hc : s.creates call = some c) :
    Steps s (.bind call answer) (s.bindNext call c rule rules answer) := by
  unfold bindNext
  split
  · unfold startInboundProxy
    cases bind s.proxy.livePorts rule.bindsTo answer with
    | none => exact .pass call answer c none hc (by simp)
    | some port => exact .start call answer c rules port _ hc
  · exact .pass call answer c _ hc (by simp)

theorem steps_of_step (h : s.step a = some s') : Steps s a s' := by
  revert h
  fun_cases s.step a with
  | case1 id spawns => rintro ⟨⟩; exact .stop id spawns
  | case3 call id rules hc => rintro ⟨⟩; exact .create call id rules hc
  | case4 call answer id rule rules collected hc => rintro ⟨⟩; exact steps_bindNext hc
  | case6 call id collected hc => rintro ⟨⟩; exact .record call _ hc
  | case8 id => rintro ⟨⟩; exact .teardown id
  | case2 | case5 | case7 | case9 => rintro ⟨⟩

theorem holds_update (s : Executor) (call : ℕ) (o : Option Create) (x : Str ⊕ ℕ) :
    ({ s with creates := Function.update s.creates call o } : Executor).holds x =
      if x = .inr call then handlesOf o else s.holds x := by
  cases x with
  | inl id => simp [holds]
  | inr call' =>
    by_cases h : call' = call
    · subst h
      simp [holds]
    · simp [holds, h]

theorem of_update {o : Option Create} {P : ℕ → Create → Prop} (hnew : ∀ c ∈ o, P call c)
    (hold : ∀ call' c, call' ≠ call → s.creates call' = some c → P call' c) (call' : ℕ) (c : Create)
    (hc : Function.update s.creates call o call' = some c) : P call' c := by
  by_cases heq : call' = call
  · subst heq
    rw [update_self] at hc
    exact hnew c hc
  · rw [update_of_ne heq] at hc
    exact hold call' c heq hc

theorem Inv.update (hs : s.Inv) {o : Option Create}
    (ho : ∀ c' ∈ o, c'.collected.proxyHandles = [] ∨
      ∃ c, s.creates call = some c ∧ c'.id = c.id ∧ c'.collected = c.collected) :
    ({ s with creates := Function.update s.creates call o } : Executor).Inv := by
  refine hs.of_holds (.refl _) (.inr call) (le_refl _) ?_ ?_
  · intro x h hh
    rw [holds_update] at hh
    refine Or.inl ?_
    split at hh
    · rename_i hx
      cases o with
      | none => cases hh
      | some c' =>
        rcases ho c' rfl with hnil | ⟨c, hc, -, hsame⟩
        · rw [handlesOf, hnil] at hh
          cases hh
        · rw [Equiv.refl_apply, hx, holds, hc, handlesOf, ← hsame]
          exact hh
    · exact hh
  · refine of_update (fun c' hc' => ?_) fun call' c' _ => hs.active call' c'
    rcases ho c' hc' with hnil | ⟨c, hc, hid, hsame⟩
    · intro h hh
      rw [hnil] at hh
      cases hh
    · have hact := hs.active call c hc
      unfold Active at hact ⊢
      rw [hid, hsame]
      exact hact

theorem Inv.start (hs : s.Inv) (hc : s.creates call = some c)
    (rules : List NetworkRule) (port : UInt16) (mappings : List (UInt16 × UInt16)) :
    ({ s with
        proxy := { s.proxy with
          live := ⟨s.proxy.next, c.id, port⟩ :: s.proxy.live
          next := s.proxy.next + 1 }
        creates := Function.update s.creates call (some ⟨c.id, rules,
          ⟨c.collected.proxyHandles ++ [⟨s.proxy.next, some port⟩], mappings⟩⟩) } : Executor).Inv := by
  refine hs.of_holds (.refl _) (.inr call) (Nat.le_succ _) ?_ ?_
  · intro x h hh
    cases x with
    | inl id => exact .inl hh
    | inr call' =>
      by_cases heq : call' = call
      · subst heq
        simp only [holds, update_self, handlesOf, mem_append, mem_singleton] at hh
        rcases hh with hh | rfl
        · refine Or.inl ?_
          rw [Equiv.refl_apply, holds, hc]
          exact hh
        · exact .inr ⟨rfl, rfl, Nat.lt_succ_self _⟩
      · simp only [holds, update_of_ne heq] at hh
        exact .inl hh
  · refine of_update ?_ fun call' c' _ hc' h hh port' hport =>
      mem_cons_of_mem _ (hs.active call' c' hc' h hh port' hport)
    rintro _ ⟨⟩ h hh port' hport
    rcases mem_append.mp hh with hh | hh
    · exact mem_cons_of_mem _ (hs.active call c hc h hh port' hport)
    · rw [mem_singleton] at hh
      subst hh
      cases hport
      exact mem_cons_self

theorem Inv.record (hs : s.Inv) (hc : s.creates call = some c) : ({ s with
        proxy := s.proxy.record c.id c.collected
        creates := Function.update s.creates call none } : Executor).Inv := by
  refine hs.of_holds (.swap (.inl c.id) (.inr call)) (.inl c.id) (Nat.le_succ _) ?_ ?_
  · intro x h hh
    cases x with
    | inl id =>
      simp only [holds, recorded_record] at hh
      by_cases hid : id = c.id
      · rw [if_pos hid, mem_append, mem_singleton] at hh
        rw [hid]
        rcases hh with hh | rfl
        · refine Or.inl ?_
          rw [Equiv.swap_apply_left, holds, hc]
          exact hh
        · exact .inr ⟨rfl, rfl, Nat.lt_succ_self _⟩
      · rw [if_neg hid] at hh
        refine Or.inl ?_
        rw [Equiv.swap_apply_of_ne_of_ne (by simpa using hid) (by simp)]
        exact hh
    | inr call' =>
      by_cases heq : call' = call
      · subst heq
        simp only [holds, update_self] at hh
        cases hh
      · simp only [holds, update_of_ne heq] at hh
        refine Or.inl ?_
        rw [Equiv.swap_apply_of_ne_of_ne (by simp) (by simpa using heq)]
        exact hh
  · exact of_update (by rintro _ ⟨⟩) fun call' c' _ => hs.active call' c'

theorem Inv.mem_live_teardown (hs : s.Inv) {id : Str} {x : Str ⊕ ℕ} (hx : x ≠ .inl id)
    {l : Listener} (hh : l.handle ∈ s.holds x) (hl : l ∈ s.proxy.live) :
    l ∈ (s.proxy.teardown id).live := by
  rw [ProxyNetwork.mem_live_teardown]
  refine ⟨hl, fun hmem => ?_⟩
  obtain ⟨h', hh', htask⟩ := mem_map.mp hmem
  exact hx (hs.once x (.inl id) _ h' hh hh' htask.symm)

theorem Inv.teardown (hs : s.Inv) (id : Str) :
    ({ s with proxy := s.proxy.teardown id, teardowns := s.teardowns.erase id } : Executor).Inv := by
  refine hs.of_holds (.refl _) (.inl id) (next_teardown s.proxy id).ge ?_ ?_
  · intro x h hh
    refine Or.inl ?_
    cases x with
    | inl id' =>
      simp only [holds, recorded_teardown] at hh
      split at hh
      · cases hh
      · exact hh
    | inr call => exact hh
  · intro call c hc h hh port hport
    have hl := hs.active call c hc h hh port hport
    refine hs.mem_live_teardown (x := .inr call) (by simp) ?_ hl
    rw [holds, hc]
    change (⟨h.task, some port⟩ : Handle) ∈ c.collected.proxyHandles
    rw [← hport]
    exact hh

theorem Inv.step (hs : s.Inv) (h : s.step a = some s') : s'.Inv := by
  cases steps_of_step h with
  | stop id spawns => exact ⟨hs.bound, hs.once, hs.active⟩
  | create call id rules hnone => exact hs.update fun c' hc' => by cases hc'; exact .inl rfl
  | pass call answer c o hc ho => exact hs.update fun c' hc' => .inr ⟨c, hc, ho c' hc'⟩
  | start call answer c rules port mappings hc => exact hs.start hc rules port mappings
  | record call c hc => exact hs.record hc
  | teardown id => exact hs.teardown id

/-! ## After the listeners are recorded -/

section

variable {id : Str} {c : Create}

def Idle (s : Executor) (id : Str) : Prop := ∀ call c, s.creates call = some c → c.id ≠ id

variable {s s' : Executor} {a : Action} {l : Listener} {task : ℕ}

theorem Idle.update (hidle : s.Idle id) {o : Option Create} (ho : ∀ c ∈ o, c.id ≠ id) :
    ({ s with creates := Function.update s.creates call o } : Executor).Idle id :=
  of_update ho fun call' c _ => hidle call' c

theorem frame_step (hidle : s.Idle id) (htouch : ¬ a.Touches id)
    (hne : a ≠ .teardown id) (h : s.step a = some s') :
    s'.Idle id ∧ s'.proxy.recorded id = s.proxy.recorded id ∧
      (id ∈ s'.teardowns ↔ id ∈ s.teardowns) := by
  cases steps_of_step h with
  | stop id' spawns =>
    have hid : id ≠ id' := fun heq => htouch heq.symm
    refine ⟨hidle, rfl, ?_⟩
    cases spawns <;> simp [hid]
  | create call id' rules hnone =>
    exact ⟨hidle.update fun c hc => (by cases hc; exact htouch), rfl, Iff.rfl⟩
  | pass call answer c o hc ho =>
    exact ⟨hidle.update fun c' hc' => (by rw [(ho c' hc').1]; exact hidle call c hc), rfl, Iff.rfl⟩
  | start call answer c rules port mappings hc =>
    exact ⟨hidle.update fun c' hc' => (by cases hc'; exact hidle call c hc), rfl, Iff.rfl⟩
  | record call c hc =>
    have hid : id ≠ c.id := fun heq => hidle call c hc heq.symm
    refine ⟨hidle.update fun c' hc' => (by cases hc'), ?_, Iff.rfl⟩
    rw [recorded_record, if_neg hid]
  | teardown id' =>
    have hid : id ≠ id' := fun heq => hne (by rw [heq])
    refine ⟨hidle, ?_, ?_⟩
    · rw [recorded_teardown, if_neg hid]
    · rw [mem_erase_of_ne hid]

theorem Inv.mem_live_step (hs : s.Inv) (hne : a ≠ .teardown id)
    (h : s.step a = some s') (hh : l.handle ∈ s.proxy.recorded id)
    (hl : l ∈ s.proxy.live) : l ∈ s'.proxy.live := by
  cases steps_of_step h with
  | start call answer c rules port mappings hc => exact mem_cons_of_mem _ hl
  | teardown id' =>
    refine hs.mem_live_teardown (x := .inl id) ?_ hh hl
    intro heq
    injection heq with heq
    exact hne (by rw [heq])
  | _ => exact hl

theorem gone_step (h : s.step a = some s')
    (hgone : ∀ l ∈ s.proxy.live, l.task ≠ task) (hlt : task < s.proxy.next) :
    (∀ l ∈ s'.proxy.live, l.task ≠ task) ∧ task < s'.proxy.next := by
  cases steps_of_step h with
  | start call answer c rules port mappings hc =>
    refine ⟨?_, Nat.lt_succ_of_lt hlt⟩
    intro l hl
    rcases mem_cons.mp hl with rfl | hl
    · exact hlt.ne'
    · exact hgone l hl
  | record call c hc => exact ⟨hgone, Nat.lt_succ_of_lt hlt⟩
  | teardown id' =>
    refine ⟨fun l hl => hgone l ((mem_live_teardown _ _ _).mp hl).1, ?_⟩
    rw [next_teardown]
    exact hlt
  | _ => exact ⟨hgone, hlt⟩

/-- The actions that follow touch the workload no more. -/
def Leaves (id : Str) (as : List Action) : Prop := ∀ a ∈ as, ¬ a.Touches id

theorem live_of_not_waiting {as : List Action} {s t : Executor} (hs : s.Inv) (hidle : s.Idle id)
    (hleaves : Leaves id as) (hwait : id ∉ s.teardowns) (hh : l.handle ∈ s.proxy.recorded id)
    (hl : l ∈ s.proxy.live) (hrun : run step s as = some t) : l ∈ t.proxy.live := by
  induction as generalizing s t with
  | nil =>
    cases hrun
    exact hl
  | cons a as ih =>
    obtain ⟨s', hstep, hrun⟩ := run_cons_eq_some.mp hrun
    have hne : a ≠ .teardown id := by
      rintro rfl
      rw [step, if_neg hwait] at hstep
      cases hstep
    obtain ⟨hidle', hrec, hiff⟩ := frame_step hidle (hleaves a mem_cons_self) hne hstep
    exact ih (hs.step hstep) hidle' (fun b hb => hleaves b (mem_cons_of_mem _ hb))
      (fun hmem => hwait (hiff.mp hmem)) (by rw [hrec]; exact hh)
      (hs.mem_live_step hne hstep hh hl) hrun

theorem gone_run {as : List Action} {t : Executor}
    (hgone : ∀ l ∈ s.proxy.live, l.task ≠ task) (hlt : task < s.proxy.next)
    (hrun : run step s as = some t) : ∀ l ∈ t.proxy.live, l.task ≠ task := by
  have hend := run_inv' (fun s : Executor => (∀ l ∈ s.proxy.live, l.task ≠ task) ∧
    task < s.proxy.next) (fun s a s' hs h => gone_step h hs.1 hs.2) ⟨hgone, hlt⟩ hrun
  exact hend.1

theorem gone_of_waiting {h : Handle} {as : List Action} {s t : Executor} (hs : s.Inv)
    (hidle : s.Idle id) (hleaves : Leaves id as) (hwait : id ∈ s.teardowns)
    (hh : h ∈ s.proxy.recorded id) (hrun : run step s as = some t) (hdone : id ∉ t.teardowns) :
    ∀ l ∈ t.proxy.live, l.task ≠ h.task := by
  induction as generalizing s t with
  | nil =>
    cases hrun
    exact absurd hwait hdone
  | cons a as ih =>
    obtain ⟨s', hstep, hrun⟩ := run_cons_eq_some.mp hrun
    by_cases hne : a = .teardown id
    · subst hne
      rw [step, if_pos hwait] at hstep
      cases hstep
      refine gone_run ?_ ?_ hrun
      · intro l hl heq
        refine ((mem_live_teardown _ _ _).mp hl).2 ?_
        rw [heq]
        exact mem_map_of_mem hh
      · rw [next_teardown]
        exact hs.bound (.inl id) h hh
    · obtain ⟨hidle', hrec, hiff⟩ := frame_step hidle (hleaves a mem_cons_self) hne hstep
      exact ih (hs.step hstep) hidle' (fun b hb => hleaves b (mem_cons_of_mem _ hb))
        (hiff.mpr hwait) (by rw [hrec]; exact hh) hrun hdone

/-- **When the listeners of a `create` survive**: if no teardown of the id waits as they are recorded. -/
theorem active_iff_torn_down {before after : List Action} {s t : Executor} {call : ℕ}
    (hbefore : Schedule.run step new before = some s) (hc : s.creates call = some c)
    (hlistens : ∃ h ∈ c.collected.proxyHandles, h.port.isSome)
    (halone : ∀ call' c', s.creates call' = some c' → c'.id = c.id → call' = call)
    (hleaves : Leaves c.id after)
    (hafter : Schedule.run step s (.record call :: after) = some t) (hdone : t.teardowns = []) :
    t.Active c ↔ c.id ∉ s.teardowns := by
  have hs : s.Inv :=
    run_inv' Inv (fun s a s' hs h => hs.step h) inv_new hbefore
  obtain ⟨s', hstep, hrun⟩ := run_cons_eq_some.mp hafter
  have hs' := hs.step hstep
  cases steps_of_step hstep with
  | record call c₁ hc₁ =>
    rw [hc] at hc₁
    cases hc₁
    have hidle : Idle
        { s with
          proxy := s.proxy.record c.id c.collected
          creates := update s.creates call none } c.id :=
      of_update (by rintro _ ⟨⟩) fun call' c' hne hc' hid => hne (halone call' c' hc' hid)
    have hrec : ∀ h ∈ c.collected.proxyHandles, h ∈ (s.proxy.record c.id c.collected).recorded c.id := by
      intro h hh
      rw [recorded_record, if_pos rfl]
      exact mem_append_left _ hh
    constructor
    · intro hactive hwait
      obtain ⟨h, hh, hport⟩ := hlistens
      obtain ⟨port, hport⟩ := Option.isSome_iff_exists.mp hport
      exact gone_of_waiting hs' hidle hleaves hwait (hrec h hh) hrun (by simp [hdone])
        _ (hactive h hh port hport) rfl
    · intro hwait h hh port hport
      refine live_of_not_waiting hs' hidle hleaves hwait ?_ (hs.active call c hc h hh port hport) hrun
      have heq : (⟨h.task, some port⟩ : Handle) = h := by rw [← hport]
      change (⟨h.task, some port⟩ : Handle) ∈ _
      rw [heq]
      exact hrec h hh

end

/-! ## A machine that is stopped and created again -/

namespace Sample

def web : NetworkRule := ⟨.inbound, .tcp, 80, 8080⟩
def tls : NetworkRule := ⟨.inbound, .tcp, 443, 8443⟩

def relaunch : List Action :=
  [.create 0 ['a'] [web], .bind 0 (some 0), .record 0, .stop ['a'] true, .create 1 ['a'] [tls],
    .bind 1 (some 0)]

def relaunchAfter : List Action :=
  [.create 0 ['a'] [web], .bind 0 (some 0), .record 0, .stop ['a'] true, .teardown ['a'],
    .create 1 ['a'] [web], .bind 1 (some 0)]

def second (rule : NetworkRule) (task : ℕ) : Create :=
  ⟨['a'], [], ⟨[⟨task, some rule.hostPort⟩], [(rule.hostPort, rule.port)]⟩⟩

end Sample

open Pullrun.Vm.Executor.Sample

theorem relaunch_torn_down :
    ∃ t, Schedule.run step new (relaunch ++ [.record 1, .teardown ['a']]) = some t ∧
      t.teardowns = [] ∧ t.proxy.live = [⟨0, ['a'], 8080⟩] ∧ ¬ t.Active (second tls 2) := by
  refine ⟨_, rfl, rfl, rfl, fun h => ?_⟩
  have hlive := h ⟨2, some 8443⟩ (by decide) 8443 rfl
  exact absurd hlive (by decide)

def relaunched : Executor := (Schedule.run step new relaunchAfter).getD new

theorem relaunched_alone :
    ∀ call c, relaunched.creates call = some c → c.id = (second web 2).id → call = 1 := by
  intro call c hc _
  match call with
  | 0 => cases hc
  | 1 => rfl
  | call + 2 => cases hc

theorem relaunch_active :
    ∃ t, Schedule.run step new relaunchAfter = some relaunched ∧
      Schedule.run step relaunched [.record 1] = some t ∧ t.Active (second web 2) := by
  have hbefore : run step new relaunchAfter = some relaunched := rfl
  have hleaves : Leaves (second web 2).id [] := by
    intro a ha
    cases ha
  refine ⟨_, hbefore, rfl, ?_⟩
  exact (active_iff_torn_down hbefore (c := second web 2) rfl ⟨_, mem_cons_self, rfl⟩
    relaunched_alone hleaves rfl rfl).mpr (by decide)

end Pullrun.Vm.Executor
