import Pullrun.Proof.Workload.Announced

/-!
# Attempts to restart a workload

A tick looks at what is recorded as running. The watcher records an ended workload as exited before it
attempts to restart it, and an attempt that fails leaves the record as it is, whatever the policy: no tick
looks at the workload again.
-/

namespace Pullrun

open WorkloadTable Schedule Option

/-- The watcher is in `attempt_restart`. -/
def Watch.attempting (id : Str) : Watch → Bool
  | .attempt id' _ | .sleep id' _ | .create id' _ | .start id' _ | .started id' _ _ => id' = id
  | _ => false

theorem Watch.Restarting.cases {id : Str} {w : Watch} (h : w.Restarting id) :
    w.attempting id = true ∨ ∃ backend todo, w = .record id backend true todo := by
  cases w with
  | attempt | sleep | create | start | started => exact .inl (decide_eq_true h)
  | record id' backend restart todo =>
    cases restart with
    | true => exact .inr ⟨backend, todo, h ▸ rfl⟩
    | false => exact h.elim
  | idle | visit | judged | announce => exact h.elim

def RestartPolicy.Keeps (p : RestartPolicy) : Prop := p = .always ∨ p = .unlessStopped

namespace Workloads

variable {σ : Type} {s s' : Workloads σ} {id : Str} {a : WatchAct}

theorem wantsRestart_of_keeps {st : WorkloadState σ} (h : st.restartPolicy.Keeps)
    (exitCode : Option ℕ) (lost : Bool) : wantsRestart st exitCode lost = true := by
  rcases h with h | h <;> cases lost <;>
    simp [wantsRestart, h, RestartPolicy.restartsAfter, RestartPolicy.restartsLost]

/-! ## No attempt fails -/

def succeeds (id : Str) (s : Workloads σ) : Act σ → Bool
  | .watch .giveUp | .watch (.startFailed _) => !s.watch.attempting id
  | _ => true

/-- What is to be kept running is running, stopped, or in the hands of the watcher. -/
def InHand (id : Str) (s : Workloads σ) : Prop :=
  ∀ st, s.table.lookup id = some st → st.restartPolicy.Keeps →
    st.status = .running ∨ st.status = .stopped ∨ st.status = .exited ∧ s.watch.Restarting id

theorem InHand.of_same (h : s.InHand id) (hs : SameAt s s' id) : s'.InHand id := by
  intro st hst
  rw [hs.row] at hst
  rw [hs.restarting]
  exact h st hst

theorem InHand.run {t : RunTask σ} {rest : Multiset (RunTask σ)} {a : RunAct} (h : s.InHand id)
    (hstep : RunStep s t rest a s') : s'.InHand id := by
  cases hstep with
  | created | createFailed | started | startFailed | counted => exact h
  | inserted handle now hstage =>
    intro st hst hkeeps
    rw [lookup_set] at hst
    split at hst
    · exact .inl (some.inj hst ▸ rfl)
    · exact h st hst hkeeps

theorem InHand.stop {t : StopTask} {rest : Multiset StopTask} (h : s.InHand id)
    {b : StopAct} (hstep : StopStep s t rest b s') : s'.InHand id := by
  cases hstep with
  | written label now hstage =>
    intro st hst hkeeps
    rw [lookup_writeStop] at hst
    split at hst
    · rename_i hid
      obtain ⟨st0, hrow, rfl⟩ := map_eq_some_iff.mp hst
      have hpolicy : (st0.stopped now).restartPolicy = st0.restartPolicy := by
        unfold WorkloadState.stopped
        split <;> rfl
      have hst0 := h st0 (hid ▸ hrow) (hpolicy ▸ hkeeps)
      unfold WorkloadState.stopped
      cases hstatus : st0.status <;> simp_all
    · exact h st hst hkeeps
  | unknown | found | nothing | needed | killed | killFailed | left | reported | ignored | labelled
  | recorded => exact h

theorem InHand.watch (h : s.InHand id) (hok : s.succeeds id (.watch a) = true)
    (hstep : s.stepWatch a = some s') : s'.InHand id := by
  by_cases hcur : s.watch.current = some id
  swap
  · exact h.of_same ((stepWatch_eq_some hstep).sameAt hcur)
  intro st hst hkeeps
  cases stepWatch_eq_some hstep with
  | moved _ w hmove =>
    refine (h st hst hkeeps).imp_right (Or.imp_right fun ⟨hexit, hre⟩ => ⟨hexit, ?_⟩)
    generalize hwatch : s.watch = w0 at hmove hre hcur
    cases hmove with
    | backoff | wake | created => exact hre
    | decline id' todo now =>
      -- the attempt is declined only if the record says something else by now
      cases hcur
      simp only [stepWatch, hwatch, show s.table.lookup id = some st from hst, hexit, if_true,
        some.injEq] at hstep
      cases congrArg watch hstep
    | gone id' handle todo now hnone =>
      cases hcur
      cases hnone.symm.trans hst
    | noSpec | createFailed =>
      cases hcur
      simp [succeeds, hwatch, Watch.attempting] at hok
    | tick | skip | alive | judge | placeholder | missing | stale => exact hre.elim
  | marked id' backend exitCode lost todo now st' hwatch hrow hrun =>
    rw [hwatch] at hcur
    cases hcur
    rw [lookup_set, if_pos rfl, some.injEq] at hst
    subst hst
    have hwants : wantsRestart st' exitCode lost = true := wantsRestart_of_keeps hkeeps exitCode lost
    rw [hwants]
    exact .inr (.inr ⟨rfl, rfl⟩)
  | rewritten id' handle todo now st' hwatch hrow =>
    rw [hwatch] at hcur
    cases hcur
    rw [lookup_set, if_pos rfl, some.injEq] at hst
    exact .inl (hst ▸ rfl)
  | startFailed id' alive todo hwatch =>
    rw [hwatch] at hcur
    cases hcur
    simp [succeeds, hwatch, Watch.attempting] at hok
  | recorded id' backend restart todo now hwatch =>
    refine (h st hst hkeeps).imp_right (Or.imp_right fun ⟨hexit, hre⟩ => ⟨hexit, ?_⟩)
    rw [hwatch] at hre
    cases restart with
    | true => exact hre
    | false => exact hre.elim
  | started _ _ _ hwatch | announced _ _ _ hwatch | sweep _ hwatch =>
    refine (h st hst hkeeps).imp_right (Or.imp_right fun ⟨hexit, hre⟩ => ⟨hexit, ?_⟩)
    rw [hwatch] at hre
    exact hre

theorem InHand.step [DecidableEq σ] {a : Act σ} (h : s.InHand id) (hok : s.succeeds id a = true)
    (hstep : s.step a = some s') : s'.InHand id := by
  cases a with
  | run t a => exact h.run (stepRun_eq_some (ite_none_right_eq_some.mp hstep).2)
  | stop t a => exact h.stop (stepStop_eq_some (ite_none_right_eq_some.mp hstep).2)
  | watch a => exact h.watch hok hstep
  | runBegin | stopBegin | exits => cases hstep; exact h
  | prune =>
    cases hstep
    exact fun st hst => h st (lookup_pruned.mp hst).1

/-! ## The next attempt -/

def Act.isWatch : Act σ → Bool
  | .watch _ => true
  | _ => false

/-- **A restart of the workload is attempted**, whatever happens, before the watcher has taken so many
    steps. -/
def AttemptDue [DecidableEq σ] (s : Workloads σ) (id : Str) : Prop :=
  ∃ n, ∀ acts t, run step s acts = some t → n ≤ acts.countP Act.isWatch →
    ¬ Meets step (fun s _ => s.watch.attempting id = false) s acts

theorem step_watch [DecidableEq σ] {a : Act σ} (ha : a.isWatch = false) (h : s.step a = some s') :
    s'.watch = s.watch := by
  cases a with
  | run t a => cases stepRun_eq_some (ite_none_right_eq_some.mp h).2 <;> rfl
  | stop t a => cases stepStop_eq_some (ite_none_right_eq_some.mp h).2 <;> rfl
  | watch b => cases ha
  | runBegin | stopBegin | exits | prune => cases h; rfl

theorem attempting_of_record {backend : Backend} {todo : List (Str × Backend)}
    (hrec : s.watch = .record id backend true todo) (h : s.stepWatch a = some s') :
    s'.watch.attempting id = true := by
  cases stepWatch_eq_some h with
  | recorded _ _ _ _ _ hrec' =>
    rw [hrec] at hrec'
    cases hrec'
    exact decide_eq_true rfl
  | moved _ w hmove => rw [hrec] at hmove; cases hmove
  | marked _ _ _ _ _ _ _ hrec' | announced _ _ _ hrec' | started _ _ _ hrec'
  | startFailed _ _ _ hrec' | rewritten _ _ _ _ _ hrec' | sweep _ hrec' =>
    rw [hrec] at hrec'; cases hrec'

theorem attemptDue_of_restarting [DecidableEq σ] (h : s.watch.Restarting id) : s.AttemptDue id := by
  refine ⟨2, fun acts => ?_⟩
  induction acts generalizing s with
  | nil => exact fun t _ htwo => absurd htwo (by simp)
  | cons a acts ih =>
    intro t hrun htwo hall
    obtain ⟨s1, hstep, hrest⟩ := run_cons_eq_some.mp hrun
    obtain ⟨hnot, hmeets⟩ := (meets_cons_some hstep).mp hall
    obtain ⟨backend, todo, hrec⟩ := h.cases.resolve_left (Bool.eq_false_iff.mp hnot)
    rw [List.countP_cons] at htwo
    cases ha : a.isWatch with
    | false =>
      rw [ha] at htwo
      exact ih (by rw [step_watch ha hstep]; exact h) t hrest htwo hmeets
    | true =>
      -- the step after this one is taken in `attempt_restart`
      rw [ha, if_pos rfl] at htwo
      cases a with
      | watch b =>
        cases acts with
        | nil => simp at htwo
        | cons =>
          have hfalse : s1.watch.attempting id = false := hmeets.1
          rw [attempting_of_record hrec hstep] at hfalse
          cases hfalse
      | runBegin | run | stopBegin | stop | exits | prune => cases ha

/-- **What is to be kept running is restarted, as long as no attempt fails**: whenever it is recorded as
exited, a restart is attempted before the watcher has taken two steps. -/
theorem exited_attempted [DecidableEq σ] {table : WorkloadTable σ} {live : Finset Str} {id : Str}
    (hstart : ∀ st, table.lookup id = some st → st.restartPolicy.Keeps →
      st.status = .running ∨ st.status = .stopped) {acts : List (Act σ)}
    (hok : Meets step (fun s a => s.succeeds id a = true) (start table live) acts)
    (hrun : Schedule.run step (start table live) acts = some s) {st : WorkloadState σ}
    (hrow : s.table.lookup id = some st) (hkeeps : st.restartPolicy.Keeps)
    (hexit : st.status = .exited) : s.AttemptDue id := by
  have hinv : s.InHand id :=
    run_inv (InHand id) _ (fun _ _ _ h hok hstep => h.step hok hstep)
      (fun st hst hkeeps => (hstart st hst hkeeps).imp_right .inl) hok hrun
  rcases hinv st hrow hkeeps with h | h | ⟨-, hre⟩
  · rw [hexit] at h; cases h
  · rw [hexit] at h; cases h
  · exact attemptDue_of_restarting hre

/-! ## One that fails -/

def toCreate : List (Act Unit) :=
  launch "w".toList .container .always () ⟨.container, 7, none⟩ 0 ++ .exits "w".toList ::
    [WatchAct.tick [("w".toList, .container)], .query (.ended (some 1)), .next 1, .next 1, .next 1,
      .next 1].map .watch

theorem exited_attempted_toCreate :
    ∃ s, Schedule.run step (start ∅ ∅) toCreate = some s ∧ s.AttemptDue "w".toList := by
  have hok : Meets step (fun s a => s.succeeds "w".toList a = true) (start ∅ ∅) toCreate := by
    decide +kernel
  refine ⟨_, rfl, exited_attempted (fun st hst => ?_) hok rfl rfl (.inl rfl) rfl⟩
  rw [Finmap.lookup_empty] at hst
  cases hst

/-- Then `create` fails, and the tick ends. -/
def givenUp : List (Act Unit) := toCreate ++ [.watch .giveUp, .watch (.next 2)]

def quietTick : List (Act Unit) := [.watch (.tick []), .watch (.next 2)]

/-- **A failed attempt is the last one.** -/
theorem failed_restart_is_last :
    ∃ s st, Schedule.run step (start ∅ ∅) givenUp = some s ∧
      s.table.lookup "w".toList = some st ∧ st.restartPolicy = .always ∧ st.status = .exited ∧
      s.stops = 0 ∧ s.settled = ∅ ∧ ¬ s.AttemptDue "w".toList := by
  have hquiet : ∃ s st, run step (start ∅ ∅) givenUp = some s ∧
      s.table.lookup "w".toList = some st ∧ st.restartPolicy = .always ∧ st.status = .exited ∧
      s.stops = 0 ∧ s.settled = ∅ ∧ run step s quietTick = some s ∧
      Meets step (fun s _ => s.watch.attempting "w".toList = false) s quietTick :=
    ⟨_, _, rfl, rfl, rfl, rfl, by decide +kernel, by decide +kernel, rfl, by decide +kernel⟩
  obtain ⟨s, st, hrun, hst, hpolicy, hexit, hstops, hsettled, htick, hmeets⟩ := hquiet
  refine ⟨s, st, hrun, hst, hpolicy, hexit, hstops, hsettled, ?_⟩
  rintro ⟨n, hdue⟩
  have hticks : ∀ n, ∃ acts, run step s acts = some s ∧ n ≤ acts.countP Act.isWatch ∧
      Meets step (fun s _ => s.watch.attempting "w".toList = false) s acts := by
    intro n
    induction n with
    | zero => exact ⟨[], rfl, Nat.zero_le _, trivial⟩
    | succ n ih =>
      obtain ⟨acts, hacts, hn, hok⟩ := ih
      refine ⟨quietTick ++ acts, run_append_eq_some.mpr ⟨s, htick, hacts⟩, ?_,
        (meets_append htick).mpr ⟨hmeets, hok⟩⟩
      have htwo : quietTick.countP Act.isWatch = 2 := rfl
      rw [List.countP_append, htwo]
      omega
  obtain ⟨acts, hacts, hn, hok⟩ := hticks n
  exact hdue acts s hacts hn hok

end Workloads

end Pullrun
