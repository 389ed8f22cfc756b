import Pullrun.Workload.Tasks

/-!
# What one step of the daemon can do

`Workloads.step` taken apart once: for each kind of action, the states it applies to and what it
leaves.
-/

namespace Pullrun

open WorkloadTable Option

namespace Watch

def Restarted (id : Str) : Watch → Prop
  | .started id' _ _ => id' = id
  | _ => False

def current : Watch → Option Str
  | .idle | .visit [] => none
  | .visit ((id, _) :: _) => some id
  | .judged id _ _ _ _ | .record id _ _ _ | .announce id _ | .attempt id _ | .sleep id _
  | .create id _ | .start id _ | .started id _ _ => some id

variable {id : Str} {w : Watch}

theorem Restarted.restarting (h : w.Restarted id) : w.Restarting id := by
  cases w <;> first | exact h | exact h.elim

def Off (w : Watch) (id : Str) : Prop := ¬ w.Judging id ∧ ¬ w.Restarting id

theorem off_of_current (h : w.current ≠ some id) : w.Off id := by
  cases w with
  | idle | visit | announce => exact ⟨fun h => h, fun h => h⟩
  | judged => exact ⟨fun hid => h (congrArg some hid), fun h => h⟩
  | record _ _ restart =>
    cases restart with
    | false => exact ⟨fun h => h, fun h => h⟩
    | true => exact ⟨fun h => h, fun hid => h (congrArg some hid)⟩
  | attempt | sleep | create | start | started =>
    exact ⟨fun h => h, fun hid => h (congrArg some hid)⟩

theorem off_visit {todo : List (Str × Backend)} : (visit todo).Off id :=
  ⟨fun h => h, fun h => h⟩

end Watch

namespace Workloads

variable {σ : Type} {s s' : Workloads σ} {t : RunTask σ}

/-! ## `run_workload` -/

/-- The steps of a run. `rest` are the other runs in progress. -/
inductive RunStep (s : Workloads σ) (t : RunTask σ) (rest : Multiset (RunTask σ)) :
    RunAct → Workloads σ → Prop
  | created (hstage : t.stage = .create) :
    RunStep s t rest .created { s with runs := { t with stage := .start } ::ₘ rest }
  | createFailed (hstage : t.stage = .create) :
    RunStep s t rest .createFailed { s with runs := rest }
  | started (handle : Handle) (hstage : t.stage = .start) :
    RunStep s t rest (.started handle)
      { s with live := insert t.id s.live, runs := { t with stage := .count handle } ::ₘ rest }
  | startFailed (alive : Bool) (hstage : t.stage = .start) :
    RunStep s t rest (.startFailed alive) { s.setLive t.id alive with runs := rest }
  | counted (handle : Handle) (hstage : t.stage = .count handle) :
    RunStep s t rest .counted
      { s.addGauge (some t.backend) 1 with runs := { t with stage := .insert handle } ::ₘ rest }
  | inserted (handle : Handle) (now : ℤ) (hstage : t.stage = .insert handle) :
    RunStep s t rest (.inserted now)
      { s with
        table := s.table.set t.id (.launched t.spec t.restartPolicy handle now)
        runs := rest }

theorem stepRun_eq_some [DecidableEq σ] {a : RunAct} (h : s.stepRun t a = some s') :
    RunStep s t (s.runs.erase t) a s' := by
  revert h
  fun_cases stepRun s t a with
  | case1 hstage => rintro ⟨⟩; exact .created hstage
  | case2 hstage => rintro ⟨⟩; exact .createFailed hstage
  | case3 handle hstage => rintro ⟨⟩; exact .started handle hstage
  | case4 alive hstage => rintro ⟨⟩; exact .startFailed alive hstage
  | case5 handle hstage => rintro ⟨⟩; exact .counted handle hstage
  | case6 handle now hstage => rintro ⟨⟩; exact .inserted handle now hstage
  | case7 => rintro ⟨⟩

/-! ## `stop_workload` -/

/-- The steps of a stop. `rest` are the other stops in progress. -/
inductive StopStep (s : Workloads σ) (t : StopTask) (rest : Multiset StopTask) :
    StopAct → Workloads σ → Prop
  | unknown (now : ℤ) (hstage : t.stage = .lookup) (hrow : s.table.lookup t.id = none) :
    StopStep s t rest (.next now) { s with stops := rest }
  | found (now : ℤ) (st : WorkloadState σ) (hstage : t.stage = .lookup)
      (hrow : s.table.lookup t.id = some st) :
    StopStep s t rest (.next now) { s with stops := { t with stage := .status } ::ₘ rest }
  /-- The workload is not recorded as running: there is nothing to stop. -/
  | nothing (now : ℤ) (hstage : t.stage = .status) (hrow : ¬ s.table.Running t.id) :
    StopStep s t rest (.next now) { s with stops := rest, settled := insert t.id s.settled }
  | needed (now : ℤ) (hstage : t.stage = .status) (hrow : s.table.Running t.id) :
    StopStep s t rest (.next now) { s with stops := { t with stage := .stopping } ::ₘ rest }
  | killed (now : ℤ) (hstage : t.stage = .stopping) :
    StopStep s t rest (.next now)
      { s with live := s.live.erase t.id, stops := { t with stage := .label } ::ₘ rest }
  | killFailed (hstage : t.stage = .stopping) :
    StopStep s t rest .killFailed { s with stops := { t with stage := .failed } ::ₘ rest }
  | left (hstage : t.stage = .stopping) :
    StopStep s t rest .left { s with stops := { t with stage := .label } ::ₘ rest }
  | reported (now : ℤ) (hstage : t.stage = .failed) :
    StopStep s t rest (.next now) { s with stops := rest }
  /-- For a VM the failure is logged and the state cleaned up. -/
  | ignored (now : ℤ) (st : WorkloadState σ) (hstage : t.stage = .failed)
      (hrow : s.table.lookup t.id = some st) (hvm : st.backend = .vm) :
    StopStep s t rest (.next now) { s with stops := { t with stage := .label } ::ₘ rest }
  | labelled (now : ℤ) (hstage : t.stage = .label) :
    StopStep s t rest (.next now)
      { s with
        stops := { t with stage := .write ((s.table.lookup t.id).map (·.backend)) } ::ₘ rest }
  | written (label : Option Backend) (now : ℤ) (hstage : t.stage = .write label) :
    StopStep s t rest (.next now)
      { s with
        table := writeStop s.table t.id now
        stops := { t with stage := .record label } ::ₘ rest }
  | recorded (label : Option Backend) (now : ℤ) (hstage : t.stage = .record label) :
    StopStep s t rest (.next now)
      { s.addGauge label (-1) with stops := rest, settled := insert t.id s.settled }

theorem stepStop_eq_some {t : StopTask} {a : StopAct} (h : s.stepStop t a = some s') :
    StopStep s t (s.stops.erase t) a s' := by
  revert h
  fun_cases stepStop s t a with
  | case1 now hstage hrow => rintro ⟨⟩; exact .unknown now hstage hrow
  | case2 now hstage st hrow => rintro ⟨⟩; exact .found now st hstage hrow
  | case3 now hstage hrow => rintro ⟨⟩; exact .nothing now hstage (not_running_of_none hrow)
  | case4 now hstage st hrow hst =>
    rintro ⟨⟩
    exact .needed now hstage ((running_of_lookup hrow).mpr hst)
  | case5 now hstage st hrow hst =>
    rintro ⟨⟩
    exact .nothing now hstage (hst ∘ (running_of_lookup hrow).mp)
  | case6 now hstage => rintro ⟨⟩; exact .killed now hstage
  | case7 hstage => rintro ⟨⟩; exact .killFailed hstage
  | case8 hstage => rintro ⟨⟩; exact .left hstage
  | case9 now hstage => rintro ⟨⟩; exact .reported now hstage
  | case10 now hstage st hrow hvm => rintro ⟨⟩; exact .ignored now st hstage hrow hvm
  | case11 now hstage => rintro ⟨⟩; exact .reported now hstage
  | case12 now hstage => rintro ⟨⟩; exact .labelled now hstage
  | case13 label now hstage => rintro ⟨⟩; exact .written label now hstage
  | case14 label now hstage => rintro ⟨⟩; exact .recorded label now hstage
  | case15 => rintro ⟨⟩

/-! ## The exit watcher -/

inductive WatchMove (s : Workloads σ) : WatchAct → Watch → Watch → Prop
  | tick (snapshot : List (Str × Backend))
      (hrows : (snapshot : Multiset (Str × Backend)) = runningRows s.table) :
    WatchMove s (.tick snapshot) .idle (.visit snapshot)
  | skip (id : Str) (backend : Backend) (todo : List (Str × Backend)) (now : ℤ)
      (hann : id ∈ s.announced) :
    WatchMove s (.next now) (.visit ((id, backend) :: todo)) (.visit todo)
  | alive (id : Str) (backend : Backend) (todo : List (Str × Backend)) (hann : id ∉ s.announced)
      (hlive : id ∈ s.live) :
    WatchMove s (.query .running) (.visit ((id, backend) :: todo)) (.visit todo)
  | judge (id : Str) (backend : Backend) (todo : List (Str × Backend)) (answer : Answer)
      (exitCode : Option ℕ) (lost : Bool) (hann : id ∉ s.announced)
      (hlive : id ∈ s.live → ∃ code, answer = .ended code) :
    WatchMove s (.query answer) (.visit ((id, backend) :: todo))
      (.judged id backend exitCode lost todo)
  | placeholder (id : Str) (todo : List (Str × Backend)) (hann : id ∉ s.announced)
      (hlive : id ∉ s.live) :
    WatchMove s (.query .failed) (.visit ((id, .vm) :: todo)) (.visit todo)
  /-- The workload has left the table: its exit is recorded all the same. -/
  | missing (id : Str) (backend : Backend) (exitCode : Option ℕ) (lost : Bool)
      (todo : List (Str × Backend)) (now : ℤ) (hrow : s.table.lookup id = none) :
    WatchMove s (.next now) (.judged id backend exitCode lost todo) (.record id backend false todo)
  | stale (id : Str) (backend : Backend) (exitCode : Option ℕ) (lost : Bool)
      (todo : List (Str × Backend)) (now : ℤ) (hrow : ¬ s.table.Running id) :
    WatchMove s (.next now) (.judged id backend exitCode lost todo) (.visit todo)
  | decline (id : Str) (todo : List (Str × Backend)) (now : ℤ) :
    WatchMove s (.next now) (.attempt id todo) (.visit todo)
  | backoff (id : Str) (todo : List (Str × Backend)) (now : ℤ) :
    WatchMove s (.next now) (.attempt id todo) (.sleep id todo)
  | wake (id : Str) (todo : List (Str × Backend)) (now : ℤ) :
    WatchMove s (.next now) (.sleep id todo) (.create id todo)
  | noSpec (id : Str) (todo : List (Str × Backend)) :
    WatchMove s .giveUp (.sleep id todo) (.visit todo)
  | created (id : Str) (todo : List (Str × Backend)) (now : ℤ) :
    WatchMove s (.next now) (.create id todo) (.start id todo)
  | createFailed (id : Str) (todo : List (Str × Backend)) :
    WatchMove s .giveUp (.create id todo) (.visit todo)
  | gone (id : Str) (handle : Handle) (todo : List (Str × Backend)) (now : ℤ)
      (hrow : s.table.lookup id = none) :
    WatchMove s (.next now) (.started id handle todo) (.visit todo)

inductive WatchStep (s : Workloads σ) : WatchAct → Workloads σ → Prop
  | moved (a : WatchAct) (w : Watch) (hmove : WatchMove s a s.watch w) :
    WatchStep s a { s with watch := w }
  | marked (id : Str) (backend : Backend) (exitCode : Option ℕ) (lost : Bool)
      (todo : List (Str × Backend)) (now : ℤ) (st : WorkloadState σ)
      (hwatch : s.watch = .judged id backend exitCode lost todo)
      (hrow : s.table.lookup id = some st) (hrun : st.status = .running) :
    WatchStep s (.next now)
      { s with
        table := s.table.set id (st.exited now exitCode)
        watch := .record id backend (wantsRestart st exitCode lost) todo }
  | recorded (id : Str) (backend : Backend) (restart : Bool) (todo : List (Str × Backend)) (now : ℤ)
      (hwatch : s.watch = .record id backend restart todo) :
    WatchStep s (.next now)
      { s.addGauge (some backend) (-1) with
        events := id :: s.events
        watch := if restart then .attempt id todo else .announce id todo }
  | announced (id : Str) (todo : List (Str × Backend)) (now : ℤ)
      (hwatch : s.watch = .announce id todo) :
    WatchStep s (.next now)
      { s with announced := insert id s.announced, watch := .visit todo }
  | started (id : Str) (handle : Handle) (todo : List (Str × Backend))
      (hwatch : s.watch = .start id todo) :
    WatchStep s (.started handle)
      { s with live := insert id s.live, watch := .started id handle todo }
  | startFailed (id : Str) (alive : Bool) (todo : List (Str × Backend))
      (hwatch : s.watch = .start id todo) :
    WatchStep s (.startFailed alive) { s.setLive id alive with watch := .visit todo }
  | rewritten (id : Str) (handle : Handle) (todo : List (Str × Backend)) (now : ℤ)
      (st : WorkloadState σ) (hwatch : s.watch = .started id handle todo)
      (hrow : s.table.lookup id = some st) :
    WatchStep s (.next now)
      { s with table := s.table.set id (st.restarted handle now), watch := .visit todo }
  | sweep (now : ℤ) (hwatch : s.watch = .visit []) :
    WatchStep s (.next now)
      { s with announced := s.announced.filter (· ∈ s.table), watch := .idle }

variable {a : WatchAct} {id : Str} {todo : List (Str × Backend)} {backend : Backend}

theorem WatchStep.of_move {w w' : Watch} (hwatch : s.watch = w) (hmove : WatchMove s a w w') :
    WatchStep s a { s with watch := w' } :=
  .moved a w' (hwatch ▸ hmove)

theorem stepQuery_eq_some {answer : Answer}
    (hann : id ∉ s.announced) (h : s.stepQuery id backend todo answer = some s')
    (hwatch : s.watch = .visit ((id, backend) :: todo)) : WatchStep s (.query answer) s' := by
  revert h
  fun_cases stepQuery s id backend todo answer with
  | case1 hlive => rintro ⟨⟩; exact .of_move hwatch (.alive id backend todo hann hlive)
  | case2 | case3 | case5 => rintro ⟨⟩
  | case4 exitCode hlive =>
    rintro ⟨⟩
    exact .of_move hwatch (.judge id backend todo _ exitCode false hann fun _ => ⟨exitCode, rfl⟩)
  | case6 hlive hvm =>
    rintro ⟨⟩
    subst hvm
    exact .of_move hwatch (.placeholder id todo hann hlive)
  | case7 hlive =>
    rintro ⟨⟩
    exact .of_move hwatch (.judge id backend todo _ (some 137) true hann fun h => absurd h hlive)

theorem stepMark_spec {exitCode : Option ℕ} {lost : Bool} (now : ℤ)
    (hwatch : s.watch = .judged id backend exitCode lost todo) :
    WatchStep s (.next now) (s.stepMark id backend exitCode lost todo now) := by
  fun_cases stepMark s id backend exitCode lost todo now with
  | case1 hrow => exact .of_move hwatch (.missing id backend exitCode lost todo now hrow)
  | case2 st hrow hrun => exact .marked id backend exitCode lost todo now st hwatch hrow hrun
  | case3 st hrow hrun =>
    exact .of_move hwatch (.stale id backend exitCode lost todo now
      (hrun ∘ (running_of_lookup hrow).mp))

theorem stepWatch_eq_some (h : s.stepWatch a = some s') : WatchStep s a s' := by
  revert h
  fun_cases stepWatch s a with
  | case1 snapshot hwatch hrows => rintro ⟨⟩; exact .of_move hwatch (.tick snapshot hrows)
  | case2 | case4 | case5 | case22 => rintro ⟨⟩
  | case3 id backend todo now hwatch hann =>
    rintro ⟨⟩
    exact .of_move hwatch (.skip id backend todo now hann)
  | case6 id backend todo answer hwatch hann => exact fun h => stepQuery_eq_some hann h hwatch
  | case7 id backend exitCode lost todo now hwatch => rintro ⟨⟩; exact stepMark_spec now hwatch
  | case8 id backend restart todo now hwatch =>
    rintro ⟨⟩
    exact .recorded id backend restart todo now hwatch
  | case9 id todo now hwatch => rintro ⟨⟩; exact .announced id todo now hwatch
  | case10 id todo now hwatch => rintro ⟨⟩; exact .of_move hwatch (.decline id todo now)
  | case11 id todo now hwatch => rintro ⟨⟩; exact .of_move hwatch (.backoff id todo now)
  | case12 id todo now hwatch => rintro ⟨⟩; exact .of_move hwatch (.decline id todo now)
  | case13 id todo now hwatch => rintro ⟨⟩; exact .of_move hwatch (.wake id todo now)
  | case14 id todo hwatch => rintro ⟨⟩; exact .of_move hwatch (.noSpec id todo)
  | case15 id todo now hwatch => rintro ⟨⟩; exact .of_move hwatch (.created id todo now)
  | case16 id todo hwatch => rintro ⟨⟩; exact .of_move hwatch (.createFailed id todo)
  | case17 id todo handle hwatch => rintro ⟨⟩; exact .started id handle todo hwatch
  | case18 id todo alive hwatch => rintro ⟨⟩; exact .startFailed id alive todo hwatch
  | case19 id handle todo now hwatch hrow =>
    rintro ⟨⟩
    exact .of_move hwatch (.gone id handle todo now hrow)
  | case20 id handle todo now hwatch st hrow =>
    rintro ⟨⟩
    exact .rewritten id handle todo now st hwatch hrow
  | case21 now hwatch => rintro ⟨⟩; exact .sweep now hwatch

/-! ## What a step keeps of a workload it does not touch -/

structure SameAt (s s' : Workloads σ) (id : Str) : Prop where
  live : id ∈ s'.live ↔ id ∈ s.live
  row : s'.table.lookup id = s.table.lookup id
  runs : ∀ r, r.id = id → (r ∈ s'.runs ↔ r ∈ s.runs)
  stops : ∀ t, t.id = id → (t ∈ s'.stops ↔ t ∈ s.stops)
  settled : id ∈ s'.settled ↔ id ∈ s.settled
  judging : s'.watch.Judging id ↔ s.watch.Judging id
  restarting : s'.watch.Restarting id ↔ s.watch.Restarting id
  restarted : s'.watch.Restarted id ↔ s.watch.Restarted id

theorem mem_setLive {id' : Str} (alive : Bool) (hne : id ≠ id') :
    id ∈ (s.setLive id' alive).live ↔ id ∈ s.live := by
  cases alive <;> simp [setLive, hne]

theorem RunStep.sameAt {rest : Multiset (RunTask σ)} {a : RunAct}
    (hrest : s.runs = t ::ₘ rest) (h : RunStep s t rest a s') (hne : id ≠ t.id) :
    SameAt s s' id := by
  have hold : ∀ r, r.id = id → (r ∈ s.runs ↔ r ∈ rest) := fun r hr => by
    have hrt : r ≠ t := fun h => hne (hr ▸ h ▸ rfl)
    simp [hrest, hrt]
  have hnew : ∀ r : RunTask σ, r.id = id → ∀ stage, r ≠ { t with stage } := fun r hr _ h =>
    hne (hr ▸ h ▸ rfl)
  have hrow : ∀ st, (s.table.set t.id st).lookup id = s.table.lookup id := fun st => by
    rw [lookup_set, if_neg hne]
  cases h <;>
    exact ⟨by simp [addGauge, mem_setLive, hne], by simp [addGauge, setLive, hrow],
      fun r hr => by simp [hold r hr, hnew r hr], fun _ _ => Iff.rfl, Iff.rfl, Iff.rfl, Iff.rfl,
      Iff.rfl⟩

theorem lookup_writeStop (t : WorkloadTable σ) (id id' : Str) (now : ℤ) :
    (writeStop t id now).lookup id' =
      if id' = id then (t.lookup id).map (·.stopped now) else t.lookup id' := by
  unfold writeStop
  cases h : t.lookup id with
  | none =>
    by_cases hid : id' = id
    · rw [if_pos hid, hid, h, map_none]
    · rw [if_neg hid]
  | some st => rw [lookup_set, map_some]

theorem not_running_writeStop (t : WorkloadTable σ) (id : Str) (now : ℤ) :
    ¬ (writeStop t id now).Running id := by
  rintro ⟨st, hrow, hrun⟩
  rw [lookup_writeStop, if_pos rfl, map_eq_some_iff] at hrow
  obtain ⟨st0, _, rfl⟩ := hrow
  revert hrun
  unfold WorkloadState.stopped
  cases hst : st0.status <;> simp [hst]

theorem StopStep.sameAt {t : StopTask} {rest : Multiset StopTask} {b : StopAct}
    (hrest : s.stops = t ::ₘ rest) (h : StopStep s t rest b s') (hne : id ≠ t.id) : SameAt s s' id := by
  have hold : ∀ r, r.id = id → (r ∈ s.stops ↔ r ∈ rest) := fun r hr => by
    have hrt : r ≠ t := fun h => hne (hr ▸ h ▸ rfl)
    simp [hrest, hrt]
  have hnew : ∀ r : StopTask, r.id = id → ∀ stage, r ≠ { t with stage } := fun r hr _ h =>
    hne (hr ▸ h ▸ rfl)
  cases h <;>
    exact ⟨by simp [addGauge, hne], by simp [addGauge, lookup_writeStop, hne], fun _ _ => Iff.rfl,
      fun r hr => by simp [hold r hr, hnew r hr], by simp [hne], Iff.rfl,
      Iff.rfl, Iff.rfl⟩

theorem WatchStep.off (h : WatchStep s a s') (hne : s.watch.current ≠ some id) :
    s'.watch.Off id := by
  cases h with
  | moved _ w hmove =>
    generalize s.watch = w0 at hne hmove
    cases hmove with
    | judge | missing | backoff | wake | created => exact Watch.off_of_current hne
    | tick | skip | alive | placeholder | stale | decline | noSpec | createFailed | gone =>
      exact Watch.off_visit
  | marked _ _ _ _ _ _ _ hwatch | started _ _ _ hwatch =>
    exact Watch.off_of_current (by rw [hwatch] at hne; exact hne)
  | recorded _ _ restart _ _ hwatch =>
    rw [hwatch] at hne
    cases restart <;> exact Watch.off_of_current hne
  | announced | startFailed | rewritten => exact Watch.off_visit
  | sweep => exact ⟨fun h => h, fun h => h⟩

theorem WatchStep.sameAt (h : WatchStep s a s') (hne : s.watch.current ≠ some id) :
    SameAt s s' id := by
  have hoff := Watch.off_of_current hne
  have hoff' := h.off hne
  have hset : ∀ id' st, s.watch.current = some id' →
      (s.table.set id' st).lookup id = s.table.lookup id := fun id' st hcur => by
    have hid : id ≠ id' := fun h => hne (h ▸ hcur)
    rw [lookup_set, if_neg hid]
  have hlive : ∀ id' alive, s.watch.current = some id' →
      (id ∈ (s.setLive id' alive).live ↔ id ∈ s.live) := fun id' alive hcur =>
    mem_setLive alive fun h => hne (h ▸ hcur)
  refine ⟨?_, ?_, ?_, ?_, ?_, iff_of_false hoff'.1 hoff.1, iff_of_false hoff'.2 hoff.2,
    iff_of_false (hoff'.2 ∘ Watch.Restarted.restarting) (hoff.2 ∘ Watch.Restarted.restarting)⟩
  · cases h with
    | started id' handle todo hwatch => exact hlive id' true (by rw [hwatch]; rfl)
    | startFailed id' alive todo hwatch => exact hlive id' alive (by rw [hwatch]; rfl)
    | moved | marked | recorded | announced | rewritten | sweep => exact Iff.rfl
  · cases h with
    | marked id' _ _ _ _ _ _ hwatch | rewritten id' _ _ _ _ hwatch => exact hset id' _ (by rw [hwatch]; rfl)
    | moved | recorded | announced | started | startFailed | sweep => rfl
  · cases h <;> exact fun _ _ => Iff.rfl
  · cases h <;> exact fun _ _ => Iff.rfl
  · cases h <;> exact Iff.rfl

end Workloads

end Pullrun
