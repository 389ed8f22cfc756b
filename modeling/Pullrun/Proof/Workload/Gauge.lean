import Mathlib.Tactic.Linarith
import Mathlib.Tactic.Ring
import Pullrun.Proof.Workload.Steps

/-!
# The running gauge

`record_workload_started` and `record_workload_exit` of `pullrun-runtime/src/metrics.rs` count workloads
up and down under the label of their backend.
-/

namespace Pullrun

open WorkloadTable Option Multiset

def WorkloadState.RunsUnder {σ : Type} (st : WorkloadState σ) (label : Option Backend) : Prop :=
  st.status = .running ∧ some st.backend = label

instance {σ : Type} (st : WorkloadState σ) (label : Option Backend) :
    Decidable (st.RunsUnder label) := inferInstanceAs (Decidable (_ ∧ _))

/-- What a workload with one label counts for under another. -/
def countedUnder (label label' : Option Backend) : ℕ := if label = label' then 1 else 0

namespace WorkloadTable

variable {σ : Type} {t t' : WorkloadTable σ} {id : Str} {label : Option Backend}

def runningUnder (t : WorkloadTable σ) (label : Option Backend) : Finset Str :=
  t.keys.filter fun id => ((t.lookup id).any fun st => st.RunsUnder label) = true

theorem mem_runningUnder :
    id ∈ t.runningUnder label ↔ ∃ st, t.lookup id = some st ∧ st.RunsUnder label := by
  rw [runningUnder, Finset.mem_filter, Finmap.mem_keys, ← Finmap.lookup_isSome]
  cases h : t.lookup id with
  | none => simp
  | some st => simp

variable {st : WorkloadState σ}

theorem runningUnder_pruned : t.pruned.runningUnder label = t.runningUnder label := by
  ext id
  simp only [mem_runningUnder, lookup_pruned]
  constructor
  · rintro ⟨st, ⟨hrow, _⟩, hrun⟩
    exact ⟨st, hrow, hrun⟩
  · rintro ⟨st, hrow, hrun⟩
    exact ⟨st, ⟨hrow, by rw [hrun.1]; decide⟩, hrun⟩

theorem card_runningUnder_congr (label : Option Backend)
    (h : ∀ id', id' ≠ id → t'.lookup id' = t.lookup id') :
    (t'.runningUnder label).card + (if id ∈ t.runningUnder label then 1 else 0) =
      (t.runningUnder label).card + (if id ∈ t'.runningUnder label then 1 else 0) := by
  have herase : (t'.runningUnder label).erase id = (t.runningUnder label).erase id := by
    ext id'
    simp only [Finset.mem_erase, mem_runningUnder]
    exact and_congr_right fun hne => by rw [h id' hne]
  have hcard : ∀ S : Finset Str, S.card = (S.erase id).card + if id ∈ S then 1 else 0 := by
    intro S
    by_cases hmem : id ∈ S
    · rw [if_pos hmem, Finset.card_erase_add_one hmem]
    · rw [if_neg hmem, Finset.erase_eq_of_notMem hmem, Nat.add_zero]
  rw [hcard (t'.runningUnder label), hcard (t.runningUnder label), herase]
  omega

theorem notMem_runningUnder (h : ¬ t.Running id) : id ∉ t.runningUnder label := by
  rw [mem_runningUnder]
  rintro ⟨st, hrow, hrun⟩
  exact h ⟨st, hrow, hrun.1⟩

theorem card_runningUnder_up (label : Option Backend)
    (h : ∀ id', id' ≠ id → t'.lookup id' = t.lookup id') (hold : ¬ t.Running id)
    (hrow : t'.lookup id = some st) (hrun : st.status = .running) :
    (t'.runningUnder label).card = (t.runningUnder label).card + countedUnder (some st.backend) label := by
  have hcard := card_runningUnder_congr label h
  rw [if_neg (notMem_runningUnder hold)] at hcard
  simpa [mem_runningUnder, hrow, WorkloadState.RunsUnder, hrun, countedUnder] using hcard

theorem card_runningUnder_set (label : Option Backend) (hold : ¬ t.Running id)
    (hrun : st.status = .running) :
    ((t.set id st).runningUnder label).card =
      (t.runningUnder label).card + countedUnder (some st.backend) label :=
  card_runningUnder_up label (fun id' hne => by rw [lookup_set, if_neg hne]) hold
    (by rw [lookup_set, if_pos rfl]) hrun

theorem card_runningUnder_down (label : Option Backend)
    (h : ∀ id', id' ≠ id → t'.lookup id' = t.lookup id') (hrow : t.lookup id = some st)
    (hrun : st.status = .running) (hnew : ¬ t'.Running id) :
    (t.runningUnder label).card = (t'.runningUnder label).card + countedUnder (some st.backend) label :=
  card_runningUnder_up label (fun id' hne => (h id' hne).symm) hnew hrow hrun

end WorkloadTable

namespace Workloads

variable {σ : Type} {s s' : Workloads σ} {label : Option Backend} {a : WatchAct}

def runPending (label : Option Backend) (r : RunTask σ) : ℕ :=
  match r.stage with
  | .insert _ => countedUnder (some r.backend) label
  | .create | .start | .count _ => 0

def stopPending (label : Option Backend) (t : StopTask) : ℕ :=
  match t.stage with
  | .record label' => countedUnder label' label
  | _ => 0

def watchPending (label : Option Backend) : Watch → ℕ
  | .record _ backend _ _ => countedUnder (some backend) label
  | _ => 0

def pending (s : Workloads σ) (label : Option Backend) : ℕ :=
  (s.runs.map (runPending label)).sum + (s.stops.map (stopPending label)).sum +
    watchPending label s.watch

/-- **The gauge is what is recorded and what is on its way.** -/
def Balanced (s : Workloads σ) (label : Option Backend) : Prop :=
  s.gauge label = (s.table.runningUnder label).card + s.pending label

/-- A run is inserted under the label it was counted under and over no running workload. -/
def RunMatched (table : WorkloadTable σ) (id : Str) (backend : Backend) : RunStage → Prop
  | .insert handle => ¬ table.Running id ∧ handle.backend = backend
  | .create | .start | .count _ => True

def StopMatched (table : WorkloadTable σ) (id : Str) : StopStage → Prop
  | .write label => ∃ st ∈ table.lookup id, st.RunsUnder label
  | .lookup | .status | .stopping | .failed | .label | .record _ => True

/-- The watcher marks a workload that is recorded, with the backend of its snapshot if it runs, and
    writes no restart to the table. -/
def WatchMatched (table : WorkloadTable σ) : Watch → Prop
  | .judged id backend _ _ _ =>
    ∃ st ∈ table.lookup id, st.status = .running → st.backend = backend
  | .started id _ _ => table.lookup id = none
  | .idle | .visit _ | .record _ _ _ _ | .announce _ _ | .attempt _ _ | .sleep _ _ | .create _ _
  | .start _ _ => True

def Matched (s : Workloads σ) : Act σ → Prop
  | .run t _ => RunMatched s.table t.id t.backend t.stage
  | .stop t _ => StopMatched s.table t.id t.stage
  | .watch _ => WatchMatched s.table s.watch
  | .runBegin .. | .stopBegin _ | .exits _ | .prune => True

theorem gauge_addGauge (label' : Option Backend) (n : ℤ) :
    (s.addGauge label' n).gauge label = s.gauge label + countedUnder label' label * n := by
  by_cases h : label = label'
  · subst h
    simp [addGauge, countedUnder]
  · simp [addGauge, countedUnder, h, Ne.symm h]

theorem Balanced.run {t : RunTask σ} {rest : Multiset (RunTask σ)} {a : RunAct}
    (h : s.Balanced label) (hrest : s.runs = t ::ₘ rest) (hstep : RunStep s t rest a s')
    (hok : s.Matched (.run t a)) : s'.Balanced label := by
  unfold Balanced pending at *
  rw [hrest, map_cons, sum_cons] at h
  cases hstep with
  | created hstage | started handle hstage =>
    rw [map_cons, sum_cons]
    simpa [runPending, hstage] using h
  | createFailed hstage | startFailed alive hstage => simpa [runPending, hstage, setLive] using h
  | counted handle hstage =>
    rw [map_cons, sum_cons, gauge_addGauge]
    simp only [runPending, hstage, addGauge_table, addGauge_stops, addGauge_watch] at h ⊢
    rw [h]
    push_cast
    ring
  | inserted handle now hstage =>
    simp only [Matched, RunMatched, hstage] at hok
    obtain ⟨hold, hback⟩ := hok
    have hcard := card_runningUnder_set label hold
      (show (WorkloadState.launched t.spec t.restartPolicy handle now).status = .running from rfl)
    rw [show (WorkloadState.launched t.spec t.restartPolicy handle now).backend = _ from hback] at hcard
    simp only [runPending, hstage] at h
    rw [h, hcard]
    push_cast
    ring

theorem Balanced.stop {t : StopTask} {rest : Multiset StopTask} {a : StopAct}
    {b : StopAct} (h : s.Balanced label) (hrest : s.stops = t ::ₘ rest)
    (hstep : StopStep s t rest b s') (hok : s.Matched (.stop t a)) : s'.Balanced label := by
  unfold Balanced pending at *
  rw [hrest, map_cons, sum_cons] at h
  cases hstep with
  | unknown _ hstage | nothing _ hstage | reported _ hstage =>
    simpa [stopPending, hstage] using h
  | found _ st hstage | needed _ hstage | killed _ hstage | killFailed hstage | left hstage
  | ignored _ st hstage | labelled _ hstage =>
    rw [map_cons, sum_cons]
    simpa [stopPending, hstage] using h
  | written label' now hstage =>
    simp only [Matched, StopMatched, hstage] at hok
    obtain ⟨st, hrow, hrun, rfl⟩ := hok
    have hsame : ∀ id', id' ≠ t.id → (writeStop s.table t.id now).lookup id' = s.table.lookup id' :=
      fun id' hne => by rw [lookup_writeStop, if_neg hne]
    have hcard := card_runningUnder_down label hsame hrow hrun
      (not_running_writeStop s.table t.id now)
    rw [map_cons, sum_cons]
    simp only [stopPending, hstage] at h ⊢
    rw [h, hcard]
    push_cast
    ring
  | recorded label' _ hstage =>
    rw [gauge_addGauge]
    simp only [stopPending, hstage] at h
    rw [h]
    push_cast [addGauge_table, addGauge_runs, addGauge_watch]
    ring

theorem WatchMove.watchPending {w w' : Watch} (h : WatchMove s a w w')
    (hrow : ∀ id backend exitCode lost todo, w = .judged id backend exitCode lost todo →
      s.table.lookup id ≠ none) :
    Workloads.watchPending label w' = Workloads.watchPending label w := by
  cases h with
  | missing id backend exitCode lost todo _ hnone =>
    exact absurd hnone (hrow id backend exitCode lost todo rfl)
  | tick | skip | alive | judge | placeholder | stale | decline | backoff | wake | noSpec | created
  | createFailed | gone => rfl

theorem Balanced.watch (h : s.Balanced label) (hstep : WatchStep s a s')
    (hok : s.Matched (.watch a)) : s'.Balanced label := by
  unfold Balanced pending at *
  cases hstep with
  | moved _ w hmove =>
    have hrow : ∀ id backend exitCode lost todo, s.watch = .judged id backend exitCode lost todo →
        s.table.lookup id ≠ none := by
      intro id backend exitCode lost todo hwatch
      simp only [Matched, WatchMatched, hwatch] at hok
      obtain ⟨st, hrow, _⟩ := hok
      rw [mem_def.mp hrow]
      exact some_ne_none st
    rw [hmove.watchPending hrow]
    exact h
  | marked id backend exitCode lost todo now st hwatch hrow hrun =>
    simp only [Matched, WatchMatched, hwatch, hrow, mem_def, some.injEq, exists_eq_left'] at hok
    have hsame : ∀ id', id' ≠ id →
        (s.table.set id (st.exited now exitCode)).lookup id' = s.table.lookup id' := fun id' hne => by
      rw [lookup_set, if_neg hne]
    have hcard := card_runningUnder_down label hsame hrow hrun
      (by simp [running_set])
    rw [hok hrun] at hcard
    rw [hwatch] at h
    simp only [watchPending] at h ⊢
    rw [h, hcard]
    push_cast
    ring
  | recorded id backend restart todo now hwatch =>
    have hnone : watchPending label (if restart then .attempt id todo else .announce id todo) = 0 := by
      cases restart <;> rfl
    rw [gauge_addGauge, hnone, h, hwatch]
    simp only [watchPending]
    push_cast [addGauge_table, addGauge_runs, addGauge_stops]
    ring
  | announced id todo now hwatch | started id handle todo hwatch | startFailed id alive todo hwatch
  | sweep now hwatch => rw [hwatch] at h; exact h
  | rewritten id handle todo now st hwatch hrow =>
    simp only [Matched, WatchMatched, hwatch, hrow] at hok
    cases hok

theorem Balanced.step [DecidableEq σ] {a : Act σ} (h : s.Balanced label) (hok : s.Matched a)
    (hstep : s.step a = some s') : s'.Balanced label := by
  cases a with
  | runBegin id backend restartPolicy spec =>
    cases hstep
    unfold Balanced pending at *
    simpa [runPending] using h
  | run t a =>
    obtain ⟨ht, hstep⟩ := ite_none_right_eq_some.mp hstep
    exact h.run (cons_erase ht).symm (stepRun_eq_some hstep) hok
  | stopBegin id =>
    cases hstep
    unfold Balanced pending at *
    simpa [stopPending] using h
  | stop t a =>
    obtain ⟨ht, hstep⟩ := ite_none_right_eq_some.mp hstep
    exact h.stop (cons_erase ht).symm (stepStop_eq_some hstep) hok
  | watch a => exact h.watch (stepWatch_eq_some hstep) hok
  | exits id => cases hstep; exact h
  | prune =>
    cases hstep
    unfold Balanced pending at *
    rw [runningUnder_pruned]
    exact h

/-- **The gauge is the number of running workloads**, if every step counts what it records. -/
theorem gauge_eq_running [DecidableEq σ] {acts : List (Act σ)}
    (hok : Schedule.Meets step Matched (start ∅ ∅) acts)
    (hrun : Schedule.run step (start ∅ ∅) acts = some s) (label : Option Backend) :
    0 ≤ s.gauge label ∧ (s.Quiet → s.gauge label = (s.table.runningUnder label).card) := by
  have hbal : s.Balanced label :=
    Schedule.run_inv (fun s => s.Balanced label) Matched (fun _ _ _ h hok hstep => h.step hok hstep)
      rfl hok hrun
  unfold Balanced at hbal
  refine ⟨by omega, fun hquiet => ?_⟩
  obtain ⟨hruns, hstops, hwatch⟩ := hquiet
  rw [hbal, pending, hruns, hstops, hwatch]
  simp [watchPending]

/-! ## A run and its exit, and a restart that is not counted -/

instance (table : WorkloadTable σ) (id : Str) (backend : Backend) :
    DecidablePred (RunMatched table id backend)
  | .insert handle => inferInstanceAs (Decidable (¬ _ ∧ handle.backend = backend))
  | .create | .start | .count _ => inferInstanceAs (Decidable True)

instance (table : WorkloadTable σ) (id : Str) : DecidablePred (StopMatched table id)
  | .write label => inferInstanceAs (Decidable (∃ st ∈ table.lookup id, st.RunsUnder label))
  | .lookup | .status | .stopping | .failed | .label | .record _ => inferInstanceAs (Decidable True)

instance (table : WorkloadTable σ) : DecidablePred (WatchMatched table)
  | .judged id backend _ _ _ =>
    inferInstanceAs (Decidable (∃ st ∈ table.lookup id, st.status = .running → st.backend = backend))
  | .started id _ _ => decidable_of_iff ((table.lookup id).isNone = true) (by simp [WatchMatched])
  | .idle | .visit _ | .record _ _ _ _ | .announce _ _ | .attempt _ _ | .sleep _ _ | .create _ _
  | .start _ _ => inferInstanceAs (Decidable True)

instance (s : Workloads σ) : DecidablePred (Matched s)
  | .run t _ => inferInstanceAs (Decidable (RunMatched s.table t.id t.backend t.stage))
  | .stop t _ => inferInstanceAs (Decidable (StopMatched s.table t.id t.stage))
  | .watch _ => inferInstanceAs (Decidable (WatchMatched s.table s.watch))
  | .runBegin .. | .stopBegin _ | .exits _ | .prune => inferInstanceAs (Decidable True)

def runTwice : List (Act Unit) :=
  launch "w".toList .container .no () ⟨.container, 7, none⟩ 0 ++
  [.exits "w".toList, .watch (.tick [("w".toList, .container)]), .watch (.query (.ended (some 0))),
    .watch (.next 1), .watch (.next 1), .watch (.next 1), .watch (.next 1), .prune] ++
  launch "w".toList .container .no () ⟨.container, 8, none⟩ 2

def runAndRestart : List (Act Unit) :=
  launch "w".toList .container .always () ⟨.container, 7, none⟩ 0 ++
  [.exits "w".toList, .watch (.tick [("w".toList, .container)]), .watch (.query (.ended (some 0))),
    .watch (.next 1), .watch (.next 1), .watch (.next 1), .watch (.next 1), .watch (.next 1),
    .watch (.started ⟨.container, 8, none⟩), .watch (.next 2), .watch (.next 2)]

theorem gauge_eq_running_twice :
    Schedule.Meets step Matched (start ∅ ∅) runTwice ∧
      ∃ s, Schedule.run step (start ∅ ∅) runTwice = some s ∧ s.Quiet ∧
        s.gauge (some .container) = (s.table.runningUnder (some .container)).card := by
  have hok : Schedule.Meets step Matched (start ∅ ∅) runTwice := by decide +kernel
  have hquiet : ∃ s, Schedule.run step (start ∅ ∅) runTwice = some s ∧ s.Quiet :=
    ⟨_, rfl, rfl, rfl, rfl⟩
  obtain ⟨s, hrun, hquiet⟩ := hquiet
  exact ⟨hok, s, hrun, hquiet, (gauge_eq_running hok hrun (some .container)).2 hquiet⟩

/-- **A restart is not counted.** -/
theorem restart_uncounted :
    ∃ s, Schedule.run step (start ∅ ∅) runAndRestart = some s ∧ s.Quiet ∧
      s.gauge (some .container) = 0 ∧ (s.table.runningUnder (some .container)).card = 1 :=
  ⟨_, rfl, ⟨rfl, rfl, rfl⟩, rfl, by decide +kernel⟩

end Workloads

end Pullrun
