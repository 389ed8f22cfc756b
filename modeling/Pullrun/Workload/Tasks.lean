import Pullrun.Lib.Schedule
import Pullrun.Workload.State

/-!
# Runs, stops, exits and the exit watcher, step by step

`run_workload`, `stop_workload`, `prune`, the exit watcher and `attempt_restart` of
`pullrun-runtime/src/service.rs`. Each of them takes the lock of the workload table for a moment at a
time and lets go of it in between, so what they do is cut into steps at those points; anything may
happen between two steps of one of them. The watcher is one task: while it attempts a restart, back-off
included, it does not look at any other workload.

What the executor does is `live`, the ids that are executing. A container is reported as ended, or as not
known, only if it is not executing. The Firecracker executor looks for a pid file in the directory of the
workload, and a machine from the warm pool has none there: it is reported as stopped while it runs, and
`stop` answers success and leaves it running. A start that fails may leave its process behind or not, and
a stop that fails leaves what it finds.
-/

namespace Pullrun

/-! ## Tasks -/

/-- Where a `run_workload` request is that has passed its checks. -/
inductive RunStage
  | create
  | start
  | count (handle : Handle)
  | insert (handle : Handle)
deriving DecidableEq

structure RunTask (σ : Type) where
  id : Str
  backend : Backend
  restartPolicy : RestartPolicy
  spec : σ
  stage : RunStage
deriving DecidableEq

inductive StopStage
  /-- `workloads.contains_key(&id)` -/
  | lookup
  | status
  /-- `executor.stop(&id)`: a signal, ten seconds, a kill -/
  | stopping
  | failed
  | label
  /-- `state.status = "stopped"` -/
  | write (label : Option Backend)
  /-- `record_workload_exit(&backend_label, Some(0))` -/
  | record (label : Option Backend)
deriving DecidableEq

structure StopTask where
  id : Str
  stage : StopStage
deriving DecidableEq

/-- Where the exit watcher is; `todo` is the rest of its snapshot. -/
inductive Watch
  | idle
  | visit (todo : List (Str × Backend))
  /-- The executor has said that the workload ended, or (`lost`) that it does not know it. -/
  | judged (id : Str) (backend : Backend) (exitCode : Option ℕ) (lost : Bool)
      (todo : List (Str × Backend))
  /-- `record_workload_exit(&backend, ..)` -/
  | record (id : Str) (backend : Backend) (restart : Bool) (todo : List (Str × Backend))
  /-- `announced.insert(id)` -/
  | announce (id : Str) (todo : List (Str × Backend))
  /-- `attempt_restart`: before it reads the state -/
  | attempt (id : Str) (todo : List (Str × Backend))
  | sleep (id : Str) (todo : List (Str × Backend))
  | create (id : Str) (todo : List (Str × Backend))
  | start (id : Str) (todo : List (Str × Backend))
  /-- The container runs again and the table does not say so yet. -/
  | started (id : Str) (handle : Handle) (todo : List (Str × Backend))
deriving DecidableEq

namespace Watch

/-- The watcher holds a verdict on the workload. -/
def Judging (id : Str) : Watch → Prop
  | .judged id' _ _ _ _ => id' = id
  | _ => False

def Restarting (id : Str) : Watch → Prop
  | .record id' _ true _ => id' = id
  | .attempt id' _ | .sleep id' _ | .create id' _ | .start id' _ | .started id' _ _ => id' = id
  | _ => False

instance (id : Str) : DecidablePred (Judging id)
  | .judged id' _ _ _ _ => inferInstanceAs (Decidable (id' = id))
  | .idle | .visit _ | .record _ _ _ _ | .announce _ _ | .attempt _ _ | .sleep _ _ | .create _ _
  | .start _ _ | .started _ _ _ => inferInstanceAs (Decidable False)

instance (id : Str) : DecidablePred (Restarting id)
  | .record id' _ true _ | .attempt id' _ | .sleep id' _ | .create id' _ | .start id' _
  | .started id' _ _ => inferInstanceAs (Decidable (id' = id))
  | .idle | .visit _ | .judged _ _ _ _ _ | .record _ _ false _ | .announce _ _ =>
    inferInstanceAs (Decidable False)

end Watch

/-- What the requests and the watcher share. The gauge has one value per label; `none` is the label
    `unknown`. -/
structure Workloads (σ : Type) where
  table : WorkloadTable σ
  live : Finset Str
  gauge : Option Backend → ℤ
  runs : Multiset (RunTask σ)
  stops : Multiset StopTask
  watch : Watch
  announced : Finset Str
  settled : Finset Str
  events : List Str

namespace Workloads

variable {σ : Type}

def start (table : WorkloadTable σ) (live : Finset Str) : Workloads σ :=
  ⟨table, live, fun _ => 0, 0, 0, .idle, ∅, ∅, []⟩

/-- `gauge.increment(1.0)` and `gauge.decrement(1.0)`. -/
def addGauge (s : Workloads σ) (label : Option Backend) (n : ℤ) : Workloads σ :=
  { s with gauge := Function.update s.gauge label (s.gauge label + n) }

@[simp] theorem addGauge_table (s : Workloads σ) (label : Option Backend) (n : ℤ) :
    (s.addGauge label n).table = s.table := rfl

@[simp] theorem addGauge_runs (s : Workloads σ) (label : Option Backend) (n : ℤ) :
    (s.addGauge label n).runs = s.runs := rfl

@[simp] theorem addGauge_stops (s : Workloads σ) (label : Option Backend) (n : ℤ) :
    (s.addGauge label n).stops = s.stops := rfl

@[simp] theorem addGauge_watch (s : Workloads σ) (label : Option Backend) (n : ℤ) :
    (s.addGauge label n).watch = s.watch := rfl

def setLive (s : Workloads σ) (id : Str) (alive : Bool) : Workloads σ :=
  { s with live := if alive then insert id s.live else s.live.erase id }

def runningRows (t : WorkloadTable σ) : Multiset (Str × Backend) :=
  (t.entries.filter fun entry => entry.2.status = .running).map fun entry =>
    (entry.1, entry.2.backend)

variable [DecidableEq σ]

/-! ## `run_workload` -/

inductive RunAct
  | created
  | createFailed
  | started (handle : Handle)
  | startFailed (alive : Bool)
  | counted
  | inserted (now : ℤ)

def setRun (s : Workloads σ) (t : RunTask σ) (stage : RunStage) : Workloads σ :=
  { s with runs := { t with stage } ::ₘ s.runs.erase t }

def endRun (s : Workloads σ) (t : RunTask σ) : Workloads σ := { s with runs := s.runs.erase t }

def stepRun (s : Workloads σ) (t : RunTask σ) (a : RunAct) : Option (Workloads σ) :=
  match t.stage, a with
  | .create, .created => some (s.setRun t .start)
  | .create, .createFailed => some (s.endRun t)
  | .start, .started handle => some ((s.setLive t.id true).setRun t (.count handle))
  | .start, .startFailed alive => some ((s.setLive t.id alive).endRun t)
  | .count handle, .counted => some ((s.addGauge (some t.backend) 1).setRun t (.insert handle))
  | .insert handle, .inserted now =>
    some ({ s with
      table := s.table.set t.id (.launched t.spec t.restartPolicy handle now) }.endRun t)
  | _, _ => none

/-! ## `stop_workload` -/

inductive StopAct
  | next (now : ℤ)
  | killFailed
  /-- `executor.stop(&id)` answers success and the machine goes on: it belongs to the warm pool. -/
  | left

def setStop (s : Workloads σ) (t : StopTask) (stage : StopStage) : Workloads σ :=
  { s with stops := { t with stage } ::ₘ s.stops.erase t }

def failStop (s : Workloads σ) (t : StopTask) : Workloads σ := { s with stops := s.stops.erase t }

def endStop (s : Workloads σ) (t : StopTask) : Workloads σ :=
  { s with stops := s.stops.erase t, settled := insert t.id s.settled }

/-- The table after `stop_workload` has written to it. -/
def writeStop (t : WorkloadTable σ) (id : Str) (now : ℤ) : WorkloadTable σ :=
  match t.lookup id with
  | none => t
  | some st => t.set id (st.stopped now)

def stepStop (s : Workloads σ) (t : StopTask) (a : StopAct) : Option (Workloads σ) :=
  match t.stage, a with
  | .lookup, .next _ =>
    match s.table.lookup t.id with
    | none => some (s.failStop t)
    | some _ => some (s.setStop t .status)
  | .status, .next _ =>
    match s.table.lookup t.id with
    | none => some (s.endStop t)
    | some st => if st.status = .running then some (s.setStop t .stopping) else some (s.endStop t)
  | .stopping, .next _ => some ((s.setLive t.id false).setStop t .label)
  | .stopping, .killFailed => some (s.setStop t .failed)
  | .stopping, .left => some (s.setStop t .label)
  | .failed, .next _ =>
    match s.table.lookup t.id with
    | none => some (s.failStop t)
    | some st => if st.backend = .vm then some (s.setStop t .label) else some (s.failStop t)
  | .label, .next _ => some (s.setStop t (.write ((s.table.lookup t.id).map (·.backend))))
  | .write label, .next now =>
    some ({ s with table := writeStop s.table t.id now }.setStop t (.record label))
  | .record label, .next _ => some ((s.addGauge label (-1)).endStop t)
  | _, _ => none

/-! ## The exit watcher -/

/-- `executor.status(&id)` -/
inductive Answer
  | running
  | ended (exitCode : Option ℕ)
  | failed
deriving DecidableEq

inductive WatchAct
  /-- The snapshot, in the order in which the map iterates. -/
  | tick (snapshot : List (Str × Backend))
  | query (answer : Answer)
  | next (now : ℤ)
  | giveUp
  | started (handle : Handle)
  | startFailed (alive : Bool)

/-- `executor.status(&id)` for a workload that was not announced. -/
def stepQuery (s : Workloads σ) (id : Str) (backend : Backend) (todo : List (Str × Backend)) :
    Answer → Option (Workloads σ)
  | .running => if id ∈ s.live then some { s with watch := .visit todo } else none
  | .ended exitCode =>
    if id ∈ s.live ∧ backend ≠ .vm then none
    else some { s with watch := .judged id backend exitCode false todo }
  | .failed =>
    if id ∈ s.live then none
    else if backend = .vm then some { s with watch := .visit todo }
    else some { s with watch := .judged id backend (some 137) true todo }

/-- Does the policy of the workload ask for a restart? -/
def wantsRestart (st : WorkloadState σ) (exitCode : Option ℕ) (lost : Bool) : Bool :=
  if lost then st.restartPolicy.restartsLost else st.restartPolicy.restartsAfter exitCode

/-- The verdict is written to the table if the workload is still recorded as running. -/
def stepMark (s : Workloads σ) (id : Str) (backend : Backend) (exitCode : Option ℕ) (lost : Bool)
    (todo : List (Str × Backend)) (now : ℤ) : Workloads σ :=
  match s.table.lookup id with
  | none => { s with watch := .record id backend false todo }
  | some st =>
    if st.status = .running then
      { s with
        table := s.table.set id (st.exited now exitCode)
        watch := .record id backend (wantsRestart st exitCode lost) todo }
    else { s with watch := .visit todo }

def stepWatch (s : Workloads σ) (a : WatchAct) : Option (Workloads σ) :=
  match s.watch, a with
  | .idle, .tick snapshot =>
    if (snapshot : Multiset (Str × Backend)) = runningRows s.table then
      some { s with watch := .visit snapshot }
    else none
  | .visit ((id, _) :: todo), .next _ =>
    if id ∈ s.announced then some { s with watch := .visit todo } else none
  | .visit ((id, backend) :: todo), .query answer =>
    if id ∈ s.announced then none else s.stepQuery id backend todo answer
  | .judged id backend exitCode lost todo, .next now =>
    some (s.stepMark id backend exitCode lost todo now)
  | .record id backend restart todo, .next _ =>
    some { s.addGauge (some backend) (-1) with
      events := id :: s.events
      watch := if restart then .attempt id todo else .announce id todo }
  | .announce id todo, .next _ =>
    some { s with announced := insert id s.announced, watch := .visit todo }
  | .attempt id todo, .next _ =>
    match s.table.lookup id with
    | none => some { s with watch := .visit todo }
    | some st =>
      if st.status = .exited then some { s with watch := .sleep id todo }
      else some { s with watch := .visit todo }
  | .sleep id todo, .next _ => some { s with watch := .create id todo }
  | .sleep _ todo, .giveUp => some { s with watch := .visit todo }
  | .create id todo, .next _ => some { s with watch := .start id todo }
  | .create _ todo, .giveUp => some { s with watch := .visit todo }
  | .start id todo, .started handle =>
    some { s.setLive id true with watch := .started id handle todo }
  | .start id todo, .startFailed alive => some { s.setLive id alive with watch := .visit todo }
  | .started id handle todo, .next now =>
    match s.table.lookup id with
    | none => some { s with watch := .visit todo }
    | some st =>
      some { s with table := s.table.set id (st.restarted handle now), watch := .visit todo }
  | .visit [], .next _ =>
    some { s with announced := s.announced.filter (· ∈ s.table), watch := .idle }
  | _, _ => none

/-! ## All of them -/

inductive Act (σ : Type)
  | runBegin (id : Str) (backend : Backend) (restartPolicy : RestartPolicy) (spec : σ)
  | run (t : RunTask σ) (a : RunAct)
  | stopBegin (id : Str)
  | stop (t : StopTask) (a : StopAct)
  | watch (a : WatchAct)
  | exits (id : Str)
  | prune

def step (s : Workloads σ) : Act σ → Option (Workloads σ)
  | .runBegin id backend restartPolicy spec =>
    some { s with
      runs := ⟨id, backend, restartPolicy, spec, .create⟩ ::ₘ s.runs
      settled := s.settled.erase id }
  | .run t a => if t ∈ s.runs then s.stepRun t a else none
  | .stopBegin id => some { s with stops := ⟨id, .lookup⟩ ::ₘ s.stops }
  | .stop t a => if t ∈ s.stops then s.stepStop t a else none
  | .watch a => s.stepWatch a
  | .exits id => some (s.setLive id false)
  | .prune => some { s with table := s.table.pruned }

def Quiet (s : Workloads σ) : Prop := s.runs = 0 ∧ s.stops = 0 ∧ s.watch = .idle

/-! ## Requests by themselves -/

def launch (id : Str) (backend : Backend) (restartPolicy : RestartPolicy) (spec : σ)
    (handle : Handle) (now : ℤ) : List (Act σ) :=
  let t (stage : RunStage) : RunTask σ := ⟨id, backend, restartPolicy, spec, stage⟩
  [.runBegin id backend restartPolicy spec, .run (t .create) .created,
    .run (t .start) (.started handle), .run (t (.count handle)) .counted,
    .run (t (.insert handle)) (.inserted now)]

/-- The steps of a stop through the given stages. -/
def stopping (id : Str) (stages : List StopStage) (now : ℤ) : List (Act σ) :=
  .stopBegin id :: stages.map fun stage => .stop ⟨id, stage⟩ (.next now)

def stopStages (label : Option Backend) : List StopStage :=
  [.lookup, .status, .stopping, .label, .write label, .record label]

end Workloads

end Pullrun
