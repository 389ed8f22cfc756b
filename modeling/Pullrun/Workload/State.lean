import Mathlib.Data.Finmap
import Pullrun.Store.Digest

/-!
# What the daemon records about a workload

`WorkloadState` of `pullrun-runtime/src/service.rs` and the transitions that the requests and the
background tasks make on it. The fields that a run fixes and nothing changes afterwards (image,
command, mounts, limits, …) are one field, `spec`, of an arbitrary type.

Times are seconds. The status, the health and the backend are strings in the source and take the
listed values only.
-/

namespace Pullrun

inductive Status
  | pending
  | running
  | exited
  | stopped
deriving DecidableEq

inductive Backend
  | container
  | containerRootless
  | vm
  | sandbox
deriving DecidableEq

inductive RestartPolicy
  | no
  | onFailure
  | always
  | unlessStopped
deriving DecidableEq

inductive Health
  /-- `""` -/
  | unknown
  | starting
  | healthy
  | unhealthy
deriving DecidableEq

structure Handle where
  backend : Backend
  pid : ℕ
  internalIp : Option Str
deriving DecidableEq

structure WorkloadState (σ : Type) where
  status : Status
  startTime : ℤ
  exitTime : ℤ
  exitCode : Option ℕ
  backend : Backend
  internalIp : Option Str
  pid : ℕ
  health : Health
  healthFailures : ℕ
  healthLastSuccess : ℤ
  restartPolicy : RestartPolicy
  restartCount : ℕ
  spec : σ
deriving DecidableEq

abbrev WorkloadTable (σ : Type) := Finmap fun _ : Str => WorkloadState σ

namespace WorkloadState

variable {σ : Type}

def launched (spec : σ) (restartPolicy : RestartPolicy) (handle : Handle) (now : ℤ) :
    WorkloadState σ where
  status := .running
  startTime := now
  exitTime := 0
  exitCode := none
  backend := handle.backend
  internalIp := handle.internalIp
  pid := handle.pid
  health := .starting
  healthFailures := 0
  healthLastSuccess := 0
  restartPolicy := restartPolicy
  restartCount := 0
  spec := spec

def exited (st : WorkloadState σ) (now : ℤ) (exitCode : Option ℕ) : WorkloadState σ :=
  { st with status := .exited, exitTime := now, exitCode }

/-- What `stop_workload` records. A workload that is neither running nor pending is left alone. -/
def stopped (st : WorkloadState σ) (now : ℤ) : WorkloadState σ :=
  match st.status with
  | .running => { st with status := .stopped, exitCode := some 0, exitTime := now }
  | .pending => { st with status := .exited, exitCode := some 0, exitTime := now }
  | .exited | .stopped => st

/-- What `attempt_restart` records, whatever the status is by then. -/
def restarted (st : WorkloadState σ) (handle : Handle) (now : ℤ) : WorkloadState σ :=
  { st with
    status := .running
    startTime := now
    exitTime := 0
    exitCode := none
    pid := handle.pid
    internalIp := handle.internalIp
    restartCount := st.restartCount + 1 }

/-- What the health watcher records after a probe; `retries` is at least one. -/
def probed (st : WorkloadState σ) (healthy : Bool) (retries : ℕ) (now : ℤ) : WorkloadState σ :=
  if healthy then { st with health := .healthy, healthFailures := 0, healthLastSuccess := now }
  else
    let failures := st.healthFailures + 1
    { st with
      healthFailures := failures
      health := if retries ≤ failures then .unhealthy
        else if st.health = .unhealthy then .unhealthy else .starting }

/-- The correction at startup, for a container that is no longer alive. -/
def recovered (st : WorkloadState σ) (now : ℤ) : WorkloadState σ :=
  if st.status = .running ∧ st.backend ≠ .vm then
    { st with
      status := .exited
      exitCode := st.exitCode.or (some 137)
      exitTime := if st.exitTime = 0 then now else st.exitTime }
  else st

@[simp] theorem exited_status (st : WorkloadState σ) (now : ℤ) (code : Option ℕ) :
    (st.exited now code).status = .exited := rfl

@[simp] theorem restarted_status (st : WorkloadState σ) (handle : Handle) (now : ℤ) :
    (st.restarted handle now).status = .running := rfl

@[simp] theorem launched_status (spec : σ) (policy : RestartPolicy) (handle : Handle) (now : ℤ) :
    (launched spec policy handle now).status = .running := rfl

@[simp] theorem stopped_backend (st : WorkloadState σ) (now : ℤ) :
    (st.stopped now).backend = st.backend := by
  unfold stopped
  cases st.status <;> rfl

end WorkloadState

/-- Does the watcher restart a workload that ended with this code? -/
def RestartPolicy.restartsAfter (p : RestartPolicy) (exitCode : Option ℕ) : Bool :=
  match p with
  | .always | .unlessStopped => true
  | .onFailure => exitCode ≠ some 0
  | .no => false

/-- And one that the executor does not know? -/
def RestartPolicy.restartsLost (p : RestartPolicy) : Bool := p ≠ .no

namespace WorkloadTable

variable {σ : Type}

def set (t : WorkloadTable σ) (id : Str) (st : WorkloadState σ) : WorkloadTable σ :=
  Finmap.insert id st t

/-- `prune` takes the exited workloads out of the table. -/
def pruned (t : WorkloadTable σ) : WorkloadTable σ where
  entries := t.entries.filter fun entry => entry.2.status ≠ .exited
  nodupKeys := by
    obtain ⟨entries, hnodup⟩ := t
    induction entries using Quotient.inductionOn with
    | h l => exact List.NodupKeys.sublist List.filter_sublist hnodup

theorem lookup_set (t : WorkloadTable σ) (id id' : Str) (st : WorkloadState σ) :
    (t.set id st).lookup id' = if id' = id then some st else t.lookup id' := by
  unfold set
  by_cases h : id' = id
  · rw [if_pos h, h, Finmap.lookup_insert]
  · rw [if_neg h, Finmap.lookup_insert_of_ne _ h]

variable {t : WorkloadTable σ} {id : Str} {st : WorkloadState σ}

theorem lookup_pruned :
    t.pruned.lookup id = some st ↔ t.lookup id = some st ∧ st.status ≠ .exited := by
  rw [← Option.mem_def, Finmap.mem_lookup_iff, ← Option.mem_def, Finmap.mem_lookup_iff]
  simp [pruned]

theorem lookup_pruned_of_none (h : t.lookup id = none) : t.pruned.lookup id = none := by
  cases hrow : t.pruned.lookup id with
  | none => rfl
  | some st =>
    have := (lookup_pruned.mp hrow).1
    rw [h] at this
    cases this

def Running (t : WorkloadTable σ) (id : Str) : Prop :=
  ∃ st, t.lookup id = some st ∧ st.status = .running

instance (t : WorkloadTable σ) (id : Str) : Decidable (t.Running id) :=
  match h : t.lookup id with
  | none => isFalse (by simp [Running, h])
  | some st => decidable_of_iff (st.status = .running) (by simp [Running, h])

theorem running_of_lookup (h : t.lookup id = some st) : t.Running id ↔ st.status = .running := by
  simp [Running, h]

theorem Running.lookup_ne_none (h : t.Running id) : t.lookup id ≠ none := by
  obtain ⟨st, hrow, _⟩ := h
  simp [hrow]

theorem not_running_of_none (h : t.lookup id = none) : ¬ t.Running id := by
  simp [Running, h]

theorem running_set {id' : Str} :
    (t.set id st).Running id' ↔ if id' = id then st.status = .running else t.Running id' := by
  unfold Running
  rw [lookup_set]
  by_cases h : id' = id <;> simp [h]

theorem running_pruned : t.pruned.Running id ↔ t.Running id := by
  constructor
  · rintro ⟨st, hst, hrun⟩
    exact ⟨st, (lookup_pruned.mp hst).1, hrun⟩
  · rintro ⟨st, hst, hrun⟩
    exact ⟨st, lookup_pruned.mpr ⟨hst, by rw [hrun]; decide⟩, hrun⟩

end WorkloadTable

end Pullrun
