import Pullrun.Vm.Addresses

/-!
# The process of a virtual machine, from `start` to `stop`

`FirecrackerExecutor` of `pullrun-vm/src/lib.rs`, as far as it works on processes. `start` writes the pid of
the process it spawns to the directory of the id, and forgets the process; `status` and `stop` go by that
file. A machine of the warm pool has its pid file in the directory of the pool, which neither of them reads.

The process table is that of the host. A process that has ended stays in it until its parent has waited for
it, and `status` is the only place where the daemon waits for a Firecracker process. The pid of a process
that is gone may be used again.
-/

namespace Pullrun.Vm

inductive Owner
  | vm (id : Str)
  | pooled
  | other (child : Bool)
deriving DecidableEq

structure Proc where
  owner : Owner
  /-- Otherwise it has ended and nobody has waited for it. -/
  alive : Bool
deriving DecidableEq

def Proc.child (p : Proc) : Bool :=
  match p.owner with
  | .other child => child
  | _ => true

/-- The directory of an id: is there a `network.json`, and what does `firecracker.pid` say? -/
structure VmDir where
  sidecar : Bool := false
  pid : Option ℕ := none

structure Processes where
  procs : ℕ → Option Proc
  dirs : Str → Option VmDir
  pool : List ℕ
  poolAllocations : Str → Bool
  /-- `start` has returned for the id, and `stop` has not since. -/
  started : Str → Bool

inductive Status
  | running
  | stopped
deriving DecidableEq

namespace Processes

def new : Processes := ⟨fun _ => none, fun _ => none, [], fun _ => false, fun _ => false⟩

def pidFile (s : Processes) (id : Str) : Option ℕ := (s.dirs id).bind VmDir.pid

/-- `create_dir_all(&vm_dir)`, and the sidecar if `create` gets so far. A pid file that is there stays. -/
def prepare (s : Processes) (id : Str) (sidecar : Bool) : Processes :=
  let dir := (s.dirs id).getD {}
  { s with dirs := Function.update s.dirs id (some { dir with sidecar := dir.sidecar || sidecar }) }

/-- `create`, with a machine of the pool if there is one; it must be alive for the calls to its socket. -/
def create (s : Processes) (id : Str) (outcome : Outcome) : Option Processes :=
  if outcome = .refused then some s
  else match s.pool with
    | [] => some (s.prepare id (outcome = .ok))
    | pid :: pool =>
      if outcome = .failed then some { s.prepare id false with pool := pool }
      else if s.procs pid = some ⟨.pooled, true⟩ then
        some { s.prepare id true with
          pool := pool
          poolAllocations := Function.update s.poolAllocations id true
          procs := Function.update s.procs pid (some ⟨.vm id, true⟩) }
      else none

/-- `start`, with the pid that its process is given. It is refused without a sidecar, and may fail once the
    process is there, if the pid file cannot be written. -/
def start (s : Processes) (id : Str) (pid : ℕ) (outcome : Outcome) : Option Processes :=
  if s.poolAllocations id then some { s with started := Function.update s.started id true }
  else match s.dirs id, outcome with
    | _, .refused => some s
    | some dir, .ok =>
      if dir.sidecar ∧ s.procs pid = none then
        some { s with
          procs := Function.update s.procs pid (some ⟨.vm id, true⟩)
          dirs := Function.update s.dirs id (some { dir with pid := some pid })
          started := Function.update s.started id true }
      else none
    | some dir, .failed =>
      if dir.sidecar ∧ s.procs pid = none then
        some { s with procs := Function.update s.procs pid (some ⟨.vm id, true⟩) }
      else none
    | none, _ => none

/-- `status`: `kill(pid, 0)` finds the process, and `waitpid` says that it is a child which has not ended. -/
def status (s : Processes) (id : Str) : Status × Processes :=
  match s.pidFile id with
  | none => (.stopped, s)
  | some pid =>
    match s.procs pid with
    | none => (.stopped, s)
    | some p =>
      if !p.child then (.stopped, s)
      else if p.alive then (.running, s)
      else (.stopped, { s with procs := Function.update s.procs pid none })

def kill (s : Processes) (pid : ℕ) : Processes :=
  { s with procs := Function.update s.procs pid ((s.procs pid).map fun p => { p with alive := false }) }

def stop (s : Processes) (id : Str) : Processes :=
  let s' :=
    if s.poolAllocations id then
      -- "(keeping FC + TAP)"
      { s with poolAllocations := Function.update s.poolAllocations id false }
    else match s.pidFile id with
      | none => s
      | some pid => s.kill pid
  { s' with
    dirs := Function.update s.dirs id none
    started := Function.update s.started id false }

inductive Action
  | create (id : Str) (outcome : Outcome)
  | start (id : Str) (pid : ℕ) (outcome : Outcome)
  | status (id : Str)
  | stop (id : Str)
  | exit (pid : ℕ)
  | bootPoolVm (pid : ℕ)
  /-- `check_health` of the pool; it finds a process that has ended but was not waited for. -/
  | checkHealth
  | spawn (pid : ℕ) (child : Bool)
  | reap (pid : ℕ)

def step (s : Processes) : Action → Option Processes
  | .create id outcome => s.create id outcome
  | .start id pid outcome => s.start id pid outcome
  | .status id => some (s.status id).2
  | .stop id => some (s.stop id)
  | .exit pid => some (s.kill pid)
  | .bootPoolVm pid =>
    if s.procs pid = none then
      some { s with
        procs := Function.update s.procs pid (some ⟨.pooled, true⟩)
        pool := s.pool ++ [pid] }
    else none
  | .checkHealth => some { s with pool := s.pool.filter fun pid => (s.procs pid).isSome }
  | .spawn pid child =>
    if s.procs pid = none then
      some { s with procs := Function.update s.procs pid (some ⟨.other child, true⟩) }
    else none
  | .reap pid =>
    match s.procs pid with
    | some ⟨.other _, false⟩ => some { s with procs := Function.update s.procs pid none }
    | _ => none

/-! ## What is asked of the calls, and when it holds -/

def Served (s : Processes) (id : Str) : Prop := ∃ pid, s.procs pid = some ⟨.vm id, true⟩

/-- `status` says `running` if the process is alive between `start` and `stop`; after `stop` it is not. -/
def Reports (s : Processes) : Action → Prop
  | .status id => (s.status id).1 = .running ↔ s.started id ∧ s.Served id
  | .stop id => ¬ (s.stop id).Served id
  | _ => True

/-- The pool is empty whenever a workload is created; a machine is started only if none of its id is alive,
    and its pid is recorded; and no process is given a pid that a directory still names. -/
def Regular (s : Processes) : Action → Prop
  | .create _ .ok => s.pool = []
  | .start id pid .ok => ¬ s.Served id ∧ ∀ id', id' ≠ id → s.pidFile id' ≠ some pid
  | .start _ _ .failed => False
  | .bootPoolVm pid => ∀ id, s.pidFile id ≠ some pid
  | .spawn pid _ => ∀ id, s.pidFile id ≠ some pid
  | _ => True

end Processes

end Pullrun.Vm
