import Pullrun.Vm.Network

/-!
# The warm pool

`VmPool` of `pullrun-vm/src/pool.rs`. Two tasks refill the pool, one of them once, when the pool is made, and
one again and again: `refill_pool` reads the size of the pool, and then boots as many machines as were
missing, one after the other, with suspension points in each boot. Health checks and `acquire` hold the lock
of the pool, as do the reading of the size and each `push_back`.

A boot makes the tap device, which deletes one of the same name, then starts the process, then adds the
machine to the pool; it may fail in between. A machine that has been acquired is still alive.
-/

namespace Pullrun.Vm

/-- A machine that the pool has booted, with the random bytes of its id. -/
structure PoolVm where
  serial : ℕ
  b : Fin 16 → UInt8

def PoolVm.tapName (vm : PoolVm) : Str := poolTapName vm.b

inductive RefillTask
  /-- Spawned by `new` for the first fill. -/
  | initial
  | periodic
deriving DecidableEq

/-- Where a task is in `refill_pool`; the number is that of the boots it has still to begin. -/
inductive Refill
  | idle
  | left (n : ℕ)
  | tapped (b : Fin 16 → UInt8) (n : ℕ)
  | booted (vm : PoolVm) (n : ℕ)

def Refill.outstanding : Refill → ℕ
  | .idle => 0
  | .left n => n
  | .tapped _ n => n + 1
  | .booted _ n => n + 1

structure VmPool where
  pool : List PoolVm
  /-- All that the pool has booted and whose processes have not ended. -/
  alive : List PoolVm
  tasks : RefillTask → Refill
  filled : Bool
  nextSerial : ℕ

namespace VmPool

variable (poolSize : ℕ)

def new : VmPool := ⟨[], [], fun _ => .idle, false, 0⟩

inductive Action
  | begin (t : RefillTask)
  | createTap (t : RefillTask) (b : Fin 16 → UInt8)
  | spawn (t : RefillTask)
  | push (t : RefillTask)
  | fail (t : RefillTask)
  | acquire
  /-- `check_health` does not find the processes of these. -/
  | checkHealth (gone : List ℕ)
  | exit (serial : ℕ)

/-- The loop of `refill_pool` with so many turns left. -/
def goOn : ℕ → Refill
  | 0 => .idle
  | n + 1 => .left (n + 1)

def step (s : VmPool) : Action → Option VmPool
  | .begin t =>
    match s.tasks t with
    | .idle =>
      if t = .initial ∧ s.filled then none
      else some { s with
        tasks := Function.update s.tasks t (goOn (poolSize - s.pool.length))
        filled := s.filled || t = .initial }
    | _ => none
  | .createTap t b =>
    match s.tasks t with
    | .left (n + 1) => some { s with tasks := Function.update s.tasks t (.tapped b n) }
    | _ => none
  | .spawn t =>
    match s.tasks t with
    | .tapped b n =>
      some { s with
        alive := ⟨s.nextSerial, b⟩ :: s.alive
        tasks := Function.update s.tasks t (.booted ⟨s.nextSerial, b⟩ n)
        nextSerial := s.nextSerial + 1 }
    | _ => none
  | .push t =>
    match s.tasks t with
    | .booted vm n =>
      some { s with
        pool := s.pool ++ [vm]
        tasks := Function.update s.tasks t (goOn n) }
    | _ => none
  | .fail t => some { s with tasks := Function.update s.tasks t .idle }
  | .acquire => some { s with pool := s.pool.tail }
  | .checkHealth gone => some { s with pool := s.pool.filter (·.serial ∉ gone) }
  | .exit n => some { s with alive := s.alive.filter (·.serial ≠ n) }

/-! ## What is asked of the pool, and when it holds -/

def Sound (s : VmPool) : Prop :=
  s.pool.length ≤ poolSize ∧ s.alive.Pairwise fun v w => v.tapName ≠ w.tapName

def KeepsTaps (s : VmPool) : Action → Prop
  | .createTap t b => (s.step poolSize (.createTap t b)).isSome → ∀ vm ∈ s.alive, vm.tapName ≠ poolTapName b
  | _ => True

/-- No refill begins while another has boots left, and the first three digits of every new id are none that
    a living machine has. -/
def Orderly (s : VmPool) : Action → Prop
  | .begin t => ∀ t', t' ≠ t → (s.tasks t').outstanding = 0
  | .createTap _ b => ∀ vm ∈ s.alive, poolDigits vm.b ≠ poolDigits b
  | _ => True

instance (s : VmPool) : ∀ a, Decidable (s.Orderly a)
  | .begin .initial =>
    decidable_of_iff ((s.tasks .periodic).outstanding = 0)
      ⟨fun h t' hne => by cases t' <;> trivial, fun h => h .periodic (by decide)⟩
  | .begin .periodic =>
    decidable_of_iff ((s.tasks .initial).outstanding = 0)
      ⟨fun h t' hne => by cases t' <;> trivial, fun h => h .initial (by decide)⟩
  | .createTap _ _ => inferInstanceAs (Decidable (∀ vm ∈ _, _))
  | .spawn _ | .push _ | .fail _ | .acquire | .checkHealth _ | .exit _ => inferInstanceAs (Decidable True)

end VmPool

end Pullrun.Vm
