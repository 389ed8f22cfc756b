import Pullrun.Vm.Network

/-!
# Addresses and tap devices of virtual machines, from `create` to `stop`

`FirecrackerExecutor` of `pullrun-vm/src/lib.rs`, as far as it decides what the interface of a machine is. A
cold boot takes the address from the `Ipam` it shares with the container backend, or, if the workload names
a bridge, from an `Ipam` that `derive_cidr` makes for this one call. A machine of the warm pool has got its
interface when it was booted, from the shared `Ipam` and on the default bridge.

A machine of a cold boot is alive from `create` to the `stop` that finds its directory, a machine of the
pool from its boot: "the Firecracker process and TAP device belong to the pool", says `stop`, and leaves
them. Any machine may also end on its own. Without a pool nothing is ever booted by it.
-/

namespace Pullrun.Vm

open Net

inductive Made
  | cold (spec : VmSpec)
  /-- Booted by the pool, with these random bytes in its id. -/
  | pool (b : Fin 16 → UInt8)

structure Machine where
  /-- Tells one machine from all others; ids may be used more than once. -/
  serial : ℕ
  made : Made
  net : VmNetwork

structure Machines where
  ipam : Ipam
  pool : List ℕ
  alive : List Machine
  /-- The machine that the directory of an id was last written for, by a cold boot. -/
  recorded : Str → Option ℕ
  poolAllocations : Str → Bool
  nextSerial : ℕ

/-- How a call ends, as far as the commands it runs decide it. -/
inductive Outcome
  | ok
  | refused
  /-- With an address, or with a machine of the pool in hand. -/
  | failed
deriving DecidableEq

namespace Machines

variable (sha256 : Bytes → Digest) (range : IpRange)

def new : Machines := ⟨.new, [], [], fun _ => none, fun _ => false, 0⟩

inductive Action
  | create (spec : VmSpec) (outcome : Outcome)
  | stop (id : Str)
  | bootPoolVm (b : Fin 16 → UInt8) (outcome : Outcome)
  | checkHealth (dead : List ℕ)
  | exit (serial : ℕ)
  | allocate

def address (s : Machines) (spec : VmSpec) : Option ℕ × Ipam :=
  match spec.bridgeName with
  | some name => ((Ipam.new.allocate (deriveCidr sha256 name).2.2).1, s.ipam)
  | none => s.ipam.allocate range

def coldBoot (s : Machines) (spec : VmSpec) (outcome : Outcome) : Machines :=
  match s.address sha256 range spec, outcome with
  | (some ip, ipam), .ok =>
    { s with
      ipam := ipam
      alive := ⟨s.nextSerial, .cold spec, spec.network sha256 ip⟩ :: s.alive
      recorded := Function.update s.recorded spec.id (some s.nextSerial)
      nextSerial := s.nextSerial + 1 }
  | (_, ipam), _ => { s with ipam := ipam }

/-- `create`. With `container:<id>` it is refused whatever the commands say. -/
def create (s : Machines) (spec : VmSpec) (outcome : Outcome) : Machines :=
  if spec.networkMode.joins ∨ outcome = .refused then s
  else match s.pool with
    | _ :: pool =>
      -- `create_from_pool`: the machine keeps the interface it has
      if outcome = .ok then
        { s with pool := pool, poolAllocations := Function.update s.poolAllocations spec.id true }
      else { s with pool := pool }
    | [] => s.coldBoot sha256 range spec outcome

def stop (s : Machines) (id : Str) : Machines :=
  if s.poolAllocations id then
    { s with
      poolAllocations := Function.update s.poolAllocations id false
      recorded := Function.update s.recorded id none }
  else match s.recorded id with
    | none => s
    | some n =>
      { s with
        alive := s.alive.filter (·.serial ≠ n)
        recorded := Function.update s.recorded id none }

/-- `boot_pool_vm`, and the `push_back` of its caller. -/
def bootPoolVm (s : Machines) (b : Fin 16 → UInt8) (outcome : Outcome) : Machines :=
  if outcome = .refused then s
  else match s.ipam.allocate range, outcome with
    | (some ip, ipam), .ok =>
      { s with
        ipam := ipam
        pool := s.pool ++ [s.nextSerial]
        alive := ⟨s.nextSerial, .pool b, createTap (poolTapName b) ip⟩ :: s.alive
        nextSerial := s.nextSerial + 1 }
    | (_, ipam), _ => { s with ipam := ipam }

def step (s : Machines) : Action → Option Machines
  | .create spec outcome => some (s.create sha256 range spec outcome)
  | .stop id => some (s.stop id)
  | .bootPoolVm b outcome => some (s.bootPoolVm range b outcome)
  | .checkHealth dead => some { s with pool := s.pool.filter (· ∉ dead) }
  | .exit n => some { s with alive := s.alive.filter (·.serial ≠ n) }
  | .allocate => some { s with ipam := (s.ipam.allocate range).2 }

/-! ## What is asked of the machines, and when it holds -/

def Distinct (a b : VmNetwork) : Prop :=
  a.bridgeName = b.bridgeName → a.bridgeName ≠ [] →
    a.guestIp ≠ b.guestIp ∧ a.guestMac ≠ b.guestMac ∧ a.tapName ≠ b.tapName

def AllDistinct (s : Machines) : Prop := s.alive.Pairwise fun v w => Distinct v.net w.net

end Machines

namespace Made

variable (sha256 : Bytes → Digest)

def project : Made → Option Str
  | .cold spec => spec.bridgeName
  | .pool _ => none

/-- The bridge the interface is on; the empty name if it is on none. -/
def bridge : Made → Str
  | .cold spec => if spec.networkMode = .slirp then [] else spec.bridgeName.getD bridgeName
  | .pool _ => bridgeName

def SameTap : Made → Made → Prop
  | .cold spec, .cold spec' => hashPrefix sha256 spec.id = hashPrefix sha256 spec'.id
  | .pool b, .pool b' => poolDigits b = poolDigits b'
  | _, _ => False

instance : ∀ m m' : Made, Decidable (SameTap sha256 m m')
  | .cold _, .cold _ => inferInstanceAs (Decidable (_ = _))
  | .pool _, .pool _ => inferInstanceAs (Decidable (_ = _))
  | .cold _, .pool _ => inferInstanceAs (Decidable False)
  | .pool _, .cold _ => inferInstanceAs (Decidable False)

/-- The addresses of two machines on one bridge, given the bridges that their workloads named: the first
    address of the subnet, or what the shared `Ipam` has handed out, `x` to the one and `y` to the other. -/
def ClearAddresses (x y : ℕ) : Option Str → Option Str → Prop
  -- both would be the first machine of the same subnet
  | some _, some _ => False
  | some name, none => y ≠ projectBase sha256 name + 2
  | none, some name => x ≠ projectBase sha256 name + 2
  | none, none => True

instance (x y : ℕ) : ∀ p q : Option Str, Decidable (ClearAddresses sha256 x y p q)
  | some _, some _ => inferInstanceAs (Decidable False)
  | some _, none => inferInstanceAs (Decidable (_ ≠ _))
  | none, some _ => inferInstanceAs (Decidable (_ ≠ _))
  | none, none => inferInstanceAs (Decidable True)

def Clear (made : Made) (x : ℕ) (w : Machine) : Prop :=
  ¬ SameTap sha256 made w.made ∧
    ClearAddresses sha256 x w.net.guestIp made.project w.made.project

instance (made : Made) (x : ℕ) (w : Machine) : Decidable (made.Clear sha256 x w) :=
  inferInstanceAs (Decidable (_ ∧ _))

end Made

namespace Machines

variable (sha256 : Bytes → Digest) (range : IpRange)

/-- No machine on the bridge of a new one is in its way. -/
def Free (s : Machines) (made : Made) : Prop :=
  made.bridge ≠ [] → ∀ w ∈ s.alive, w.made.bridge = made.bridge →
    made.Clear sha256 (range.base + s.ipam.next) w

instance (s : Machines) (made : Made) : Decidable (s.Free sha256 range made) :=
  inferInstanceAs (Decidable (_ → ∀ w ∈ _, _ → _))

def Apart (s : Machines) : Action → Prop
  | .create spec .ok =>
    spec.networkMode.joins = false → s.pool = [] →
      (spec.bridgeName = none → s.ipam.next < range.size - 1) → s.Free sha256 range (.cold spec)
  | .bootPoolVm b .ok => s.ipam.next < range.size - 1 → s.Free sha256 range (.pool b)
  | _ => True

instance (s : Machines) : ∀ a, Decidable (s.Apart sha256 range a)
  | .create _ .ok => inferInstanceAs (Decidable (_ → _ → _ → _))
  | .bootPoolVm _ .ok => inferInstanceAs (Decidable (_ → _))
  | .create _ .refused | .create _ .failed | .bootPoolVm _ .refused | .bootPoolVm _ .failed | .stop _
  | .checkHealth _ | .exit _ | .allocate => inferInstanceAs (Decidable True)

end Machines

end Pullrun.Vm
