import Pullrun.Vm.Addresses

/-!
# Networks and the addresses on them

`create_network` of `pullrun-runtime/src/service.rs` records a subnet for the bridge of a network. The
backends do not read the record: a container on a bridge takes a subnet for it from the shared `Ipam`
(`LinuxContainerExecutor::create`), a virtual machine derives one from the name of the bridge
(`FirecrackerExecutor::create`), unless there is a machine of the warm pool for it.

The registry is the content of `networks.json`. A subnet is a range, not its text; `create_network` is
modelled for requests that name no subnet.
-/

namespace Pullrun

open Net Vm

def Net.IpRange.Apart (a b : IpRange) : Prop := a.base + a.size ≤ b.base ∨ b.base + b.size ≤ a.base

def Net.IpRange.Has (r : IpRange) (ip : ℕ) : Prop := r.base ≤ ip ∧ ip < r.base + r.size

/-- `network_subnet_for`: "Hash the name into the 10.43.0.0/16 range, yielding 10.43.X.0/24 where
    X ∈ [1,255]." -/
def networkOctet (sha256 : Bytes → Digest) (name : Str) : ℕ :=
  (hashByte (sha256 (Vsock.asBytes name)) 0).toNat % 255 + 1

def networkSubnetFor (sha256 : Bytes → Digest) (name : Str) : IpRange :=
  ⟨ipv4 10 43 (UInt8.ofNat (networkOctet sha256 name)) 0, 256⟩

/-- `DEFAULT_BRIDGE_NAME` of `container.rs` -/
def defaultBridgeName : Str := "pullrun-br0".toList

structure ContainerSpec where
  bridgeName : Option Str
  networkMode : NetworkMode
deriving DecidableEq

def ContainerSpec.subnet (spec : ContainerSpec) (ipam : Ipam) (range : IpRange) (routes : List Route) :
    Option ℕ × Ipam :=
  let name := spec.bridgeName.getD defaultBridgeName
  if name = defaultBridgeName then (none, ipam) else ipam.subnetFor range routes name

/-- The address of a container, in a network namespace of its own (`should_setup_bridge`). -/
def ContainerSpec.address (spec : ContainerSpec) (ipam : Ipam) (range : IpRange) (routes : List Route) :
    Option ℕ × Ipam :=
  if spec.networkMode = .bridge then
    match spec.subnet ipam range routes with
    | (some base, ipam) => ipam.allocateIn base
    | (none, ipam) => ipam.allocate range
  else (none, ipam)

/-- The registry, the shared `Ipam`, and the addresses of the machines in the warm pool. -/
structure Networks where
  recorded : List (Str × IpRange)
  ipam : Ipam
  pool : List ℕ

namespace Networks

variable (sha256 : Bytes → Digest) (range : IpRange)

def new : Networks := ⟨[], .new, []⟩

inductive Action
  /-- `bridge_create` and the registry file permitting. -/
  | createNetwork (name : Str) (ok : Bool)
  | removeNetwork (name : Str)
  /-- A container is created, with these routes on the host. It is `refused` if its bridge cannot be
      set up, and may fail once it has its address. -/
  | createContainer (spec : ContainerSpec) (routes : List Route) (outcome : Outcome)
  | createVm (spec : VmSpec) (outcome : Outcome)
  | bootPoolVm

def insert (s : Networks) (name : Str) : Networks :=
  { s with recorded := (name, networkSubnetFor sha256 name) :: s.recorded.filter (·.1 ≠ name) }

/-- The address of a virtual machine, from the pool if that has one. -/
def vmAddress (s : Networks) (spec : VmSpec) : Option ℕ × Networks :=
  match s.pool with
  | ip :: pool => (some ip, { s with pool := pool })
  | [] =>
    match spec.bridgeName with
    | some name => ((Ipam.new.allocate (deriveCidr sha256 name).2.2).1, s)
    | none => ((s.ipam.allocate range).1, { s with ipam := (s.ipam.allocate range).2 })

def step (s : Networks) : Action → Option Networks
  | .createNetwork name ok => some (if name ≠ [] ∧ ok then s.insert sha256 name else s)
  | .removeNetwork name =>
    some (if name ≠ [] then { s with recorded := s.recorded.filter (·.1 ≠ name) } else s)
  | .createContainer spec routes outcome =>
    some { s with
      ipam :=
        if outcome = .refused then
          if spec.networkMode = .bridge then (spec.subnet s.ipam range routes).2 else s.ipam
        else (spec.address s.ipam range routes).2 }
  | .createVm spec outcome =>
    some (if spec.networkMode.joins ∨ outcome = .refused then s else (s.vmAddress sha256 range spec).2)
  | .bootPoolVm =>
    some { s with
      ipam := (s.ipam.allocate range).2
      pool := s.pool ++ (s.ipam.allocate range).1.toList }

/-! ## What is asked of the networks, and when it holds -/

def Disjoint (s : Networks) : Prop := s.recorded.Pairwise fun m n => m.2.Apart n.2

/-- The workload that an action starts: the bridge that it names, and its address. -/
def started (s : Networks) : Action → Option (Option Str × Option ℕ)
  | .createContainer spec routes .ok =>
    some (spec.bridgeName, (spec.address s.ipam range routes).1)
  | .createVm spec .ok =>
    if spec.networkMode.joins then none
    else (s.vmAddress sha256 range spec).1.map fun ip => (spec.bridgeName, some ip)
  | _ => none

def OnNetwork (s : Networks) (a : Action) : Prop :=
  ∀ name ip, s.started sha256 range a = some (some name, ip) →
    ∀ subnet, (name, subnet) ∈ s.recorded →
      ∃ x, ip = some x ∧ subnet.Has x

def Known (s : Networks) (name : Str) : Prop := name ∈ s.recorded.map Prod.fst

instance (s : Networks) (name : Str) : Decidable (s.Known name) :=
  inferInstanceAs (Decidable (_ ∈ _))

/-- The first byte of the hash tells a new network from the others; no container is started on a network;
    a machine is started on one only with an empty pool, and if the hash of the name happens to be the
    place where the two ways to derive a subnet from it meet. -/
def Agrees (s : Networks) : Action → Prop
  | .createNetwork name true =>
    name ≠ [] → ∀ m ∈ s.recorded, m.1 ≠ name → networkOctet sha256 m.1 ≠ networkOctet sha256 name
  | .createContainer spec _ .ok => ∀ name ∈ spec.bridgeName, ¬ s.Known name
  | .createVm spec .ok =>
    spec.networkMode.joins = false → ∀ name ∈ spec.bridgeName, s.Known name →
      s.pool = [] ∧ (sha256 (Vsock.asBytes name)).bytes.take 2 = [43, 44]
  | _ => True

instance (s : Networks) : ∀ a, Decidable (s.Agrees sha256 a)
  | .createNetwork _ true => inferInstanceAs (Decidable (_ → ∀ m ∈ _, _ → _))
  | .createContainer _ _ .ok => inferInstanceAs (Decidable (∀ name ∈ _, _))
  | .createVm _ .ok => inferInstanceAs (Decidable (_ → ∀ name ∈ _, _))
  | .createNetwork _ false | .createContainer _ _ .refused | .createContainer _ _ .failed
  | .createVm _ .refused | .createVm _ .failed | .removeNetwork _ | .bootPoolVm =>
    inferInstanceAs (Decidable True)

end Networks

end Pullrun
