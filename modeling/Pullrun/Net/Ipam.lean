import Pullrun.Store.Digest

/-!
# Addresses for workloads

`pullrun-net/src/ipam.rs`. An `Ipam` hands out addresses of one range in two ways: `allocate` counts through
the whole range, for the default bridge; `subnet_for` hands out a /24 of the range for each bridge of a
pod, and `allocate_in` counts through such a subnet. The three counters are independent of each other.

Words of 32 bits are numbers below `2^32`; sums and products wrap, as they do in a release build. The
routes of the host are what `/proc/net/route` lists, as words; lines that are no routes are skipped there.
-/

namespace Pullrun.Net

def wordSize : ℕ := 4294967296

structure IpRange where
  base : ℕ
  size : ℕ
deriving DecidableEq, Repr

/-- `IpRange::from_cidr`, for an address and the length of its network part. -/
def IpRange.fromCidr (ip len : ℕ) : Option IpRange :=
  if 32 < len then none else some ⟨ip - ip % 2 ^ (32 - len), 2 ^ (32 - len)⟩

/-- A line of `/proc/net/route`: destination and mask, in the byte order of the network. -/
structure Route where
  dest : UInt32
  mask : UInt32
deriving DecidableEq, Repr

def swapBytes (n : UInt32) : ℕ :=
  n.toNat % 256 * 16777216 + n.toNat / 256 % 256 * 65536 + n.toNat / 65536 % 256 * 256
    + n.toNat / 16777216

def liveSubnetsInRange (routes : List Route) (base size : ℕ) : List ℕ :=
  routes.filterMap fun route =>
    if swapBytes route.mask ≠ 0xFFFFFF00 then none
    else if base ≤ swapBytes route.dest ∧ swapBytes route.dest < (base + size) % wordSize then
      some (swapBytes route.dest)
    else none

/-- `Ipam`. A subnet is known by its base; its size is always 256. -/
structure Ipam where
  next : ℕ
  nextSubnet : ℕ
  subnets : List (Str × ℕ)
  nextInSubnet : ℕ → Option ℕ

namespace Ipam

def new : Ipam := ⟨2, 0, [], fun _ => none⟩

def allocate (ipam : Ipam) (range : IpRange) : Option ℕ × Ipam :=
  if range.size - 1 ≤ ipam.next then (none, ipam)
  else (some (range.base + ipam.next), { ipam with next := ipam.next + 1 })

/-- The loop of `subnet_for`, which goes on with the counter while the subnet it comes to is in use. -/
def probe (range : IpRange) (live taken : List ℕ) : ℕ → ℕ → Option ℕ × ℕ
  | 0, idx => (none, idx)
  | tries + 1, idx =>
    if range.size < (idx + 1) % wordSize * 256 % wordSize then (none, (idx + 1) % wordSize)
    else
      let base := (range.base + idx * 256) % wordSize
      if base ∈ live then probe range live taken tries ((idx + 1) % wordSize)
      else if base ∈ taken then probe range live taken tries ((idx + 1) % wordSize)
      else (some base, (idx + 1) % wordSize)

def subnetFor (ipam : Ipam) (range : IpRange) (routes : List Route) (key : Str) : Option ℕ × Ipam :=
  match ipam.subnets.find? (·.1 = key) with
  | some (_, base) => (some base, ipam)
  | none =>
    match probe range (liveSubnetsInRange routes range.base range.size) (ipam.subnets.map Prod.snd) 64
        ipam.nextSubnet with
    | (none, idx) => (none, { ipam with nextSubnet := idx })
    | (some base, idx) =>
      (some base, { ipam with nextSubnet := idx, subnets := (key, base) :: ipam.subnets })

/-- `counters.entry(subnet.base).or_insert(2)` -/
def counter (ipam : Ipam) (base : ℕ) : ℕ := (ipam.nextInSubnet base).getD 2

def allocateIn (ipam : Ipam) (base : ℕ) : Option ℕ × Ipam :=
  if 255 ≤ ipam.counter base then
    (none, { ipam with
      nextInSubnet := fun b => if b = base then some (ipam.counter base) else ipam.nextInSubnet b })
  else
    (some (base + ipam.counter base), { ipam with
      nextInSubnet := fun b => if b = base then some (ipam.counter base + 1) else ipam.nextInSubnet b })

/-- `Clone::clone`: "still pointing at the same underlying counter", says the comment. The two counters are
    copied, one after the other, and the maps are new. -/
def clone (next nextSubnet : ℕ) : Ipam := ⟨next, nextSubnet, [], fun _ => none⟩

end Ipam

/-! ## An `Ipam` and its clones -/

/-- All clones of one `Ipam`, with the addresses and the subnets that they have handed out. -/
structure Ipams where
  range : IpRange
  ipams : List Ipam
  handed : List ℕ
  subnets : List ℕ

namespace Ipams

def new (range : IpRange) : Ipams := ⟨range, [.new], [], []⟩

inductive Action
  | allocate (i : ℕ)
  | subnetFor (i : ℕ) (key : Str) (routes : List Route)
  | allocateIn (i : ℕ) (base : ℕ)
  /-- The first counter may be read before the second, and the second at any time. -/
  | clone (i : ℕ) (next nextSubnet : ℕ)

def step (s : Ipams) : Action → Option Ipams
  | .allocate i =>
    match s.ipams[i]? with
    | none => none
    | some ipam =>
      some { s with
        ipams := s.ipams.set i (ipam.allocate s.range).2
        handed := (ipam.allocate s.range).1.toList ++ s.handed }
  | .subnetFor i key routes =>
    match s.ipams[i]? with
    | none => none
    | some ipam =>
      some { s with
        ipams := s.ipams.set i (ipam.subnetFor s.range routes key).2
        subnets := (ipam.subnetFor s.range routes key).1.toList ++ s.subnets }
  | .allocateIn i base =>
    match s.ipams[i]? with
    | none => none
    | some ipam =>
      if base ∈ s.subnets then
        some { s with
          ipams := s.ipams.set i (ipam.allocateIn base).2
          handed := (ipam.allocateIn base).1.toList ++ s.handed }
      else none
  | .clone i next nextSubnet =>
    match s.ipams[i]? with
    | none => none
    | some ipam =>
      if 2 ≤ next ∧ next ≤ ipam.next then
        some { s with ipams := s.ipams ++ [.clone next nextSubnet] }
      else none

end Ipams

end Pullrun.Net
