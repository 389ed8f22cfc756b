import Pullrun.Proof.Vm.Addresses
import Pullrun.Service.Networks

/-!
# Where the three ways to derive a subnet meet

Networks are recorded in 10.43.0.0/16 by one byte of a hash. The shared `Ipam` stays below 10.43.0.0,
whatever it is asked for, so that no container and no machine of the pool is ever on the subnet of its
network; a machine of a cold boot is, if two bytes of the hash happen to say so.
-/

namespace Pullrun

open Net Vm List Option Ipams

variable {sha256 : Bytes → Digest}

/-! ## Subnets of networks -/

/-- 10.43.0.0, the end of the range of the workloads. -/
def networksBase : ℕ := 170590208

theorem networkSubnetFor_eq (sha256 : Bytes → Digest) (name : Str) :
    networkSubnetFor sha256 name = ⟨networksBase + networkOctet sha256 name * 256, 256⟩ := by
  have hlt : networkOctet sha256 name < 256 := by
    rw [networkOctet]
    omega
  rw [networkSubnetFor, ipv4, UInt8.toNat_ofNat_of_lt' hlt, show (10 : UInt8).toNat = 10 from rfl,
    show (43 : UInt8).toNat = 43 from rfl, show (0 : UInt8).toNat = 0 from rfl, networksBase]
  rfl

theorem networkSubnetFor_apart_iff (sha256 : Bytes → Digest) (m n : Str) :
    (networkSubnetFor sha256 m).Apart (networkSubnetFor sha256 n) ↔
      networkOctet sha256 m ≠ networkOctet sha256 n := by
  rw [networkSubnetFor_eq, networkSubnetFor_eq]
  unfold IpRange.Apart
  dsimp only
  omega

theorem take_two (d : Digest) : d.bytes.take 2 = [hashByte d 0, hashByte d 1] := by
  obtain ⟨bytes, hlen⟩ := d
  match bytes, hlen with
  | a :: b :: rest, _ => rfl

theorem networkSubnetFor_has_project (sha256 : Bytes → Digest) (name : Str) :
    (networkSubnetFor sha256 name).Has (projectBase sha256 name + 2) ↔
      (sha256 (Vsock.asBytes name)).bytes.take 2 = [43, 44] := by
  rw [networkSubnetFor_eq, networkOctet, projectBase, take_two]
  generalize hashByte (sha256 (Vsock.asBytes name)) 0 = a
  generalize hashByte (sha256 (Vsock.asBytes name)) 1 = b
  have ha := a.toNat_lt
  have hb := b.toNat_lt
  have hbytes : [a, b] = [43, 44] ↔ a.toNat = 43 ∧ b.toNat = 44 := by
    simp only [cons.injEq, and_true, ← UInt8.toNat_inj]
    rfl
  rw [hbytes]
  simp only [IpRange.Has, ipv4, networksBase, show (10 : UInt8).toNat = 10 from rfl,
    show (0 : UInt8).toNat = 0 from rfl]
  omega

theorem not_networkSubnetFor_has {ip : ℕ} (h : ip < networksBase) (name : Str) :
    ¬ (networkSubnetFor sha256 name).Has ip := by
  rw [networkSubnetFor_eq]
  unfold IpRange.Has
  dsimp only
  omega

/-! ## The shared `Ipam` -/

/-- Its subnets end below the networks. -/
def Net.Ipam.BelowNetworks (ipam : Ipam) : Prop :=
  ∀ entry ∈ ipam.subnets, entry.2 + 256 ≤ networksBase

namespace Net.Ipam.BelowNetworks

theorem of_probed {base : ℕ} (h : Ipam.Probed workloads base) : base + 256 ≤ networksBase := by
  obtain ⟨idx, hidx, rfl⟩ := h
  simp only [Ipam.Within, wordSize, workloads, networksBase] at *
  omega

variable {ipam : Ipam}

theorem allocate_lt {ip : ℕ} (h : (ipam.allocate workloads).1 = some ip) :
    ip < networksBase := by
  rcases Machines.allocate_cases ipam workloads with ⟨-, halloc⟩ | ⟨hlt, halloc⟩
  · rw [halloc] at h
    cases h
  · rw [halloc] at h
    cases h
    simp only [workloads, networksBase] at *
    omega

theorem allocate (h : ipam.BelowNetworks) : (ipam.allocate workloads).2.BelowNetworks := by
  rcases Machines.allocate_cases ipam workloads with ⟨-, halloc⟩ | ⟨-, halloc⟩ <;>
    rw [halloc] <;> exact h

theorem allocateIn_lt {base ip : ℕ} (hbase : base + 256 ≤ networksBase)
    (h : (ipam.allocateIn base).1 = some ip) : ip < networksBase := by
  rw [allocateIn] at h
  split at h
  · cases h
  · cases h
    omega

variable (h : ipam.BelowNetworks)
include h

theorem allocateIn (base : ℕ) : (ipam.allocateIn base).2.BelowNetworks := by
  rw [Ipam.allocateIn]
  split <;> exact h

theorem subnetFor_le {routes : List Route} {key : Str} {base : ℕ}
    (hbase : (ipam.subnetFor workloads routes key).1 = some base) : base + 256 ≤ networksBase := by
  rcases (subnetFor_spec ipam routes key).2.2.2 base hbase with ⟨entry, hentry, rfl⟩ | hprobed
  · exact h entry hentry
  · exact of_probed hprobed

theorem subnetFor (routes : List Route) (key : Str) :
    (ipam.subnetFor workloads routes key).2.BelowNetworks := by
  intro entry hentry
  rcases (subnetFor_spec ipam routes key).2.2.1 entry hentry with hold | hnew
  · exact h entry hold
  · exact subnetFor_le h hnew

theorem subnet (spec : ContainerSpec) (routes : List Route) :
    (spec.subnet ipam workloads routes).2.BelowNetworks ∧
      ∀ base, (spec.subnet ipam workloads routes).1 = some base → base + 256 ≤ networksBase := by
  rw [ContainerSpec.subnet]
  split
  · exact ⟨h, by rintro base ⟨⟩⟩
  · exact ⟨subnetFor h _ _, fun base => subnetFor_le h⟩

theorem address (spec : ContainerSpec) (routes : List Route) :
    (spec.address ipam workloads routes).2.BelowNetworks ∧
      ∀ ip, (spec.address ipam workloads routes).1 = some ip → ip < networksBase := by
  obtain ⟨hbelow, hbase⟩ := h.subnet spec routes
  rw [ContainerSpec.address]
  split
  · split
    · next base ipam' hsubnet =>
      rw [hsubnet] at hbelow hbase
      exact ⟨hbelow.allocateIn base, fun ip => allocateIn_lt (hbase base rfl)⟩
    · next ipam' hsubnet =>
      rw [hsubnet] at hbelow
      exact ⟨hbelow.allocate, fun ip => allocate_lt⟩
  · exact ⟨h, by rintro ip ⟨⟩⟩

end Net.Ipam.BelowNetworks

/-! ## Runs -/

namespace Networks

structure Inv (sha256 : Bytes → Digest) (s : Networks) : Prop where
  names : s.recorded.Pairwise fun m n => m.1 ≠ n.1
  subnets : ∀ m ∈ s.recorded, m.2 = networkSubnetFor sha256 m.1
  disjoint : s.Disjoint
  ipam : s.ipam.BelowNetworks
  pool : ∀ ip ∈ s.pool, ip < networksBase

theorem inv_new : Inv sha256 new where
  names := .nil
  subnets m hm := by cases hm
  disjoint := .nil
  ipam entry hentry := by cases hentry
  pool ip hip := by cases hip

variable {s s' : Networks} {name : Str} {a : Action}

section

variable (hs : s.Inv sha256)
include hs

theorem Inv.of_recorded (h : s'.recorded.Sublist s.recorded)
    (hipam : s'.ipam.BelowNetworks) (hpool : ∀ ip ∈ s'.pool, ip < networksBase) :
    s'.Inv sha256 where
  names := hs.names.sublist h
  subnets m hm := hs.subnets m (h.subset hm)
  disjoint := hs.disjoint.sublist h
  ipam := hipam
  pool := hpool

theorem Inv.insert_disjoint_iff (name : Str) : (s.insert sha256 name).Disjoint ↔
      ∀ m ∈ s.recorded, m.1 ≠ name → networkOctet sha256 m.1 ≠ networkOctet sha256 name := by
  have hold : (s.recorded.filter (·.1 ≠ name)).Pairwise fun m n => m.2.Apart n.2 :=
    hs.disjoint.sublist filter_sublist
  rw [Disjoint, insert, pairwise_cons, and_iff_left hold]
  constructor
  · intro h m hm hne
    have hapart := h m (mem_filter.mpr ⟨hm, decide_eq_true hne⟩)
    rw [hs.subnets m hm, networkSubnetFor_apart_iff] at hapart
    exact hapart.symm
  · intro h m hm
    obtain ⟨hm, hne⟩ := mem_filter.mp hm
    rw [hs.subnets m hm, networkSubnetFor_apart_iff]
    exact (h m hm (of_decide_eq_true hne)).symm

theorem Inv.insert (hdisjoint : (s.insert sha256 name).Disjoint) :
    (s.insert sha256 name).Inv sha256 where
  names := by
    refine pairwise_cons.mpr ⟨fun m hm => ?_, hs.names.sublist filter_sublist⟩
    have hne := of_decide_eq_true (mem_filter.mp hm).2
    exact fun h => hne h.symm
  subnets m hm := by
    rcases mem_cons.mp hm with rfl | hm
    · rfl
    · exact hs.subnets m (mem_filter.mp hm).1
  disjoint := hdisjoint
  ipam := hs.ipam
  pool := hs.pool

theorem Inv.vmAddress (spec : VmSpec) : (s.vmAddress sha256 workloads spec).2.Inv sha256 ∧
      ∀ name, spec.bridgeName = some name →
        ∃ ip, (s.vmAddress sha256 workloads spec).1 = some ip ∧
          (s.pool ≠ [] ∧ ip < networksBase ∨ s.pool = [] ∧ ip = projectBase sha256 name + 2) := by
  rw [Networks.vmAddress]
  cases hpool : s.pool with
  | cons ip pool =>
    have hip : ∀ x ∈ ip :: pool, x < networksBase := hpool ▸ hs.pool
    refine ⟨hs.of_recorded (.refl _) hs.ipam fun x hx => hip x (mem_cons_of_mem _ hx), ?_⟩
    intro name _
    exact ⟨ip, rfl, .inl ⟨cons_ne_nil _ _, hip ip mem_cons_self⟩⟩
  | nil =>
    cases hname : spec.bridgeName with
    | none => exact ⟨hs.of_recorded (.refl _) hs.ipam.allocate (by rintro ip ⟨⟩), by rintro name ⟨⟩⟩
    | some name =>
      refine ⟨hs, ?_⟩
      rintro _ ⟨⟩
      exact ⟨_, rfl, .inr ⟨rfl, rfl⟩⟩

theorem Inv.mem_known {subnet : IpRange}
    (h : (name, subnet) ∈ s.recorded) : s.Known name ∧ subnet = networkSubnetFor sha256 name :=
  ⟨mem_map.mpr ⟨_, h, rfl⟩, hs.subnets _ h⟩

theorem Inv.known (h : s.Known name) : (name, networkSubnetFor sha256 name) ∈ s.recorded := by
  obtain ⟨⟨name', subnet⟩, hm, rfl⟩ := mem_map.mp h
  have hsubnet : subnet = networkSubnetFor sha256 name' := hs.subnets _ hm
  exact hsubnet ▸ hm

theorem Inv.onNetwork_createContainer (spec : ContainerSpec) (routes : List Route) :
    s.OnNetwork sha256 workloads (.createContainer spec routes .ok) ↔
      ∀ name ∈ spec.bridgeName, ¬ s.Known name := by
  constructor
  · intro h name hname hknown
    obtain ⟨ip, hip, hhas⟩ := h name (spec.address s.ipam workloads routes).1
      (by rw [started, mem_def.mp hname]) _ (hs.known hknown)
    exact not_networkSubnetFor_has ((hs.ipam.address spec routes).2 ip hip) name hhas
  · intro h name ip hstarted subnet hsubnet
    cases hname : spec.bridgeName with
    | none =>
      rw [started, hname] at hstarted
      cases hstarted
    | some name' =>
      rw [started, hname] at hstarted
      cases hstarted
      exact absurd (hs.mem_known hsubnet).1 (h name hname)

theorem Inv.onNetwork_createVm {spec : VmSpec} (hjoins : spec.networkMode.joins = false) :
    s.OnNetwork sha256 workloads (.createVm spec .ok) ↔
      ∀ name ∈ spec.bridgeName, s.Known name →
        s.pool = [] ∧ (sha256 (Vsock.asBytes name)).bytes.take 2 = [43, 44] := by
  have hstart : s.started sha256 workloads (.createVm spec .ok) =
      (s.vmAddress sha256 workloads spec).1.map fun ip => (spec.bridgeName, some ip) := by
    simp only [started, hjoins, Bool.false_eq_true, if_false]
  constructor
  · intro h name hname hknown
    obtain ⟨ip, hip, hcases⟩ := (hs.vmAddress spec).2 name hname
    obtain ⟨_, ⟨⟩, hhas⟩ := h name (some ip) (by rw [hstart, hip, mem_def.mp hname]; rfl) _
      (hs.known hknown)
    rcases hcases with ⟨-, hlt⟩ | ⟨hpool, rfl⟩
    · exact absurd hhas (not_networkSubnetFor_has hlt name)
    · exact ⟨hpool, (networkSubnetFor_has_project sha256 name).mp hhas⟩
  · intro h name ip hstarted subnet hsubnet
    rw [hstart] at hstarted
    obtain ⟨x, hx, heq⟩ := map_eq_some_iff.mp hstarted
    obtain ⟨hname, rfl⟩ := Prod.mk.inj heq
    obtain ⟨hknown, rfl⟩ := hs.mem_known hsubnet
    obtain ⟨hpool, hhash⟩ := h name hname hknown
    obtain ⟨ip, hip, hcases⟩ := (hs.vmAddress spec).2 name hname
    rw [hip] at hx
    cases hx
    rcases hcases with ⟨hne, -⟩ | ⟨-, rfl⟩
    · exact absurd hpool hne
    · exact ⟨_, rfl, (networkSubnetFor_has_project sha256 name).mpr hhash⟩

end

theorem onNetwork_of_none (h : s.started sha256 workloads a = none) :
    s.OnNetwork sha256 workloads a := by
  intro name ip hstarted
  rw [h] at hstarted
  cases hstarted

theorem Inv.step (hs : s.Inv sha256)
    (hnew : ∀ name, a = .createNetwork name true → name ≠ [] → (s.insert sha256 name).Disjoint)
    (h : step sha256 workloads s a = some s') : s'.Inv sha256 := by
  cases a with
  | createNetwork name ok =>
    cases h
    split
    · next hcond =>
      obtain ⟨hname, rfl⟩ := hcond
      exact hs.insert (hnew name rfl hname)
    · exact hs
  | removeNetwork name =>
    cases h
    split
    · exact hs.of_recorded filter_sublist hs.ipam hs.pool
    · exact hs
  | createContainer spec routes outcome =>
    cases h
    refine hs.of_recorded (.refl _) ?_ hs.pool
    dsimp only
    split
    · split
      · exact (hs.ipam.subnet spec routes).1
      · exact hs.ipam
    · exact (hs.ipam.address spec routes).1
  | createVm spec outcome =>
    cases h
    split
    · exact hs
    · exact (hs.vmAddress spec).1
  | bootPoolVm =>
    cases h
    refine hs.of_recorded (.refl _) hs.ipam.allocate fun ip hip => ?_
    rcases mem_append.mp hip with hip | hip
    · exact hs.pool ip hip
    · exact Ipam.BelowNetworks.allocate_lt (mem_toList.mp hip)

theorem Inv.agrees_iff (hs : s.Inv sha256) (a : Action) :
    (∀ s', Networks.step sha256 workloads s a = some s' → s'.Disjoint) ∧
        s.OnNetwork sha256 workloads a ↔
      s.Agrees sha256 a := by
  -- all but a new network leave the subnets apart
  have hkeeps : (∀ name, a ≠ .createNetwork name true) →
      ∀ s', Networks.step sha256 workloads s a = some s' → s'.Disjoint :=
    fun hne s' h => (hs.step (fun name heq => absurd heq (hne name)) h).disjoint
  cases a with
  | createNetwork name ok =>
    cases ok with
    | true =>
      rw [and_iff_left (onNetwork_of_none rfl)]
      simp only [Networks.step, some.injEq, forall_eq', and_true, Agrees]
      by_cases hname : name = []
      · simp only [hname, ne_eq, not_true_eq_false, if_false, false_implies, iff_true]
        exact hs.disjoint
      · rw [if_pos hname, hs.insert_disjoint_iff]
        exact ⟨fun h _ => h, fun h => h hname⟩
    | false => exact iff_of_true ⟨hkeeps (by simp), onNetwork_of_none rfl⟩ trivial
  | removeNetwork name | bootPoolVm => exact iff_of_true ⟨hkeeps (by simp), onNetwork_of_none rfl⟩ trivial
  | createContainer spec routes outcome =>
    cases outcome with
    | ok => rw [and_iff_right (hkeeps (by simp)), hs.onNetwork_createContainer]; rfl
    | refused | failed => exact iff_of_true ⟨hkeeps (by simp), onNetwork_of_none rfl⟩ trivial
  | createVm spec outcome =>
    cases outcome with
    | ok =>
      rw [and_iff_right (hkeeps (by simp))]
      cases hjoins : spec.networkMode.joins with
      | true =>
        refine iff_of_true (onNetwork_of_none (by simp [started, hjoins])) fun hfalse => ?_
        rw [hjoins] at hfalse
        cases hfalse
      | false =>
        rw [hs.onNetwork_createVm hjoins]
        exact ⟨fun h _ => h, fun h => h hjoins⟩
    | refused | failed => exact iff_of_true ⟨hkeeps (by simp), onNetwork_of_none rfl⟩ trivial

/-- **Subnets of networks and addresses of workloads agree exactly if every step is one of the few in which
    they do.** -/
theorem onNetwork_iff_agrees (sha256 : Bytes → Digest) (as : List Action) :
    Schedule.Meets (Networks.step sha256 Ipams.workloads)
        (fun s a => (∀ s', Networks.step sha256 Ipams.workloads s a = some s' → s'.Disjoint) ∧
          s.OnNetwork sha256 Ipams.workloads a) new as ↔
      Schedule.Meets (Networks.step sha256 Ipams.workloads) (Agrees sha256) new as := by
  refine Schedule.meets_congr (Inv sha256) ?_ (fun s a hs => hs.agrees_iff a) inv_new as
  intro s a s' hs hagrees h
  refine hs.step ?_ h
  rintro name rfl hname
  exact (hs.insert_disjoint_iff name).mpr (hagrees hname)

def oneNetwork : Networks := insert Machines.lengthHash new ['a']

theorem networks_disagree :
    networkSubnetFor Machines.lengthHash ['a'] = ⟨ipv4 10 43 2 0, 256⟩ ∧
      networkSubnetFor Machines.lengthHash ['b'] = ⟨ipv4 10 43 2 0, 256⟩ ∧
      oneNetwork.started Machines.lengthHash Ipams.workloads
          (.createContainer ⟨some ['a'], .bridge⟩ [] .ok) =
        some (some ['a'], some (ipv4 10 42 0 2)) ∧
      oneNetwork.started Machines.lengthHash Ipams.workloads (.createVm ⟨['v'], some ['a'], .bridge⟩ .ok) =
        some (some ['a'], some (ipv4 10 1 0 2)) ∧
      ∀ a ∈ [Action.createNetwork ['b'] true, .createContainer ⟨some ['a'], .bridge⟩ [] .ok,
          .createVm ⟨['v'], some ['a'], .bridge⟩ .ok],
        ¬ Schedule.Meets (Networks.step Machines.lengthHash Ipams.workloads)
          (fun s a =>
            (∀ s', Networks.step Machines.lengthHash Ipams.workloads s a = some s' → s'.Disjoint) ∧
              s.OnNetwork Machines.lengthHash Ipams.workloads a) new
          [.createNetwork ['a'] true, a] := by
  refine ⟨by decide +kernel, by decide +kernel, by decide +kernel, by decide +kernel, ?_⟩
  have hone : oneNetwork.Inv Machines.lengthHash :=
    inv_new.insert (pairwise_singleton _ _)
  have hstep : step Machines.lengthHash workloads new (.createNetwork ['a'] true) =
      some oneNetwork := rfl
  have hagrees : ∀ a ∈ [Action.createNetwork ['b'] true, .createContainer ⟨some ['a'], .bridge⟩ [] .ok,
      .createVm ⟨['v'], some ['a'], .bridge⟩ .ok], ¬ oneNetwork.Agrees Machines.lengthHash a := by
    decide +kernel
  intro a ha hmeets
  exact hagrees a ha ((hone.agrees_iff a).mp ((Schedule.meets_cons_some hstep).mp hmeets).2.1)

end Networks

end Pullrun
