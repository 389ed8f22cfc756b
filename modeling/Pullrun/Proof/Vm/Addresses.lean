import Pullrun.Proof.Net.Ipam
import Pullrun.Vm.Addresses

/-!
# When machines on one bridge can be told apart

An address of the shared `Ipam` is never handed out again, so that two machines which both have theirs from
it differ, and so do their MAC addresses.
-/

namespace Pullrun.Vm

open Net Schedule

variable {sha256 : Bytes → Digest} {range : IpRange}

/-! ## Interfaces -/

theorem projectBase_lt (sha256 : Bytes → Digest) (name : Str) :
    projectBase sha256 name + 2 < wordSize := by
  have hlt := fun (b : UInt8) => b.toNat_lt
  have h0 := hlt (hashByte (sha256 (Vsock.asBytes name)) 0)
  have h1 := hlt (hashByte (sha256 (Vsock.asBytes name)) 1)
  simp only [projectBase, ipv4, wordSize, show (10 : UInt8).toNat = 10 from rfl,
    show (0 : UInt8).toNat = 0 from rfl]
  omega

theorem guestIp_network (spec : VmSpec) (ip : ℕ) : (spec.network sha256 ip).guestIp = ip := by
  by_cases hslirp : spec.networkMode = .slirp
  · simp only [VmSpec.network, hslirp, if_true, createSlirpTap]
  · cases h : spec.bridgeName <;> simp only [VmSpec.network, hslirp, if_false, h] <;> rfl

namespace Made

def tapName (sha256 : Bytes → Digest) : Made → Str
  | .cold spec => tapNameFor sha256 spec.id
  | .pool b => poolTapName b

theorem tapName_eq_iff (m m' : Made) :
    m.tapName sha256 = m'.tapName sha256 ↔ SameTap sha256 m m' := by
  cases m with
  | cold spec =>
    cases m' with
    | cold spec' => exact tapNameFor_eq_iff sha256 spec.id spec'.id
    | pool b => exact iff_false_intro (tapNameFor_ne_poolTapName sha256 spec.id b)
  | pool b =>
    cases m' with
    | cold spec => exact iff_false_intro fun h => tapNameFor_ne_poolTapName sha256 spec.id b h.symm
    | pool b' => exact poolTapName_eq_iff b b'

theorem bridge_of_project {m : Made} {name : Str} (h : m.project = some name) (hsome : m.bridge ≠ []) :
    m.bridge = name := by
  cases m with
  | pool b => cases h
  | cold spec =>
    have hname : spec.bridgeName = some name := h
    rw [bridge] at hsome ⊢
    split at hsome
    · exact absurd rfl hsome
    · rw [if_neg ‹_›, hname, Option.getD_some]

end Made

/-- The interface of a machine is what its origin says, and its address is the first one of its subnet or
    one of those that the shared `Ipam` has passed. -/
structure Machine.Described (sha256 : Bytes → Digest) (range : IpRange) (next : ℕ) (v : Machine) :
    Prop where
  tap : v.net.tapName = v.made.tapName sha256
  bridge : v.net.bridgeName = v.made.bridge
  mac : v.net.guestMac = macFromIp v.net.guestIp
  project : ∀ name, v.made.project = some name → v.net.guestIp = projectBase sha256 name + 2
  shared : v.made.project = none → v.net.guestIp < range.base + next

namespace Machine.Described

variable {next next' : ℕ} {v : Machine}

theorem mono (h : v.Described sha256 range next) (hle : next ≤ next') : v.Described sha256 range next' :=
  { h with shared := fun hnone => by have := h.shared hnone; omega }

theorem lt_wordSize (h : v.Described sha256 range next)
    (hword : range.base + next ≤ wordSize) : v.net.guestIp < wordSize := by
  cases hproject : v.made.project with
  | none => exact lt_of_lt_of_le (h.shared hproject) hword
  | some name =>
    rw [h.project name hproject]
    exact projectBase_lt sha256 name

theorem cold (spec : VmSpec) (serial ip next : ℕ)
    (hproject : ∀ name, spec.bridgeName = some name → ip = projectBase sha256 name + 2)
    (hshared : spec.bridgeName = none → ip < range.base + next) :
    Machine.Described sha256 range next ⟨serial, .cold spec, spec.network sha256 ip⟩ := by
  obtain ⟨id, bridge, mode⟩ := spec
  by_cases hslirp : mode = .slirp
  · subst hslirp
    cases bridge <;> exact ⟨rfl, rfl, rfl, hproject, hshared⟩
  · have hbridge : ∀ b, (Made.cold ⟨id, b, mode⟩).bridge = b.getD bridgeName := by
      intro b
      simp only [Made.bridge, hslirp, if_false]
    unfold VmSpec.network
    simp only [hslirp, if_false]
    cases bridge with
    | none => exact ⟨rfl, (hbridge none).symm, rfl, hproject, hshared⟩
    | some name => exact ⟨rfl, (hbridge (some name)).symm, rfl, hproject, hshared⟩

theorem pool (b : Fin 16 → UInt8) {serial ip : ℕ} (hshared : ip < range.base + next) :
    Machine.Described sha256 range next ⟨serial, .pool b, createTap (poolTapName b) ip⟩ :=
  ⟨rfl, rfl, rfl, (by rintro name ⟨⟩), fun _ => hshared⟩

/-- **A new machine and an old one.** `next` is the counter of the shared `Ipam` before the new machine was
    made: what the old one has from it lies below, and what the new one may have is the counter itself. -/
theorem distinct_iff_clear {w : Machine} (hv : v.Described sha256 range next')
    (hw : w.Described sha256 range next) (hle : next ≤ next')
    (hword : range.base + next' ≤ wordSize)
    (hnew : v.made.project = none → v.net.guestIp = range.base + next) :
    Machines.Distinct v.net w.net ↔
      (v.made.bridge ≠ [] → w.made.bridge = v.made.bridge →
        v.made.Clear sha256 (range.base + next) w) := by
  have hmac : v.net.guestIp ≠ w.net.guestIp → v.net.guestMac ≠ w.net.guestMac := by
    intro hne heq
    rw [hv.mac, hw.mac] at heq
    exact hne (macFromIp_injective (hv.lt_wordSize hword) ((hw.mono hle).lt_wordSize hword) heq)
  have htap : v.net.tapName ≠ w.net.tapName ↔ ¬ Made.SameTap sha256 v.made w.made := by
    rw [hv.tap, hw.tap, not_iff_not]
    exact Made.tapName_eq_iff v.made w.made
  have hip : v.made.bridge ≠ [] → w.made.bridge = v.made.bridge →
      (v.net.guestIp ≠ w.net.guestIp ↔ Made.ClearAddresses sha256 (range.base + next) w.net.guestIp
        v.made.project w.made.project) := by
    intro hsome hsame
    cases hp : v.made.project with
    | none =>
      rw [hnew hp]
      cases hq : w.made.project with
      | none =>
        have hlt := hw.shared hq
        exact iff_of_true (by omega) trivial
      | some name =>
        rw [hw.project name hq]
        exact Iff.rfl
    | some name =>
      rw [hv.project name hp]
      cases hq : w.made.project with
      | none => exact ne_comm
      | some name' =>
        -- two machines for one bridge have one address
        have hbridge := Made.bridge_of_project hp hsome
        have hbridge' := Made.bridge_of_project hq (hsame ▸ hsome)
        rw [hw.project name' hq, ← hbridge, ← hbridge', hsame]
        exact iff_of_false (fun h => h rfl) fun h => h
  constructor
  · intro h hsome hsame
    have hd := h (by rw [hv.bridge, hw.bridge, hsame]) (by rwa [hv.bridge])
    exact ⟨htap.mp hd.2.2, (hip hsome hsame).mp hd.1⟩
  · intro h hsame hsome
    rw [hv.bridge, hw.bridge] at hsame
    rw [hv.bridge] at hsome
    have hclear := h hsome hsame.symm
    have hne := (hip hsome hsame.symm).mpr hclear.2
    exact ⟨hne, hmac hne, htap.mpr hclear.1⟩

end Machine.Described

namespace Machines

/-! ## Steps -/

theorem allocate_cases (ipam : Ipam) (range : IpRange) :
    range.size - 1 ≤ ipam.next ∧ ipam.allocate range = (none, ipam) ∨
      ipam.next < range.size - 1 ∧
        ipam.allocate range = (some (range.base + ipam.next), { ipam with next := ipam.next + 1 }) := by
  rw [Ipam.allocate]
  by_cases h : range.size - 1 ≤ ipam.next
  · exact .inl ⟨h, if_pos h⟩
  · exact .inr ⟨Nat.lt_of_not_le h, if_neg h⟩

structure Effect (sha256 : Bytes → Digest) (range : IpRange) (s s' : Machines) (v : Option Machine) :
    Prop where
  /-- The shared `Ipam` is left alone, or hands out one address. -/
  ipam : s'.ipam = s.ipam ∨ s'.ipam = (s.ipam.allocate range).2
  makes : ∀ new, v = some new → s'.alive = new :: s.alive ∧
    new.Described sha256 range s'.ipam.next ∧
      (new.made.project = none → new.net.guestIp = range.base + s.ipam.next)
  ends : v = none → s'.alive.Sublist s.alive

variable {s s' : Machines} {v : Option Machine} {spec : VmSpec} {a : Action}

theorem Effect.of_ends (hipam : s'.ipam = s.ipam ∨ s'.ipam = (s.ipam.allocate range).2)
    (h : s'.alive.Sublist s.alive) : Effect sha256 range s s' none :=
  ⟨hipam, (by rintro v ⟨⟩), fun _ => h⟩

theorem Effect.of_makes {v : Machine}
    (hipam : s'.ipam = s.ipam ∨ s'.ipam = (s.ipam.allocate range).2) (h : s'.alive = v :: s.alive)
    (hdescribed : v.Described sha256 range s'.ipam.next)
    (hnew : v.made.project = none → v.net.guestIp = range.base + s.ipam.next) :
    Effect sha256 range s s' (some v) :=
  ⟨hipam, (by rintro w ⟨⟩; exact ⟨h, hdescribed, hnew⟩), (by rintro ⟨⟩)⟩

def coldMade (sha256 : Bytes → Digest) (range : IpRange) (s : Machines) (spec : VmSpec) :
    Option Machine :=
  (s.address sha256 range spec).1.map fun ip => ⟨s.nextSerial, .cold spec, spec.network sha256 ip⟩

theorem effect_coldBoot (s : Machines) (spec : VmSpec) :
    Effect sha256 range s (s.coldBoot sha256 range spec .ok) (s.coldMade sha256 range spec) := by
  obtain ⟨id, bridge, mode⟩ := spec
  cases bridge with
  | some name =>
    refine .of_makes (.inl rfl) rfl (.cold _ _ _ _ ?_ ?_) ?_
    · rintro _ ⟨⟩
      rfl
    · rintro ⟨⟩
    · rintro ⟨⟩
  | none =>
    rcases allocate_cases s.ipam range with ⟨-, h⟩ | ⟨-, h⟩
    · have hboot : s.coldBoot sha256 range ⟨id, none, mode⟩ .ok = s := by
        simp only [coldBoot, address, h]
      have hmade : s.coldMade sha256 range ⟨id, none, mode⟩ = none := by
        simp only [coldMade, address, h, Option.map_none]
      rw [hboot, hmade]
      exact .of_ends (.inl rfl) (.refl _)
    · have hmade : s.coldMade sha256 range ⟨id, none, mode⟩ = some ⟨s.nextSerial, .cold ⟨id, none, mode⟩,
          VmSpec.network sha256 ⟨id, none, mode⟩ (range.base + s.ipam.next)⟩ := by
        simp only [coldMade, address, h, Option.map_some]
      rw [hmade]
      simp only [coldBoot, address, h]
      refine .of_makes (.inr (by rw [h])) rfl (.cold _ _ _ _ ?_ ?_) fun _ => ?_
      · rintro _ ⟨⟩
      · intro _
        exact Nat.lt_succ_self _
      · exact guestIp_network _ _

theorem effect_coldBoot_failed (s : Machines) (spec : VmSpec) :
    Effect sha256 range s (s.coldBoot sha256 range spec .failed) none := by
  have hboot : s.coldBoot sha256 range spec .failed =
      { s with ipam := (s.address sha256 range spec).2 } := by
    cases h : s.address sha256 range spec with
    | mk ip ipam => cases ip <;> simp only [coldBoot, h]
  rw [hboot]
  refine .of_ends ?_ (.refl _)
  rw [address]
  cases spec.bridgeName with
  | none => exact .inr rfl
  | some name => exact .inl rfl

theorem effect_bootPoolVm (s : Machines) (b : Fin 16 → UInt8) :
    Effect sha256 range s (s.bootPoolVm range b .ok) ((s.ipam.allocate range).1.map fun ip =>
      ⟨s.nextSerial, .pool b, createTap (poolTapName b) ip⟩) := by
  rcases allocate_cases s.ipam range with ⟨-, h⟩ | ⟨-, h⟩
  · simp only [bootPoolVm, h, reduceCtorEq, if_false, Option.map_none]
    exact .of_ends (.inl rfl) (.refl _)
  · simp only [bootPoolVm, h, reduceCtorEq, if_false, Option.map_some]
    exact .of_makes (.inr (by rw [h])) rfl (.pool b (Nat.lt_succ_self _)) fun _ => rfl

theorem effect_bootPoolVm_failed (s : Machines) (b : Fin 16 → UInt8) :
    Effect sha256 range s (s.bootPoolVm range b .failed) none := by
  rcases allocate_cases s.ipam range with ⟨-, h⟩ | ⟨-, h⟩
  · simp only [bootPoolVm, h, reduceCtorEq, if_false]
    exact .of_ends (.inl rfl) (.refl _)
  · simp only [bootPoolVm, h, reduceCtorEq, if_false]
    exact .of_ends (.inr (by rw [h])) (.refl _)

theorem effect_stop (s : Machines) (id : Str) : Effect sha256 range s (s.stop id) none := by
  rw [stop]
  split
  · exact .of_ends (.inl rfl) (.refl _)
  · split
    · exact .of_ends (.inl rfl) (.refl _)
    · exact .of_ends (.inl rfl) List.filter_sublist

def makes (sha256 : Bytes → Digest) (range : IpRange) (s : Machines) : Action → Option Machine
  | .create spec .ok =>
    if spec.networkMode.joins = false ∧ s.pool = [] then s.coldMade sha256 range spec else none
  | .bootPoolVm b .ok =>
    (s.ipam.allocate range).1.map fun ip => ⟨s.nextSerial, .pool b, createTap (poolTapName b) ip⟩
  | _ => none

theorem effect_create (s : Machines) (spec : VmSpec) (outcome : Outcome) :
    Effect sha256 range s (s.create sha256 range spec outcome)
      (s.makes sha256 range (.create spec outcome)) := by
  cases hjoins : spec.networkMode.joins with
  | true =>
    have hcreate : s.create sha256 range spec outcome = s := by simp [create, hjoins]
    have hmakes : s.makes sha256 range (.create spec outcome) = none := by
      cases outcome <;> simp [makes, hjoins]
    rw [hcreate, hmakes]
    exact .of_ends (.inl rfl) (.refl _)
  | false =>
    cases outcome with
    | refused =>
      simp only [create, or_true, if_true]
      exact .of_ends (.inl rfl) (.refl _)
    | ok =>
      simp only [create, makes, hjoins, Bool.false_eq_true, reduceCtorEq, or_self, if_false, true_and]
      cases hpool : s.pool with
      | nil => exact effect_coldBoot s spec
      | cons n pool => exact .of_ends (.inl rfl) (.refl _)
    | failed =>
      simp only [create, hjoins, Bool.false_eq_true, reduceCtorEq, or_self, if_false]
      cases hpool : s.pool with
      | nil => exact effect_coldBoot_failed s spec
      | cons n pool => exact .of_ends (.inl rfl) (.refl _)

theorem effect_step (h : step sha256 range s a = some s') :
    Effect sha256 range s s' (s.makes sha256 range a) := by
  cases a with
  | create spec outcome =>
    cases h
    exact effect_create s spec outcome
  | stop id =>
    cases h
    exact effect_stop s id
  | bootPoolVm b outcome =>
    cases h
    cases outcome with
    | ok => exact effect_bootPoolVm s b
    | refused => exact .of_ends (.inl rfl) (.refl _)
    | failed => exact effect_bootPoolVm_failed s b
  | checkHealth dead =>
    cases h
    exact .of_ends (.inl rfl) (.refl _)
  | exit n =>
    cases h
    exact .of_ends (.inl rfl) List.filter_sublist
  | allocate =>
    cases h
    exact .of_ends (.inr rfl) (.refl _)

/-! ## The invariant -/

structure Inv (sha256 : Bytes → Digest) (range : IpRange) (s : Machines) : Prop where
  distinct : s.AllDistinct
  word : range.base + s.ipam.next ≤ wordSize
  described : ∀ v ∈ s.alive, v.Described sha256 range s.ipam.next

theorem inv_new (hrange : range.Wf) : (new).Inv sha256 range where
  distinct := List.Pairwise.nil
  word := by
    have hsize := hrange.size
    have hword := hrange.word
    show range.base + 2 ≤ wordSize
    omega
  described v hv := by cases hv

theorem Effect.counter (heffect : Effect sha256 range s s' v)
    (hrange : range.Wf) (hword : range.base + s.ipam.next ≤ wordSize) :
    s.ipam.next ≤ s'.ipam.next ∧ range.base + s'.ipam.next ≤ wordSize := by
  rcases heffect.ipam with h | h
  · rw [h]
    exact ⟨le_rfl, hword⟩
  · rw [h]
    have hend := hrange.word
    rcases allocate_cases s.ipam range with ⟨-, halloc⟩ | ⟨hlt, halloc⟩
    · rw [halloc]
      exact ⟨le_rfl, hword⟩
    · rw [halloc]
      refine ⟨Nat.le_succ _, ?_⟩
      show range.base + (s.ipam.next + 1) ≤ wordSize
      omega

/-- **A step and its condition.** The machines stay distinct exactly if nothing was in the way of the one
    that was made. -/
theorem Effect.distinct_iff (heffect : Effect sha256 range s s' v)
    (hrange : range.Wf) (hs : s.Inv sha256 range) :
    s'.AllDistinct ↔ ∀ new, v = some new → s.Free sha256 range new.made := by
  cases v with
  | none => exact iff_of_true (hs.distinct.sublist (heffect.ends rfl)) (by rintro new ⟨⟩)
  | some new =>
    obtain ⟨halive, hdescribed, hnew⟩ := heffect.makes new rfl
    obtain ⟨hle, hword⟩ := heffect.counter hrange hs.word
    have hold : s.alive.Pairwise fun v w => Distinct v.net w.net := hs.distinct
    rw [AllDistinct, halive, List.pairwise_cons, and_iff_left hold]
    have hpair : ∀ w ∈ s.alive, (Distinct new.net w.net ↔ _) := fun w hw =>
      hdescribed.distinct_iff_clear (hs.described w hw) hle hword hnew
    constructor
    · rintro h _ ⟨⟩ hsome w hw hsame
      exact (hpair w hw).mp (h w hw) hsome hsame
    · intro h w hw
      exact (hpair w hw).mpr fun hsome hsame => h new rfl hsome w hw hsame

theorem coldMade_eq_some {v : Machine} (h : s.coldMade sha256 range spec = some v) :
    v.made = .cold spec ∧ (spec.bridgeName = none → s.ipam.next < range.size - 1) := by
  obtain ⟨ip, hip, rfl⟩ := Option.map_eq_some_iff.mp h
  refine ⟨rfl, fun hnone => ?_⟩
  rw [address, hnone] at hip
  rcases allocate_cases s.ipam range with ⟨-, halloc⟩ | ⟨hlt, -⟩
  · rw [halloc] at hip
    cases hip
  · exact hlt

theorem exists_coldMade (sha256 : Bytes → Digest)
    (h : spec.bridgeName = none → s.ipam.next < range.size - 1) :
    ∃ v, s.coldMade sha256 range spec = some v := by
  rw [coldMade, address]
  cases hname : spec.bridgeName with
  | some name => exact ⟨_, rfl⟩
  | none =>
    rcases allocate_cases s.ipam range with ⟨hle, -⟩ | ⟨-, halloc⟩
    · exact absurd (h hname) (not_lt.mpr hle)
    · rw [halloc]
      exact ⟨_, rfl⟩

theorem apart_iff_effect (s : Machines) (a : Action) :
    s.Apart sha256 range a ↔
      ∀ new, s.makes sha256 range a = some new → s.Free sha256 range new.made := by
  cases a with
  | create spec outcome =>
    cases outcome with
    | ok =>
      constructor
      · intro h new hnew
        rw [makes] at hnew
        split at hnew
        · next hcold =>
          obtain ⟨hmade, hleft⟩ := coldMade_eq_some hnew
          rw [hmade]
          exact h hcold.1 hcold.2 hleft
        · cases hnew
      · intro h hjoins hpool hleft
        obtain ⟨new, hnew⟩ := exists_coldMade sha256 hleft
        rw [← (coldMade_eq_some hnew).1]
        exact h new (by rw [makes, if_pos ⟨hjoins, hpool⟩, hnew])
    | refused | failed => exact iff_of_true trivial (by rintro new ⟨⟩)
  | bootPoolVm b outcome =>
    cases outcome with
    | ok =>
      rcases allocate_cases s.ipam range with ⟨hle, halloc⟩ | ⟨hlt, halloc⟩
      · refine iff_of_true (fun hlt => absurd hlt (not_lt.mpr hle)) ?_
        intro new hnew
        rw [makes, halloc] at hnew
        cases hnew
      · rw [makes, halloc]
        constructor
        · rintro h _ ⟨⟩
          exact h hlt
        · intro h _
          exact h _ rfl
    | refused | failed => exact iff_of_true trivial (by rintro new ⟨⟩)
  | stop id | checkHealth dead | exit n | allocate => exact iff_of_true trivial (by rintro new ⟨⟩)

theorem inv_step (hrange : range.Wf) (hs : s.Inv sha256 range)
    (hapart : s.Apart sha256 range a) (h : step sha256 range s a = some s') : s'.Inv sha256 range := by
  have heffect := effect_step h
  obtain ⟨hle, hword⟩ := heffect.counter hrange hs.word
  refine ⟨(heffect.distinct_iff hrange hs).mpr ((apart_iff_effect s a).mp hapart), hword, ?_⟩
  intro v hv
  cases hmakes : s.makes sha256 range a with
  | none => exact (hs.described v ((heffect.ends hmakes).subset hv)).mono hle
  | some new =>
    obtain ⟨halive, hdescribed, -⟩ := heffect.makes new hmakes
    rw [halive] at hv
    cases hv with
    | head => exact hdescribed
    | tail _ hv => exact (hs.described v hv).mono hle

/-- **Two machines on one bridge differ in address, MAC address and tap device for as long as nothing is in
    the way of a new one**, and only so. -/
theorem distinct_iff_apart (sha256 : Bytes → Digest) (range : IpRange) (hrange : range.Wf)
    (as : List Action) :
    Schedule.Meets (step sha256 range)
        (fun s a => ∀ s', step sha256 range s a = some s' → s'.AllDistinct) new as ↔
      Schedule.Meets (step sha256 range) (Apart sha256 range) new as := by
  refine Schedule.meets_congr (Inv sha256 range) (fun s a s' => inv_step hrange) ?_ (inv_new hrange) as
  intro s a hs
  rw [apart_iff_effect]
  cases h : step sha256 range s a with
  | none => cases a <;> cases h
  | some s' =>
    simp only [Option.some.injEq, forall_eq']
    exact (effect_step h).distinct_iff hrange hs

/-- A hash for examples: its first byte is the length of what it is taken of. -/
def lengthHash (b : Bytes) : Digest := ⟨UInt8.ofNat b.length :: List.replicate 31 0, rfl⟩

/-- Two workloads on the default bridge, one on a bridge of its own, and one from the pool. -/
def fourWorkloads : List Action :=
  [.create ⟨['a'], none, .bridge⟩ .ok, .create ⟨['b', 'b'], none, .bridge⟩ .ok,
    .create ⟨['c'], some "web".toList, .bridge⟩ .ok, .bootPoolVm (fun _ => 0) .ok,
    .create ⟨['d'], some "web".toList, .bridge⟩ .ok]

theorem fourWorkloads_distinct :
    Schedule.Meets (step lengthHash Ipams.workloads)
      (fun s a => ∀ s', step lengthHash Ipams.workloads s a = some s' → s'.AllDistinct) new
        fourWorkloads :=
  (distinct_iff_apart lengthHash Ipams.workloads ⟨rfl, by decide, by decide⟩ fourWorkloads).mpr
    (by decide +kernel)

def twoOnOneBridge : List Action :=
  [.create ⟨['a'], some "web".toList, .bridge⟩ .ok, .create ⟨['b', 'b'], some "web".toList, .bridge⟩ .ok]

instance (v w : VmNetwork) : Decidable (Distinct v w) := inferInstanceAs (Decidable (_ → _ → _ ∧ _))

instance (s : Machines) : Decidable s.AllDistinct := inferInstanceAs (Decidable (List.Pairwise _ _))

theorem twoOnOneBridge_collide :
    (Schedule.run (step lengthHash Ipams.workloads) new twoOnOneBridge).map
        (fun s => s.alive.map fun v => (v.net.bridgeName, v.net.guestIp, v.net.guestMac)) =
      some (List.replicate 2
        ("web".toList, ipv4 10 3 0 2, "AA:FC:0A:03:00:02".toList)) ∧
      ¬ Schedule.Meets (step lengthHash Ipams.workloads)
        (fun s a => ∀ s', step lengthHash Ipams.workloads s a = some s' → s'.AllDistinct) new
          twoOnOneBridge := by
  decide +kernel

end Machines

end Pullrun.Vm
