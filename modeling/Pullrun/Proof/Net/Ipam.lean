import Pullrun.Lib.Schedule
import Pullrun.Net.Ipam

/-!
# Which addresses are handed out twice

No address should be handed out twice, and none that is a gateway (`Unique`). An `Ipam` has a counter for
the whole range and one for each subnet, a clone has copies of its own, and none of them looks at another:
an address is handed out again when a second counter comes to it. The condition (`Apart`) says of each call
that no other counter has passed what it is about to hand out. What `subnet_for` hands out is characterised
by the map, the counter and the routes (`SubnetOf`), and `subnetFor_eq_some_iff` proves it of the code.
-/

namespace Pullrun.Net

open Schedule List Option Ipam

theorem exists_mem_set {α : Type*} {P : α → Prop} {l : List α} {i : ℕ} {u v : α} (hu : l[i]? = some u)
    (h : P u → P v) : (∃ x ∈ l.set i v, P x) ↔ P v ∨ ∃ x ∈ l, P x := by
  constructor
  · rintro ⟨x, hx, hP⟩
    rcases mem_or_eq_of_mem_set hx with hx | rfl
    · exact .inr ⟨x, hx, hP⟩
    · exact .inl hP
  · have hmem : v ∈ l.set i v := mem_set (List.getElem?_eq_some_iff.mp hu).1 v
    rintro (hP | ⟨x, hx, hP⟩)
    · exact ⟨v, hmem, hP⟩
    · obtain ⟨j, hj⟩ := getElem?_of_mem hx
      by_cases hij : i = j
      · subst hij
        have hxu : x = u := some.inj (hj.symm.trans hu)
        exact ⟨v, hmem, h (hxu ▸ hP)⟩
      · refine ⟨x, mem_of_getElem? (i := j) ?_, hP⟩
        rw [getElem?_set_ne hij, hj]

theorem forall_mem_set {α : Type*} {P : α → Prop} {l : List α} {i : ℕ} {v : α} (hl : ∀ x ∈ l, P x)
    (hv : P v) : ∀ x ∈ l.set i v, P x :=
  fun x hx => (mem_or_eq_of_mem_set hx).elim (hl x) fun h => h ▸ hv

/-- A range of whole blocks inside the 32-bit addresses. -/
structure IpRange.Wf (range : IpRange) : Prop where
  aligned : range.base % 256 = 0
  size : 256 ≤ range.size
  word : range.base + range.size ≤ wordSize

/-- `allocate_in` moves one counter. -/
def Ipam.setCounter (ipam : Ipam) (base n : ℕ) : Ipam :=
  { ipam with nextInSubnet := fun b => if b = base then some n else ipam.nextInSubnet b }

/-- The block that the counter `idx` stands for ends inside the range, in 32 bits. -/
def Ipam.Within (range : IpRange) (idx : ℕ) : Prop :=
  (idx + 1) % wordSize * 256 % wordSize ≤ range.size

/-- `base` is the first block from the counter `idx` on that is neither routed nor known under a key, all
blocks up to it are within the range, and it is among the first `tries`. -/
def Ipam.FirstFree (range : IpRange) (live taken : List ℕ) (tries idx base : ℕ) : Prop :=
  ∃ j < tries, (∀ i < j + 1, Within range (idx + i)) ∧
    (∀ i < j, (range.base + (idx + i) * 256) % wordSize ∈ live ∨
      (range.base + (idx + i) * 256) % wordSize ∈ taken) ∧
    base = (range.base + (idx + j) * 256) % wordSize ∧ base ∉ live ∧ base ∉ taken

/-- The subnet of a key: the one it has in the map, or else the first free one from the counter on. -/
def Ipam.SubnetOf (ipam : Ipam) (range : IpRange) (routes : List Route) (key : Str) (base : ℕ) : Prop :=
  (ipam.subnets.find? (·.1 = key)).map Prod.snd = some base ∨
    ipam.subnets.find? (·.1 = key) = none ∧ FirstFree range
      (liveSubnetsInRange routes range.base range.size) (ipam.subnets.map Prod.snd) 64 ipam.nextSubnet base

def Ipam.Probed (range : IpRange) (base : ℕ) : Prop :=
  ∃ idx, Within range idx ∧ base = (range.base + idx * 256) % wordSize

variable {range : IpRange} {live taken : List ℕ}

theorem firstFree_succ {tries idx base : ℕ} : FirstFree range live taken (tries + 1) idx base ↔
    Within range idx ∧
      (base = (range.base + idx * 256) % wordSize ∧ base ∉ live ∧ base ∉ taken ∨
        ((range.base + idx * 256) % wordSize ∈ live ∨ (range.base + idx * 256) % wordSize ∈ taken) ∧
          FirstFree range live taken tries ((idx + 1) % wordSize) base) := by
  have hwithin : ∀ i, Within range ((idx + 1) % wordSize + i) ↔ Within range (idx + (i + 1)) := by
    intro i
    unfold Within wordSize
    omega
  have hblock : ∀ j, (range.base + ((idx + 1) % wordSize + j) * 256) % wordSize =
      (range.base + (idx + (j + 1)) * 256) % wordSize := by
    intro j
    unfold wordSize
    omega
  constructor
  · rintro ⟨j, hj, hin, hused, hfree⟩
    refine ⟨hin 0 j.succ_pos, ?_⟩
    cases j with
    | zero => exact .inl hfree
    | succ j =>
      refine .inr ⟨hused 0 j.succ_pos, j, Nat.lt_of_succ_lt_succ hj, fun i hi => ?_, fun i hi => ?_,
        by rwa [hblock]⟩
      · exact (hwithin i).mpr (hin (i + 1) (Nat.succ_lt_succ hi))
      · rw [hblock]
        exact hused (i + 1) (Nat.succ_lt_succ hi)
  · rintro ⟨hfirst, hfree | ⟨hhere, j, hj, hin, hused, hfree⟩⟩
    · exact ⟨0, tries.succ_pos, fun i hi => by rwa [Nat.lt_one_iff.mp hi],
        fun i hi => absurd hi i.not_lt_zero, hfree⟩
    · refine ⟨j + 1, Nat.succ_lt_succ hj, fun i hi => ?_, fun i hi => ?_, by rwa [← hblock]⟩
      · cases i with
        | zero => exact hfirst
        | succ i => exact (hwithin i).mp (hin i (Nat.lt_of_succ_lt_succ hi))
      · cases i with
        | zero => exact hhere
        | succ i =>
          rw [← hblock]
          exact hused i (Nat.lt_of_succ_lt_succ hi)

theorem probe_eq_some_iff {tries idx base : ℕ} :
    (probe range live taken tries idx).1 = some base ↔ FirstFree range live taken tries idx base := by
  fun_induction probe range live taken tries idx with
  | case1 => simp [FirstFree]
  | case2 tries idx hsize =>
    have hout : ¬ Within range idx := not_le.mpr hsize
    simp [firstFree_succ, hout]
  | case3 tries idx hsize here hlive ih =>
    have hin : Within range idx := not_lt.mp hsize
    rw [ih, firstFree_succ, and_iff_right hin, or_iff_right, and_iff_right (.inl hlive)]
    rintro ⟨rfl, hfree, -⟩
    exact hfree hlive
  | case4 tries idx hsize here _ htaken ih =>
    have hin : Within range idx := not_lt.mp hsize
    rw [ih, firstFree_succ, and_iff_right hin, or_iff_right, and_iff_right (.inr htaken)]
    rintro ⟨rfl, -, hfree⟩
    exact hfree htaken
  | case5 tries idx hsize here hlive htaken =>
    have hin : Within range idx := not_lt.mp hsize
    rw [firstFree_succ, and_iff_right hin, some.injEq, or_iff_left]
    · refine ⟨?_, fun h => h.1.symm⟩
      rintro rfl
      exact ⟨rfl, hlive, htaken⟩
    · rintro ⟨hused, -⟩
      exact hused.elim hlive htaken

/-- **What `subnet_for` answers**, from the map, the counter and the routes. -/
theorem subnetFor_eq_some_iff {ipam : Ipam} {routes : List Route} {key : Str} {base : ℕ} :
    (ipam.subnetFor range routes key).1 = some base ↔ ipam.SubnetOf range routes key base := by
  unfold SubnetOf subnetFor
  rw [← probe_eq_some_iff]
  split
  · rename_i name base' hfind
    simp [hfind]
  · rename_i hfind
    rw [hfind]
    split <;> rename_i hprobe <;> simp [hprobe]

theorem probe_eq_some {tries idx base : ℕ}
    (h : (Ipam.probe range live taken tries idx).1 = some base) : Ipam.Probed range base := by
  obtain ⟨j, -, hin, -, rfl, -⟩ := probe_eq_some_iff.mp h
  exact ⟨idx + j, hin j j.lt_succ_self, rfl⟩

theorem Ipam.Probed.aligned (hwf : range.Wf) {base : ℕ} (h : Ipam.Probed range base) :
    base % 256 = 0 := by
  obtain ⟨idx, -, rfl⟩ := h
  have := hwf.aligned
  unfold wordSize
  omega

theorem subnetFor_spec (ipam : Ipam) (routes : List Route) (key : Str) :
    (ipam.subnetFor range routes key).2.next = ipam.next ∧
      (ipam.subnetFor range routes key).2.nextInSubnet = ipam.nextInSubnet ∧
      (∀ entry ∈ (ipam.subnetFor range routes key).2.subnets,
        entry ∈ ipam.subnets ∨ (ipam.subnetFor range routes key).1 = some entry.2) ∧
      ∀ base, (ipam.subnetFor range routes key).1 = some base →
        (∃ entry ∈ ipam.subnets, entry.2 = base) ∨ Ipam.Probed range base := by
  unfold subnetFor
  split
  · rename_i name base hfind
    refine ⟨rfl, rfl, fun entry h => .inl h, fun base' h => ?_⟩
    cases h
    exact .inl ⟨(name, base), mem_of_find?_eq_some hfind, rfl⟩
  · split
    · exact ⟨rfl, rfl, fun entry h => .inl h, fun base' h => by cases h⟩
    · rename_i base idx hprobe
      refine ⟨rfl, rfl, fun entry h => ?_, fun base' h => ?_⟩
      · rcases mem_cons.mp h with rfl | h
        · exact .inr rfl
        · exact .inl h
      · cases h
        exact .inr (probe_eq_some (by rw [hprobe]))

namespace Ipams

/-! ## The property and the condition -/

/-- No address is handed out twice, and no gateway is: neither that of the range nor that of a subnet. -/
structure Unique (s : Ipams) : Prop where
  once : s.handed.Nodup
  range : s.range.base + 1 ∉ s.handed
  subnets : ∀ base ∈ s.subnets, base + 1 ∉ s.handed

/-- The counter of the whole range has passed `x` in some clone: `allocate` has handed it out. -/
def PassedFlat (s : Ipams) (x : ℕ) : Prop :=
  ∃ ipam ∈ s.ipams, s.range.base + 2 ≤ x ∧ x < s.range.base + ipam.next

/-- The counter of the subnet has passed `x` in some clone. -/
def PassedIn (s : Ipams) (base x : ℕ) : Prop :=
  ∃ ipam ∈ s.ipams, base + 2 ≤ x ∧ x < base + ipam.counter base

/-- What a call is about to hand out has been passed by no counter that could hand it out too, and is no
gateway; a subnet that is assigned has a gateway that the whole range has not come to. -/
def Apart (s : Ipams) : Action → Prop
  | .allocate i => ∀ ipam ∈ s.ipams[i]?, ipam.next < s.range.size - 1 →
      (∀ other ∈ s.ipams, other.next ≤ ipam.next) ∧
        ∀ base ∈ s.subnets, s.range.base + ipam.next ≠ base + 1 ∧
          ¬ s.PassedIn base (s.range.base + ipam.next)
  | .subnetFor i key routes => ∀ ipam ∈ s.ipams[i]?, ∀ base,
      ipam.SubnetOf s.range routes key base → ¬ s.PassedFlat (base + 1)
  | .allocateIn i base => ∀ ipam ∈ s.ipams[i]?, base ∈ s.subnets → ipam.counter base < 255 →
      (∀ other ∈ s.ipams, other.counter base ≤ ipam.counter base) ∧
        ¬ s.PassedFlat (base + ipam.counter base)
  | .clone _ _ _ => True

/-! ## The invariant -/

structure Inv (s : Ipams) : Prop where
  wf : s.range.Wf
  unique : s.Unique
  handed : ∀ x, x ∈ s.handed ↔ s.PassedFlat x ∨ ∃ base ∈ s.subnets, s.PassedIn base x
  next : ∀ ipam ∈ s.ipams, 2 ≤ ipam.next
  counter : ∀ ipam ∈ s.ipams, ∀ base, 2 ≤ ipam.counter base ∧ ipam.counter base ≤ 255
  fresh : ∀ ipam ∈ s.ipams, ∀ base, base ∉ s.subnets → ipam.counter base = 2
  aligned : ∀ base ∈ s.subnets, base % 256 = 0
  known : ∀ ipam ∈ s.ipams, ∀ entry ∈ ipam.subnets, entry.2 ∈ s.subnets

theorem inv_new (hwf : range.Wf) : (new range).Inv where
  wf := hwf
  unique := ⟨nodup_nil, by simp [new], by simp [new]⟩
  handed x := by
    constructor
    · intro h
      cases h
    · rintro (⟨ipam, hipam, h⟩ | ⟨base, hbase, -⟩)
      · rw [mem_singleton.mp hipam] at h
        simp only [Ipam.new] at h
        omega
      · cases hbase
  next ipam hipam := by
    rw [mem_singleton.mp hipam]
    decide
  counter ipam hipam base := by
    rw [mem_singleton.mp hipam]
    exact ⟨le_refl _, by simp [Ipam.new, Ipam.counter]⟩
  fresh ipam hipam base _ := by
    rw [mem_singleton.mp hipam]
    rfl
  aligned base h := by cases h
  known ipam hipam entry h := by
    rw [mem_singleton.mp hipam] at h
    cases h

section

variable {s s' : Ipams}

/-! ## One clone changes -/

variable {i base : ℕ} {ipam v : Ipam} {a : Action} {addresses subnets : List ℕ}

def moved (s : Ipams) (i : ℕ) (v : Ipam) (addresses subnets : List ℕ) : Ipams :=
  { s with
    ipams := s.ipams.set i v
    handed := addresses ++ s.handed
    subnets := subnets ++ s.subnets }

theorem unique_moved {x : ℕ} (hs : s.Unique) : (s.moved i v [x] []).Unique ↔
    x ∉ s.handed ∧ x ≠ s.range.base + 1 ∧ ∀ base ∈ s.subnets, x ≠ base + 1 := by
  constructor
  · intro hu
    refine ⟨(nodup_cons.mp hu.once).1, fun h => hu.range (h ▸ mem_cons_self), fun base hbase h => ?_⟩
    exact hu.subnets base hbase (h ▸ mem_cons_self)
  · rintro ⟨hnew, hgate, hsub⟩
    refine ⟨nodup_cons.mpr ⟨hnew, hs.once⟩, fun h => ?_, fun base hbase h => ?_⟩
    · exact (mem_cons.mp h).elim (fun h => hgate h.symm) hs.range
    · exact (mem_cons.mp h).elim (fun h => hsub base hbase h.symm) (hs.subnets base hbase)

theorem exists_mem_set_passed (hi : s.ipams[i]? = some ipam) (f : Ipam → ℕ) (base x : ℕ)
    (hge : 2 ≤ f ipam) (hle : f ipam ≤ f v) :
    (∃ u ∈ s.ipams.set i v, base + 2 ≤ x ∧ x < base + f u) ↔
      (base + f ipam ≤ x ∧ x < base + f v) ∨ ∃ u ∈ s.ipams, base + 2 ≤ x ∧ x < base + f u := by
  rw [exists_mem_set hi fun h => ⟨h.1, by omega⟩]
  constructor
  · rintro (h | h)
    · by_cases hx : x < base + f ipam
      · exact .inr ⟨ipam, mem_of_getElem? hi, h.1, hx⟩
      · exact .inl ⟨not_lt.mp hx, h.2⟩
    · exact .inr h
  · rintro (h | h)
    · exact .inl ⟨by omega, h.2⟩
    · exact .inr h

/-- **One clone moves on.** The invariant is kept if exactly what its counters pass is handed out. -/
theorem Inv.moved (hs : s.Inv) (hi : s.ipams[i]? = some ipam) (hnext : ipam.next ≤ v.next)
    (hcounter : ∀ b, ipam.counter b ≤ v.counter b ∧ v.counter b ≤ 255)
    (hfresh : ∀ b, b ∉ subnets ++ s.subnets → v.counter b = ipam.counter b)
    (haligned : ∀ b ∈ subnets, b % 256 = 0)
    (hknown : ∀ entry ∈ v.subnets, entry.2 ∈ subnets ++ s.subnets)
    (hnew : ∀ x, x ∈ addresses ↔ (s.range.base + ipam.next ≤ x ∧ x < s.range.base + v.next) ∨
      ∃ b ∈ subnets ++ s.subnets, b + ipam.counter b ≤ x ∧ x < b + v.counter b)
    (hu : (s.moved i v addresses subnets).Unique) : (s.moved i v addresses subnets).Inv := by
  have hmem := mem_of_getElem? hi
  have hold : ∀ {b}, b ∉ subnets ++ s.subnets → b ∉ s.subnets := fun h hb => h (mem_append_right _ hb)
  refine
    { wf := hs.wf
      unique := hu
      handed := fun x => ?_
      next := forall_mem_set hs.next ((hs.next ipam hmem).trans hnext)
      counter := forall_mem_set hs.counter fun b =>
        ⟨(hs.counter ipam hmem b).1.trans (hcounter b).1, (hcounter b).2⟩
      fresh := forall_mem_set (fun u hu b hb => hs.fresh u hu b (hold hb)) fun b hb =>
        (hfresh b hb).trans (hs.fresh ipam hmem b (hold hb))
      aligned := fun b hb => (mem_append.mp hb).elim (haligned b) (hs.aligned b)
      known := forall_mem_set (fun u hu entry h => mem_append_right _ (hs.known u hu entry h)) hknown }
  have hflat : (s.moved i v addresses subnets).PassedFlat x ↔ _ ∨ s.PassedFlat x :=
    exists_mem_set_passed hi Ipam.next s.range.base x (hs.next ipam hmem) hnext
  have hin : ∀ b, (s.moved i v addresses subnets).PassedIn b x ↔ _ ∨ s.PassedIn b x := fun b =>
    exists_mem_set_passed hi (Ipam.counter · b) b x (hs.counter ipam hmem b).1 (hcounter b).1
  -- Nobody has counted in a new subnet.
  have hfound : (∃ b ∈ subnets ++ s.subnets, s.PassedIn b x) ↔ ∃ b ∈ s.subnets, s.PassedIn b x := by
    refine ⟨?_, fun ⟨b, hb, h⟩ => ⟨b, mem_append_right _ hb, h⟩⟩
    rintro ⟨b, -, hpassed⟩
    by_cases hb : b ∈ s.subnets
    · exact ⟨b, hb, hpassed⟩
    · obtain ⟨other, hother, hge, hlt⟩ := hpassed
      rw [hs.fresh other hother b hb] at hlt
      omega
  change x ∈ addresses ++ s.handed ↔ _ ∨ ∃ b ∈ subnets ++ s.subnets, _
  rw [mem_append, hnew, hs.handed, hflat, ← hfound, or_or_or_comm]
  simp only [hin, and_or_left, exists_or]

theorem Inv.moved_same (hs : s.Inv) (hi : s.ipams[i]? = some ipam) (hnext : v.next = ipam.next)
    (hcounter : ∀ b, v.counter b = ipam.counter b) (haligned : ∀ b ∈ subnets, b % 256 = 0)
    (hknown : ∀ entry ∈ v.subnets, entry.2 ∈ subnets ++ s.subnets)
    (hu : (s.moved i v [] subnets).Unique) : (s.moved i v [] subnets).Inv := by
  refine hs.moved hi hnext.ge (fun b => ⟨(hcounter b).ge, ?_⟩) (fun b _ => hcounter b) haligned hknown
    (fun x => ?_) hu
  · rw [hcounter]
    exact (hs.counter ipam (mem_of_getElem? hi) b).2
  · simp only [hnext, hcounter, not_mem_nil, false_iff, not_or, not_exists]
    exact ⟨by omega, fun b h => by omega⟩

/-! ## The default bridge -/

theorem Inv.unique_allocate (hs : s.Inv) (hi : s.ipams[i]? = some ipam) :
    (s.moved i v [s.range.base + ipam.next] []).Unique ↔
      (∀ other ∈ s.ipams, other.next ≤ ipam.next) ∧
      ∀ base ∈ s.subnets, s.range.base + ipam.next ≠ base + 1 ∧
        ¬ s.PassedIn base (s.range.base + ipam.next) := by
  have hnext := hs.next ipam (mem_of_getElem? hi)
  rw [unique_moved hs.unique, hs.handed, not_or]
  constructor
  · rintro ⟨⟨hflat, hin⟩, -, hsub⟩
    refine ⟨fun other hother => ?_, fun base hbase => ⟨hsub base hbase, fun h => hin ⟨base, hbase, h⟩⟩⟩
    by_contra hlt
    exact hflat ⟨other, hother, by omega, by omega⟩
  · rintro ⟨hahead, hsub⟩
    refine ⟨⟨?_, ?_⟩, by omega, fun base hbase => (hsub base hbase).1⟩
    · rintro ⟨other, hother, hpassed⟩
      have := hahead other hother
      omega
    · rintro ⟨base, hbase, hpassed⟩
      exact (hsub base hbase).2 hpassed

theorem Inv.allocate (hs : s.Inv) (hi : s.ipams[i]? = some ipam)
    (hu : (s.moved i { ipam with next := ipam.next + 1 } [s.range.base + ipam.next] []).Unique) :
    (s.moved i { ipam with next := ipam.next + 1 } [s.range.base + ipam.next] []).Inv := by
  have hmem := mem_of_getElem? hi
  refine hs.moved hi (Nat.le_succ _) (fun b => ⟨le_refl _, (hs.counter ipam hmem b).2⟩) (fun _ _ => rfl)
    (fun b hb => absurd hb not_mem_nil) (hs.known ipam hmem) (fun x => ?_) hu
  rw [mem_singleton]
  dsimp only
  refine ⟨fun h => .inl (by omega), ?_⟩
  rintro (h | ⟨b, -, hge, hlt⟩)
  · omega
  · exact absurd hge (not_le.mpr hlt)

/-! ## A subnet -/

theorem counter_setCounter (ipam : Ipam) (base n b : ℕ) :
    (ipam.setCounter base n).counter b = if b = base then n else ipam.counter b := by
  by_cases h : b = base
  · simp [counter, setCounter, h]
  · simp [counter, setCounter, h]

theorem Inv.eq_of_passedIn (hs : s.Inv) {base' x : ℕ} (hbase : base % 256 = 0)
    (hbase' : base' ∈ s.subnets) (hx : base ≤ x ∧ x < base + 256) (h : s.PassedIn base' x) :
    base' = base := by
  obtain ⟨ipam, hipam, hge, hlt⟩ := h
  have haligned := hs.aligned base' hbase'
  have hcounter := (hs.counter ipam hipam base').2
  omega

theorem Inv.unique_allocateIn (hs : s.Inv) (hi : s.ipams[i]? = some ipam)
    (hbase : base ∈ s.subnets) (hleft : ipam.counter base < 255) :
    (s.moved i v [base + ipam.counter base] []).Unique ↔
      (∀ other ∈ s.ipams, other.counter base ≤ ipam.counter base) ∧
        ¬ s.PassedFlat (base + ipam.counter base) := by
  have hcounter := (hs.counter ipam (mem_of_getElem? hi) base).1
  have haligned := hs.aligned base hbase
  rw [unique_moved hs.unique, hs.handed, not_or]
  constructor
  · rintro ⟨⟨hflat, hin⟩, -, -⟩
    refine ⟨fun other hother => ?_, hflat⟩
    by_contra hlt
    exact hin ⟨base, hbase, other, hother, by omega, by omega⟩
  · rintro ⟨hahead, hflat⟩
    refine ⟨⟨hflat, ?_⟩, ?_, fun base' hbase' => ?_⟩
    · rintro ⟨base', hbase', hpassed⟩
      have heq := hs.eq_of_passedIn haligned hbase' ⟨by omega, by omega⟩ hpassed
      subst heq
      obtain ⟨other, hother, -, hlt⟩ := hpassed
      have := hahead other hother
      omega
    · have := hs.wf.aligned
      omega
    · have := hs.aligned base' hbase'
      omega

theorem Inv.allocateIn (hs : s.Inv) (hi : s.ipams[i]? = some ipam) (hbase : base ∈ s.subnets)
    (hleft : ipam.counter base < 255)
    (hu : (s.moved i (ipam.setCounter base (ipam.counter base + 1)) [base + ipam.counter base] []).Unique) :
    (s.moved i (ipam.setCounter base (ipam.counter base + 1)) [base + ipam.counter base] []).Inv := by
  have hmem := mem_of_getElem? hi
  refine hs.moved hi (le_refl _) (fun b => ?_) (fun b hb => ?_) (fun b hb => absurd hb not_mem_nil)
    (hs.known ipam hmem) (fun x => ?_) hu
  · have hcounter := (hs.counter ipam hmem b).2
    rw [counter_setCounter]
    split
    · subst b
      omega
    · omega
  · rw [counter_setCounter, if_neg fun h : b = base => hb (h ▸ hbase)]
  · simp only [counter_setCounter]
    rw [mem_singleton]
    constructor
    · rintro rfl
      exact .inr ⟨base, hbase, le_refl _, by rw [if_pos rfl]; omega⟩
    · rintro (⟨hge, hlt⟩ | ⟨b, -, hge, hlt⟩)
      · exact absurd hge (not_le.mpr hlt)
      · split at hlt
        · subst b
          omega
        · omega

/-! ## Subnets and clones -/

theorem Inv.subnetFor (hs : s.Inv) (hi : s.ipams[i]? = some ipam) {key : Str} {routes : List Route}
    (h : s.step (.subnetFor i key routes) = some s') :
    (s'.Unique ↔ ∀ base, ipam.SubnetOf s.range routes key base → ¬ s.PassedFlat (base + 1)) ∧
      (s'.Unique → s'.Inv) := by
  have hmem := mem_of_getElem? hi
  simp only [← subnetFor_eq_some_iff]
  obtain ⟨hnext, hcounters, hentries, hbase⟩ := subnetFor_spec ipam routes key
  simp only [step, hi, some.injEq] at h
  generalize ipam.subnetFor s.range routes key = r at *
  obtain ⟨found, ipam'⟩ := r
  dsimp only at *
  have haligned : ∀ base, found = some base → base % 256 = 0 := by
    intro base hfound
    rcases hbase base hfound with ⟨entry, hentry, rfl⟩ | hprobed
    · exact hs.aligned _ (hs.known ipam hmem entry hentry)
    · exact hprobed.aligned hs.wf
  -- A gateway is never among the hosts of a subnet.
  have hgate : ∀ base, found = some base → (base + 1 ∉ s.handed ↔ ¬ s.PassedFlat (base + 1)) := by
    intro base hfound
    have hzero := haligned base hfound
    rw [hs.handed, not_or]
    refine ⟨fun h => h.1, fun hflat => ⟨hflat, ?_⟩⟩
    rintro ⟨b, hb, hpassed⟩
    have heq := hs.eq_of_passedIn hzero hb ⟨by omega, by omega⟩ hpassed
    subst heq
    obtain ⟨other, -, hge, -⟩ := hpassed
    omega
  subst h
  refine ⟨⟨fun hu base hfound => ?_, fun hnot => ⟨hs.unique.once, hs.unique.range, ?_⟩⟩, ?_⟩
  · refine (hgate base hfound).mp (hu.subnets base ?_)
    simp [hfound]
  · intro base hmem'
    rcases mem_append.mp hmem' with hfound | hold
    · have hfound := mem_toList.mp hfound
      exact (hgate base hfound).mpr (hnot base hfound)
    · exact hs.unique.subnets base hold
  · refine hs.moved_same hi hnext (fun b => ?_) (fun b hb => haligned b (mem_toList.mp hb))
      fun entry hentry => ?_
    · rw [Ipam.counter, hcounters, Ipam.counter]
    · rcases hentries entry hentry with hentry | hfound
      · exact mem_append_right _ (hs.known ipam hmem entry hentry)
      · exact mem_append_left _ (mem_toList.mpr hfound)

theorem Inv.clone (hs : s.Inv) {next nextSubnet : ℕ}
    (h : s.step (.clone i next nextSubnet) = some s') : s'.Inv := by
  simp only [step] at h
  split at h
  · cases h
  · rename_i ipam hi
    obtain ⟨hnext, h⟩ := ite_none_right_eq_some.mp h
    cases h
    have hmem := mem_of_getElem? hi
    have hall : ∀ {P : Ipam → Prop}, (∀ x ∈ s.ipams, P x) → P (.clone next nextSubnet) →
        ∀ x ∈ s.ipams ++ [clone next nextSubnet], P x := fun hold hnew =>
      forall_mem_append.mpr ⟨hold, forall_mem_singleton.mpr hnew⟩
    have hexists : ∀ {P : Ipam → Prop}, (P (.clone next nextSubnet) → ∃ x ∈ s.ipams, P x) →
        ((∃ x ∈ s.ipams ++ [clone next nextSubnet], P x) ↔ ∃ x ∈ s.ipams, P x) := by
      intro P hnew
      simp only [mem_append, mem_singleton, or_and_right, exists_or, exists_eq_left]
      exact or_iff_left_of_imp hnew
    refine
      { wf := hs.wf
        unique := ⟨hs.unique.once, hs.unique.range, hs.unique.subnets⟩
        handed := fun x => ?_
        next := hall hs.next hnext.1
        counter := hall hs.counter fun _ => ⟨le_refl _, by simp [Ipam.counter, Ipam.clone]⟩
        fresh := hall hs.fresh fun _ _ => rfl
        aligned := hs.aligned
        known := hall hs.known fun entry hentry => by cases hentry }
    have hflat : PassedFlat { s with ipams := s.ipams ++ [clone next nextSubnet] } x ↔
        s.PassedFlat x := hexists fun hx =>
      ⟨ipam, hmem, hx.1, lt_of_lt_of_le hx.2 (Nat.add_le_add_left hnext.2 _)⟩
    have hin : ∀ b, PassedIn { s with ipams := s.ipams ++ [clone next nextSubnet] } b x ↔
        s.PassedIn b x := fun b => hexists fun hx => by
      have hlt : x < b + 2 := hx.2
      omega
    rw [hs.handed, hflat]
    simp only [hin]

/-- **One call.** From a state with the invariant, a call keeps addresses unique exactly if it hands out
    nothing that a counter has passed, and then it keeps the invariant. -/
theorem Inv.step (hs : s.Inv) (h : s.step a = some s') :
    (s'.Unique ↔ s.Apart a) ∧ (s'.Unique → s'.Inv) := by
  cases a with
  | allocate i =>
    cases hi : s.ipams[i]? with
    | none => simp [step, hi] at h
    | some ipam =>
      simp only [step, hi, some.injEq, Ipam.allocate] at h
      simp only [Apart, hi, mem_some_iff, forall_eq']
      subst h
      split
      · rename_i hfull
        have hu : (s.moved i ipam [] []).Unique := ⟨hs.unique.once, hs.unique.range, hs.unique.subnets⟩
        exact ⟨⟨fun _ hlt => absurd hfull (not_le.mpr hlt), fun _ => hu⟩,
          hs.moved_same hi rfl (fun _ => rfl) (fun b hb => absurd hb not_mem_nil)
            (hs.known ipam (mem_of_getElem? hi))⟩
      · rename_i hleft
        exact ⟨(hs.unique_allocate hi).trans ⟨fun hu _ => hu, fun hu => hu (not_le.mp hleft)⟩,
          hs.allocate hi⟩
  | subnetFor i key routes =>
    cases hi : s.ipams[i]? with
    | none => simp [step, hi] at h
    | some ipam =>
      simp only [Apart, hi, mem_some_iff, forall_eq']
      exact hs.subnetFor hi h
  | allocateIn i base =>
    cases hi : s.ipams[i]? with
    | none => simp [step, hi] at h
    | some ipam =>
      simp only [step, hi, ite_none_right_eq_some, some.injEq, Ipam.allocateIn] at h
      obtain ⟨hbase, rfl⟩ := h
      simp only [Apart, hi, mem_some_iff, forall_eq']
      split
      · rename_i hfull
        have hu : (s.moved i (ipam.setCounter base (ipam.counter base)) [] []).Unique :=
          ⟨hs.unique.once, hs.unique.range, hs.unique.subnets⟩
        refine ⟨⟨fun _ _ hlt => absurd hfull (not_le.mpr hlt), fun _ => hu⟩,
          hs.moved_same (v := ipam.setCounter base (ipam.counter base)) hi rfl (fun b => ?_)
            (fun b hb => absurd hb not_mem_nil) (hs.known ipam (mem_of_getElem? hi))⟩
        rw [counter_setCounter]
        split
        · rename_i hb
          rw [hb]
        · rfl
      · rename_i hleft
        have hleft := not_le.mp hleft
        exact ⟨(hs.unique_allocateIn hi hbase hleft).trans ⟨fun hu _ _ => hu, fun hu => hu hbase hleft⟩,
          hs.allocateIn hi hbase hleft⟩
  | clone i next nextSubnet =>
    have hs' := hs.clone h
    exact ⟨⟨fun _ => trivial, fun _ => hs'.unique⟩, fun _ => hs'⟩

theorem apart_of_none (h : s.step a = none) : s.Apart a := by
  cases a with
  | allocate i | subnetFor i key routes =>
    intro ipam hi
    simp [step, mem_def.mp hi] at h
  | allocateIn i base =>
    intro ipam hi hbase
    simp [step, mem_def.mp hi, hbase] at h
  | clone i next nextSubnet => trivial

end

theorem wf_fromCidr {ip len : ℕ} (hip : ip < wordSize) (hlen : len ≤ 24)
    (h : IpRange.fromCidr ip len = some range) : range.Wf := by
  rw [IpRange.fromCidr, if_neg (by omega)] at h
  cases h
  obtain ⟨k, hk⟩ : ∃ k, 32 - len = 8 + k := ⟨24 - len, by omega⟩
  have hsize : 2 ^ (32 - len) = 256 * 2 ^ k := by
    rw [hk, pow_add]
    rfl
  have hword : wordSize = 2 ^ (32 - len) * 2 ^ len := by
    rw [← pow_add, Nat.sub_add_cancel (by omega)]
    rfl
  have hpos : 0 < 2 ^ k := Nat.two_pow_pos k
  have hfloor : ip - ip % 2 ^ (32 - len) = 2 ^ (32 - len) * (ip / 2 ^ (32 - len)) := by
    have := Nat.div_add_mod ip (2 ^ (32 - len))
    omega
  constructor
  · change (ip - ip % 2 ^ (32 - len)) % 256 = 0
    rw [hfloor, hsize, Nat.mul_assoc, Nat.mul_mod_right]
  · change 256 ≤ 2 ^ (32 - len)
    rw [hsize]
    omega
  · change ip - ip % 2 ^ (32 - len) + 2 ^ (32 - len) ≤ wordSize
    have hlt : ip / 2 ^ (32 - len) < 2 ^ len := by
      rw [hword] at hip
      exact Nat.div_lt_of_lt_mul hip
    rw [hfloor, hword, ← Nat.mul_succ]
    exact Nat.mul_le_mul_left _ hlt

/-- **Which addresses are handed out twice**: in any run of calls on an `Ipam` and its clones all of them
are new and no gateways exactly if every call hands out nothing that another counter has passed. -/
theorem unique_iff_apart {ip len : ℕ} (hip : ip < wordSize) (hlen : 8 ≤ len ∧ len ≤ 24)
    {range : IpRange} (hrange : IpRange.fromCidr ip len = some range) (actions : List Action) :
    Schedule.Meets step (fun s a => ∀ s', s.step a = some s' → s'.Unique) (new range) actions ↔
      Schedule.Meets step Apart (new range) actions := by
  refine meets_congr Inv (fun s a s' hs ha h => (hs.step h).2 ((hs.step h).1.mpr ha)) ?_
    (inv_new (wf_fromCidr hip hlen.2 hrange)) actions
  intro s a hs
  constructor
  · intro hu
    cases h : s.step a with
    | none => exact apart_of_none h
    | some s' => exact (hs.step h).1.mp (hu s' h)
  · intro ha s' h
    exact (hs.step h).1.mpr ha

/-- 10.42.0.0/16, the range of the workloads. -/
def workloads : IpRange := ⟨170524672, 65536⟩

def defaultAndPod : List Action :=
  [.allocate 0, .subnetFor 0 "pr-pod-a".toList [], .allocateIn 0 170524672]

/-- A container from an `Ipam`, and one from its clone. -/
def originalAndClone : List Action := [.clone 0 2 0, .allocate 0, .allocate 1]

instance (s : Ipams) : Decidable s.Unique :=
  decidable_of_iff (_ ∧ _ ∧ _) ⟨fun h => ⟨h.1, h.2.1, h.2.2⟩, fun h => ⟨h.once, h.range, h.subnets⟩⟩

theorem handed_twice :
    IpRange.fromCidr 170524672 16 = some workloads ∧
      (Schedule.run step (new workloads) defaultAndPod).map handed = some [170524674, 170524674] ∧
      (Schedule.run step (new workloads) originalAndClone).map handed = some [170524674, 170524674] ∧
      ¬ Schedule.Meets step (fun s a => ∀ s', s.step a = some s' → s'.Unique) (new workloads)
        defaultAndPod ∧
      ¬ Schedule.Meets step (fun s a => ∀ s', s.step a = some s' → s'.Unique) (new workloads)
        originalAndClone := by
  decide +kernel

/-- The same two containers on a host with a route to 10.42.0.0/24, so that the pod gets 10.42.1.0/24. -/
def skipsRouted : List Action :=
  [.allocate 0, .subnetFor 0 "pr-pod-a".toList [⟨0x00002a0a, 0x00ffffff⟩], .allocateIn 0 170524928]

theorem skipsRouted_unique :
    Schedule.Meets step (fun s a => ∀ s', s.step a = some s' → s'.Unique) (new workloads) skipsRouted := by
  have hmeets : Meets step Apart (new workloads) skipsRouted := by
    rw [skipsRouted, meets_cons_some rfl, meets_cons_some rfl,
      meets_cons_some rfl]
    refine ⟨?_, ?_, ?_, trivial⟩
    · intro ipam hi _
      cases hi
      exact ⟨by decide, fun base hbase => by cases hbase⟩
    · intro ipam hi base hbase
      cases hi
      have hnext : base = 170524928 :=
        some.inj ((subnetFor_eq_some_iff.mpr hbase).symm.trans (by decide +kernel))
      rw [hnext]
      rintro ⟨other, hother, -, hlt⟩
      rw [mem_singleton.mp hother] at hlt
      exact absurd hlt (by decide)
    · intro ipam hi _ _
      cases hi
      refine ⟨fun other hother => ?_, ?_⟩
      · rw [mem_singleton.mp hother]
      · rintro ⟨other, hother, -, hlt⟩
        rw [mem_singleton.mp hother] at hlt
        exact absurd hlt (by decide)
  exact (unique_iff_apart (show 170524672 < wordSize by decide) (show 8 ≤ 16 ∧ 16 ≤ 24 by decide)
    (show IpRange.fromCidr 170524672 16 = some workloads by decide +kernel) skipsRouted).mpr hmeets

end Ipams

end Pullrun.Net
