import Pullrun.Proof.Net.Ipam

/-!
# The subnets that are handed out

A counter goes through the blocks of the range, 64 at most in one call, and passes over those that are
routed on the host or known under another key.
-/

namespace Pullrun.Net

open List Nat

/-- A /24 of the range. -/
def IpRange.Block (range : IpRange) (base : ℕ) : Prop :=
  base % 256 = 0 ∧ range.base ≤ base ∧ base + 256 ≤ range.base + range.size

namespace Ipam

/-- Among the next `tries` blocks there is a free one, and the range does not end before it. -/
def FreeAhead (range : IpRange) (live taken : List ℕ) (tries idx : ℕ) : Prop :=
  ∃ j < tries, (∀ i < j + 1, Within range (idx + i)) ∧
    (range.base + (idx + j) * 256) % wordSize ∉ live ∧ (range.base + (idx + j) * 256) % wordSize ∉ taken

/-- No block of the range is free. -/
def AllUsed (range : IpRange) (live taken : List ℕ) : Prop :=
  ∀ base, range.Block base → base ∈ live ∨ base ∈ taken

variable {range : IpRange} {live taken : List ℕ} {ipam : Ipam} {routes : List Route} {key : Str}

/-- The first free block is found as soon as one is free ahead. -/
theorem freeAhead_iff {tries idx : ℕ} :
    FreeAhead range live taken tries idx ↔ ∃ base, FirstFree range live taken tries idx base := by
  classical
  constructor
  · rintro ⟨j, hj, hin, hfree⟩
    let free := fun j => (range.base + (idx + j) * 256) % wordSize ∉ live ∧
      (range.base + (idx + j) * 256) % wordSize ∉ taken
    have hex : ∃ j, free j := ⟨j, hfree⟩
    have hle : Nat.find hex ≤ j := Nat.find_min' hex hfree
    refine ⟨_, Nat.find hex, by omega, fun i hi => hin i (by omega), fun i hi => ?_, rfl, Nat.find_spec hex⟩
    exact or_iff_not_and_not.mpr (Nat.find_min hex hi)
  · rintro ⟨_, j, hj, hin, -, rfl, hfree⟩
    exact ⟨j, hj, hin, hfree⟩

theorem probe_eq_none_iff (tries idx : ℕ) :
    (probe range live taken tries idx).1 = none ↔ ¬ FreeAhead range live taken tries idx := by
  rw [freeAhead_iff, Option.eq_none_iff_forall_ne_some, not_exists]
  exact forall_congr' fun base => not_congr probe_eq_some_iff

/-- **A new key gets a block unless none is free, exactly if** one is free among those the call comes to,
    or there is none. -/
theorem subnetFor_complete_iff (hnew : ipam.subnets.find? (·.1 = key) = none) :
    let live := liveSubnetsInRange routes range.base range.size
    let taken := ipam.subnets.map Prod.snd
    ((ipam.subnetFor range routes key).1 = none → AllUsed range live taken) ↔
      FreeAhead range live taken 64 ipam.nextSubnet ∨ AllUsed range live taken := by
  intro live taken
  have hprobe : (ipam.subnetFor range routes key).1 = none ↔ ¬ FreeAhead range live taken 64 ipam.nextSubnet := by
    rw [← probe_eq_none_iff, subnetFor, hnew]
    dsimp only
    split <;> rename_i hprobe <;> simp [live, taken, hprobe]
  rw [hprobe]
  tauto

/-- The first 64 blocks of 10.42.0.0/16 are routed. -/
def routed : List Route := (List.range 64).map fun i => ⟨UInt32.ofNat (i * 65536 + 0x2a0a), 0x00ffffff⟩

theorem free_not_found :
    (Ipam.new.subnetFor Ipams.workloads routed ['a']).1 = none ∧
      ¬ AllUsed Ipams.workloads (liveSubnetsInRange routed 170524672 65536) [] := by
  refine ⟨by decide +kernel, fun hall => ?_⟩
  have hused := hall 170541056 ⟨by decide, by decide, by decide⟩
  revert hused
  decide +kernel

theorem free_found : Ipam.new.subnets.find? (·.1 = ['a']) = none ∧
    ((Ipam.new.subnetFor Ipams.workloads routed.tail ['a']).1 = none →
      AllUsed Ipams.workloads (liveSubnetsInRange routed.tail 170524672 65536) []) := by
  refine ⟨rfl, (subnetFor_complete_iff rfl).mpr
    (.inl ⟨0, by decide, fun i hi => ?_, by decide +kernel, by decide⟩)⟩
  rw [lt_one_iff.mp hi]
  unfold Within
  decide

/-! ## Sequences of calls -/

def after (range : IpRange) (ipam : Ipam) (calls : List (List Route × Str)) : Ipam :=
  calls.foldl (fun ipam call => (ipam.subnetFor range call.1 call.2).2) ipam

/-- The counter has not wrapped, and the map has a block of its own for every key. -/
structure Assigned (range : IpRange) (calls : ℕ) (ipam : Ipam) : Prop where
  counter : ipam.nextSubnet ≤ range.size / 256 + calls
  block : ∀ entry ∈ ipam.subnets, range.Block entry.2
  keys : (ipam.subnets.map Prod.fst).Nodup
  bases : (ipam.subnets.map Prod.snd).Nodup

theorem probe_spec (hwf : range.Wf) (hsize : range.size ≤ 2 ^ 31) {tries idx next : ℕ}
    {found : Option ℕ} (hidx : idx + 1 < 2 ^ 24)
    (h : probe range live taken tries idx = (found, next)) :
    next ≤ max (range.size / 256) idx + 1 ∧
      ∀ base, found = some base → range.Block base ∧ base ∉ live ∧ base ∉ taken := by
  have hbase := hwf.aligned
  have hend := hwf.word
  unfold wordSize at hend
  fun_induction probe range live taken tries idx with
  | case1 =>
    cases h
    exact ⟨by omega, by rintro _ ⟨⟩⟩
  | case2 =>
    cases h
    exact ⟨by unfold wordSize; omega, by rintro _ ⟨⟩⟩
  | case3 tries idx hin base hlive ih | case4 tries idx hin base hlive htaken ih =>
    unfold wordSize at hin ih h
    obtain ⟨hnext, hfound⟩ := ih (by omega) h
    exact ⟨by omega, hfound⟩
  | case5 tries idx hin base hlive htaken =>
    unfold wordSize at hin
    cases h
    have hblock : base = range.base + idx * 256 := mod_eq_of_lt (by unfold wordSize; omega)
    refine ⟨by unfold wordSize; omega, ?_⟩
    rintro _ ⟨⟩
    exact ⟨hblock ▸ ⟨by omega, by omega, by omega⟩, hlive, htaken⟩

theorem Assigned.subnetFor (hwf : range.Wf) (hsize : range.size ≤ 2 ^ 31) {n : ℕ} (hn : n < 2 ^ 22)
    (h : Assigned range n ipam) (routes : List Route) (key : Str) :
    Assigned range (n + 1) (ipam.subnetFor range routes key).2 ∧
      ipam.subnets ⊆ (ipam.subnetFor range routes key).2.subnets ∧
      ∀ base, (ipam.subnetFor range routes key).1 = some base →
        (key, base) ∈ (ipam.subnetFor range routes key).2.subnets ∧
        (ipam.subnets.find? (·.1 = key) = none →
          base ∉ liveSubnetsInRange routes range.base range.size) := by
  have hcounter := h.counter
  fun_cases Ipam.subnetFor ipam range routes key with
  | case1 name base hfind =>
    have hname : name = key := by simpa using find?_some hfind
    refine ⟨{ h with counter := h.counter.trans (le_succ _) }, Subset.refl _, ?_⟩
    rintro _ ⟨⟩
    exact ⟨hname ▸ mem_of_find?_eq_some hfind, fun hnone => by rw [hfind] at hnone; cases hnone⟩
  | case2 hfind idx hprobe =>
    obtain ⟨hidx, -⟩ := probe_spec hwf hsize (by omega) hprobe
    exact ⟨{ h with counter := by dsimp only; omega }, Subset.refl _, by rintro _ ⟨⟩⟩
  | case3 hfind base idx hprobe =>
    obtain ⟨hidx, hfound⟩ := probe_spec hwf hsize (by omega) hprobe
    obtain ⟨hblock, hlive, htaken⟩ := hfound base rfl
    have hkey : key ∉ ipam.subnets.map Prod.fst := by
      intro hmem
      obtain ⟨entry, hentry, rfl⟩ := mem_map.mp hmem
      simpa using find?_eq_none.mp hfind entry hentry
    refine ⟨⟨by dsimp only; omega, forall_mem_cons.mpr ⟨hblock, h.block⟩, nodup_cons.mpr ⟨hkey, h.keys⟩,
      nodup_cons.mpr ⟨htaken, h.bases⟩⟩, subset_cons_self _ _, ?_⟩
    rintro _ ⟨⟩
    exact ⟨mem_cons_self, fun _ => hlive⟩

theorem Assigned.after (hwf : range.Wf) (hsize : range.size ≤ 2 ^ 31) {n : ℕ}
    {calls : List (List Route × Str)} (hn : n + calls.length ≤ 2 ^ 22) (h : Assigned range n ipam) :
    Assigned range (n + calls.length) (after range ipam calls) ∧
      ipam.subnets ⊆ (after range ipam calls).subnets := by
  induction calls generalizing ipam n with
  | nil => exact ⟨h, Subset.refl _⟩
  | cons call calls ih =>
    rw [length_cons] at hn
    obtain ⟨hstep, hsub, -⟩ := h.subnetFor hwf hsize (by omega) call.1 call.2
    obtain ⟨hrun, hsub'⟩ := ih (by omega) hstep
    rw [length_cons, add_comm calls.length, ← add_assoc]
    exact ⟨hrun, Subset.trans hsub hsub'⟩

/-- **Blocks are handed out once.** Of any two of fewer than `2^22` calls, with any keys and any routes, the
    first returns a block of the range that was not routed if the key is new; the second returns the same
    block for the same key, and one that is disjoint from it for another. -/
theorem subnets_apart {ip len : ℕ} (hip : ip < wordSize) (hlen : 1 ≤ len ∧ len ≤ 24)
    (hrange : IpRange.fromCidr ip len = some range) (hend : range.base + range.size < wordSize)
    (before between : List (List Route × Str)) (hcalls : (before ++ between).length + 2 < 2 ^ 22)
    (routes routes' : List Route) (key key' : Str) {base : ℕ} :
    let s := after range .new before
    let t := after range (s.subnetFor range routes key).2 between
    (s.subnetFor range routes key).1 = some base →
      range.Block base ∧
      (s.subnets.find? (·.1 = key) = none → ∀ route ∈ routes, swapBytes route.mask = 0xFFFFFF00 →
        swapBytes route.dest ≠ base) ∧
      (key' = key → (t.subnetFor range routes' key').1 = some base) ∧
      (key' ≠ key → ∀ base', (t.subnetFor range routes' key').1 = some base' →
        range.Block base' ∧ (base + 256 ≤ base' ∨ base' + 256 ≤ base)) := by
  intro s t hbase
  have hwf := Ipams.wf_fromCidr hip hlen.2 hrange
  have hsize : range.size ≤ 2 ^ 31 := by
    rw [IpRange.fromCidr, if_neg (by omega)] at hrange
    cases hrange
    exact Nat.pow_le_pow_right (by decide) (by omega)
  rw [length_append] at hcalls
  have hnew : Assigned range 0 .new := ⟨zero_le _, by simp [new], nodup_nil, nodup_nil⟩
  obtain ⟨hs, -⟩ := hnew.after hwf hsize (show 0 + before.length ≤ _ by omega)
  obtain ⟨hs', -, hfirst⟩ := hs.subnetFor hwf hsize (by omega) routes key
  obtain ⟨hmem, hlive⟩ := hfirst base hbase
  obtain ⟨ht, hsub⟩ := hs'.after hwf hsize (show _ + between.length ≤ _ by omega)
  obtain ⟨ht', hsub', hsecond⟩ := ht.subnetFor hwf hsize (by omega) routes' key'
  have hblock : range.Block base := hs'.block _ hmem
  refine ⟨hblock, fun hnone route hroute hmask hdest => hlive hnone ?_, ?_, fun hne base' hbase' => ?_⟩
  · refine mem_filterMap.mpr ⟨route, hroute, ?_⟩
    rw [if_neg (not_not.mpr hmask), mod_eq_of_lt hend, hdest, if_pos ⟨hblock.2.1, by
      have := hblock.2.2
      omega⟩]
  · rintro rfl
    cases hfind : t.subnets.find? (·.1 = key') with
    | none => exact absurd (find?_eq_none.mp hfind _ (hsub hmem)) (by simp)
    | some entry =>
      have hkey : entry.1 = key' := by simpa using find?_some hfind
      rw [subnetFor, hfind,
        inj_on_of_nodup_map ht.keys (mem_of_find?_eq_some hfind) (hsub hmem) hkey]
  · obtain ⟨hmem', -⟩ := hsecond base' hbase'
    have hblock' : range.Block base' := ht'.block _ hmem'
    have hdiff : base' ≠ base := fun heq =>
      hne (congrArg Prod.fst (inj_on_of_nodup_map ht'.bases hmem' (hsub' (hsub hmem)) heq))
    refine ⟨hblock', ?_⟩
    unfold IpRange.Block at hblock hblock'
    omega

/-- 10.42.0.0/24, as `/proc/net/route` has it. -/
def firstRoute : Route := ⟨0x00002a0a, 0x00ffffff⟩

/-- The first /24 is routed, so that `a` is given the second; `a` keeps it, and `b` gets another. -/
theorem subnets_apart_again :
    let t := (Ipam.new.subnetFor Ipams.workloads [firstRoute] ['a']).2
    (t.subnetFor Ipams.workloads [] ['a']).1 = some 170524928 ∧
      ∃ base', (t.subnetFor Ipams.workloads [firstRoute] ['b']).1 = some base' ∧
        (170524928 + 256 ≤ base' ∨ base' + 256 ≤ 170524928) := by
  intro t
  have hrange : IpRange.fromCidr 170524672 16 = some Ipams.workloads := rfl
  have hfirst : (new.subnetFor Ipams.workloads [firstRoute] ['a']).1 = some 170524928 := by
    decide +kernel
  have hsecond : (t.subnetFor Ipams.workloads [firstRoute] ['b']).1 = some 170525184 := by
    decide +kernel
  have hagain := subnets_apart (by decide) (by decide) hrange (by decide) [] [] (by decide) [firstRoute]
    [] ['a'] ['a'] hfirst
  have hother := subnets_apart (by decide) (by decide) hrange (by decide) [] [] (by decide) [firstRoute]
    [firstRoute] ['a'] ['b'] hfirst
  exact ⟨hagain.2.2.1 rfl, _, hsecond, (hother.2.2.2 (by decide) _ hsecond).2⟩

end Ipam

end Pullrun.Net
