import Pullrun.Lib.Infix
import Pullrun.Lib.Schedule
import Pullrun.Net.Firewall

/-!
# Which calls leave the right rules installed

For iptables a call does what it says to the three rules of the values it is given, so that all depends on
whether these are the values that the bridge was enabled with and whether they are also the rules of another.
For nftables a bridge is taken to have its rules when a line for its network and interface is listed
(`ruleExists_iff` says what the search for that text finds), and disabling one bridge removes the table of all.
-/

namespace Pullrun.Net.Firewall

open List Schedule State

variable {network : Plain → Plain} {s s' : State} {rules : List Rule} {backend : Backend} {v cidr : Str}

/-! ## What `rule_exists` finds -/

theorem Plain.quote_notMem (a : Plain) : '"' ∉ a.1 := fun h => (a.2 _ h).1 rfl

theorem Plain.blank_notMem (a : Plain) : ' ' ∉ a.1 := fun h => (a.2 _ h).2.1 rfl

theorem Plain.newline_notMem (a : Plain) : '\n' ∉ a.1 := fun h => (a.2 _ h).2.2 rfl

theorem quote_notMem_saddr (a : Plain) : '"' ∉ saddr a.1 := by
  unfold saddr
  simp only [mem_append, mem_cons, not_or]
  exact ⟨by decide +kernel, a.quote_notMem, by decide, by decide +kernel⟩

theorem newline_notMem_masqPattern (cidr iface : Plain) : '\n' ∉ masqPattern cidr.1 iface.1 := by
  unfold masqPattern saddr
  simp only [mem_append, mem_cons, not_or]
  exact ⟨by decide +kernel, by decide, iface.newline_notMem, by decide, by decide +kernel,
    cidr.newline_notMem, by decide, by decide +kernel⟩

theorem saddr_prefix_iff (a b : Plain) : saddr a.1 <+: saddr b.1 ↔ a = b := by
  unfold saddr
  refine (prefix_append_right_inj _).trans ?_
  refine (Infix.append_mark_prefix_iff a.blank_notMem b.blank_notMem).trans ?_
  exact (and_iff_left (prefix_refl _)).trans Subtype.ext_iff.symm

theorem quoted_prefix_iff {cidr iface : Plain} {u : Str} (hu : '"' ∉ u) :
    iface.1 ++ '"' :: saddr cidr.1 <+: u ++ '"' :: v ↔ iface.1 = u ∧ saddr cidr.1 <+: v :=
  Infix.append_mark_prefix_iff iface.quote_notMem hu

theorem not_saddr_prefix {x : Char} (hx : x ≠ 'i') :
    ¬ saddr cidr <+: ' ' :: x :: v := by
  have hliteral : " ip saddr ".toList = ' ' :: 'i' :: "p saddr ".toList := by decide +kernel
  unfold saddr
  rw [hliteral, cons_append, cons_append, cons_prefix_cons, cons_prefix_cons]
  exact fun h => hx h.2.1.symm

theorem not_quoted_infix_forward {cidr iface a b : Plain} {x : Char} (hx : x ≠ 'i')
    (hquote : '"' ∉ ' ' :: x :: v) :
    ¬ '"' :: (iface.1 ++ '"' :: saddr cidr.1) <:+: "\t\tiifname ".toList ++
      '"' :: (a.1 ++ '"' :: (" oifname ".toList ++ '"' :: (b.1 ++ '"' :: (' ' :: x :: v)))) := by
  have hliteral : " oifname ".toList = ' ' :: 'o' :: "ifname ".toList := by decide +kernel
  have hmiddle : '"' ∉ " oifname ".toList := by decide +kernel
  rw [Infix.mark_infix_iff (by decide +kernel), quoted_prefix_iff a.quote_notMem,
    Infix.mark_infix_iff a.quote_notMem, quoted_prefix_iff hmiddle, Infix.mark_infix_iff hmiddle,
    quoted_prefix_iff b.quote_notMem, Infix.mark_infix_iff b.quote_notMem]
  rintro (⟨-, h⟩ | ⟨h, -⟩ | ⟨-, h⟩ | h | h)
  · rw [hliteral] at h
    exact not_saddr_prefix (by decide) h
  · apply iface.blank_notMem
    rw [h, hliteral]
    exact mem_cons_self
  · exact not_saddr_prefix hx h
  · exact hquote (h.subset (mem_append_right _ mem_cons_self))
  · exact hquote (h.subset mem_cons_self)

theorem masqPattern_infix_line_iff (cidr iface : Plain) (r : Rule) :
    masqPattern cidr.1 iface.1 <:+: r.line ↔ r = .masquerade cidr iface := by
  constructor
  · intro h
    -- From the first quote of the pattern on.
    have hquoted := (suffix_append _ ('"' :: (iface.1 ++ '"' :: saddr cidr.1))).isInfix.trans h
    cases r with
    | masquerade n i =>
      unfold Rule.line at hquoted
      rw [Infix.mark_infix_iff (by decide +kernel), quoted_prefix_iff i.quote_notMem, saddr_prefix_iff,
        Infix.mark_infix_iff i.quote_notMem] at hquoted
      rcases hquoted with ⟨hiface, rfl⟩ | h | h
      · rw [Subtype.ext hiface]
      · exact absurd (h.subset (mem_append_right _ mem_cons_self)) (quote_notMem_saddr n)
      · exact absurd (h.subset mem_cons_self) (quote_notMem_saddr n)
    | forward b i =>
      have hliteral : " accept".toList = ' ' :: 'a' :: "ccept".toList := by decide +kernel
      unfold Rule.line at hquoted
      rw [hliteral] at hquoted
      exact absurd hquoted (not_quoted_infix_forward (by decide) (by decide +kernel))
    | forwardBack i b =>
      have hliteral : " ct state established,related accept".toList =
          ' ' :: 'c' :: "t state established,related accept".toList := by decide +kernel
      unfold Rule.line at hquoted
      rw [hliteral] at hquoted
      exact absurd hquoted (not_quoted_infix_forward (by decide) (by decide +kernel))
  · rintro rfl
    have hliteral : "\t\toifname ".toList = ['\t', '\t'] ++ "oifname ".toList := by decide +kernel
    unfold Rule.line masqPattern
    dsimp only
    rw [hliteral, append_assoc]
    exact (suffix_append _ _).isInfix

theorem mem_tableLines_iff {line : Str} (hquote : '"' ∈ line) :
    line ∈ tableLines rules ↔ ∃ r ∈ rules, r.line = line := by
  have hframe : ∀ other ∈ tableHead ++ tableMiddle ++ tableEnd, '"' ∉ other := by decide +kernel
  simp only [mem_append, or_imp, forall_and] at hframe
  obtain ⟨⟨hhead, hmiddle⟩, hend⟩ := hframe
  unfold tableLines
  split
  · next hnil =>
    subst hnil
    simp
  · simp only [mem_append, mem_map, mem_filter]
    constructor
    · rintro (h | ⟨r, hr, h⟩ | h | ⟨r, hr, h⟩ | h)
      · exact absurd hquote (hhead line h)
      · exact ⟨r, hr.1, h⟩
      · exact absurd hquote (hmiddle line h)
      · exact ⟨r, hr.1, h⟩
      · exact absurd hquote (hend line h)
    · rintro ⟨r, hr, h⟩
      cases hnat : r.isNat with
      | true => exact .inr (.inl ⟨r, ⟨hr, hnat⟩, h⟩)
      | false => exact .inr (.inr (.inr (.inl ⟨r, ⟨hr, by rw [hnat]; rfl⟩, h⟩)))

/-- **What `rule_exists` finds**: the rule itself in the table of pullrun, or its text in another table. -/
theorem ruleExists_iff (others : List Str) (rules : List Rule) (cidr iface : Plain) :
    ruleExists others rules (masqPattern cidr.1 iface.1) ↔
      .masquerade cidr iface ∈ rules ∨ ∃ line ∈ others, masqPattern cidr.1 iface.1 <:+: line := by
  have hquote : '"' ∈ masqPattern cidr.1 iface.1 := mem_append_right _ mem_cons_self
  unfold ruleExists listing
  rw [decide_eq_true_iff,
    Infix.infix_lines_iff (ne_nil_of_mem hquote) (newline_notMem_masqPattern cidr iface)]
  constructor
  · rintro ⟨line, hline, h⟩
    rcases mem_append.mp hline with hline | hline
    · exact .inr ⟨line, hline, h⟩
    · obtain ⟨r, hr, rfl⟩ := (mem_tableLines_iff (h.subset hquote)).mp hline
      rw [(masqPattern_infix_line_iff cidr iface r).mp h] at hr
      exact .inl hr
  · rintro (hrule | ⟨line, hline, h⟩)
    · have h := (masqPattern_infix_line_iff cidr iface _).mpr rfl
      exact ⟨_, mem_append_right _ ((mem_tableLines_iff (h.subset hquote)).mpr ⟨_, hrule, rfl⟩), h⟩
    · exact ⟨line, mem_append_left _ hline, h⟩

/-! ## Rules -/

/-- Two bridges of different names can only share the rule for their network. -/
theorem rules_disjoint_iff {a b : Bridge} (hname : a.name ≠ b.name) :
    (∀ r ∈ a.rules network, r ∉ b.rules network) ↔
      (a.iface = b.iface → network a.cidr ≠ network b.cidr) := by
  constructor
  · intro h hiface hcidr
    exact h (.masquerade (network a.cidr) a.iface) (by simp [Bridge.rules])
      (by simp [Bridge.rules, hcidr, hiface])
  · intro h r ha hb
    simp only [Bridge.rules, mem_cons, not_mem_nil, or_false] at ha hb
    rcases ha with rfl | rfl | rfl
    · simp only [Rule.masquerade.injEq, reduceCtorEq, or_false] at hb
      exact h hb.2 hb.1
    · simp only [Rule.forward.injEq, reduceCtorEq, or_false, false_or] at hb
      exact hname hb.1
    · simp only [Rule.forwardBack.injEq, reduceCtorEq, false_or] at hb
      exact hname hb.2

theorem mem_foldl_ensure (rs : List Rule) (acc : Bool × List Rule) (r : Rule) :
    r ∈ (rs.foldl ensure acc).2 ↔ r ∈ acc.2 ∨ r ∈ rs := by
  induction rs generalizing acc with
  | nil => simp
  | cons x rs ih =>
    rw [foldl_cons, ih, ensure, mem_cons]
    split
    · next hx => rw [← or_assoc, or_iff_left_of_imp fun h : r = x => h ▸ hx]
    · rw [mem_append, mem_singleton, or_assoc]

theorem nodup_foldl_ensure (rs : List Rule) {acc : Bool × List Rule} (h : acc.2.Nodup) :
    (rs.foldl ensure acc).2.Nodup := by
  induction rs generalizing acc with
  | nil => exact h
  | cons x rs ih =>
    rw [foldl_cons]
    apply ih
    rw [ensure]
    split
    · exact h
    · next hx => exact h.append (nodup_singleton x) (by simpa using hx)

theorem nodup_foldl_erase (rs : List Rule) (h : rules.Nodup) : (rs.foldl List.erase rules).Nodup := by
  induction rs generalizing rules with
  | nil => exact h
  | cons x rs ih => exact ih (h.erase x)

theorem mem_foldl_erase (rs : List Rule) (h : rules.Nodup) (r : Rule) :
    r ∈ rs.foldl List.erase rules ↔ r ∈ rules ∧ r ∉ rs := by
  induction rs generalizing rules with
  | nil => simp
  | cons x rs ih =>
    rw [foldl_cons, ih (h.erase x), h.mem_erase_iff, mem_cons, not_or, and_right_comm, and_comm, ← ne_eq]

/-! ## Calls -/

theorem mem_wanted_enable (s : State) (rules : List Rule) (b : Bridge) (r : Rule) :
    r ∈ wanted network ⟨rules, b :: s.enabled.filter (·.name ≠ b.name)⟩ ↔
      r ∈ b.rules network ∨ s.Others network b r := by
  simp [wanted, Others, and_assoc]

theorem mem_wanted_disable (s : State) (rules : List Rule) (b : Bridge) (r : Rule) :
    r ∈ wanted network ⟨rules, s.enabled.filter (·.name ≠ b.name)⟩ ↔ s.Others network b r := by
  simp [wanted, Others, and_assoc]

theorem wanted_of_others {b : Bridge} {r : Rule} (h : s.Others network b r) : r ∈ s.wanted network := by
  obtain ⟨b', hb', -, hr⟩ := h
  exact mem_flatMap.mpr ⟨b', hb', hr⟩

/-- Every rule that is wanted belongs to another bridge or is covered. -/
theorem covers_iff (s : State) (b : Bridge) : s.Covers network b ↔
    ∀ r ∈ s.wanted network, r ∈ b.rules network ∨ s.Others network b r := by
  constructor
  · intro h r hr
    obtain ⟨b', hb', hr⟩ := mem_flatMap.mp hr
    by_cases hname : b'.name = b.name
    · exact h b' hb' hname r hr
    · exact .inr ⟨b', hb', hname, hr⟩
  · intro h b' hb' _ r hr
    exact h r (mem_flatMap.mpr ⟨b', hb', hr⟩)

theorem exact_iptablesEnable_iff (hs : s.Exact network) (b : Bridge) :
    Exact network ⟨(iptablesEnable network s.rules b).2, b :: s.enabled.filter (·.name ≠ b.name)⟩ ↔
      s.Unshared network .iptables (.enable b) := by
  have hmem : ∀ r, r ∈ (iptablesEnable network s.rules b).2 ↔ r ∈ s.wanted network ∨ r ∈ b.rules network :=
    fun r => (mem_foldl_ensure _ _ r).trans (or_congr_left (hs.2 r))
  refine Iff.trans ?_ (covers_iff s b).symm
  constructor
  · intro h r hr
    exact (mem_wanted_enable s _ b r).mp ((h.2 r).mp ((hmem r).mpr (.inl hr)))
  · intro h
    refine ⟨nodup_foldl_ensure _ hs.1, fun r => ?_⟩
    rw [hmem, mem_wanted_enable]
    exact ⟨fun hr => hr.elim (h r) .inl, fun hr => hr.elim .inr fun hother => .inl (wanted_of_others hother)⟩

theorem exact_iptablesDisable_iff (hs : s.Exact network) (b : Bridge) :
    Exact network ⟨iptablesDisable network s.rules b, s.enabled.filter (·.name ≠ b.name)⟩ ↔
      s.Unshared network .iptables (.disable b) := by
  have hmem : ∀ r, r ∈ iptablesDisable network s.rules b ↔ r ∈ s.wanted network ∧ r ∉ b.rules network :=
    fun r => (mem_foldl_erase _ hs.1 r).trans (and_congr_left' (hs.2 r))
  refine Iff.trans ?_ (and_congr_left' (covers_iff s b)).symm
  constructor
  · intro h
    refine ⟨fun r hr => ?_, fun b' hb' hname => (rules_disjoint_iff hname).mp fun r hr => ?_⟩
    · by_cases hb : r ∈ b.rules network
      · exact .inl hb
      · exact .inr ((mem_wanted_disable s _ b r).mp ((h.2 r).mp ((hmem r).mpr ⟨hr, hb⟩)))
    · exact ((hmem r).mp ((h.2 r).mpr ((mem_wanted_disable s _ b r).mpr ⟨b', hb', hname, hr⟩))).2
  · rintro ⟨hcovers, hapart⟩
    refine ⟨nodup_foldl_erase _ hs.1, fun r => ?_⟩
    rw [hmem, mem_wanted_disable]
    constructor
    · rintro ⟨hwanted, hnot⟩
      exact (hcovers r hwanted).resolve_left hnot
    · intro hother
      refine ⟨wanted_of_others hother, ?_⟩
      obtain ⟨b', hb', hname, hr⟩ := hother
      exact (rules_disjoint_iff hname).mpr (hapart b' hb' hname) r hr

theorem exact_nftablesEnable_iff (hs : s.Exact network) (others : List Str) (b : Bridge) :
    Exact network ⟨(nftablesEnable network others s.rules b).2, b :: s.enabled.filter (·.name ≠ b.name)⟩ ↔
      s.Unshared network (.nftables others) (.enable b) := by
  have hlisted : ruleExists others s.rules (masqPattern b.cidr.1 b.iface.1) ↔
      s.Listed network others b :=
    (ruleExists_iff others s.rules b.cidr b.iface).trans (or_congr_left (hs.2 _))
  refine Iff.trans ?_ (and_congr_left' (covers_iff s b)).symm
  rw [nftablesEnable]
  split
  · next h =>
    have hlisted := hlisted.mp h
    constructor
    · intro hexact
      have hmem : ∀ r, r ∈ s.wanted network ↔ r ∈ b.rules network ∨ s.Others network b r := fun r =>
        (hs.2 r).symm.trans ((hexact.2 r).trans (mem_wanted_enable s _ b r))
      exact ⟨fun r => (hmem r).mp, fun _ r hr => (hmem r).mpr (.inl hr), fun hnot => absurd hlisted hnot⟩
    · rintro ⟨hcovers, hthere, -⟩
      refine ⟨hs.1, fun r => ?_⟩
      rw [mem_wanted_enable, hs.2 r]
      exact ⟨hcovers r, fun hr => hr.elim (hthere hlisted r) wanted_of_others⟩
  · next h =>
    have hlisted := fun hl => h (hlisted.mpr hl)
    constructor
    · intro hexact
      refine ⟨fun r hr => ?_, fun hl => absurd hl hlisted, fun _ r hr hwanted => ?_⟩
      · exact (mem_wanted_enable s _ b r).mp ((hexact.2 r).mp (mem_append_left _ ((hs.2 r).mpr hr)))
      · exact disjoint_of_nodup_append hexact.1 ((hs.2 r).mpr hwanted) hr
    · rintro ⟨hcovers, -, hfree⟩
      refine ⟨hs.1.append (by simp [Bridge.rules]) fun r hr hb => ?_, fun r => ?_⟩
      · exact hfree hlisted r hb ((hs.2 r).mp hr)
      · rw [mem_append, mem_wanted_enable, hs.2 r]
        exact ⟨fun hr => hr.elim (hcovers r) .inl, fun hr => hr.elim .inr fun hother => .inl (wanted_of_others hother)⟩

theorem exact_nftablesDisable_iff (others : List Str) (b : Bridge) :
    Exact network ⟨nftablesDisable s.rules b, s.enabled.filter (·.name ≠ b.name)⟩ ↔
      s.Unshared network (.nftables others) (.disable b) := by
  constructor
  · intro h b' hb'
    by_contra hname
    have hmem : Rule.forward b'.name b'.iface ∈ b'.rules network := by simp [Bridge.rules]
    have hrule := (h.2 _).mpr ((mem_wanted_disable s _ b _).mpr ⟨b', hb', hname, hmem⟩)
    cases hrule
  · intro h
    refine ⟨nodup_nil, fun r => iff_of_false not_mem_nil ?_⟩
    rw [mem_wanted_disable]
    rintro ⟨b', hb', hname, -⟩
    exact hname (h b' hb')

theorem step_exact_iff (hs : s.Exact network) {call : Call}
    (h : s.step network backend call = some s') : s'.Exact network ↔ s.Unshared network backend call := by
  cases call with
  | enable b =>
    cases h
    cases backend with
    | iptables => exact exact_iptablesEnable_iff hs b
    | nftables others => exact exact_nftablesEnable_iff hs others b
  | disable b =>
    cases h
    cases backend with
    | iptables => exact exact_iptablesDisable_iff hs b
    | nftables others => exact exact_nftablesDisable_iff others b

/-- **Exactly the rules of the enabled bridges are installed for as long as the calls share none**, in the
    way that matters to the backend, and no bridge is called for with other values than it was enabled with;
    and no longer. -/
theorem exact_iff_unshared (network : Plain → Plain) (backend : Backend) (calls : List Call) :
    Schedule.Meets (State.step network backend)
        (fun s call => ∀ s', s.step network backend call = some s' → s'.Exact network) .new calls ↔
      Schedule.Meets (State.step network backend) (State.Unshared network backend) .new calls := by
  have hnew : new.Exact network := ⟨nodup_nil, fun _ => Iff.rfl⟩
  refine Schedule.meets_congr (Exact network) (fun s call s' hs hunshared h => ?_) ?_ hnew calls
  · exact (step_exact_iff hs h).mpr hunshared
  · intro s call hs
    obtain ⟨s', h⟩ : ∃ s', s.step network backend call = some s' := by
      cases call <;> exact ⟨_, rfl⟩
    simp only [h, Option.some.injEq, forall_eq']
    exact step_exact_iff hs h

/-! ## Two bridges -/

theorem plain_of_all {text : Str} (h : (text.all fun c => c != '"' && c != ' ' && c != '\n') = true) :
    ∀ c ∈ text, c ≠ '"' ∧ c ≠ ' ' ∧ c ≠ '\n' := by
  simpa [and_assoc] using h

def bridgeA : Bridge :=
  ⟨⟨"br-a".toList, plain_of_all rfl⟩, ⟨"10.0.1.0/24".toList, plain_of_all rfl⟩,
    ⟨"eth0".toList, plain_of_all rfl⟩⟩

def bridgeB : Bridge :=
  ⟨⟨"br-b".toList, plain_of_all rfl⟩, ⟨"10.0.2.0/24".toList, plain_of_all rfl⟩,
    ⟨"eth0".toList, plain_of_all rfl⟩⟩

def bridgeC : Bridge :=
  ⟨⟨"br-c".toList, plain_of_all rfl⟩, ⟨"10.0.1.0/24".toList, plain_of_all rfl⟩,
    ⟨"eth0".toList, plain_of_all rfl⟩⟩

instance (s : State) : Decidable (s.Exact network) :=
  decidable_of_iff (s.rules.Nodup ∧ s.rules ⊆ s.wanted network ∧ s.wanted network ⊆ s.rules)
    (and_congr_right fun _ => ⟨fun h r => ⟨@h.1 r, @h.2 r⟩, fun h => ⟨fun r => (h r).mp, fun r => (h r).mpr⟩⟩)

theorem rules_lost :
    (Schedule.run (State.step id (.nftables [])) .new
        [.enable bridgeA, .enable bridgeB, .disable bridgeA]).map (fun s => (s.rules, s.enabled)) =
      some ([], [bridgeB]) ∧
    (Schedule.run (State.step id (.nftables [])) .new [.enable bridgeA, .enable bridgeC]).map
        (fun s => (s.rules, s.enabled)) = some (bridgeA.rules id, [bridgeC, bridgeA]) ∧
    (Schedule.run (State.step id .iptables) .new
        [.enable bridgeA, .enable bridgeC, .disable bridgeA]).map (fun s => (s.rules, s.enabled)) =
      some ((bridgeC.rules id).tail, [bridgeC]) ∧
    ∀ run ∈ [(Backend.nftables [], [Call.enable bridgeA, .enable bridgeB, .disable bridgeA]),
        (.nftables [], [.enable bridgeA, .enable bridgeC]),
        (.iptables, [.enable bridgeA, .enable bridgeC, .disable bridgeA])],
      ¬ Schedule.Meets (State.step id run.1)
        (fun s call => ∀ s', s.step id run.1 call = some s' → s'.Exact id) .new run.2 := by
  decide +kernel

end Pullrun.Net.Firewall
