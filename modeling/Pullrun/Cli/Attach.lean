import Pullrun.Store.Digest

/-!
# What an attached terminal sends

`processInput` and the stdin loop of `attachToWorkload`, `cli/pullrun/cmd/commands.go`. The escape that
detaches the terminal, Ctrl-P Ctrl-Q, is looked for in what each read returns; a Ctrl-P at the end of
a read is held back until the next read tells whether it begins the escape.
-/

namespace Pullrun.Cli

/-- The loop of `processInput`: what it keeps, whether it finds the escape, and whether it holds a
last 0x10 back. A run without 0x10, which the source copies as a whole, is copied byte by byte. -/
def scan : Bytes → Bytes × Bool × Bool
  | [] => ([], false, false)
  | b :: rest =>
    if b ≠ 0x10 then (b :: (scan rest).1, (scan rest).2)
    else if rest.head? = some 0x11 then ([], true, false)
    else if rest = [] then ([], false, true)
    else (b :: (scan rest).1, (scan rest).2)

/-- `processInput`: the filtered bytes, `detached`, and what it leaves in `pending10`. -/
def processInput (data : Bytes) (pending10 : Bool) : Bytes × Bool × Bool :=
  if !pending10 ∧ 0x10 ∉ data then (data, false, false)
  else if pending10 then
    if data.head? = some 0x11 then ([], true, false) else (0x10 :: (scan data).1, (scan data).2)
  else scan data

/-- The chunks, one call each with the flag carried on, until a call reports `detached`. -/
def feed (pending10 : Bool) : List Bytes → Bytes × Bool × Bool
  | [] => ([], false, pending10)
  | data :: chunks =>
    match processInput data pending10 with
    | (filtered, true, pending10) => (filtered, true, pending10)
    | (filtered, false, pending10) => (filtered ++ (feed pending10 chunks).1, (feed pending10 chunks).2)

inductive Message
  | stdin (data : Bytes)
  | stdinEof
  | closeSend
deriving DecidableEq

/-- The stdin loop of a terminal, up to the end of its input: what is sent for these reads. -/
def stdinLoop (pending10 : Bool) : List Bytes → List Message
  | [] => (if pending10 then [.stdin [0x10]] else []) ++ [.stdinEof]
  | data :: reads =>
    match processInput data pending10 with
    | (_, true, _) => [.closeSend]
    | (data, false, pending10) =>
      (if data ≠ [] then [.stdin data] else []) ++ stdinLoop pending10 reads

/-- The bytes of stdin that arrive at the workload. -/
def delivered (sent : List Message) : Bytes :=
  sent.flatMap fun | .stdin data => data | _ => []

/-- Ctrl-P Ctrl-Q. -/
def escape : Bytes := [0x10, 0x11]

/-- What is typed before the first escape, and everything if there is none. -/
def typed : Bytes → Bytes
  | [] => []
  | b :: rest => if escape <+: b :: rest then [] else b :: typed rest

def held (pending10 : Bool) : Bytes := if pending10 then [0x10] else []

/-- Does the read that completes the escape begin with what is left of it? The text `before` has been read,
    and there is no escape in it; a Ctrl-P at its end is the first half of one. -/
def beginsEscape (before : Bytes) : List Bytes → Bool
  | [] => true
  | data :: reads =>
    if escape <:+: before ++ data then escape <+: held (before.getLast? = some 0x10) ++ data
    else beginsEscape (before ++ data) reads

/-! ## One text -/

theorem scan_of_not_mem {data : Bytes} (h : 0x10 ∉ data) : scan data = (data, false, false) := by
  induction data with
  | nil => rfl
  | cons b rest ih =>
    rw [List.mem_cons, not_or] at h
    rw [scan, if_pos (Ne.symm h.1), ih h.2]

/-- A call sees the byte held back as if it stood before its data. -/
theorem processInput_eq {data : Bytes} {p : Bool} (h : data ≠ []) :
    processInput data p = scan (held p ++ data) := by
  unfold processInput
  split
  case isTrue hfast =>
    obtain ⟨hp, hmem⟩ := hfast
    rw [Bool.not_eq_true'] at hp
    subst hp
    exact (scan_of_not_mem hmem).symm
  case isFalse =>
    cases p with
    | false => rfl
    | true => simp [held, scan, h]

/-- What the scan of a longer text does once it has come to the end of its first part. -/
theorem scan_append (a b : Bytes) : scan (a ++ b) =
    if (scan a).2.1 then scan a
    else ((scan a).1 ++ (scan (held (scan a).2.2 ++ b)).1, (scan (held (scan a).2.2 ++ b)).2) := by
  fun_induction scan a with
  | case1 => rfl
  | case2 c rest hc ih =>
    rw [List.cons_append, scan, if_pos hc, ih]
    split <;> simp_all
  | case3 c rest hc hq =>
    obtain ⟨rest', rfl⟩ := List.head?_eq_some_iff.mp hq
    simp_all [scan]
  | case4 c hc hq => simp_all [held]
  | case5 c rest hc hq hne ih =>
    obtain ⟨d, rest, rfl⟩ := List.exists_cons_of_ne_nil hne
    rw [List.cons_append, scan, if_neg hc, if_neg (by simpa using hq), if_neg (by simp), ih]
    split <;> simp_all

theorem escape_prefix_iff {b : UInt8} {rest : Bytes} :
    escape <+: b :: rest ↔ b = 0x10 ∧ rest.head? = some 0x11 := by
  cases rest <;> simp [escape, List.cons_prefix_cons, eq_comm]

/-- The scan finds the escape if there is one, keeps what is typed before it, and holds a last 0x10
back. -/
theorem scan_spec (data : Bytes) :
    ((scan data).2.1 = true ↔ escape <:+: data) ∧ (scan data).1 ++ held (scan data).2.2 = typed data ∧
      ((scan data).2.2 = true ↔ (scan data).2.1 = false ∧ data.getLast? = some 0x10) := by
  fun_induction scan data with
  | case1 => simp [escape, held, typed]
  | case2 b rest hb ih | case5 b rest hb _ hne ih =>
    have hno : ¬ escape <+: b :: rest := by simp_all [escape_prefix_iff]
    obtain ⟨hfound, hkept, hlast⟩ := ih
    refine ⟨by rw [hfound, List.infix_cons_iff, or_iff_right hno], ?_, ?_⟩
    · rw [typed, if_neg hno, ← hkept, List.cons_append]
    · rw [hlast]
      cases rest <;> simp_all
  | case3 b rest hb hq =>
    have hyes : escape <+: b :: rest := escape_prefix_iff.mpr ⟨not_not.mp hb, hq⟩
    exact ⟨iff_of_true rfl hyes.isInfix, by simp [held, typed, hyes], by simp⟩
  | case4 b hb hq =>
    have hno : ¬ escape <+: [b] := by simp [escape_prefix_iff]
    simp_all [held, typed, List.infix_cons_iff, escape]

/-! ## Every cut of it -/

theorem feed_eq {chunks : List Bytes} (h : ∀ data ∈ chunks, data ≠ []) (p : Bool) :
    feed p chunks = scan (held p ++ chunks.flatten) := by
  induction chunks generalizing p with
  | nil => cases p <;> rfl
  | cons data chunks ih =>
    rw [List.forall_mem_cons] at h
    rw [feed, processInput_eq h.1, List.flatten_cons, ← List.append_assoc,
      scan_append (held p ++ data)]
    obtain ⟨filtered, detached, q⟩ := scan (held p ++ data)
    cases detached <;> simp [ih h.2]

/-- **However the text is cut, the calls keep the same bytes as one call on the whole of it.** -/
theorem feed_chunks {chunks : List Bytes} (h : ∀ data ∈ chunks, data ≠ []) :
    feed false chunks = processInput chunks.flatten false ∧
      ((feed false chunks).2.1 = true ↔ escape <:+: chunks.flatten) ∧
      (feed false chunks).1 ++ held (feed false chunks).2.2 = typed chunks.flatten ∧
      ((feed false chunks).2.2 = true ↔
        (feed false chunks).2.1 = false ∧ chunks.flatten.getLast? = some 0x10) := by
  have hfeed := feed_eq h false
  refine ⟨?_, hfeed ▸ scan_spec chunks.flatten⟩
  rw [hfeed]
  by_cases hnil : chunks.flatten = []
  · rw [hnil]
    rfl
  · exact (processInput_eq hnil).symm

theorem feed_three_chunks :
    (∀ data ∈ [[0x61, 0x10], [0x10], [0x11, 0x62]], data ≠ ([] : Bytes)) ∧
      feed false [[0x61, 0x10], [0x10], [0x11, 0x62]] =
        processInput [0x61, 0x10, 0x10, 0x11, 0x62] false :=
  ⟨by decide, (@feed_chunks [[0x61, 0x10], [0x10], [0x11, 0x62]] (by decide)).1⟩

/-! ## The loop -/

theorem typed_append (a b : Bytes) : typed (a ++ b) =
    if (scan a).2.1 then typed a else (scan a).1 ++ typed (held (scan a).2.2 ++ b) := by
  rw [← (scan_spec (a ++ b)).2.1, ← (scan_spec a).2.1, ← (scan_spec (_ ++ b)).2.1, scan_append]
  split <;> simp

theorem typed_eq_nil {b : UInt8} {rest : Bytes} :
    typed (b :: rest) = [] ↔ escape <+: b :: rest := by
  rw [typed]
  split <;> simp_all

/-- After a text without the escape the scan goes on with the byte it holds back. -/
theorem scan_append_of_missed {before : Bytes} {p : Bool} (h : (scan before).2 = (false, p))
    (data : Bytes) : (scan (before ++ data)).2 = (scan (held p ++ data)).2 := by
  rw [scan_append, h]
  simp

theorem delivered_stdinLoop {reads : List Bytes} (h : ∀ data ∈ reads, data ≠ []) {before : Bytes}
    {p : Bool} (hbefore : (scan before).2 = (false, p)) :
    delivered (stdinLoop p reads) = typed (held p ++ reads.flatten) ↔
      beginsEscape before reads = true := by
  induction reads generalizing before p with
  | nil => cases p <;> simp [stdinLoop, delivered, held, typed, beginsEscape, escape_prefix_iff]
  | cons data reads ih =>
    rw [List.forall_mem_cons] at h
    have hlast : decide (before.getLast? = some 0x10) = p := by
      have := (scan_spec before).2.2
      rw [hbefore] at this
      cases p <;> simp_all
    have hnext := scan_append_of_missed hbefore data
    rw [stdinLoop, beginsEscape, hlast, processInput_eq h.1, List.flatten_cons, ← List.append_assoc,
      typed_append (held p ++ data)]
    simp only [← (scan_spec (before ++ data)).1, hnext]
    obtain ⟨c, rest, hcons⟩ : ∃ c rest, held p ++ data = c :: rest :=
      List.exists_cons_of_ne_nil (by simp [h.1])
    rw [hcons] at hnext ⊢
    generalize scan (c :: rest) = found at hnext ⊢
    obtain ⟨filtered, detached, q⟩ := found
    cases detached with
    | true => simp [delivered, typed_eq_nil]
    | false =>
      have hrest := ih h.2 hnext
      rw [if_neg (by simp), if_neg (by simp), ← hrest]
      cases filtered <;> simp [delivered]

/-- **A workload is sent all that was typed before the escape exactly if the read that completes the
escape begins with what is left of it**: what stands before the escape in that read is dropped. -/
theorem stdin_delivered_iff {reads : List Bytes} (h : ∀ data ∈ reads, data ≠ []) :
    (delivered (stdinLoop false reads) = typed reads.flatten ↔ beginsEscape [] reads = true) ∧
      ∀ others, (∀ data ∈ others, data ≠ []) → others.flatten = reads.flatten →
        beginsEscape [] others = true →
        (delivered (stdinLoop false reads) = delivered (stdinLoop false others) ↔
          beginsEscape [] reads = true) := by
  have hreads := @delivered_stdinLoop reads h [] false rfl
  refine ⟨hreads, ?_⟩
  intro others hne heq hothers
  rw [(@delivered_stdinLoop others hne [] false rfl).mpr hothers, heq]
  exact hreads

theorem stdin_delivered_escape :
    (∀ data ∈ [[0x61], [0x10, 0x11]], data ≠ ([] : Bytes)) ∧
      delivered (stdinLoop false [[0x61], [0x10, 0x11]]) = typed [0x61, 0x10, 0x11] :=
  ⟨by decide, (@stdin_delivered_iff [[0x61], [0x10, 0x11]] (by decide)).1.mpr (by decide)⟩

theorem stdin_dropped :
    delivered (stdinLoop false [[0x61], [0x10, 0x11]]) = [0x61] ∧
      delivered (stdinLoop false [[0x61, 0x10, 0x11]]) = [] := by
  decide

end Pullrun.Cli
