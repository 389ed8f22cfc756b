import Pullrun.Guest.Piped
import Pullrun.Lib.Schedule
import Pullrun.Proof.Vsock.Chunks

/-!
# What of the output reaches the host

All that a workload has written should be with the host before the exit frame, and the exit frame should
name the signal that killed it. The first fails if the pumps are aborted before they have read their pipes
empty, if a send fails, or if the frame that an aborted pump was sending is still to be written when the
exit frame is.
-/

namespace Pullrun.Guest

open Vsock List Option Function

/-! ## The property and the condition -/

namespace Piped

def sentBefore (s : Piped) (p : Stream) : Bytes := (untilExit s.wire).flatMap p.payload

/-- All that the workload has written is with the host before the exit frame, in order, and a signal that
    killed the workload is in it. -/
structure Reported (s : Piped) : Prop where
  output : ∀ p, s.sentBefore p = s.written p
  signal : ∀ signal, s.status = some (.signaled signal) →
    ∃ code, .workloadExit code (some signal) ∈ s.wire

/-- The steps after which all can still be reported. -/
def Keeps (s : Piped) : Action → Prop
  | .abort p => (s.pump p).pipe = []
  | .fail _ => s.finished = true
  | .sendExit => (∀ p, (s.pump p).sending = none) ∧ ∀ signal, s.status ≠ some (.signaled signal)
  | _ => True

/-! ## What can still be sent -/

def underWay (s : Piped) (p : Stream) : Bytes :=
  if s.finished then []
  else (s.pump p).sending.getD [] ++ if (s.pump p).running then (s.pump p).pipe else []

def total (s : Piped) (p : Stream) : Bytes := s.sentBefore p ++ s.underWay p

structure Rules (s : Piped) : Prop where
  sending : ∀ p b, (s.pump p).sending = some b → b ≠ []
  closed : s.status.isSome → ∀ p, (s.pump p).closed = true
  reaped : s.reaped = true → s.status.isSome
  finished : s.finished = s.wire.any Frame.isExit
  ended : s.finished = true → s.status.isSome
  stopped : s.finished = true → ∀ p, (s.pump p).running = false
  silent : ∀ code signal, .workloadExit code (some signal) ∉ s.wire

structure Base (s : Piped) : Prop extends Rules s where
  short : ∀ p, (s.total p).length ≤ (s.written p).length

structure Inv (s : Piped) : Prop where
  total : ∀ p, s.total p = s.written p
  closed : ∀ p, (s.pump p).running = false → (s.pump p).closed = true
  normal : s.finished = true → ∀ signal, s.status ≠ some (.signaled signal)

/-- Something of a stream cannot reach the host any more, or a signal is not reported. -/
def Lost (s : Piped) : Prop :=
  (∃ p, (s.total p).length < (s.written p).length) ∨
    s.finished = true ∧ ∃ signal, s.status = some (.signaled signal)

/-! ## Updates -/

@[simp] theorem pump_setPump_same (s : Piped) (p : Stream) (pump : Pump) :
    (s.setPump p pump).pump p = pump := update_self ..

variable {p q : Stream} {pump : Pump}

theorem pump_setPump_ne (s : Piped) (h : q ≠ p) (pump : Pump) :
    (s.setPump p pump).pump q = s.pump q := update_of_ne h ..

theorem forall_setPump {s : Piped} {P : Pump → Prop} (hp : P pump) (hs : ∀ q, P (s.pump q)) (q : Stream) :
    P ((s.setPump p pump).pump q) := by
  by_cases hq : q = p
  · rw [hq, pump_setPump_same]
    exact hp
  · rw [pump_setPump_ne s hq]
    exact hs q

theorem total_setPump (s : Piped) (lost : Bytes)
    (h : ((s.pump p).sending.getD [] ++ if (s.pump p).running then (s.pump p).pipe else []) =
      (pump.sending.getD [] ++ if pump.running then pump.pipe else []) ++ lost) (q : Stream) :
    s.total q = (s.setPump p pump).total q ++ if q = p ∧ s.finished = false then lost else [] := by
  by_cases hq : q = p
  · subst hq
    rw [total, total, underWay, underWay, pump_setPump_same, h]
    change _ = (s.sentBefore q ++ if s.finished then _ else _) ++ _
    cases s.finished <;> simp
  · rw [if_neg fun h => hq h.1, append_nil, total, total, underWay, underWay, pump_setPump_ne s hq]
    rfl

theorem total_setPump_still (s : Piped)
    (h : ((s.pump p).sending.getD [] ++ if (s.pump p).running then (s.pump p).pipe else []) =
      pump.sending.getD [] ++ if pump.running then pump.pipe else []) (q : Stream) :
    s.total q = (s.setPump p pump).total q ++ [] := by
  have hpump := total_setPump s [] (h.trans (append_nil _).symm) q
  rwa [ite_self] at hpump

theorem payload_frame (p : Stream) (b : Bytes) : p.payload (p.frame b) = b := by
  cases p <;> rfl

theorem payload_frame_ne (h : q ≠ p) (b : Bytes) : q.payload (p.frame b) = [] := by
  cases p <;> cases q <;> first | rfl | exact absurd rfl h

theorem isExit_frame (p : Stream) (b : Bytes) : (p.frame b).isExit = false := by
  cases p <;> rfl

end Piped

theorem untilExit_append (frames frames' : List Frame) :
    untilExit (frames ++ frames')
      = if frames.any Frame.isExit then untilExit frames else frames ++ untilExit frames' := by
  induction frames with
  | nil => rfl
  | cons frame frames ih =>
    rw [cons_append, untilExit, untilExit, any_cons]
    cases hexit : frame.isExit with
    | true => simp
    | false =>
      rw [ih]
      cases frames.any Frame.isExit <;> simp

namespace Piped

theorem sentBefore_append {s s' : Piped} (hfinished : s.finished = s.wire.any Frame.isExit) {f : Frame}
    (hwire : s'.wire = s.wire ++ [f]) (q : Stream) :
    s'.sentBefore q = s.sentBefore q ++ if s.finished then [] else q.payload f := by
  rw [sentBefore, sentBefore, hwire, untilExit_append, ← hfinished]
  cases hf : s.finished with
  | true => simp
  | false =>
    rw [hfinished] at hf
    have huntil : untilExit s.wire = s.wire := by
      have happend := untilExit_append s.wire []
      rw [append_nil, hf] at happend
      simpa [untilExit] using happend
    have hone : untilExit [f] = [f] := by
      rw [untilExit, untilExit, ite_self]
    rw [huntil, hone]
    simp

/-! ## Steps -/

section

variable {s s' : Piped} {a : Action} {pump : Pump} {b : Bytes}

inductive Steps (s : Piped) : Action → Piped → Prop
  | write {p : Stream} {b : Bytes} (hopen : (s.pump p).closed ≠ true) : Steps s (.write p b)
      { s.setPump p { s.pump p with pipe := (s.pump p).pipe ++ b } with
        written := Function.update s.written p (s.written p ++ b) }
  | close {p : Stream} : Steps s (.close p) (s.setPump p { s.pump p with closed := true })
  | exit {status : ExitStatus} (hnone : s.status = none) : Steps s (.exit status)
      { s with status := some status, pump := fun p => { s.pump p with closed := true } }
  | read {p : Stream} {n : ℕ} (hread : (s.pump p).running ∧ (s.pump p).sending = none ∧ 0 < n ∧
      n ≤ 8192 ∧ n ≤ (s.pump p).pipe.length) : Steps s (.read p n)
      (s.setPump p { s.pump p with
        pipe := (s.pump p).pipe.drop n, sending := some ((s.pump p).pipe.take n) })
  | eof {p : Stream} (heof : (s.pump p).running ∧ (s.pump p).sending = none ∧ (s.pump p).closed ∧
      (s.pump p).pipe = []) : Steps s (.eof p) (s.setPump p { s.pump p with running := false })
  | sent {p : Stream} {b : Bytes} (hb : (s.pump p).sending = some b) : Steps s (.sent p)
      { s.setPump p { s.pump p with sending := none } with wire := s.wire ++ [p.frame b] }
  | fail {p : Stream} {b : Bytes} (hb : (s.pump p).sending = some b) : Steps s (.fail p)
      (s.setPump p { s.pump p with sending := none, running := false })
  | reap (hstatus : s.status.isSome) : Steps s .reap { s with reaped := true }
  | abort {p : Stream} (habort : s.reaped ∧ (s.pump p).running) :
      Steps s (.abort p) (s.setPump p { s.pump p with running := false })
  | sendExit {status : ExitStatus} (hstatus : s.status = some status) (hexit : s.reaped ∧
      (∀ p ∈ [Stream.stdout, .stderr], (s.pump p).running = false) ∧ s.finished = false) :
      Steps s .sendExit { s with wire := s.wire ++ [exitFrame status], finished := true }

theorem steps_of_step (h : s.step a = some s') : s.Steps a s' := by
  revert h
  fun_cases s.step a with
  | case1 | case4 | case7 | case9 | case10 | case12 | case15 | case17 | case18 | case20 => rintro ⟨⟩
  | case2 p b hopen => rintro ⟨⟩; exact .write hopen
  | case3 => rintro ⟨⟩; exact .close
  | case5 status hnone => rintro ⟨⟩; exact .exit hnone
  | case6 p n hread => rintro ⟨⟩; exact .read hread
  | case8 p heof => rintro ⟨⟩; exact .eof heof
  | case11 p b hsending => rintro ⟨⟩; exact .sent hsending
  | case13 p b hsending => rintro ⟨⟩; exact .fail hsending
  | case14 hstatus => rintro ⟨⟩; exact .reap hstatus
  | case16 p habort => rintro ⟨⟩; exact .abort habort
  | case19 status hstatus hexit => rintro ⟨⟩; exact .sendExit hstatus hexit

theorem total_write (h : s.Steps (.write p b) s') (q : Stream) :
    s'.written q = s.written q ++ (if q = p then b else []) ∧
      s'.total q = s.total q ++
        if q = p ∧ s.finished = false ∧ (s.pump p).running = true then b else [] := by
  cases h
  by_cases hq : q = p
  · subst hq
    refine ⟨by simp, ?_⟩
    simp only [total, sentBefore, underWay, setPump, update_self]
    cases s.finished <;> cases (s.pump q).running <;> simp
  · refine ⟨by simp [hq], ?_⟩
    simp only [total, sentBefore, underWay, setPump, update_of_ne hq, hq, false_and, if_false,
      append_nil]

/-- What can no more be sent after a step, although it could be before. -/
def dropped (s : Piped) : Action → Stream → Bytes
  | .fail p, q => if q = p ∧ s.finished = false then
      (s.pump p).sending.getD [] ++ if (s.pump p).running then (s.pump p).pipe else [] else []
  | .abort p, q => if q = p ∧ s.finished = false then (s.pump p).pipe else []
  | .sendExit, q => (s.pump q).sending.getD []
  | _, _ => []

theorem Steps.total (hs : s.Base) (h : s.Steps a s') (hw : ¬ ∃ p b, a = .write p b) (q : Stream) :
    s.total q = s'.total q ++ s.dropped a q ∧ s'.written q = s.written q := by
  cases h with
  | write hopen => exact absurd ⟨_, _, rfl⟩ hw
  | close =>
    refine ⟨total_setPump_still s ?_ q, rfl⟩
    rfl
  | exit hnone | reap hstatus => exact ⟨(append_nil _).symm, rfl⟩
  | read hread =>
    refine ⟨total_setPump_still s ?_ q, rfl⟩
    simp [hread.1, hread.2.1]
  | eof heof =>
    refine ⟨total_setPump_still s ?_ q, rfl⟩
    simp [heof.2.1, heof.2.2.2]
  | @sent p b hb =>
    refine ⟨((append_nil _).trans ?_).symm, rfl⟩
    rw [total, sentBefore_append hs.finished rfl, total]
    by_cases hq : q = p
    · subst hq
      simp only [underWay, setPump, update_self, hb, payload_frame]
      cases s.finished <;> simp
    · simp only [underWay, setPump, update_of_ne hq, payload_frame_ne hq]
      simp
  | fail hb =>
    refine ⟨total_setPump s _ ?_ q, rfl⟩
    simp
  | abort habort =>
    refine ⟨total_setPump s _ ?_ q, rfl⟩
    simp [habort.2]
  | @sendExit status hstatus hexit =>
    refine ⟨?_, rfl⟩
    have hstopped : (s.pump q).running = false := hexit.2.1 q (by cases q <;> simp)
    have hpayload : q.payload (exitFrame status) = [] := by
      cases q <;> rfl
    have hsent := sentBefore_append hs.finished
      (show wire { s with wire := _, finished := true } = s.wire ++ [exitFrame status] from rfl) q
    rw [total, total, hsent, underWay, underWay]
    simp [dropped, hexit.2.2, hstopped, hpayload]

theorem Steps.length_le (hs : s.Base) (h : s.Steps a s') (q : Stream) :
    (s'.total q).length + (s.written q).length ≤ (s.total q).length + (s'.written q).length := by
  by_cases hw : ∃ p b, a = .write p b
  · obtain ⟨p, b, rfl⟩ := hw
    obtain ⟨hwritten, htotal⟩ := total_write h q
    rw [hwritten, htotal, length_append, length_append]
    by_cases hq : q = p
    · split <;> simp [hq]
      omega
    · simp [hq]
  · obtain ⟨htotal, hwritten⟩ := h.total hs hw q
    rw [hwritten, htotal, length_append]
    omega

/-! ## Every run -/

theorem base_new : ({} : Piped).Base where
  short p := by cases p <;> decide
  sending p b h := by cases h
  closed h := by cases h
  reaped h := by cases h
  finished := rfl
  ended h := by cases h
  stopped h := by cases h
  silent code signal h := by cases h

theorem Rules.setPump (hs : s.Rules) (hsending : ∀ b, pump.sending = some b → b ≠ [])
    (hclosed : (s.pump p).closed = true → pump.closed = true)
    (hstopped : (s.pump p).running = false → pump.running = false) : (s.setPump p pump).Rules where
  sending := forall_setPump (P := fun pump => ∀ b, pump.sending = some b → b ≠ []) hsending hs.sending
  closed h := forall_setPump (P := fun pump => pump.closed = true) (hclosed (hs.closed h p)) (hs.closed h)
  reaped := hs.reaped
  finished := hs.finished
  ended := hs.ended
  stopped h := forall_setPump (P := fun pump => pump.running = false) (hstopped (hs.stopped h p))
    (hs.stopped h)
  silent := hs.silent

theorem Rules.wire (hs : s.Rules) {f : Frame} (hsilent : ∀ code signal, f ≠ .workloadExit code (some signal))
    {finished : Bool} (hfinished : finished = (s.finished || f.isExit))
    (hended : f.isExit = true → s.status.isSome)
    (hstopped : f.isExit = true → ∀ p, (s.pump p).running = false) :
    ({ s with wire := s.wire ++ [f], finished := finished } : Piped).Rules where
  sending := hs.sending
  closed := hs.closed
  reaped := hs.reaped
  finished := by simp [hfinished, hs.finished]
  ended h := by
    rw [hfinished, Bool.or_eq_true] at h
    rcases h with h | h
    · exact hs.ended h
    · exact hended h
  stopped h p := by
    rw [hfinished, Bool.or_eq_true] at h
    rcases h with h | h
    · exact hs.stopped h p
    · exact hstopped h p
  silent code signal h := by
    rcases mem_append.mp h with h | h
    · exact hs.silent code signal h
    · exact hsilent code signal (mem_singleton.mp h).symm

theorem Rules.step (hs : s.Rules) (h : s.Steps a s') : s'.Rules := by
  cases h with
  | @write p b hopen =>
    have hpump : (s.setPump p { s.pump p with pipe := (s.pump p).pipe ++ b }).Rules :=
      hs.setPump (hs.sending p) id id
    exact { hpump with }
  | close => exact hs.setPump (hs.sending _) (fun _ => rfl) id
  | exit hnone =>
    exact { hs with closed := fun _ _ => rfl, reaped := fun _ => rfl, ended := fun _ => rfl }
  | read hread =>
    refine hs.setPump (fun b hb => ?_) id id
    cases hb
    intro hnil
    have hlen := congrArg length hnil
    rw [length_take, length_nil] at hlen
    omega
  | eof | abort => exact hs.setPump (hs.sending _) id fun _ => rfl
  | @sent p b hb =>
    have hpump : (s.setPump p { s.pump p with sending := none }).Rules :=
      hs.setPump (fun b h => by cases h) id id
    refine hpump.wire (f := p.frame b) (fun code signal h => ?_) ?_ (fun h => ?_) fun h => ?_
    · cases p <;> cases h
    · rw [isExit_frame, Bool.or_false]
    · rw [isExit_frame] at h
      cases h
    · rw [isExit_frame] at h
      cases h
  | fail hb => exact hs.setPump (fun b h => by cases h) id fun _ => rfl
  | reap hstatus => exact { hs with reaped := fun _ => hstatus }
  | sendExit hstatus hexit =>
    refine hs.wire (fun code signal h => ?_) ?_ (fun _ => ?_)
      fun _ p => hexit.2.1 p (by cases p <;> simp)
    · cases h
    · simp [exitFrame, Frame.isExit]
    · rw [hstatus]
      rfl

theorem Base.step (hs : s.Base) (h : s.Steps a s') : s'.Base := by
  refine ⟨hs.toRules.step h, fun q => ?_⟩
  have hless := h.length_le hs q
  have hshort := hs.short q
  omega

theorem Steps.over (h : s.Steps a s') :
    (s.finished = true → s'.finished = true) ∧
      ∀ status, s.status = some status → s'.status = some status := by
  cases h with
  | exit hnone =>
    refine ⟨id, fun status' hstatus' => ?_⟩
    rw [hnone] at hstatus'
    cases hstatus'
  | sendExit => exact ⟨fun _ => rfl, fun _ => id⟩
  | _ => exact ⟨id, fun _ => id⟩

theorem Lost.step (hs : s.Base) (hlost : s.Lost) (h : s.Steps a s') : s'.Lost := by
  rcases hlost with ⟨q, hq⟩ | ⟨hfinished, signal, hsignal⟩
  · have hless := h.length_le hs q
    exact .inl ⟨q, by omega⟩
  · obtain ⟨hfin, hstatus⟩ := h.over
    exact .inr ⟨hfin hfinished, signal, hstatus _ hsignal⟩

theorem lost_of_dropped (hs : s.Base) (h : s.Steps a s') (hw : ¬ ∃ p b, a = .write p b) {q : Stream}
    (hq : s.dropped a q ≠ []) : s'.Lost := by
  obtain ⟨htotal, hwritten⟩ := h.total hs hw q
  have hshort := hs.short q
  have hpos := length_pos_of_ne_nil hq
  rw [htotal, length_append] at hshort
  refine .inl ⟨q, ?_⟩
  rw [hwritten]
  omega

theorem lost_of_not_keeps (hs : s.Base) (hbad : ¬ s.Keeps a) (h : s.Steps a s') : s'.Lost := by
  have hw : ¬ ∃ p b, a = .write p b := by
    rintro ⟨p, b, rfl⟩
    exact hbad trivial
  have hlost : ∀ q, s.dropped a q ≠ [] → s'.Lost := fun q => lost_of_dropped hs h hw
  have hover := h.over
  cases h with
  | @abort p habort =>
    have hrunning : s.finished = false := by
      by_contra hfinished
      have hstopped := hs.stopped (Bool.not_eq_false _ ▸ hfinished) p
      rw [habort.2] at hstopped
      cases hstopped
    refine hlost p ?_
    simp only [dropped, hrunning, and_self, if_true]
    exact hbad
  | @fail p b hb =>
    have hrunning : s.finished = false := Bool.not_eq_true _ ▸ hbad
    refine hlost p ?_
    simp only [dropped, hrunning, and_self, if_true, hb, getD_some]
    exact append_ne_nil_of_left_ne_nil (hs.sending p b hb) _
  | sendExit hstatus hexit =>
    by_cases hsignal : ∃ signal, s.status = some (.signaled signal)
    · obtain ⟨signal, hsignal⟩ := hsignal
      exact .inr ⟨rfl, signal, hover.2 _ hsignal⟩
    · have hsending : ¬ ∀ p, (s.pump p).sending = none := fun hnone =>
        hbad ⟨hnone, fun signal hstatus => hsignal ⟨signal, hstatus⟩⟩
      rw [not_forall] at hsending
      obtain ⟨p, hp⟩ := hsending
      obtain ⟨b, hb⟩ := ne_none_iff_exists'.mp hp
      refine hlost p ?_
      rw [dropped, hb, getD_some]
      exact hs.sending p b hb
  | _ => exact absurd trivial hbad

theorem dropped_of_keeps (h : s.Keeps a) (q : Stream) : s.dropped a q = [] := by
  cases a with
  | fail p => simp [dropped, show s.finished = true from h]
  | abort p => simp [dropped, show (s.pump p).pipe = [] from h]
  | sendExit => simp [dropped, h.1 q]
  | _ => rfl

theorem closed_setPump (hs : ∀ q, (s.pump q).running = false → (s.pump q).closed = true)
    (hp : pump.running = false → pump.closed = true) (q : Stream) :
    ((s.setPump p pump).pump q).running = false → ((s.setPump p pump).pump q).closed = true :=
  forall_setPump (P := fun pump => pump.running = false → pump.closed = true) hp hs q

theorem Inv.write (hb : s.Base) (hs : s.Inv) (h : s.Steps (.write p b) s') : s'.Inv := by
  have htotal := total_write h
  obtain ⟨hopen⟩ := h
  have hrunning : (s.pump p).running = true := by
    by_contra hr
    exact hopen (hs.closed p (Bool.not_eq_true _ ▸ hr))
  have hfinished : s.finished = false := by
    by_contra hf
    have hstopped := hb.stopped (Bool.not_eq_false _ ▸ hf) p
    rw [hrunning] at hstopped
    cases hstopped
  refine ⟨fun q => ?_, closed_setPump hs.closed (hs.closed p), hs.normal⟩
  obtain ⟨hwritten, htotal⟩ := htotal q
  rw [htotal, hwritten, hs.total q, hfinished, hrunning]
  simp

theorem Inv.step (hb : s.Base) (hs : s.Inv) (hkeeps : s.Keeps a) (h : s.Steps a s') : s'.Inv := by
  by_cases hw : ∃ p b, a = .write p b
  · obtain ⟨p, b, rfl⟩ := hw
    exact hs.write hb h
  have htotal : ∀ q, s'.total q = s'.written q := by
    intro q
    obtain ⟨htotal, hwritten⟩ := h.total hb hw q
    rw [dropped_of_keeps hkeeps, append_nil] at htotal
    rw [hwritten, ← htotal, hs.total q]
  cases h with
  | write => exact absurd ⟨_, _, rfl⟩ hw
  | close => exact ⟨htotal, closed_setPump hs.closed fun _ => rfl, hs.normal⟩
  | exit hnone =>
    refine ⟨htotal, fun _ _ => rfl, fun hfinished => ?_⟩
    have hended := hb.ended hfinished
    rw [hnone] at hended
    cases hended
  | read | sent => exact ⟨htotal, closed_setPump hs.closed (hs.closed _), hs.normal⟩
  | eof heof => exact ⟨htotal, closed_setPump hs.closed fun _ => heof.2.2.1, hs.normal⟩
  | fail =>
    exact ⟨htotal, closed_setPump hs.closed fun _ => hs.closed _ (hb.stopped hkeeps _), hs.normal⟩
  | reap => exact ⟨htotal, hs.closed, hs.normal⟩
  | abort habort =>
    exact ⟨htotal, closed_setPump hs.closed fun _ => hb.closed (hb.reaped habort.1) _, hs.normal⟩
  | sendExit => exact ⟨htotal, hs.closed, fun _ => hkeeps.2⟩

end

theorem inv_new : ({} : Piped).Inv where
  total _ := rfl
  closed _ h := by cases h
  normal h := by cases h

/-- **All output reaches the host before the exit frame, and a signal is reported**, exactly if every step
was one after which that was still possible. -/
theorem reported_iff {actions : List Action} {t : Piped}
    (hrun : Schedule.run step {} actions = some t) (hfinished : t.finished = true) :
    t.Reported ↔ Schedule.Meets step Keeps {} actions := by
  obtain ⟨hkept, hlost⟩ := Schedule.meets_or_lost_on Base Inv Lost Keeps
    (fun _ _ _ hb h => hb.step (steps_of_step h))
    (fun _ _ _ hb hs hkeeps h => hs.step hb hkeeps (steps_of_step h))
    (fun _ _ _ hb hbad h => lost_of_not_keeps hb hbad (steps_of_step h))
    (fun _ _ _ hb hl h => hl.step hb (steps_of_step h)) base_new inv_new hrun
  have hbase : t.Base :=
    Schedule.run_inv' Base (fun _ _ _ hb h => hb.step (steps_of_step h)) base_new hrun
  -- With the exit frame sent, nothing is under way.
  have htotal : ∀ q, t.total q = t.sentBefore q := by
    intro q
    rw [total, underWay, if_pos hfinished, append_nil]
  constructor
  · intro hreported
    by_contra hnot
    rcases hlost hnot with ⟨q, hq⟩ | ⟨-, signal, hsignal⟩
    · rw [htotal, hreported.output q] at hq
      exact lt_irrefl _ hq
    · obtain ⟨code, hmem⟩ := hreported.signal signal hsignal
      exact hbase.silent code signal hmem
  · intro hmeets
    have hinv := hkept hmeets
    refine ⟨fun q => ?_, fun signal hsignal => absurd hsignal (hinv.normal hfinished signal)⟩
    rw [← htotal, hinv.total q]

/-- A workload that writes a line and ends, and is reaped before the pump has read the line. -/
def unread : List Action :=
  [.write .stdout [104, 105, 10], .exit (.exited 0), .reap, .abort .stdout, .abort .stderr, .sendExit]

def killed : List Action := [.exit (.signaled 9), .eof .stdout, .eof .stderr, .reap, .sendExit]

theorem unread_and_killed_not_reported :
    (∃ t, Schedule.run step {} unread = some t ∧ t.finished = true ∧
        t.wire = [.workloadExit (some 0) none] ∧ ¬ t.Reported) ∧
      ∃ t, Schedule.run step {} killed = some t ∧ t.finished = true ∧
        t.wire = [.workloadExit none none] ∧ ¬ t.Reported := by
  refine ⟨⟨_, rfl, rfl, rfl, fun h => ?_⟩, ⟨_, rfl, rfl, rfl, fun h => ?_⟩⟩
  · exact absurd (h.output .stdout) (by decide)
  · obtain ⟨code, hmem⟩ := h.signal 9 rfl
    rcases mem_singleton.mp hmem with heq
    cases heq

/-- A workload that writes a line and ends, and the pumps come to the end of their pipes. -/
def drained : List Action :=
  [.write .stdout [104, 105, 10], .exit (.exited 0), .reap, .read .stdout 3, .sent .stdout, .eof .stdout,
    .eof .stderr, .sendExit]

theorem drained_reported : ∃ t, Schedule.run step {} drained = some t ∧ t.Reported := by
  have hmeets : Schedule.Meets step Keeps {} drained := by
    rw [drained]
    iterate 8 rw [Schedule.meets_cons_some rfl]
    refine ⟨trivial, trivial, trivial, trivial, trivial, trivial, trivial, ⟨?_, ?_⟩, trivial⟩
    · intro p
      cases p <;> rfl
    · intro signal h
      cases h
  exact ⟨_, rfl, (reported_iff rfl rfl).mpr hmeets⟩

end Piped

end Pullrun.Guest
