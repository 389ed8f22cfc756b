import Pullrun.Lib.Schedule
import Pullrun.Vm.Persistent

/-!
# What becomes of the frames of a guest

Every frame that the thread of a persistent machine decodes should be with one session, or
kept for the next one, in the order of the frames (`Accounted`).
-/

namespace Pullrun.Vm

open Vsock List Option Schedule AttachSession

/-! ## Lists of which one element changes -/

section

variable {α β : Type*} {g : α → List β} {f : α → α}

theorem flatMap_modify_eq {l : List α} {i : ℕ} (h : ∀ x, l[i]? = some x → g (f x) = g x) :
    (l.modify i f).flatMap g = l.flatMap g := by
  induction l generalizing i with
  | nil =>
    simp
  | cons y l ih =>
    cases i with
    | zero => simp [h y rfl]
    | succ i =>
      rw [modify_succ_cons, flatMap_cons, flatMap_cons, ih fun x hx => h x (by simpa)]

theorem flatMap_modify_append {bs : List β} (hf : ∀ x, g (f x) = g x ++ bs) {l : List α} {i : ℕ}
    (hi : i < l.length) (hlater : ∀ j, i < j → ∀ x, l[j]? = some x → g x = []) :
    (l.modify i f).flatMap g = l.flatMap g ++ bs := by
  induction l generalizing i with
  | nil =>
    cases hi
  | cons y l ih =>
    cases i with
    | zero =>
      have hnil : l.flatMap g = [] := by
        rw [flatMap_eq_nil_iff]
        intro x hx
        obtain ⟨j, hj⟩ := getElem?_of_mem hx
        exact hlater (j + 1) (Nat.succ_pos j) x (by simpa using hj)
      simp [hf, hnil]
    | succ i =>
      have hrest := ih (Nat.lt_of_succ_lt_succ hi) fun j hj x hx =>
        hlater (j + 1) (Nat.succ_lt_succ hj) x (by simpa using hx)
      rw [modify_succ_cons, flatMap_cons, flatMap_cons, hrest, append_assoc]

theorem length_flatMap_modify_lt {l : List α} {i : ℕ} {x : α} (hx : l[i]? = some x)
    (hlt : (g (f x)).length < (g x).length) :
    ((l.modify i f).flatMap g).length < (l.flatMap g).length := by
  induction l generalizing i x with
  | nil =>
    cases hx
  | cons y l ih =>
    cases i with
    | zero =>
      cases hx
      simp only [modify_zero_cons, flatMap_cons, length_append]
      omega
    | succ i =>
      have hrest := ih (by simpa using hx) hlt
      simp only [modify_succ_cons, flatMap_cons, length_append]
      omega

end

/-! ## The property and the condition -/

/-- What has been sent to a session and is not lost: passed on to its client, or on the way. -/
def AttachSession.frames (session : AttachSession) : List Frame := session.delivered ++ session.channel

def VmCommand.attaches : VmCommand → Option ℕ
  | .attachClient i => some i
  | _ => none

namespace PersistentVm

def held (s : PersistentVm) : List Frame := s.sessions.flatMap AttachSession.frames

def Accounted (s : PersistentVm) : Prop := s.decoded = s.held ++ s.pending ++ s.atShutdown

instance (s : PersistentVm) : Decidable s.Accounted := inferInstanceAs (Decidable (_ = _))

def Keeps (s : PersistentVm) : Action → Prop
  | .forward i => ∀ session ∈ s.sessions[i]?, session.phase = .forwarding → session.channel ≠ [] →
      session.client = true
  | .leave i => ∀ session ∈ s.sessions[i]?, session.phase = .detached → session.channel = []
  | .flush => s.place = .flushing → s.pending ≠ [] → ∀ i ∈ s.clientOut, s.Receives i
  | .frame f => s.place = .polling →
      (∀ i ∈ s.clientOut, s.Receives i) ∧ (s.clientOut = none → f.isExit = false)
  | .broken => s.place = .polling → s.pending = []
  | _ => True

/-! ## The invariant -/

/-- With `m` sessions attached so far: the thread sends to the last of them, the commands that attach the
    others are under way in order, and frames are kept only while there is no client. -/
structure InvAt (s : PersistentVm) (m : ℕ) : Prop where
  accounted : s.Accounted
  attached : m ≤ s.sessions.length
  queued : s.place ≠ .ended →
    s.commands.filterMap VmCommand.attaches = List.range' m (s.sessions.length - m)
  fresh : ∀ j, m ≤ j → ∀ session, s.sessions[j]? = some session → session.frames = []
  current : ∀ i, s.clientOut = some i → i + 1 = m
  kept : s.clientOut ≠ none → s.place = .flushing ∨ s.pending = []
  flushing : s.place = .flushing → s.clientOut ≠ none
  ended : s.place = .ended → s.pending = [] ∧ s.clientOut = none
  running : s.place ≠ .ended → s.atShutdown = []

def Inv (s : PersistentVm) : Prop := ∃ m, s.InvAt m

theorem inv_new : ({} : PersistentVm).Inv :=
  ⟨0, rfl, le_refl _, fun _ => rfl, by simp, by simp, by simp, by simp, by simp, by simp⟩

namespace InvAt

variable {s : PersistentVm} {m i : ℕ}

variable (hs : s.InvAt m)
include hs

theorem update {f : AttachSession → AttachSession}
    (hf : ∀ session, s.sessions[i]? = some session → (f session).frames = session.frames) :
    (s.update i f).InvAt m where
  accounted := by
    have hheld : (s.update i f).held = s.held := flatMap_modify_eq hf
    have hacc := hs.accounted
    unfold Accounted at hacc ⊢
    rw [hheld]
    exact hacc
  attached := by simpa [PersistentVm.update] using hs.attached
  queued := by simpa [PersistentVm.update] using hs.queued
  fresh := by
    intro j hj session hsession
    simp only [PersistentVm.update, getElem?_modify] at hsession
    obtain ⟨old, hold, rfl⟩ := map_eq_some_iff.mp hsession
    have hfresh := hs.fresh j hj old hold
    by_cases hij : i = j
    · subst hij
      rw [if_pos rfl, hf old hold, hfresh]
    · rwa [if_neg hij]
  current := hs.current
  kept := hs.kept
  flushing := hs.flushing
  ended := hs.ended
  running := hs.running

theorem pending_nil (hplace : s.place ≠ .flushing) (hsome : s.clientOut ≠ none) :
    s.pending = [] := (hs.kept hsome).resolve_left hplace

theorem tell {c : VmCommand} (hc : c.attaches = none) : (s.tell c).InvAt m := by
  unfold PersistentVm.tell
  split
  · exact hs
  · refine { hs with queued := fun hplace => ?_ }
    have hqueued := hs.queued hplace
    simp [hc, hqueued]

theorem held_push (hi : s.clientOut = some i) (f : Frame) : (s.push i f).held = s.held ++ [f] := by
  have hcur := hs.current i hi
  have hle := hs.attached
  refine flatMap_modify_append ?_ (by omega) fun j hj => hs.fresh j (by omega)
  intro session
  simp [frames]

theorem fresh_push (hi : s.clientOut = some i) (f : Frame) :
    ∀ j, m ≤ j → ∀ session, (s.push i f).sessions[j]? = some session → session.frames = [] := by
  intro j hj session hsession
  have hcur := hs.current i hi
  simp only [push, PersistentVm.update, getElem?_modify] at hsession
  obtain ⟨old, hold, rfl⟩ := map_eq_some_iff.mp hsession
  rw [if_neg (by omega)]
  exact hs.fresh j hj old hold

theorem finish (hpending : s.pending = []) : s.finish.InvAt m where
  accounted := by
    have hacc := hs.accounted
    rw [Accounted, hpending] at hacc
    exact hacc
  attached := hs.attached
  queued h := absurd rfl h
  fresh := hs.fresh
  current _ h := by cases h
  kept h := absurd rfl h
  flushing h := by cases h
  ended _ := ⟨rfl, rfl⟩
  running h := absurd rfl h

theorem goTo {place : Place} (hrun : s.place ≠ .ended) (hflush : place ≠ .flushing)
    (hend : place ≠ .ended) (hkept : s.clientOut ≠ none → s.pending = []) :
    ({ s with place := place } : PersistentVm).InvAt m :=
  { hs with
    queued := fun _ => hs.queued hrun
    kept := fun h => .inr (hkept h)
    flushing := fun h => absurd h hflush
    ended := fun h => absurd h hend
    running := fun _ => hs.running hrun }

end InvAt

/-! ## Steps that lose nothing -/

section

variable {s s' : PersistentVm}

theorem Inv.attach (hs : s.Inv) (h : s.step .attach = some s') : s'.Inv := by
  obtain ⟨m, hs⟩ := hs
  refine ⟨m, ?_⟩
  simp only [step] at h
  split at h
  · cases h
    exact hs
  · rename_i hrun
    cases h
    have hle := hs.attached
    refine { hs with
      accounted := ?_
      attached := ?_
      queued := fun _ => ?_
      fresh := ?_ }
    · have hacc := hs.accounted
      unfold Accounted held at hacc ⊢
      simp [hacc, frames]
    · rw [length_append]
      omega
    · have hone : s.sessions.length + 1 - m = s.sessions.length - m + 1 := by omega
      have hlast : m + (s.sessions.length - m) = s.sessions.length := by omega
      simp [VmCommand.attaches, hs.queued hrun, hone, range'_concat, hlast]
    · intro j hj session hsession
      rw [getElem?_append] at hsession
      split at hsession
      · exact hs.fresh j hj session hsession
      · rw [getElem?_singleton] at hsession
        obtain ⟨-, hsession⟩ := ite_none_right_eq_some.mp hsession
        cases hsession
        rfl

variable {i m : ℕ} {f : Frame} {a : Action}

theorem Inv.command (hs : s.Inv) (h : s.step .command = some s') : s'.Inv := by
  obtain ⟨m, hs⟩ := hs
  simp only [step] at h
  obtain ⟨hplace, h⟩ := ite_none_right_eq_some.mp h
  have hrun : s.place ≠ .ended := hplace.trans_ne (by decide)
  have hkept := hs.pending_nil (hplace.trans_ne (by decide))
  have hqueued := hs.queued hrun
  split at h
  · cases h
    exact ⟨m, hs.goTo hrun (by decide) (by decide) hkept⟩
  · -- The next session attaches, and the thread turns to the frames it has kept.
    rename_i i commands hcommands
    cases h
    rw [hcommands] at hqueued
    have hle := hs.attached
    obtain ⟨k, hk⟩ : ∃ k, s.sessions.length - m = k + 1 := by
      cases hn : s.sessions.length - m with
      | zero =>
        rw [hn] at hqueued
        cases hqueued
      | succ k => exact ⟨k, rfl⟩
    rw [hk, range'_succ] at hqueued
    have hi : i = m := (cons.inj hqueued).1
    have hrest : commands.filterMap VmCommand.attaches = range' (m + 1) k :=
      (cons.inj hqueued).2
    have hnext : m + 1 ≤ s.sessions.length := by omega
    have hleft : s.sessions.length - (m + 1) = k := by omega
    refine ⟨m + 1, { hs with
      attached := hnext
      queued := fun _ => ?_
      fresh := fun j hj => hs.fresh j (by omega)
      current := ?_
      kept := fun _ => .inl rfl
      flushing := fun _ => by simp
      ended := fun h => by cases h
      running := fun _ => hs.running hrun }⟩
    · rw [hrest, ← hleft]
    · intro j hj
      cases hj
      rw [hi]
  · rename_i i commands hcommands
    cases h
    rw [hcommands] at hqueued
    have hsub : ∀ {j}, (if s.sessionId = i then none else s.clientOut) = some j →
        s.clientOut = some j := by
      intro j hj
      obtain ⟨-, hj⟩ := ite_none_left_eq_some.mp hj
      exact hj
    refine ⟨m, { hs with
      queued := fun _ => hqueued
      current := fun j hj => hs.current j (hsub hj)
      kept := fun hsome => .inr ?_
      flushing := fun h => by cases h
      ended := fun h => by cases h
      running := fun _ => hs.running hrun }⟩
    obtain ⟨j, hj⟩ := ne_none_iff_exists'.mp hsome
    exact hkept (by simp [hsub hj])
  · cases h
    refine ⟨m, { hs with
      accounted := ?_
      queued := fun h => absurd rfl h
      current := fun _ h => by cases h
      kept := fun h => absurd rfl h
      flushing := fun h => by cases h
      ended := fun _ => ⟨rfl, rfl⟩
      running := fun h => absurd rfl h }⟩
    have hacc := hs.accounted
    rw [Accounted, hs.running hrun, append_nil] at hacc
    unfold Accounted
    rw [show pending _ = [] from rfl, append_nil]
    exact hacc

/-! ## Steps that may lose a frame -/

theorem Accounted.length_eq (h : s.Accounted) :
    s.decoded.length = s.held.length + s.pending.length + s.atShutdown.length := by
  rw [h, length_append, length_append]

theorem not_accounted_update (hs : s.Accounted) {f : AttachSession → AttachSession}
    {session : AttachSession} (hsession : s.sessions[i]? = some session)
    (hlt : (f session).frames.length < session.frames.length) : ¬ (s.update i f).Accounted := by
  intro hacc
  have hlen := hs.length_eq
  have hlen' := hacc.length_eq
  have hheld : (s.update i f).held.length < s.held.length := length_flatMap_modify_lt hsession hlt
  simp only [update] at hlen' hheld
  omega

theorem Inv.forward (hs : s.Inv) (h : s.step (.forward i) = some s') :
    (s.Keeps (.forward i) → s'.Inv) ∧ (s'.Accounted → s.Keeps (.forward i)) := by
  obtain ⟨m, hs⟩ := hs
  simp only [step] at h
  split at h
  · rename_i f channel delivered hsession
    cases h
    refine ⟨fun _ => ⟨m, hs.update (by simp [hsession, frames])⟩,
      fun _ session hold _ _ => ?_⟩
    rw [hsession] at hold
    cases hold
    rfl
  · rename_i f channel delivered hsession
    cases h
    refine ⟨fun hkeeps => ?_, fun hacc => ?_⟩
    · have hclient := hkeeps _ hsession rfl (by simp)
      cases hclient
    · refine absurd hacc (not_accounted_update hs.accounted hsession ?_)
      simp [frames]
  · cases h

theorem Inv.leave (hs : s.Inv) (h : s.step (.leave i) = some s') :
    (s.Keeps (.leave i) → s'.Inv) ∧ (s'.Accounted → s.Keeps (.leave i)) := by
  obtain ⟨m, hs⟩ := hs
  simp only [step] at h
  split at h
  · rename_i client channel delivered hsession
    cases h
    refine ⟨fun hkeeps => ⟨m, hs.update ?_⟩, fun hacc session hold _ => ?_⟩
    · have hnil : channel = [] := hkeeps _ hsession rfl
      simp [hsession, frames, hnil]
    · by_contra hne
      rw [mem_def, hsession] at hold
      cases hold
      refine not_accounted_update hs.accounted hsession ?_ hacc
      have hpos : 0 < channel.length := length_pos_of_ne_nil hne
      simp only [frames, append_nil, length_append]
      omega
  · cases h

theorem Inv.flush (hs : s.Inv) (h : s.step .flush = some s') :
    (s.Keeps .flush → s'.Inv) ∧ (s'.Accounted → s.Keeps .flush) := by
  obtain ⟨m, hs⟩ := hs
  obtain ⟨hplace, h⟩ := ite_none_right_eq_some.mp h
  have hrun : s.place ≠ .ended := hplace.trans_ne (by decide)
  split at h
  · rename_i hpending
    cases h
    exact ⟨fun _ => ⟨m, hs.goTo hrun (by decide) (by decide) fun _ => hpending⟩,
      fun _ _ hne => absurd hpending hne⟩
  · rename_i f pending i hpending hclient
    split at h
    · rename_i hreceives
      cases h
      refine ⟨fun _ => ⟨m, { hs with
        accounted := ?_
        attached := ?_
        queued := fun _ => ?_
        fresh := hs.fresh_push hclient f
        kept := fun _ => .inl hplace
        ended := fun h => absurd h hrun }⟩, fun _ _ _ j hj => ?_⟩
      · have hacc := hs.accounted
        have hheld := hs.held_push hclient f
        rw [Accounted, hpending] at hacc
        unfold Accounted
        change s.decoded = (s.push i f).held ++ pending ++ s.atShutdown
        rw [hheld, hacc]
        simp
      · simpa [push, update] using hs.attached
      · simpa [push, update] using hs.queued hrun
      · rw [mem_def, hclient] at hj
        cases hj
        exact hreceives
    · rename_i hgone
      cases h
      refine ⟨fun hkeeps => absurd (hkeeps hplace (by rw [hpending]; simp) i hclient) hgone,
        fun hacc => ?_⟩
      -- The frame that could not be sent is not among the kept ones any more.
      have hlen := hs.accounted.length_eq
      have hlen' := hacc.length_eq
      rw [hpending, length_cons] at hlen
      simp only [held] at hlen hlen'
      omega
  · cases h

theorem InvAt.frame_kept (hs : s.InvAt m) (hplace : s.place = .polling)
    (hclient : s.clientOut = none) (f : Frame) :
    ({ s with decoded := s.decoded ++ [f], pending := s.pending ++ [f] } : PersistentVm).InvAt m := by
  have hrun : s.place ≠ .ended := hplace.trans_ne (by decide)
  refine { hs with
    accounted := ?_
    kept := fun h => absurd hclient h
    ended := fun h => absurd h hrun }
  have hacc := hs.accounted
  rw [Accounted, hs.running hrun, append_nil] at hacc
  change s.decoded ++ [f] = s.held ++ (s.pending ++ [f]) ++ s.atShutdown
  rw [hs.running hrun, hacc, append_nil, append_assoc]

theorem InvAt.frame_sent (hs : s.InvAt m) (hplace : s.place = .polling)
    (hclient : s.clientOut = some i) (f : Frame) :
    s.pending = [] ∧ (({ s with decoded := s.decoded ++ [f] } : PersistentVm).push i f).InvAt m := by
  have hrun : s.place ≠ .ended := hplace.trans_ne (by decide)
  have hpending := hs.pending_nil (hplace.trans_ne (by decide)) (by simp [hclient])
  refine ⟨hpending, { hs with
    accounted := ?_
    attached := by simpa [push, PersistentVm.update] using hs.attached
    queued := fun h => by simpa [push, PersistentVm.update] using hs.queued h
    fresh := hs.fresh_push hclient f }⟩
  have hacc := hs.accounted
  rw [Accounted, hs.running hrun, hpending, append_nil, append_nil] at hacc
  change s.decoded ++ [f] = (s.push i f).held ++ s.pending ++ s.atShutdown
  rw [hs.held_push hclient f, hs.running hrun, hacc, hpending, append_nil, append_nil]

theorem not_accounted_lost (hs : s.Accounted) {s1 : PersistentVm}
    (hdecoded : s1.decoded = s.decoded ++ [f])
    (hlost : s1.held.length + s1.pending.length ≤ s.held.length + s.pending.length)
    (hshut : s1.atShutdown = s.atShutdown) : ¬ s1.Accounted := by
  intro hacc
  have hlen := hs.length_eq
  have hlen' := hacc.length_eq
  rw [hdecoded, hshut, length_append, length_singleton] at hlen'
  omega

section

variable (ds : List Frame) (f : Frame)

theorem deliver_of_receives (hclient : s.clientOut = some i) (h : s.Receives i) :
    ({ s with decoded := ds } : PersistentVm).deliver f =
      ({ s with decoded := ds } : PersistentVm).push i f := by
  simp only [deliver, hclient]
  exact if_pos h

theorem deliver_of_gone (hclient : s.clientOut = some i) (h : ¬ s.Receives i) :
    ({ s with decoded := ds } : PersistentVm).deliver f = { s with decoded := ds, clientOut := none } := by
  simp only [deliver, hclient]
  exact if_neg h

theorem deliver_of_none (hclient : s.clientOut = none) :
    ({ s with decoded := ds } : PersistentVm).deliver f =
      { s with decoded := ds, pending := s.pending ++ [f] } := by
  simp only [deliver, hclient]

end

theorem InvAt.frame_lost (hs : s.InvAt m) (hclient : s.clientOut = some i) (hgone : ¬ s.Receives i)
    (h : s.step (.frame f) = some s') : ¬ s'.Accounted := by
  obtain ⟨-, h⟩ := ite_none_right_eq_some.mp h
  rw [deliver_of_gone _ f hclient hgone] at h
  split at h
  · cases h
    exact not_accounted_lost hs.accounted rfl (Nat.add_le_add_left (Nat.zero_le _) _) rfl
  · cases h
    exact not_accounted_lost hs.accounted rfl (le_refl _) rfl

theorem InvAt.exit_lost (hs : s.InvAt m) (hclient : s.clientOut = none) (hexit : f.isExit = true)
    (h : s.step (.frame f) = some s') : ¬ s'.Accounted := by
  simp only [step, hexit, if_true] at h
  obtain ⟨-, h⟩ := ite_none_right_eq_some.mp h
  cases h
  rw [deliver_of_none _ f hclient]
  exact not_accounted_lost hs.accounted rfl (Nat.add_le_add_left (Nat.zero_le _) _) rfl

theorem InvAt.frame (hs : s.InvAt m) (hkeeps : s.Keeps (.frame f))
    (h : s.step (.frame f) = some s') : s'.InvAt m := by
  obtain ⟨hplace, h⟩ := ite_none_right_eq_some.mp h
  have hrun : s.place ≠ .ended := hplace.trans_ne (by decide)
  obtain ⟨hreceives, hexit⟩ := hkeeps hplace
  cases hclient : s.clientOut with
  | none =>
    rw [deliver_of_none _ f hclient, hexit hclient] at h
    cases h
    exact (hs.frame_kept hplace hclient f).goTo hrun (by decide) (by decide)
      fun hne => absurd hclient hne
  | some i =>
    obtain ⟨hpending, hs1⟩ := hs.frame_sent hplace hclient f
    rw [deliver_of_receives _ f hclient (hreceives i hclient)] at h
    split at h
    · cases h
      exact hs1.finish hpending
    · cases h
      exact hs1.goTo hrun (by decide) (by decide) fun _ => hpending

theorem Inv.frame (hs : s.Inv) (h : s.step (.frame f) = some s') :
    (s.Keeps (.frame f) → s'.Inv) ∧ (s'.Accounted → s.Keeps (.frame f)) := by
  obtain ⟨m, hs⟩ := hs
  refine ⟨fun hkeeps => ⟨m, hs.frame hkeeps h⟩, fun hacc _ => ⟨fun i hi => ?_, fun hnone => ?_⟩⟩
  · by_contra hgone
    exact hs.frame_lost hi hgone h hacc
  · cases hexit : f.isExit with
    | true => exact absurd hacc (hs.exit_lost hnone hexit h)
    | false => rfl

theorem Inv.broken (hs : s.Inv) (h : s.step .broken = some s') :
    (s.Keeps .broken → s'.Inv) ∧ (s'.Accounted → s.Keeps .broken) := by
  obtain ⟨m, hs⟩ := hs
  obtain ⟨hplace, h⟩ := ite_none_right_eq_some.mp h
  cases h
  refine ⟨fun hkeeps => ⟨m, hs.finish (hkeeps hplace)⟩, fun hacc _ => ?_⟩
  have hlen := hs.accounted.length_eq
  have hlen' := hacc.length_eq
  simp only [finish, held, length_nil] at hlen hlen'
  exact length_eq_zero_iff.mp (by omega)

/-- **One step.** A step that loses no frame keeps the invariant, and one that does does not keep the
    property. -/
theorem Inv.step (hs : s.Inv) (h : s.step a = some s') :
    (s.Keeps a → s'.Inv) ∧ (s'.Accounted → s.Keeps a) := by
  cases a with
  | forward i => exact hs.forward h
  | leave i => exact hs.leave h
  | flush => exact hs.flush h
  | frame f => exact hs.frame h
  | broken => exact hs.broken h
  | attach => exact ⟨fun _ => hs.attach h, fun _ => trivial⟩
  | command => exact ⟨fun _ => hs.command h, fun _ => trivial⟩
  | hangUp i =>
    obtain ⟨m, hs⟩ := hs
    obtain ⟨-, h⟩ := ite_none_right_eq_some.mp h
    cases h
    exact ⟨fun _ => ⟨m, hs.update fun _ _ => rfl⟩, fun _ => trivial⟩
  | disconnected i =>
    obtain ⟨m, hs⟩ := hs
    simp only [step] at h
    split at h
    · rename_i client delivered hsession
      obtain ⟨-, h⟩ := ite_none_left_eq_some.mp h
      cases h
      exact ⟨fun _ => ⟨m, hs.update (by simp [hsession, frames])⟩, fun _ => trivial⟩
    · cases h
  | detach i =>
    obtain ⟨m, hs⟩ := hs
    simp only [step] at h
    split at h
    · rename_i client channel delivered hsession
      cases h
      exact ⟨fun _ => ⟨m, (hs.update (by simp [hsession, frames])).tell rfl⟩,
        fun _ => trivial⟩
    · cases h
  | shutdown =>
    obtain ⟨m, hs⟩ := hs
    cases h
    exact ⟨fun _ => ⟨m, hs.tell rfl⟩, fun _ => trivial⟩
  | idle =>
    obtain ⟨m, hs⟩ := hs
    obtain ⟨hplace, h⟩ := ite_none_right_eq_some.mp h
    cases h
    exact ⟨fun _ => ⟨m, hs.goTo (hplace.trans_ne (by decide)) (by decide) (by decide)
      (hs.pending_nil (hplace.trans_ne (by decide)))⟩, fun _ => trivial⟩

theorem keeps_of_none (h : s.step a = none) (hs : s.Inv) : s.Keeps a := by
  obtain ⟨m, hs⟩ := hs
  cases a with
  | forward i =>
    rintro ⟨phase, client, channel, delivered⟩ hsession hphase hne
    cases hphase
    rw [mem_def] at hsession
    cases channel with
    | nil => exact absurd rfl hne
    | cons f channel =>
      cases client with
      | true => rfl
      | false => simp [step, hsession] at h
  | leave i =>
    rintro ⟨phase, client, channel, delivered⟩ hsession hphase
    cases hphase
    rw [mem_def] at hsession
    simp [step, hsession] at h
  | flush =>
    intro hplace hne i hi
    rw [mem_def] at hi
    obtain ⟨f, pending, hpending⟩ := exists_cons_of_ne_nil hne
    simp only [step, hplace, hpending, hi, if_true] at h
    split at h <;> cases h
  | frame f | broken =>
    intro hplace
    simp [step, hplace] at h
  | attach | hangUp | disconnected | detach | shutdown | command | idle => trivial

end

/-- **Every frame is with one session or kept, in order, exactly if every step is one that loses none.**
-/
theorem accounted_iff_keeps (actions : List Action) :
    Schedule.Meets step (fun s a => ∀ s', s.step a = some s' → s'.Accounted) {} actions ↔
      Schedule.Meets step Keeps {} actions := by
  refine meets_congr Inv (fun s a s' hs hkeeps h => (hs.step h).1 hkeeps) ?_ inv_new actions
  intro s a hs
  constructor
  · intro hacc
    cases h : s.step a with
    | none => exact keeps_of_none h hs
    | some s' => exact (hs.step h).2 (hacc s' h)
  · intro hkeeps s' h
    obtain ⟨m, hs'⟩ := (hs.step h).1 hkeeps
    exact hs'.accounted

/-- A client hangs up before a line of output comes: the session takes the line and cannot pass it on. -/
def hungUp : List Action :=
  [.attach, .command, .flush, .hangUp 0, .frame (.workloadStdout [104, 105, 10]), .forward 0]

def exitAlone : List Action := [.command, .frame (.workloadExit (some 0) none)]

theorem hungUp_and_exitAlone_lost :
    ¬ Schedule.Meets step (fun s a => ∀ s', s.step a = some s' → s'.Accounted) {} hungUp ∧
      ¬ Schedule.Meets step (fun s a => ∀ s', s.step a = some s' → s'.Accounted) {} exitAlone := by
  decide +kernel

end PersistentVm

end Pullrun.Vm
