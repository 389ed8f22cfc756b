import Mathlib.Data.List.Permutation
import Pullrun.Lib.Schedule
import Pullrun.Proof.Vsock.Chunks
import Pullrun.Vsock.Client

/-!
# Frames on a shared socket

When all senders have returned, the wire should hold the encodings of the frames that were sent with
success, one after the other (`InFrames`).
-/

namespace Pullrun.Vsock

open Schedule List

def Send.Untouched (send : Send) : Prop := send.rest = encode send.frame

namespace SharedSocket

/-- The wire is the concatenation of complete frames, one for each successful send. -/
def InFrames (s : SharedSocket) : Prop :=
  ∃ frames : List Frame, frames.Perm s.completed ∧ s.wire = frames.flatMap encode

/-- A frame is not interrupted: neither by the writes of another sender nor by its own end. -/
def Uninterrupted (s : SharedSocket) : Action → Prop
  | .send _ _ => True
  | .write i _ => ∀ j ≠ i, ∀ send ∈ s.sends j, send.Untouched
  | .fail i => ∀ send ∈ s.sends i, send.Untouched

/-! ## The invariant -/

/-- Nobody but sender `i` is in the middle of a frame, of which it has written `part`. -/
structure InvAt (s : SharedSocket) (i : ℕ) (part : Bytes) : Prop where
  wire : s.wire = s.completed.flatMap encode ++ part
  others : ∀ j ≠ i, ∀ send ∈ s.sends j, send.Untouched
  middle : ∀ send ∈ s.sends i, part ++ send.rest = encode send.frame
  returned : s.sends i = none → part = []

def Inv (s : SharedSocket) : Prop := ∃ i part, s.InvAt i part

theorem inv_new : ({} : SharedSocket).Inv := ⟨0, [], rfl, by simp, by simp, fun _ => rfl⟩

theorem setSend_same (s : SharedSocket) (i : ℕ) (send : Option Send) :
    (s.setSend i send).sends i = send := Function.update_self ..

theorem setSend_ne (s : SharedSocket) {i j : ℕ} (h : j ≠ i) (send : Option Send) :
    (s.setSend i send).sends j = s.sends j := Function.update_of_ne h ..

section

variable {s s' : SharedSocket} {i k : ℕ} {part : Bytes}

theorem InvAt.part_eq_nil (hs : s.InvAt i part) (hi : ∀ send ∈ s.sends i, send.Untouched) :
    part = [] := by
  cases hsend : s.sends i with
  | none => exact hs.returned hsend
  | some send =>
    have hmiddle := hs.middle send hsend
    rw [hi send hsend] at hmiddle
    exact append_left_eq_self.mp hmiddle

theorem InvAt.switch (hs : s.InvAt i part)
    (hk : ∀ j ≠ k, ∀ send ∈ s.sends j, send.Untouched) : ∃ part', s.InvAt k part' := by
  by_cases hik : i = k
  · exact ⟨part, hik ▸ hs⟩
  · have hpart := hs.part_eq_nil (hk i hik)
    have hwire := hs.wire
    rw [hpart] at hwire
    exact ⟨[], hwire, hk, fun send hsend => hs.others k (Ne.symm hik) send hsend, fun _ => rfl⟩

theorem InvAt.setSend (hs : s.InvAt i part) (hk : ∀ send ∈ s.sends k, send.Untouched)
    {new : Option Send} (hnew : ∀ send ∈ new, send.Untouched) : (s.setSend k new).InvAt i part := by
  refine ⟨hs.wire, fun j hj send hsend => ?_, fun send hsend => ?_, fun hnone => ?_⟩
  · by_cases hjk : j = k
    · subst hjk
      rw [setSend_same] at hsend
      exact hnew send hsend
    · rw [setSend_ne s hjk] at hsend
      exact hs.others j hj send hsend
  · by_cases hik : i = k
    · subst hik
      rw [setSend_same] at hsend
      rw [hs.part_eq_nil hk]
      exact hnew send hsend
    · rw [setSend_ne s hik] at hsend
      exact hs.middle send hsend
  · by_cases hik : i = k
    · subst hik
      exact hs.part_eq_nil hk
    · rw [setSend_ne s hik] at hnone
      exact hs.returned hnone

theorem InvAt.write (hs : s.InvAt i part) {n : ℕ} (h : s.step (.write i n) = some s') :
    ∃ part', s'.InvAt i part' := by
  have hothers : ∀ new, ∀ j ≠ i, ∀ send ∈ (s.setSend i new).sends j, send.Untouched := by
    intro new j hj send hsend
    rw [setSend_ne s hj] at hsend
    exact hs.others j hj send hsend
  simp only [step] at h
  split at h
  · cases h
  · rename_i frame rest hsend
    have hmiddle : part ++ rest = encode frame := hs.middle _ hsend
    obtain ⟨hn, h⟩ := Option.ite_none_right_eq_some.mp h
    split at h
    · -- The frame is complete.
      rename_i hall
      cases h
      refine ⟨[], ?_, hothers none, fun send hsend' => ?_, fun _ => rfl⟩
      · change s.wire ++ rest.take n = (s.completed ++ [frame]).flatMap encode ++ []
        rw [hs.wire, hall, take_length, append_assoc, hmiddle]
        simp
      · have hnone : none = some send := (setSend_same s i none).symm.trans hsend'
        cases hnone
    · cases h
      refine ⟨part ++ rest.take n, ?_, hothers _, fun send hsend' => ?_, fun hnone => ?_⟩
      · change s.wire ++ rest.take n = s.completed.flatMap encode ++ (part ++ rest.take n)
        rw [hs.wire, append_assoc]
      · have hsome : some ⟨frame, rest.drop n⟩ = some send := (setSend_same s i _).symm.trans hsend'
        cases hsome
        rw [append_assoc, take_append_drop, hmiddle]
      · have hsome : none = some _ := hnone.symm.trans (setSend_same s i (some ⟨frame, rest.drop n⟩))
        cases hsome

theorem Inv.step (hs : s.Inv) {a : Action} (ha : s.Uninterrupted a) (h : s.step a = some s') :
    s'.Inv := by
  obtain ⟨i, part, hs⟩ := hs
  cases a with
  | send k frame =>
    simp only [SharedSocket.step] at h
    split at h
    · cases h
    · rename_i hnone
      cases h
      refine ⟨i, part, hs.setSend (fun send hsend => ?_) fun send hsend => ?_⟩
      · rw [hnone] at hsend
        cases hsend
      · cases hsend
        rfl
  | write k n =>
    obtain ⟨part', hs'⟩ := hs.switch ha
    obtain ⟨part'', hs''⟩ := hs'.write h
    exact ⟨k, part'', hs''⟩
  | fail k =>
    simp only [SharedSocket.step] at h
    split at h
    · cases h
    · cases h
      refine ⟨i, part, hs.setSend ha fun send hsend => ?_⟩
      cases hsend

end

/-- **Frames on a shared socket.** In a run of any senders and frames, with any partial writes, in which
    no frame is interrupted, the wire holds complete frames, one for each successful send, whenever all
    calls have returned. -/
theorem frames_whole {actions : List Action} {t : SharedSocket}
    (hmeets : Schedule.Meets step Uninterrupted {} actions)
    (hrun : Schedule.run step {} actions = some t) (hreturned : ∀ i, t.sends i = none) :
    t.InFrames := by
  obtain ⟨i, part, ht⟩ := run_inv Inv Uninterrupted
    (fun s a s' hs ha h => hs.step ha h) inv_new hmeets hrun
  have hwire := ht.wire
  rw [ht.returned (hreturned i), append_nil] at hwire
  exact ⟨t.completed, Perm.refl _, hwire⟩

/-- The pumps of the workload's output and errors, sender 0 and sender 1. -/
def mixed : List Action :=
  [.send 0 (.workloadStdout [104, 105]), .send 1 (.workloadStderr [33]), .write 0 6, .write 1 6,
    .write 0 1]

theorem split_frames_mixed : ∃ t, Schedule.run step {} mixed = some t ∧ (∀ i, t.sends i = none) ∧
    t.completed = [.workloadStderr [33], .workloadStdout [104, 105]] ∧ ¬ t.InFrames := by
  have hall : ∀ frames ∈ permutations' [Frame.workloadStderr [33], .workloadStdout [104, 105]],
      [0, 0, 0, 2, 3, 104, 0, 0, 0, 1, 4, 33, 105] ≠ frames.flatMap encode := by decide +kernel
  refine ⟨_, rfl, fun i => ?_, rfl, ?_⟩
  · simp only [setSend, Function.update_apply]
    split_ifs <;> rfl
  · rintro ⟨frames, hperm, hwire⟩
    exact hall frames (mem_permutations'.mpr hperm) hwire

def unmixed : List Action :=
  [.send 0 (.workloadStdout [104, 105]), .send 1 (.workloadStderr [33]), .write 0 6, .write 0 1,
    .write 1 6]

theorem unmixed_whole : ∃ t, Schedule.run step {} unmixed = some t ∧ t.InFrames := by
  have hmeets : Meets step Uninterrupted {} unmixed := by
    rw [unmixed, meets_cons_some rfl, meets_cons_some rfl,
      meets_cons_some rfl, meets_cons_some rfl, meets_cons_some rfl]
    refine ⟨trivial, trivial, ?_, ?_, ?_, trivial⟩
    all_goals
      intro j hj send hsend
      simp only [setSend, Function.update_apply, if_neg hj] at hsend
      split_ifs at hsend <;> cases hsend <;> rfl
  refine ⟨_, rfl, frames_whole hmeets rfl fun i => ?_⟩
  simp only [setSend, Function.update_apply]
  split_ifs <;> rfl

end SharedSocket

end Pullrun.Vsock
