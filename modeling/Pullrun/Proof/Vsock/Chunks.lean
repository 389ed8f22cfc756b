import Pullrun.Proof.Vsock.RoundTrip
import Pullrun.Vsock.HostLoop

/-!
# Frames in pieces

A socket returns what it has, so a frame can arrive in any number of reads.
-/

namespace Pullrun.Vsock

open List Nat

def untilExit : List Frame → List Frame
  | [] => []
  | frame :: frames => frame :: if frame.isExit then [] else untilExit frames

structure DeliverUpToExit (debug : ProtocolError → Str) (grants : ℕ → ℕ) (turns : ℕ)
    (frames : List Frame) : Prop where
  session : runSession debug grants turns ⟨0, frames.flatMap encode⟩ = untilExit frames
  thread : runThread grants turns ⟨0, frames.flatMap encode⟩ = untilExit frames

/-! ## Which read is whose -/

/-- How often the socket has been read once `needed` more bytes are there. -/
def readsAfter (grants : ℕ → ℕ) : ℕ → ℕ → ℕ → ℕ
  | 0, _, i => i
  | turns + 1, needed, i =>
    if needed = 0 then i
    else readsAfter grants turns (needed - min needed (max 1 (grants i))) (i + 1)

/-- How often it has been read after a frame: once for the header, and then for the payload. -/
def readsAfterFrame (grants : ℕ → ℕ) (frame : Frame) (i : ℕ) : ℕ :=
  readsAfter grants frame.encodePayload.length frame.encodePayload.length (i + 1)

def readsAfterFrames (grants : ℕ → ℕ) : List Frame → ℕ → ℕ
  | [], i => i
  | frame :: frames, i => readsAfterFrames grants frames (readsAfterFrame grants frame i)

/-- No header up to the end of the workload is split. -/
def HeadersWhole (grants : ℕ → ℕ) : ℕ → List Frame → Prop
  | _, [] => True
  | i, frame :: frames =>
    5 ≤ grants i ∧
      (frame.isExit = true ∨ HeadersWhole grants (readsAfterFrame grants frame i) frames)

instance decidableHeadersWhole (grants : ℕ → ℕ) :
    ∀ (i : ℕ) (frames : List Frame), Decidable (HeadersWhole grants i frames)
  | _, [] => isTrue trivial
  | i, frame :: frames =>
    have := decidableHeadersWhole grants (readsAfterFrame grants frame i) frames
    inferInstanceAs (Decidable (5 ≤ grants i ∧
      (frame.isExit = true ∨ HeadersWhole grants (readsAfterFrame grants frame i) frames)))

variable {grants : ℕ → ℕ}

theorem headersWhole_of_forall (h : ∀ i, 5 ≤ grants i) (frames : List Frame) (i : ℕ) :
    HeadersWhole grants i frames := by
  induction frames generalizing i with
  | nil =>
    trivial
  | cons frame frames ih =>
    exact ⟨h i, .inr (ih _)⟩

/-! ## One frame -/

section

variable {grants : ℕ → ℕ} {i : ℕ}

theorem read_header (hgrant : 5 ≤ grants i) (len : UInt32) (ty : UInt8) (tail : Bytes) :
    Socket.read grants 5 ⟨i, header len ty ++ tail⟩ = (header len ty, ⟨i + 1, tail⟩) := by
  have hk : min 5 (max 1 (grants i)) = (header len ty).length := by
    rw [length_header]
    omega
  simp only [Socket.read, hk, take_left, drop_left]

theorem fill_append (grants : ℕ → ℕ) (tail : Bytes) {turns : ℕ} {bs : Bytes} (i : ℕ)
    (h : bs.length ≤ turns) :
    Socket.fill grants turns bs.length ⟨i, bs ++ tail⟩
      = (bs, ⟨readsAfter grants turns bs.length i, tail⟩) := by
  induction turns generalizing bs i with
  | zero =>
    have hbs : bs = [] := length_eq_zero_iff.mp (le_zero.mp h)
    subst hbs
    rfl
  | succ turns ih =>
    rw [Socket.fill, readsAfter]
    split
    · rename_i hzero
      rw [length_eq_zero_iff] at hzero
      subst hzero
      rfl
    · rename_i hpos
      have hk : ∃ k, 0 < k ∧ k ≤ bs.length ∧ min bs.length (max 1 (grants i)) = k :=
        ⟨min bs.length (max 1 (grants i)), by omega, by omega, rfl⟩
      obtain ⟨k, hk0, hkle, hk⟩ := hk
      have htake : (bs ++ tail).take k = bs.take k := take_append_of_le_length hkle
      have hdrop : (bs ++ tail).drop k = bs.drop k ++ tail := drop_append_of_le_length hkle
      have hread : Socket.read grants bs.length ⟨i, bs ++ tail⟩
          = (bs.take k, ⟨i + 1, bs.drop k ++ tail⟩) := by
        simp only [Socket.read, hk, htake, hdrop]
      have hlen : (bs.take k).length = k := length_take_of_le hkle
      have hrest : (bs.drop k).length ≤ turns := by
        rw [length_drop]
        omega
      rw [hread, hk]
      simp only [hlen]
      rw [if_neg (by omega), ← length_drop, ih (i + 1) hrest, take_append_drop]

theorem encode_ne_nil (frame : Frame) : encode frame ≠ [] := by
  intro h
  have hlen := congrArg length h
  rw [encode, length_append, length_header, length_nil] at hlen
  omega

end

/-! ## A stream of frames -/

/-- What the two loops have in common: they take a frame a turn while headers are whole, and drop the
    piece of a header that is not. -/
structure TakesFrames (grants : ℕ → ℕ) (loop : ℕ → Socket → List Frame) : Prop where
  ended : ∀ s, loop 0 s = []
  frame : ∀ {i : ℕ}, 5 ≤ grants i → ∀ {frame : Frame}, frame.Fits → ∀ (turns : ℕ) (tail : Bytes),
    loop (turns + 1) ⟨i, encode frame ++ tail⟩
      = frame :: if frame.isExit then [] else loop turns ⟨readsAfterFrame grants frame i, tail⟩
  lost : ∀ (turns : ℕ) {s : Socket}, (s.read grants 5).1.length < 5 →
    loop (turns + 1) s = [] ∨ loop (turns + 1) s = loop turns (s.read grants 5).2

theorem runSession_takesFrames (debug : ProtocolError → Str) (grants : ℕ → ℕ) :
    TakesFrames grants (runSession debug grants) where
  ended _ := rfl
  frame {i} hgrant frame h turns tail := by
    have hfill := fill_append grants tail (i + 1) (le_refl frame.encodePayload.length)
    rw [runSession, encode, append_assoc, read_header hgrant]
    simp only [length_header, parseHeader_header, h.toNat_len, FrameType.fromU8_toU8, hfill, h.decode]
    rw [if_neg (by omega), if_neg (by omega), if_neg (not_lt.mpr h), if_neg (lt_irrefl _)]
    rfl
  lost turns s h := by
    rw [runSession]
    dsimp only
    rw [if_pos h]
    split
    · exact .inl rfl
    · exact .inr rfl

theorem runThread_takesFrames (grants : ℕ → ℕ) : TakesFrames grants (runThread grants) where
  ended _ := rfl
  frame {i} hgrant frame h turns tail := by
    have hfill := fill_append grants tail (i + 1) (le_refl frame.encodePayload.length)
    rw [runThread, encode, append_assoc, read_header hgrant]
    simp only [length_header, parseHeader_header, h.toNat_len, FrameType.fromU8_toU8, hfill, h.decode]
    rw [if_neg (by omega), if_neg (by omega), if_neg (lt_irrefl _)]
    rfl
  lost turns s h := by
    rw [runThread]
    dsimp only
    rw [if_pos h]
    split
    · exact .inl rfl
    · exact .inr rfl

namespace TakesFrames

variable {grants : ℕ → ℕ} {loop : ℕ → Socket → List Frame}

variable (h : TakesFrames grants loop)
include h

theorem short (turns : ℕ) {s : Socket}
    (hs : s.stream.length < 5 ∨ s.stream.length = 5 ∧ grants s.reads < 5) : loop turns s = [] := by
  induction turns generalizing s with
  | zero =>
    exact h.ended s
  | succ turns ih =>
    have hread : (s.read grants 5).1.length < 5 := by
      simp only [Socket.read, length_take]
      omega
    have hrest : (s.read grants 5).2.stream.length < 5 := by
      simp only [Socket.read, length_drop]
      omega
    rcases h.lost turns hread with hnil | hnext
    · exact hnil
    · rw [hnext, ih (.inl hrest)]

theorem append (tail : Bytes) {frames : List Frame} {i turns : ℕ}
    (hfits : ∀ frame ∈ untilExit frames, frame.Fits) (hwhole : HeadersWhole grants i frames)
    (hturns : frames.length ≤ turns) :
    loop turns ⟨i, frames.flatMap encode ++ tail⟩
      = untilExit frames ++ if frames.any Frame.isExit then []
          else loop (turns - frames.length) ⟨readsAfterFrames grants frames i, tail⟩ := by
  induction frames generalizing i turns with
  | nil =>
    rfl
  | cons frame frames ih =>
    obtain ⟨turns, rfl⟩ : ∃ n, turns = n + 1 := exists_eq_succ_of_ne_zero (by
      rw [length_cons] at hturns
      omega)
    obtain ⟨hgrant, hwhole⟩ := hwhole
    have hfirst : frame.Fits := hfits frame mem_cons_self
    rw [flatMap_cons, append_assoc, h.frame hgrant hfirst, untilExit, any_cons]
    cases hexit : frame.isExit with
    | true => simp
    | false =>
      have hwhole : HeadersWhole grants (readsAfterFrame grants frame i) frames := by
        rcases hwhole with hexit' | hwhole
        · rw [hexit] at hexit'
          cases hexit'
        · exact hwhole
      have hrest : ∀ frame' ∈ untilExit frames, frame'.Fits := by
        intro frame' hframe'
        refine hfits frame' ?_
        rw [untilExit, hexit]
        exact mem_cons_of_mem _ hframe'
      rw [if_neg (by decide), ih hrest hwhole (le_of_succ_le_succ hturns), length_cons,
        Nat.add_sub_add_right]
      rfl

theorem deliver {frames : List Frame} {i turns : ℕ}
    (hfits : ∀ frame ∈ untilExit frames, frame.Fits) (hwhole : HeadersWhole grants i frames)
    (hturns : frames.length ≤ turns) :
    loop turns ⟨i, frames.flatMap encode⟩ = untilExit frames := by
  have happend := h.append [] hfits hwhole hturns
  have hend : loop (turns - frames.length) ⟨readsAfterFrames grants frames i, []⟩ = [] :=
    h.short _ (.inl (zero_lt_succ 4))
  rwa [append_nil, hend, ite_self, append_nil] at happend

end TakesFrames

theorem mem_of_mem_untilExit {frames : List Frame} {frame : Frame} (h : frame ∈ untilExit frames) :
    frame ∈ frames := by
  induction frames generalizing frame with
  | nil =>
    exact h
  | cons first frames ih =>
    rw [untilExit] at h
    rcases mem_cons.mp h with rfl | h
    · exact mem_cons_self
    · split at h
      · cases h
      · exact mem_cons_of_mem _ (ih h)

theorem length_le_length_encodings (frames : List Frame) :
    frames.length ≤ (frames.flatMap encode).length :=
  length_le_length_flatMap fun frame _ => encode_ne_nil frame

/-! ## A split header -/

theorem headersWhole_replicate_stdinEof {n i : ℕ} (h : ∀ j < n, 5 ≤ grants (i + j)) :
    HeadersWhole grants i (List.replicate n .stdinEof) := by
  induction n generalizing i with
  | zero =>
    trivial
  | succ n ih =>
    refine ⟨h 0 n.succ_pos, .inr (ih fun j hj => ?_)⟩
    have hnext := h (j + 1) (succ_lt_succ hj)
    rw [show readsAfterFrame grants .stdinEof i = i + 1 from rfl, add_assoc, add_comm 1]
    exact hnext

theorem readsAfterFrames_replicate_stdinEof (grants : ℕ → ℕ) (n i : ℕ) :
    readsAfterFrames grants (List.replicate n .stdinEof) i = i + n := by
  induction n generalizing i with
  | zero =>
    rfl
  | succ n ih =>
    rw [replicate_succ, readsAfterFrames, ih,
      show readsAfterFrame grants .stdinEof i = i + 1 from rfl]
    omega

theorem untilExit_replicate_stdinEof : ∀ (n : ℕ),
    untilExit (List.replicate n .stdinEof) = List.replicate n .stdinEof := by
  intro n
  induction n with
  | zero => rfl
  | succ n ih =>
    rw [replicate_succ, untilExit, ih]
    rfl

theorem TakesFrames.loses_stdinEof {loop : ℕ → Socket → List Frame}
    (h : TakesFrames grants loop) {n : ℕ} (hsplit : grants n < 5) (hbefore : ∀ j < n, 5 ≤ grants j)
    {turns : ℕ} (hturns : n ≤ turns) :
    loop turns ⟨0, (List.replicate (n + 1) Frame.stdinEof).flatMap encode⟩
      = List.replicate n .stdinEof := by
  have hfits : ∀ frame ∈ untilExit (replicate n .stdinEof), frame.Fits := by
    intro frame hframe
    rw [untilExit_replicate_stdinEof] at hframe
    rw [eq_of_mem_replicate hframe]
    decide
  have hwhole : HeadersWhole grants 0 (replicate n .stdinEof) := by
    refine headersWhole_replicate_stdinEof fun j hj => ?_
    rw [zero_add]
    exact hbefore j hj
  have hlen : (replicate n Frame.stdinEof).length ≤ turns := by rwa [length_replicate]
  have hlast : loop (turns - (replicate n Frame.stdinEof).length)
      ⟨readsAfterFrames grants (replicate n .stdinEof) 0, encode .stdinEof⟩ = [] := by
    refine h.short _ (.inr ⟨rfl, ?_⟩)
    rwa [readsAfterFrames_replicate_stdinEof, zero_add]
  rw [replicate_succ', flatMap_append, flatMap_singleton,
    h.append (encode .stdinEof) hfits hwhole hlen, hlast, ite_self, append_nil,
    untilExit_replicate_stdinEof]

/-! ## Which sockets and streams are read as they were sent -/

/-- **What the loops of the Apple host deliver.** Frames that are not larger than the protocol takes
    are delivered up to the end of the workload, in whatever pieces the payloads arrive, if no header is
    split; and a socket on which all lists of frames are delivered is one whose reads never return less
    than a header. -/
theorem loops_deliver_whole_headers (debug : ProtocolError → Str) (grants : ℕ → ℕ) :
    (∀ frames turns, (∀ frame ∈ untilExit frames, frame.Fits) → HeadersWhole grants 0 frames →
      (frames.flatMap encode).length ≤ turns → DeliverUpToExit debug grants turns frames) ∧
    ((∀ frames turns, (∀ frame ∈ frames, frame.Fits) → (frames.flatMap encode).length ≤ turns →
      DeliverUpToExit debug grants turns frames) ↔ ∀ i, 5 ≤ grants i) := by
  have hdeliver : ∀ frames turns, (∀ frame ∈ untilExit frames, frame.Fits) →
      HeadersWhole grants 0 frames → (frames.flatMap encode).length ≤ turns →
      DeliverUpToExit debug grants turns frames := by
    intro frames turns hfits hwhole hturns
    have hlen := (length_le_length_encodings frames).trans hturns
    exact ⟨(runSession_takesFrames debug grants).deliver hfits hwhole hlen,
      (runThread_takesFrames grants).deliver hfits hwhole hlen⟩
  refine ⟨hdeliver, fun hall => ?_, fun hgrants frames turns hfits hturns => ?_⟩
  · -- Otherwise the first read that can split a header splits that of a `StdinEof`.
    by_contra hnot
    rw [not_forall] at hnot
    have hsplit := Nat.find_spec hnot
    have hbefore : ∀ j < Nat.find hnot, 5 ≤ grants j := by
      intro j hj
      exact not_not.mp (Nat.find_min hnot hj)
    have hfits : ∀ frame ∈ replicate (Nat.find hnot + 1) Frame.stdinEof, frame.Fits := by
      intro frame hframe
      rw [eq_of_mem_replicate hframe]
      decide
    have hsession := (hall _ _ hfits (le_refl _)).session
    rw [untilExit_replicate_stdinEof, (runSession_takesFrames debug grants).loses_stdinEof
      (not_le.mp hsplit) hbefore ((le_succ _).trans ((length_replicate).symm.le.trans
        (length_le_length_encodings _)))] at hsession
    have hlen := congrArg length hsession
    rw [length_replicate, length_replicate] at hlen
    omega
  · exact hdeliver frames turns (fun frame h => hfits frame (mem_of_mem_untilExit h))
      (headersWhole_of_forall hgrants frames 0) hturns

def lineThenExit : List Frame := [.workloadStdout [104, 105, 10], .workloadExit (some 0) none]

theorem split_header_lost :
    (∀ frame ∈ lineThenExit, frame.Fits) ∧
      runSession (fun _ => []) (fun i => if i = 0 then 4 else 64) 64 ⟨0, lineThenExit.flatMap encode⟩
        = [.error "vsock frame too large: 57174282".toList] ∧
      runThread (fun i => if i = 0 then 4 else 64) 64 ⟨0, lineThenExit.flatMap encode⟩ = [] ∧
      ¬ DeliverUpToExit (fun _ => []) (fun i => if i = 0 then 4 else 64) 64 lineThenExit := by
  refine ⟨by decide +kernel, by decide +kernel, by decide +kernel, fun h => ?_⟩
  exact absurd h.thread (by decide +kernel)

theorem split_payload_delivered :
    DeliverUpToExit (fun _ => []) (fun i => if i = 1 ∨ i = 2 then 1 else 64) 64 lineThenExit :=
  (loops_deliver_whole_headers (fun _ => []) fun i => if i = 1 ∨ i = 2 then 1 else 64).1
    lineThenExit 64 (by decide +kernel) (by decide +kernel) (by decide +kernel)

end Pullrun.Vsock
