import Mathlib.Data.List.Flatten
import Pullrun.Vsock.Frame

/-!
# Frames are read back

Every reader of a payload undoes the writer of the same field wherever it stands in the payload
(`Cursor.Reads`), so `decode` undoes `encode_payload`.
-/

namespace Pullrun.Vsock

open Cursor List Pullrun.Vsock.Frame

/-! ## Fields -/

variable {ty : FrameType} {α : Type} {c : Payload α} {l : List α} {write : α → Bytes}
  {frame : Frame} {bs : Bytes}

theorem reads_need {β : Type} {needed : ℕ} {f : Unit → Payload β} {b : β}
    (h : needed ≤ bs.length) (hf : Reads (f ()) bs b) : Reads (need ty needed >>= f) bs b := by
  refine Reads.peek fun tail => ⟨(), ?_, hf tail⟩
  have hlen : ¬ (bs ++ tail).length < needed := by
    rw [length_append]
    omega
  change (if (bs ++ tail).length < needed then _ else _ : Payload Unit).run (bs ++ tail) = _
  rw [if_neg hlen]
  rfl

theorem reads_orDefault {width : ℕ} {missing : α} {a : α} (h : width ≤ bs.length)
    (hc : Reads c bs a) : Reads (orDefault width missing c) bs a := by
  refine Reads.peek fun tail => ⟨(bs ++ tail).length, rfl, ?_⟩
  rw [if_pos (by rw [length_append]; omega)]
  exact hc tail

theorem reads_getU8 (n : UInt8) : Reads getU8 (putU8 n) n := by
  have hlt : n.toNat < 256 ^ 1 := n.toNat_lt
  have h := (reads_word hlt (.panic : Fault ProtocolError)).map UInt8.ofNat
  have hput : toBytes 1 n.toNat = putU8 n := by
    rw [toBytes, toBytes, UInt8.ofNat_toNat]
    rfl
  rw [UInt8.ofNat_toNat, hput] at h
  exact h

theorem reads_getU16 (n : UInt16) : Reads getU16 (putU16 n) n := by
  have hlt : n.toNat < 256 ^ 2 := n.toNat_lt
  have h := (reads_word hlt (.panic : Fault ProtocolError)).map UInt16.ofNat
  rw [UInt16.ofNat_toNat] at h
  exact h

theorem reads_getU32 (n : UInt32) : Reads getU32 (putU32 n) n := by
  have hlt : n.toNat < 256 ^ 4 := n.toNat_lt
  have h := (reads_word hlt (.panic : Fault ProtocolError)).map UInt32.ofNat
  rw [UInt32.ofNat_toNat] at h
  exact h

theorem reads_getI32 (n : Int32) : Reads getI32 (putI32 n) n := by
  have h := (reads_getU32 n.toUInt32).map UInt32.toInt32
  rw [Int32.toInt32_toUInt32] at h
  exact h

theorem reads_bool (b : Bool) :
    Reads (do let n ← getU8; pure (n != 0) : Payload Bool) (putBool b) b := by
  have h := (reads_getU8 (if b then 1 else 0)).map fun n => n != 0
  cases b <;> exact h

theorem length_putU32 (n : UInt32) : (putU32 n).length = 4 := length_toBytes 4 _

theorem toNat_lenU32 (h : l.length < 2 ^ 32) : (lenU32 l).toNat = l.length := by
  rw [lenU32, UInt32.toNat_ofNat']
  omega

theorem reads_string {s : Str} (h : (asBytes s).length < 2 ^ 32) :
    Reads (readLengthPrefixedString ty) (writeLengthPrefixedString s) s := by
  refine reads_need ?_ ?_
  · rw [writeLengthPrefixedString, length_append, length_putU32]
    omega
  · refine (reads_getU32 _).bind ?_
    rw [toNat_lenU32 h]
    refine reads_need (le_refl _) ?_
    refine (reads_take (asBytes s) _).last ?_
    rw [fromUtf8_asBytes]
    exact Reads.pure s

theorem reads_list (h : l.length < 2 ^ 32) (hc : ∀ a ∈ l, Reads c (write a) a) :
    Reads (readList c) (writeList write l) l := by
  refine (reads_getU32 _).bind ?_
  rw [toNat_lenU32 h]
  exact reads_times hc

/-! ## Lengths -/

theorem length_le_length_flatMap (h : ∀ a ∈ l, write a ≠ []) :
    l.length ≤ (l.flatMap write).length := by
  induction l with
  | nil => exact le_refl _
  | cons a l ih =>
    have ha : 0 < (write a).length := length_pos_of_ne_nil (h a mem_cons_self)
    have hl := ih fun a' ha' => h a' (mem_cons_of_mem _ ha')
    rw [flatMap_cons, length_append, length_cons]
    omega

theorem length_writeString (s : Str) :
    (writeLengthPrefixedString s).length = 4 + (asBytes s).length := by
  rw [writeLengthPrefixedString, length_append, length_putU32]

theorem length_writeList (write : α → Bytes) (l : List α) :
    (writeList write l).length = 4 + (l.flatMap write).length := by
  rw [writeList, length_append, length_putU32]

theorem length_writeMount (m : VsockMount) :
    (VsockMount.write m).length = 9 + (asBytes m.tag).length + (asBytes m.destination).length := by
  rw [VsockMount.write, length_append, length_append, length_writeString,
    length_writeString, putBool, putU8, length_singleton]
  omega

theorem reads_list_of_length (h : (writeList write l).length < 2 ^ 32) (hne : ∀ a, write a ≠ [])
    (hc : ∀ a, (write a).length < 2 ^ 32 → Reads c (write a) a) :
    Reads (readList c) (writeList write l) l := by
  rw [length_writeList] at h
  refine reads_list ?_ fun a ha => hc a ?_
  · have hcount : l.length ≤ (l.flatMap write).length := length_le_length_flatMap fun a _ => hne a
    omega
  · have hle : (write a).length ≤ (l.flatMap write).length :=
      (sublist_flatten_of_mem (mem_map_of_mem ha)).length_le
    omega

theorem writeString_ne_nil (s : Str) : writeLengthPrefixedString s ≠ [] := by
  intro h
  have := length_writeString s
  rw [h, length_nil] at this
  omega

theorem reads_strings {l : List Str} (h : (writeList writeLengthPrefixedString l).length < 2 ^ 32) :
    Reads (readStrings ty) (writeList writeLengthPrefixedString l) l := by
  refine reads_need ?_ (reads_list_of_length h writeString_ne_nil fun s hs => reads_string ?_)
  · rw [length_writeList]
    omega
  · rw [length_writeString] at hs
    omega

theorem reads_mount {m : VsockMount} (h : m.write.length < 2 ^ 32) :
    Reads (readMount ty) m.write m := by
  rw [length_writeMount] at h
  obtain ⟨tag, destination, readOnly⟩ := m
  refine (reads_string (by omega)).bind ((reads_string (by omega)).bind ?_)
  have hflag := (reads_getU8 (if readOnly then 1 else 0)).map fun n =>
    (⟨tag, destination, n != 0⟩ : VsockMount)
  cases readOnly <;> exact hflag

/-! ## Payloads -/

theorem reads_option {flag : Bool} {n : Option Int32} (h : flag = n.isSome) :
    Reads (readOption ty flag) (Frame.putOption n) n := by
  cases n with
  | none =>
    rw [h]
    exact Reads.pure none
  | some n =>
    rw [h]
    refine reads_need ?_ ((reads_getI32 n).map some)
    rw [putOption, putI32, length_putU32]

theorem exitFlags_isSome (exitCode signal : Option Int32) :
    (exitFlags exitCode signal &&& 0x01 != 0) = exitCode.isSome ∧
      (exitFlags exitCode signal &&& 0x02 != 0) = signal.isSome := by
  cases exitCode <;> cases signal <;> simp [exitFlags] <;> decide

theorem reads_initHello {workloadId : Str} {initPid : UInt32}
    (h : (asBytes workloadId).length < 2 ^ 32) :
    Reads (decodePayload .initHello) (Frame.initHello workloadId initPid).encodePayload
      (.initHello workloadId initPid) := by
  refine reads_need ?_ ((reads_getU32 initPid).bind ((reads_string h).map fun id =>
    initHello id initPid))
  rw [encodePayload, length_append, length_putU32]
  omega

theorem reads_workloadSpec {command env : List Str} {workingDir : Str} {tty : Bool}
    {rows cols : UInt32} {mounts : List VsockMount}
    (h : (Frame.workloadSpec command env workingDir tty rows cols mounts).encodePayload.length < 2 ^ 32) :
    Reads (decodePayload .workloadSpec)
      (Frame.workloadSpec command env workingDir tty rows cols mounts).encodePayload
      (.workloadSpec command env workingDir tty rows cols mounts) := by
  simp only [encodePayload, length_append] at h
  have hdir := length_writeString workingDir
  refine (reads_strings (by omega)).bind ((reads_strings (by omega)).bind
    ((reads_string (by omega)).bind ?_))
  refine (reads_orDefault ?_ (reads_bool tty)).bind ?_
  · rw [putBool, putU8, length_singleton]
  refine (reads_orDefault (length_putU32 rows).ge (reads_getU32 rows)).bind
    ((reads_orDefault (length_putU32 cols).ge (reads_getU32 cols)).bind ?_)
  have hmounts : Reads (readList (readMount .workloadSpec)) (writeList VsockMount.write mounts) mounts := by
    refine reads_list_of_length (by omega) (fun m hm => ?_) fun m hm => reads_mount hm
    have := length_writeMount m
    rw [hm, length_nil] at this
    omega
  refine (reads_orDefault ?_ hmounts).map fun mounts =>
    workloadSpec command env workingDir tty rows cols mounts
  rw [length_writeList]
  omega

theorem reads_workloadExit (exitCode signal : Option Int32) :
    Reads (decodePayload .workloadExit) (Frame.workloadExit exitCode signal).encodePayload
      (.workloadExit exitCode signal) := by
  refine reads_need ?_ ((reads_getU8 _).bind ?_)
  · rw [encodePayload, putU8, singleton_append, length_cons]
    omega
  · refine (reads_option (exitFlags_isSome exitCode signal).1).bind ?_
    exact (reads_option (exitFlags_isSome exitCode signal).2).map fun s => workloadExit exitCode s

theorem reads_windowSize (rows cols : UInt16) :
    Reads (decodePayload .windowSize) (Frame.windowSize rows cols).encodePayload
      (.windowSize rows cols) := by
  refine reads_need ?_ ((reads_getU16 rows).bind ((reads_getU16 cols).map fun c =>
    windowSize rows c))
  rw [encodePayload, length_append, putU16, putU16, length_toBytes, length_toBytes]

theorem decode_of_reads {payload : Bytes} (h : Reads (decodePayload ty) payload frame) :
    decode payload ty = .ok frame := by
  have hrun := h []
  rw [append_nil] at hrun
  rw [decode, hrun]

/-- **`decode` undoes `encode_payload`.** -/
theorem decode_encodePayload (h : frame.encodePayload.length < 2 ^ 32) :
    decode frame.encodePayload frame.frameType = .ok frame := by
  cases frame with
  | initHello workloadId initPid =>
    rw [encodePayload, length_append, length_writeString] at h
    exact decode_of_reads (reads_initHello (by omega))
  | workloadSpec => exact decode_of_reads (reads_workloadSpec h)
  | workloadStdout b => rfl
  | workloadStderr b => rfl
  | workloadStdin b => rfl
  | stdinEof => rfl
  | workloadExit exitCode signal => exact decode_of_reads (reads_workloadExit exitCode signal)
  | error msg =>
    rw [encodePayload, length_writeString] at h
    exact decode_of_reads ((reads_string (by omega)).map error)
  | windowSize rows cols => exact decode_of_reads (reads_windowSize rows cols)

/-! ## Streams -/

/-- The payload is not larger than the readers take. Then no length in it is cut off either. -/
def Frame.Fits (frame : Frame) : Prop := frame.encodePayload.length ≤ maxPayload

instance (frame : Frame) : Decidable frame.Fits :=
  inferInstanceAs (Decidable (frame.encodePayload.length ≤ maxPayload))

theorem readExact_append (bs tail : Bytes) : readExact bs.length (bs ++ tail) = (some bs, tail) := by
  rw [readExact, if_pos (by rw [length_append]; omega), take_left, drop_left]

theorem length_header (len : UInt32) (ty : UInt8) : (header len ty).length = 5 := by
  rw [header, length_append, length_putU32, putU8, length_singleton]

theorem parseHeader_header (len : UInt32) (ty : UInt8) : parseHeader (header len ty) = (len.toNat, ty) := by
  have hlen := length_putU32 len
  have hword : ofBytes (putU32 len) = len.toNat := ofBytes_toBytes len.toNat_lt
  have hty : (putU32 len ++ putU8 ty).getD 4 0 = ty := by
    rw [getD_eq_getElem?_getD, getElem?_append_right hlen.le, hlen]
    rfl
  rw [parseHeader, header, take_left' hlen, hword, hty]

theorem readExact_header (len : UInt32) (ty : UInt8) (tail : Bytes) :
    readExact 5 (header len ty ++ tail) = (some (header len ty), tail) := by
  have h := readExact_append (header len ty) tail
  rwa [length_header] at h

theorem Frame.Fits.toNat_len (h : frame.Fits) :
    (lenU32 frame.encodePayload).toNat = frame.encodePayload.length := by
  refine toNat_lenU32 ?_
  unfold Fits maxPayload at h
  omega

theorem Frame.Fits.decode (h : frame.Fits) :
    decode frame.encodePayload frame.frameType = .ok frame := by
  refine decode_encodePayload ?_
  unfold Fits maxPayload at h
  omega

theorem readFrame_encode (h : frame.Fits) (tail : Bytes) :
    readFrame (encode frame ++ tail) = (.ok frame, tail) := by
  rw [readFrame, encode, append_assoc, readExact_header]
  simp only [parseHeader_header, h.toNat_len, FrameType.fromU8_toU8]
  rw [if_neg (not_lt.mpr h), readExact_append]
  simp only [h.decode]

theorem recvFrame_encode (h : frame.Fits) (tail : Bytes) :
    recvFrame (encode frame ++ tail) = (.ok frame, tail) := by
  rw [recvFrame, encode, append_assoc, readExact_header]
  simp only [parseHeader_header, h.toNat_len, FrameType.fromU8_toU8]
  rw [if_neg (not_lt.mpr h), readExact_append]
  simp only [h.decode, mapEncode]

/-- Call after call, a reader returns these frames, and then it is at the end of the stream. -/
def Yields {ε : Type} (read : Bytes → Except (Fault ε) Frame × Bytes) (eof : ε) :
    List Frame → Bytes → Prop
  | [], stream => stream = [] ∧ read stream = (.error (.error eof), [])
  | frame :: frames, stream => ∃ rest, read stream = (.ok frame, rest) ∧ Yields read eof frames rest

theorem yields_encodings {ε : Type} {read : Bytes → Except (Fault ε) Frame × Bytes} {eof : ε}
    (hread : ∀ frame tail, frame.Fits → read (encode frame ++ tail) = (.ok frame, tail))
    (heof : read [] = (.error (.error eof), [])) {frames : List Frame}
    (h : ∀ frame ∈ frames, frame.Fits) : Yields read eof frames (frames.flatMap encode) := by
  induction frames with
  | nil =>
    exact ⟨rfl, heof⟩
  | cons frame frames ih =>
    rw [flatMap_cons]
    exact ⟨_, hread frame _ (h frame mem_cons_self),
      ih fun frame' hmem => h frame' (mem_cons_of_mem _ hmem)⟩

/-- The outcomes of the two readers on one stream: the same frame and the same rest, an error each,
    or a panic each. -/
inductive Agree :
    Except (Fault ProtocolError) Frame × Bytes → Except (Fault VsockError) Frame × Bytes → Prop
  | accept (frame : Frame) (rest : Bytes) : Agree (.ok frame, rest) (.ok frame, rest)
  | reject (e : ProtocolError) (e' : VsockError) (rest rest' : Bytes) :
      Agree (.error (.error e), rest) (.error (.error e'), rest')
  | panic (rest rest' : Bytes) : Agree (.error .panic, rest) (.error .panic, rest')

theorem agree_mapEncode (result : Except (Fault ProtocolError) Frame) (rest : Bytes) :
    Agree (result, rest) (mapEncode result, rest) := by
  match result with
  | .ok frame => exact .accept frame rest
  | .error (.error e) => exact .reject e (.encode e) rest rest
  | .error .panic => exact .panic rest rest

theorem agree_readers (stream : Bytes) : Agree (readFrame stream) (recvFrame stream) := by
  unfold readFrame recvFrame
  rcases readExact 5 stream with ⟨_ | hdr, stream₁⟩
  · exact .reject _ _ _ _
  · simp only
    split
    · exact .reject _ _ _ _
    · cases FrameType.fromU8 (parseHeader hdr).2 with
      | none => exact .reject _ _ _ _
      | some ty =>
        simp only
        rcases readExact (parseHeader hdr).1 stream₁ with ⟨_ | payload, stream₂⟩
        · exact .reject _ _ _ _
        · exact agree_mapEncode _ _

/-- **The frame protocol is read back.** Both readers return the frames of a concatenation of
    encodings, one a call, and then find the end of the stream; and on any stream at all the two do the
    same with the first frame. -/
theorem frames_read_back (frames : List Frame) (hfits : ∀ frame ∈ frames, frame.Fits)
    (stream : Bytes) :
    Yields readFrame (.unexpectedEof .initHello) frames (frames.flatMap encode) ∧
      Yields recvFrame .io frames (frames.flatMap encode) ∧
      Agree (readFrame stream) (recvFrame stream) :=
  ⟨yields_encodings (fun _ tail h => readFrame_encode h tail) rfl hfits,
    yields_encodings (fun _ tail h => recvFrame_encode h tail) rfl hfits, agree_readers stream⟩

def session : List Frame :=
  [.initHello "wl-1".toList 42,
    .workloadSpec ["/bin/sh".toList] ["HOME=/".toList] ['/'] true 24 80
      [⟨"pullrun-vol-0".toList, "/data".toList, true⟩],
    .workloadStdin [108, 115, 10], .windowSize 30 100, .workloadStdout [97, 10], .stdinEof,
    .workloadExit (some 0) none]

theorem session_read_back :
    Yields readFrame (.unexpectedEof .initHello) session (session.flatMap encode) ∧
      Yields recvFrame .io session (session.flatMap encode) ∧
      Agree (readFrame [0, 0, 0, 1, 7]) (recvFrame [0, 0, 0, 1, 7]) :=
  frames_read_back session (by decide +kernel) [0, 0, 0, 1, 7]

end Pullrun.Vsock
