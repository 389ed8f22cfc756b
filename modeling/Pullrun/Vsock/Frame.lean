import Pullrun.Lib.Cursor
import Pullrun.Store.Digest

/-!
# Frames between host and guest

`pullrun-vsock/src/lib.rs`: a frame is a four-byte big-endian length, a type byte and a payload of
that length. Payloads are made of words, length-prefixed strings and counted lists. The readers of
the protocol are `read_frame` here and `recv_frame` of `pullrun-init/src/vsock_client.rs`.

A reader can end in three ways: with a frame, with an error, and in a panic (`Buf::get_u8` panics when
nothing is left, and the loop over the mounts does not look first).
-/

namespace Pullrun.Vsock

/-! ## Text -/

def asBytes (s : Str) : Bytes := s.flatMap String.utf8EncodeChar

def fromUtf8 (b : Bytes) : Option Str := b.toByteArray.utf8Decode?.map Array.toList

theorem fromUtf8_asBytes (s : Str) : fromUtf8 (asBytes s) = some s := by
  have hbytes : (asBytes s).toByteArray = s.utf8Encode := rfl
  rw [fromUtf8, hbytes, List.utf8Decode?_utf8Encode]
  rfl

/-! ## Frames -/

inductive FrameType
  | initHello
  | workloadSpec
  | workloadStdout
  | workloadStderr
  | workloadStdin
  | stdinEof
  | workloadExit
  | error
  | windowSize
deriving DecidableEq, Repr

namespace FrameType

def toU8 : FrameType → UInt8
  | .initHello => 0x01
  | .workloadSpec => 0x02
  | .workloadStdout => 0x03
  | .workloadStderr => 0x04
  | .workloadStdin => 0x05
  | .stdinEof => 0x06
  | .workloadExit => 0x07
  | .error => 0x08
  | .windowSize => 0x09

def fromU8 (b : UInt8) : Option FrameType :=
  if b = 0x01 then some .initHello
  else if b = 0x02 then some .workloadSpec
  else if b = 0x03 then some .workloadStdout
  else if b = 0x04 then some .workloadStderr
  else if b = 0x05 then some .workloadStdin
  else if b = 0x06 then some .stdinEof
  else if b = 0x07 then some .workloadExit
  else if b = 0x08 then some .error
  else if b = 0x09 then some .windowSize
  else none

@[simp]
theorem fromU8_toU8 (ty : FrameType) : fromU8 ty.toU8 = some ty := by
  cases ty <;> rfl

end FrameType

structure VsockMount where
  tag : Str
  destination : Str
  readOnly : Bool
deriving DecidableEq, Repr

inductive Frame
  | initHello (workloadId : Str) (initPid : UInt32)
  | workloadSpec (command env : List Str) (workingDir : Str) (tty : Bool) (rows cols : UInt32)
      (mounts : List VsockMount)
  | workloadStdout (b : Bytes)
  | workloadStderr (b : Bytes)
  | workloadStdin (b : Bytes)
  | stdinEof
  | workloadExit (exitCode signal : Option Int32)
  | error (msg : Str)
  | windowSize (rows cols : UInt16)
deriving DecidableEq, Repr

/-! ## Writing -/

def putU8 (b : UInt8) : Bytes := [b]
def putU16 (n : UInt16) : Bytes := Cursor.toBytes 2 n.toNat
def putU32 (n : UInt32) : Bytes := Cursor.toBytes 4 n.toNat
def putI32 (n : Int32) : Bytes := putU32 n.toUInt32
def putBool (b : Bool) : Bytes := putU8 (if b then 1 else 0)

/-- `len() as u32` -/
def lenU32 {α : Type} (l : List α) : UInt32 := UInt32.ofNat l.length

def writeLengthPrefixedString (s : Str) : Bytes := putU32 (lenU32 (asBytes s)) ++ asBytes s

def writeList {α : Type} (write : α → Bytes) (l : List α) : Bytes :=
  putU32 (lenU32 l) ++ l.flatMap write

def VsockMount.write (m : VsockMount) : Bytes :=
  writeLengthPrefixedString m.tag ++ (writeLengthPrefixedString m.destination ++ putBool m.readOnly)

namespace Frame

def frameType : Frame → FrameType
  | .initHello .. => .initHello
  | .workloadSpec .. => .workloadSpec
  | .workloadStdout _ => .workloadStdout
  | .workloadStderr _ => .workloadStderr
  | .workloadStdin _ => .workloadStdin
  | .stdinEof => .stdinEof
  | .workloadExit .. => .workloadExit
  | .error _ => .error
  | .windowSize .. => .windowSize

/-- The bits of a `WorkloadExit`: bit 0 for an exit code, bit 1 for a signal. -/
def exitFlags (exitCode signal : Option Int32) : UInt8 :=
  (if exitCode.isSome then 0x01 else 0) ||| (if signal.isSome then 0x02 else 0)

def putOption (n : Option Int32) : Bytes :=
  match n with
  | some n => putI32 n
  | none => []

def encodePayload : Frame → Bytes
  | .initHello workloadId initPid => putU32 initPid ++ writeLengthPrefixedString workloadId
  | .workloadSpec command env workingDir tty rows cols mounts =>
    writeList writeLengthPrefixedString command ++ (writeList writeLengthPrefixedString env ++
      (writeLengthPrefixedString workingDir ++ (putBool tty ++ (putU32 rows ++ (putU32 cols ++
        writeList VsockMount.write mounts)))))
  | .workloadStdout b => b
  | .workloadStderr b => b
  | .workloadStdin b => b
  | .stdinEof => []
  | .workloadExit exitCode signal =>
    putU8 (exitFlags exitCode signal) ++ (putOption exitCode ++ putOption signal)
  | .error msg => writeLengthPrefixedString msg
  | .windowSize rows cols => putU16 rows ++ putU16 cols

end Frame

def header (len : UInt32) (ty : UInt8) : Bytes := putU32 len ++ putU8 ty

def encode (frame : Frame) : Bytes :=
  header (lenU32 frame.encodePayload) frame.frameType.toU8 ++ frame.encodePayload

/-! ## Reading a payload -/

inductive ProtocolError
  | unexpectedEof (ty : FrameType)
  | payloadTooLarge (size : UInt32)
  | truncated (ty : FrameType) (needed got : ℕ)
  | badUtf8 (ty : FrameType)
  /-- `Io` with `ErrorKind::UnexpectedEof`; other errors of the socket do not occur. -/
  | io
deriving DecidableEq, Repr

inductive Fault (ε : Type)
  | error (e : ε)
  | panic
deriving DecidableEq, Repr

abbrev Payload := Cursor (Fault ProtocolError)

/-- The check `cur.remaining() < needed`. -/
def need (ty : FrameType) (needed : ℕ) : Payload Unit := do
  let got ← Cursor.remaining
  if got < needed then Cursor.fail (.error (.truncated ty needed got)) else pure ()

def getU8 : Payload UInt8 := do
  let n ← Cursor.word 1 .panic
  pure (UInt8.ofNat n)

def getU16 : Payload UInt16 := do
  let n ← Cursor.word 2 .panic
  pure (UInt16.ofNat n)

def getU32 : Payload UInt32 := do
  let n ← Cursor.word 4 .panic
  pure (UInt32.ofNat n)

def getI32 : Payload Int32 := do
  let n ← getU32
  pure n.toInt32

def readLengthPrefixedString (ty : FrameType) : Payload Str := do
  need ty 4
  let len ← getU32
  need ty len.toNat
  let bytes ← Cursor.take len.toNat .panic
  match fromUtf8 bytes with
  | some s => pure s
  | none => Cursor.fail (.error (.badUtf8 ty))

def readList {α : Type} (c : Payload α) : Payload (List α) := do
  let n ← getU32
  Cursor.times n.toNat c

/-- `command` and `env` -/
def readStrings (ty : FrameType) : Payload (List Str) := do
  need ty 4
  readList (readLengthPrefixedString ty)

/-- A field that older frames lack: read it if `width` bytes are left. -/
def orDefault {α : Type} (width : ℕ) (missing : α) (c : Payload α) : Payload α := do
  let got ← Cursor.remaining
  if width ≤ got then c else pure missing

def readMount (ty : FrameType) : Payload VsockMount := do
  let tag ← readLengthPrefixedString ty
  let destination ← readLengthPrefixedString ty
  let readOnly ← getU8
  pure ⟨tag, destination, readOnly != 0⟩

/-- A signed word that is there if its flag is set. -/
def readOption (ty : FrameType) (flag : Bool) : Payload (Option Int32) :=
  if flag then do
    need ty 4
    let n ← getI32
    pure (some n)
  else pure none

def decodePayload (ty : FrameType) : Payload Frame :=
  match ty with
  | .initHello => do
    need ty 4
    let initPid ← getU32
    let workloadId ← readLengthPrefixedString ty
    pure (.initHello workloadId initPid)
  | .workloadSpec => do
    let command ← readStrings ty
    let env ← readStrings ty
    let workingDir ← readLengthPrefixedString ty
    let tty ← orDefault 1 false (do
      let b ← getU8
      pure (b != 0))
    let rows ← orDefault 4 0 getU32
    let cols ← orDefault 4 0 getU32
    let mounts ← orDefault 4 [] (readList (readMount ty))
    pure (.workloadSpec command env workingDir tty rows cols mounts)
  | .workloadStdout => do
    let b ← Cursor.rest
    pure (.workloadStdout b)
  | .workloadStderr => do
    let b ← Cursor.rest
    pure (.workloadStderr b)
  | .workloadStdin => do
    let b ← Cursor.rest
    pure (.workloadStdin b)
  | .stdinEof => pure .stdinEof
  | .workloadExit => do
    need ty 1
    let flags ← getU8
    let exitCode ← readOption ty (flags &&& 0x01 != 0)
    let signal ← readOption ty (flags &&& 0x02 != 0)
    pure (.workloadExit exitCode signal)
  | .error => do
    let msg ← readLengthPrefixedString ty
    pure (.error msg)
  | .windowSize => do
    need ty 4
    let rows ← getU16
    let cols ← getU16
    pure (.windowSize rows cols)

/-- `decode`. Bytes that the decoder does not use are ignored. -/
def decode (payload : Bytes) (ty : FrameType) : Except (Fault ProtocolError) Frame :=
  match (decodePayload ty).run payload with
  | .ok (frame, _) => .ok frame
  | .error e => .error e

/-! ## Reading a frame -/

def maxPayload : ℕ := 16 * 1024 * 1024

/-- `read_exact` on a stream: the bytes, or `none` at the end of the stream. -/
def readExact (n : ℕ) (stream : Bytes) : Option Bytes × Bytes :=
  if n ≤ stream.length then (some (stream.take n), stream.drop n) else (none, [])

def parseHeader (hdr : Bytes) : ℕ × UInt8 := (Cursor.ofBytes (hdr.take 4), hdr.getD 4 0)

def readFrame (stream : Bytes) : Except (Fault ProtocolError) Frame × Bytes :=
  match readExact 5 stream with
  | (none, stream) => (.error (.error (.unexpectedEof .initHello)), stream)
  | (some hdr, stream) =>
    let (len, tyByte) := parseHeader hdr
    if maxPayload < len then (.error (.error (.payloadTooLarge (UInt32.ofNat len))), stream)
    else
      match FrameType.fromU8 tyByte with
      | none => (.error (.error (.truncated .initHello 0 0)), stream)
      | some ty =>
        match readExact len stream with
        | (none, stream) => (.error (.error .io), stream)
        | (some payload, stream) => (decode payload ty, stream)

/-- `VsockError`, as far as `recv_frame` raises it. -/
inductive VsockError
  | io
  | encode (e : ProtocolError)
deriving DecidableEq, Repr

/-- `map_err(VsockError::Encode)`; a panic goes on. -/
def mapEncode : Except (Fault ProtocolError) Frame → Except (Fault VsockError) Frame
  | .ok frame => .ok frame
  | .error (.error e) => .error (.error (.encode e))
  | .error .panic => .error .panic

def recvFrame (stream : Bytes) : Except (Fault VsockError) Frame × Bytes :=
  match readExact 5 stream with
  | (none, stream) => (.error (.error .io), stream)
  | (some hdr, stream) =>
    let (len, tyByte) := parseHeader hdr
    if maxPayload < len then
      (.error (.error (.encode (.payloadTooLarge (UInt32.ofNat len)))), stream)
    else
      match FrameType.fromU8 tyByte with
      | none => (.error (.error (.encode (.truncated .error 1 0))), stream)
      | some ty =>
        match readExact len stream with
        | (none, stream) => (.error (.error .io), stream)
        | (some payload, stream) => (mapEncode (decode payload ty), stream)

end Pullrun.Vsock
