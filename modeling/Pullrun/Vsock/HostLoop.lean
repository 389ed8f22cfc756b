import Pullrun.Vsock.Frame

/-!
# The loops of the Apple host

`pullrun-vm/src/apple/attach.rs` reads frames in two places without `read_frame`: the loop of
`run_session_blocking`, for an attached session, and the one of the thread that `spawn_vm_inner` leaves
behind. Both read a header with a single `read`, which may return fewer bytes than it was asked for;
then both start over with a new header and the bytes of the first are gone.

They differ on what they do not expect. The session gives up with an `Error` frame of its own. The
thread goes on with the next header, wherever that is in the stream, and does not bound a length.
-/

namespace Pullrun.Vsock

/-- A socket: how often it has been read, and what is to come. -/
structure Socket where
  reads : ℕ
  stream : Bytes
deriving DecidableEq

/-- `Read::read` into a buffer of `n` bytes. -/
def Socket.read (grants : ℕ → ℕ) (n : ℕ) (s : Socket) : Bytes × Socket :=
  let k := min n (max 1 (grants s.reads))
  (s.stream.take k, ⟨s.reads + 1, s.stream.drop k⟩)

/-- `while got < len`: read until `needed` more bytes are there, or the stream ends. A turn gets at
    least one byte, so `needed` turns are enough. -/
def Socket.fill (grants : ℕ → ℕ) : ℕ → ℕ → Socket → Bytes × Socket
  | 0, _, s => ([], s)
  | turns + 1, needed, s =>
    if needed = 0 then ([], s)
    else
      let (bs, s) := s.read grants needed
      if bs.length = 0 then ([], s)
      else
        let (more, s) := Socket.fill grants turns (needed - bs.length) s
        (bs ++ more, s)

def Frame.isExit : Frame → Bool
  | .workloadExit .. => true
  | _ => false

/-- `{ty_byte:#x}` -/
def hexByte (b : UInt8) : Str := "0x".toList ++ Nat.toDigits 16 b.toNat

/-- The loop of `run_session_blocking`: the frames that it sends on. `debug` is the text of an error,
    and `turns` bounds the turns of the loop, each of which takes something from the stream. -/
def runSession (debug : ProtocolError → Str) (grants : ℕ → ℕ) : ℕ → Socket → List Frame
  | 0, _ => []
  | turns + 1, s =>
    let (hdr, s) := s.read grants 5
    if hdr.length = 0 then []
    else if hdr.length < 5 then runSession debug grants turns s
    else
      let (len, tyByte) := parseHeader hdr
      if maxPayload < len then
        [.error ("vsock frame too large: ".toList ++ Nat.toDigits 10 len)]
      else
        match FrameType.fromU8 tyByte with
        | none => [.error ("unknown vsock frame type: ".toList ++ hexByte tyByte)]
        | some ty =>
          let (payload, s) := s.fill grants len len
          if payload.length < len then [.error "EOF reading payload".toList]
          else
            match decode payload ty with
            | .error (.error e) => [.error ("decode vsock frame: ".toList ++ debug e)]
            | .error .panic => []
            | .ok frame => frame :: if frame.isExit then [] else runSession debug grants turns s

/-- The loop of the thread of `spawn_vm_inner`: the frames that it forwards or keeps. -/
def runThread (grants : ℕ → ℕ) : ℕ → Socket → List Frame
  | 0, _ => []
  | turns + 1, s =>
    let (hdr, s) := s.read grants 5
    if hdr.length = 0 then []
    else if hdr.length < 5 then runThread grants turns s
    else
      let (len, tyByte) := parseHeader hdr
      match FrameType.fromU8 tyByte with
      | none => runThread grants turns s
      | some ty =>
        let (payload, s) := s.fill grants len len
        if payload.length < len then runThread grants turns s
        else
          match decode payload ty with
          | .error (.error _) => runThread grants turns s
          | .error .panic => []
          | .ok frame => frame :: if frame.isExit then [] else runThread grants turns s

end Pullrun.Vsock
