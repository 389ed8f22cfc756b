import Pullrun.Vsock.Frame

/-!
# The client of the guest

`VsockClient` of `pullrun-init/src/vsock_client.rs`. Clones of a client share one socket; every
`send_frame` duplicates its descriptor and calls `write_all` on the duplicate, which writes until nothing
is left. "Concurrent senders serialize through the mutex", says the comment on the type. There is no mutex.

A step is one `write` on the socket, which takes any part of what it is given, but not nothing. A send
that ends early, by an error of the socket or because its task is aborted, leaves on the wire what it
has written. Both transports, the socket of the guest and the one for tests, are written to in this way.
-/

namespace Pullrun.Vsock

/-- A call of `send_frame`, with what `write_all` has still to write. -/
structure Send where
  frame : Frame
  rest : Bytes
deriving DecidableEq

/-- The socket, the calls under way by their senders, and the frames whose calls have returned `Ok`. -/
structure SharedSocket where
  wire : Bytes := []
  sends : ℕ → Option Send := fun _ => none
  completed : List Frame := []

namespace SharedSocket

inductive Action
  | send (i : ℕ) (frame : Frame)
  | write (i n : ℕ)
  | fail (i : ℕ)

def setSend (s : SharedSocket) (i : ℕ) (send : Option Send) : SharedSocket :=
  { s with sends := Function.update s.sends i send }

def step (s : SharedSocket) : Action → Option SharedSocket
  | .send i frame =>
    match s.sends i with
    | some _ => none
    | none => some (s.setSend i (some ⟨frame, encode frame⟩))
  | .write i n =>
    match s.sends i with
    | none => none
    | some ⟨frame, rest⟩ =>
      if 0 < n ∧ n ≤ rest.length then
        let s := { s with wire := s.wire ++ rest.take n }
        if n = rest.length then
          some { s.setSend i none with completed := s.completed ++ [frame] }
        else some (s.setSend i (some ⟨frame, rest.drop n⟩))
      else none
  | .fail i =>
    match s.sends i with
    | none => none
    | some _ => some (s.setSend i none)

end SharedSocket

end Pullrun.Vsock
