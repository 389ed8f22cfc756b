import Pullrun.Vsock.HostLoop

/-!
# A workload behind pipes

`run` and `run_piped` of `pullrun-init/src/lib.rs`. Two tasks pump what the workload writes into its pipes
to the host, 8192 bytes a frame at the most. When the child has been reaped they are aborted, "they'll exit
when their pipes close naturally", and the exit frame is sent.

A step is what happens between two suspension points. A pump that has read something calls `send_frame`
without a break, and that hands the bytes to a thread of the blocking pool: aborting the pump does not
stop the thread, which writes the frame when its turn comes, or never, if the process ends first. A frame
is written in one piece here. An abort takes effect at any time after the child has been reaped, and
`run_piped` waits for it.
-/

namespace Pullrun.Guest

open Vsock

inductive Stream
  | stdout
  | stderr
deriving DecidableEq, Repr

namespace Stream

def frame : Stream → Bytes → Frame
  | .stdout => .workloadStdout
  | .stderr => .workloadStderr

def payload : Stream → Frame → Bytes
  | .stdout, .workloadStdout b => b
  | .stderr, .workloadStderr b => b
  | _, _ => []

end Stream

/-- A pipe and its pump: what has been written and not read, whether the workload can still write, what is
    being sent, and whether the task is still in its loop. -/
structure Pump where
  pipe : Bytes := []
  closed : Bool := false
  sending : Option Bytes := none
  running : Bool := true
deriving DecidableEq

inductive ExitStatus
  | exited (code : Int32)
  | signaled (signal : Int32)
deriving DecidableEq

def ExitStatus.code : ExitStatus → Option Int32
  | .exited code => some code
  | .signaled _ => none

/-- `written` is not in the source: all that the workload has written. -/
structure Piped where
  pump : Stream → Pump := fun _ => {}
  written : Stream → Bytes := fun _ => []
  status : Option ExitStatus := none
  reaped : Bool := false
  wire : List Frame := []
  finished : Bool := false

namespace Piped

inductive Action
  | write (p : Stream) (b : Bytes)
  | close (p : Stream)
  | exit (status : ExitStatus)
  | read (p : Stream) (n : ℕ)
  | eof (p : Stream)
  | sent (p : Stream)
  | fail (p : Stream)
  | reap
  | abort (p : Stream)
  | sendExit

def setPump (s : Piped) (p : Stream) (pump : Pump) : Piped :=
  { s with pump := Function.update s.pump p pump }

/-- `WorkloadExit { code: status.code(), signal: None }` -/
def exitFrame (status : ExitStatus) : Frame := .workloadExit status.code none

def step (s : Piped) : Action → Option Piped
  | .write p b =>
    if (s.pump p).closed then none
    else some { s.setPump p { s.pump p with pipe := (s.pump p).pipe ++ b } with
      written := Function.update s.written p (s.written p ++ b) }
  | .close p => some (s.setPump p { s.pump p with closed := true })
  | .exit status =>
    match s.status with
    | some _ => none
    | none => some { s with
        status := some status
        pump := fun p => { s.pump p with closed := true } }
  | .read p n =>
    if (s.pump p).running ∧ (s.pump p).sending = none ∧ 0 < n ∧ n ≤ 8192 ∧ n ≤ (s.pump p).pipe.length then
      some (s.setPump p { s.pump p with
        pipe := (s.pump p).pipe.drop n
        sending := some ((s.pump p).pipe.take n) })
    else none
  | .eof p =>
    if (s.pump p).running ∧ (s.pump p).sending = none ∧ (s.pump p).closed ∧ (s.pump p).pipe = [] then
      some (s.setPump p { s.pump p with running := false })
    else none
  | .sent p =>
    match (s.pump p).sending with
    | none => none
    | some b => some { s.setPump p { s.pump p with sending := none } with wire := s.wire ++ [p.frame b] }
  | .fail p =>
    match (s.pump p).sending with
    | none => none
    | some _ => some (s.setPump p { s.pump p with sending := none, running := false })
  | .reap => if s.status.isSome then some { s with reaped := true } else none
  | .abort p =>
    if s.reaped ∧ (s.pump p).running then some (s.setPump p { s.pump p with running := false }) else none
  | .sendExit =>
    match s.status with
    | none => none
    | some status =>
      if s.reaped ∧ (∀ p ∈ [Stream.stdout, .stderr], (s.pump p).running = false) ∧ s.finished = false then
        some { s with wire := s.wire ++ [exitFrame status], finished := true }
      else none

end Piped

end Pullrun.Guest
