import Pullrun.Lib.Schedule
import Pullrun.Service.Image

/-!
# `put`, step by step

`put` and `put_blocking` take three kinds of steps on the files: they test whether the node file
exists, they rename a finished temporary file into its place, and they raise the count of each edge
under `refcount_lock`. Each step is atomic and nothing holds two of them together. `PutCall` is a
call between two of its steps; `Puts` is any number of them on one store, and an action names the
call that moves.

Serialization and hashing read nothing that is shared, so a call starts with its bytes.
-/

namespace Pullrun

inductive PutStage
  /-- `path.exists()` -/
  | test
  /-- `write_atomically(&path, &bytes)` -/
  | write
  /-- `for edge in &node.edges`, at the edges that are left -/
  | count (edges : List Digest)
deriving DecidableEq

structure PutCall where
  node : DagNode
  bytes : Bytes
  stage : PutStage
deriving DecidableEq

namespace PutCall

def new (p : DagNode × Bytes) : PutCall := ⟨p.1, p.2, .test⟩

def digest (c : Codec) (call : PutCall) : Digest := c.sha256 call.bytes

/-- One step; none is left once every edge is counted. -/
def step (c : Codec) (k : Disk) (call : PutCall) : Option (PutCall × Disk) :=
  match call.stage with
  | .test =>
    if k.hasNode (call.digest c) then some ({ call with stage := .count [] }, k)
    else some ({ call with stage := .write }, k)
  | .write =>
    some ({ call with stage := .count call.node.edges }, k.writeNode (call.digest c) call.bytes)
  | .count [] => none
  | .count (edge :: edges) =>
    some ({ call with stage := .count edges }, (k.incrementRefcount edge).2)

/-- The edges that are written and not counted yet. -/
def uncounted (call : PutCall) : List Digest :=
  match call.stage with
  | .count edges => edges
  | _ => []

inductive Steps (c : Codec) (k : Disk) (call : PutCall) : PutCall → Disk → Prop
  | found (hs : call.stage = .test) (h : k.hasNode (call.digest c) = true) :
      Steps c k call { call with stage := .count [] } k
  | absent (hs : call.stage = .test) (h : k.hasNode (call.digest c) = false) :
      Steps c k call { call with stage := .write } k
  | write (hs : call.stage = .write) :
      Steps c k call { call with stage := .count call.node.edges }
        (k.writeNode (call.digest c) call.bytes)
  | count (edge : Digest) (edges : List Digest) (hs : call.stage = .count (edge :: edges)) :
      Steps c k call { call with stage := .count edges } (k.incrementRefcount edge).2

theorem steps_of_step {c : Codec} {k k' : Disk} {call call' : PutCall}
    (h : call.step c k = some (call', k')) : Steps c k call call' k' := by
  revert h
  fun_cases step c k call with
  | case1 hs hk => rintro ⟨⟩; exact .found hs hk
  | case2 hs hk => rintro ⟨⟩; exact .absent hs (Bool.eq_false_iff.mpr hk)
  | case3 hs => rintro ⟨⟩; exact .write hs
  | case4 => rintro ⟨⟩
  | case5 edge edges hs => rintro ⟨⟩; exact .count edge edges hs

end PutCall

structure Puts where
  disk : Disk
  calls : List PutCall

namespace Puts

def start (k : Disk) (nodes : List (DagNode × Bytes)) : Puts := ⟨k, nodes.map .new⟩

def step (c : Codec) (w : Puts) (i : ℕ) : Option Puts :=
  match w.calls[i]? with
  | none => none
  | some call =>
    match call.step c w.disk with
    | none => none
    | some (call', k') => some ⟨k', w.calls.set i call'⟩

theorem step_eq_some {c : Codec} {w w' : Puts} {i : ℕ} (h : step c w i = some w') :
    ∃ call call', w.calls[i]? = some call ∧ w'.calls = w.calls.set i call' ∧
      call.Steps c w.disk call' w'.disk := by
  revert h
  fun_cases step c w i with
  | case1 | case2 => rintro ⟨⟩
  | case3 call hc call' k' hs =>
    rintro ⟨⟩
    exact ⟨call, call', hc, rfl, PutCall.steps_of_step hs⟩

end Puts

end Pullrun
