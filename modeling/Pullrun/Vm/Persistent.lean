import Pullrun.Vsock.HostLoop

/-!
# The thread of a persistent virtual machine

`spawn_vm_inner` and `attach_to_vm_inner` of `pullrun-vm/src/apple/attach.rs`. One thread reads the frames
of the guest for as long as the machine lives. Clients come and go: a session of `attach_to_vm` tells the
thread by a command where to send frames, passes what it gets on to its client, and says when it is over.
With nobody attached the thread keeps the frames for the next session.

Four parties take turns: the thread, the sessions, their clients, who may drop their receiver at any
time, and the owner of the machine. A send on a channel fails if the receiver is gone, and a receiver that
goes takes with it what is in its channel; that is how `std::sync::mpsc` is documented. What clients type,
and the newline that makes an idle shell show its prompt, go the other way and are left out.
-/

namespace Pullrun.Vm

open Vsock

inductive Phase
  | forwarding
  | leaving
  /-- It is sent; `session_rx` is to be dropped. -/
  | detached
  | gone
deriving DecidableEq, Repr

/-- A call of `attach_to_vm_inner`: what is in its channel, and what `server_out` has taken. `client` says
    that the receiver of `server_out` is there. -/
structure AttachSession where
  phase : Phase := .forwarding
  client : Bool := true
  channel : List Frame := []
  delivered : List Frame := []
deriving DecidableEq

/-- `VmCommand`. A sender is the number of the session it belongs to. -/
inductive VmCommand
  | attachClient (sessionId : ℕ)
  | detachClient (sessionId : ℕ)
  | shutdown
deriving DecidableEq, Repr

inductive Place
  | commands
  | flushing
  | polling
  | ended
deriving DecidableEq, Repr

/-- The thread, its command channel and the sessions. `decoded` and `atShutdown` are not in the source: the
    frames that the thread has decoded so far, and those that it kept for the next session when it was
    told to shut down. -/
structure PersistentVm where
  sessions : List AttachSession := []
  commands : List VmCommand := []
  clientOut : Option ℕ := none
  sessionId : ℕ := 0
  pending : List Frame := []
  place : Place := .commands
  decoded : List Frame := []
  atShutdown : List Frame := []
deriving DecidableEq

namespace PersistentVm

inductive Action
  | attach
  | hangUp (i : ℕ)
  | forward (i : ℕ)
  | disconnected (i : ℕ)
  | detach (i : ℕ)
  | leave (i : ℕ)
  | shutdown
  | command
  /-- It takes the next of the frames that it has kept, or is done with them. -/
  | flush
  | frame (f : Frame)
  /-- The poll times out, or what was read is no frame. -/
  | idle
  | broken
deriving DecidableEq

def Receives (s : PersistentVm) (i : ℕ) : Prop :=
  (s.sessions[i]?.map AttachSession.phase).getD .gone ≠ .gone

instance (s : PersistentVm) (i : ℕ) : Decidable (s.Receives i) := inferInstanceAs (Decidable (_ ≠ _))

/-- Somebody can still send on the channel of a session: the thread, or a command that it has not
    looked at. -/
def HasSender (s : PersistentVm) (i : ℕ) : Prop :=
  s.clientOut = some i ∨ .attachClient i ∈ s.commands

instance (s : PersistentVm) (i : ℕ) : Decidable (s.HasSender i) :=
  inferInstanceAs (Decidable (_ ∨ _))

def update (s : PersistentVm) (i : ℕ) (f : AttachSession → AttachSession) : PersistentVm :=
  { s with sessions := s.sessions.modify i f }

/-- `tx.send(frame)`, where it succeeds. -/
def push (s : PersistentVm) (i : ℕ) (f : Frame) : PersistentVm :=
  s.update i fun session => { session with channel := session.channel ++ [f] }

/-- `cmd_tx.send(..)`, which fails once the thread has ended. -/
def tell (s : PersistentVm) (c : VmCommand) : PersistentVm :=
  if s.place = .ended then s else { s with commands := s.commands ++ [c] }

/-- The thread leaves its loop: its receiver, its sender and what it has kept are dropped. -/
def finish (s : PersistentVm) : PersistentVm :=
  { s with place := .ended, commands := [], clientOut := none, pending := [] }

def deliver (s : PersistentVm) (f : Frame) : PersistentVm :=
  match s.clientOut with
  | some i => if s.Receives i then s.push i f else { s with clientOut := none }
  | none => { s with pending := s.pending ++ [f] }

def step (s : PersistentVm) : Action → Option PersistentVm
  | .attach =>
    -- "VM session shut down", and there is no session.
    if s.place = .ended then some s
    else some { s with
      sessions := s.sessions ++ [{}]
      commands := s.commands ++ [.attachClient s.sessions.length] }
  | .hangUp i =>
    if i < s.sessions.length then some (s.update i fun session => { session with client := false })
    else none
  | .forward i =>
    match s.sessions[i]? with
    | some ⟨.forwarding, true, f :: channel, delivered⟩ =>
      some (s.update i fun _ => ⟨.forwarding, true, channel, delivered ++ [f]⟩)
    | some ⟨.forwarding, false, _ :: channel, delivered⟩ =>
      some (s.update i fun _ => ⟨.leaving, false, channel, delivered⟩)
    | _ => none
  | .disconnected i =>
    match s.sessions[i]? with
    | some ⟨.forwarding, client, [], delivered⟩ =>
      if s.HasSender i then none else some (s.update i fun _ => ⟨.leaving, client, [], delivered⟩)
    | _ => none
  | .detach i =>
    match s.sessions[i]? with
    | some ⟨.leaving, client, channel, delivered⟩ =>
      some ((s.update i fun _ => ⟨.detached, client, channel, delivered⟩).tell (.detachClient i))
    | _ => none
  | .leave i =>
    match s.sessions[i]? with
    | some ⟨.detached, client, _, delivered⟩ =>
      some (s.update i fun _ => ⟨.gone, client, [], delivered⟩)
    | _ => none
  | .shutdown => some (s.tell .shutdown)
  | .command =>
    if s.place = .commands then
      match s.commands with
      | [] => some { s with place := .polling }
      | .attachClient i :: commands =>
        some { s with commands := commands, sessionId := i, clientOut := some i, place := .flushing }
      | .detachClient i :: commands =>
        some { s with
          commands := commands
          clientOut := if s.sessionId = i then none else s.clientOut
          place := .polling }
      | .shutdown :: _ => some { s.finish with atShutdown := s.pending }
    else none
  | .flush =>
    if s.place = .flushing then
      match s.pending, s.clientOut with
      | [], _ => some { s with place := .polling }
      | f :: pending, some i =>
        if s.Receives i then some { s.push i f with pending := pending }
        else some { s with pending := pending, clientOut := none, place := .polling }
      | _ :: _, none => none
    else none
  | .frame f =>
    if s.place = .polling then
      let s := { s with decoded := s.decoded ++ [f] }.deliver f
      some (if f.isExit then s.finish else { s with place := .commands })
    else none
  | .idle => if s.place = .polling then some { s with place := .commands } else none
  | .broken => if s.place = .polling then some s.finish else none

end PersistentVm

end Pullrun.Vm
