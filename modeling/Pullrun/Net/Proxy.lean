import Pullrun.Store.Digest

/-!
# The proxy network

`pullrun-net/src/proxy.rs`. A workload with inbound rules gets one listener task for each of its TCP
ports; the handles of the tasks are kept in `active_sessions` under the workload's id, and `teardown`
aborts what is there. A handle that is dropped aborts nothing: its task runs on.

Whether a port can be bound is up to the system, which answers every `bind`; a port that a live
listener holds is refused in any case, and port 0 is bound to a port of the system's choice. An aborted
task is gone at once, and a listener does not end on its own.
-/

namespace Pullrun.Net

inductive Direction
  | inbound
  | outbound
deriving DecidableEq, Repr

inductive Protocol
  | tcp
  | udp
deriving DecidableEq, Repr

/-- `NetworkRule`, without `to_host` and `from_cidrs`, which are not looked at here. -/
structure NetworkRule where
  direction : Direction
  protocol : Protocol
  port : UInt16
  hostPort : UInt16
deriving DecidableEq, Repr

namespace NetworkRule

/-- A rule that a listener is started for. Other protocols are skipped with a warning. -/
def Listens (rule : NetworkRule) : Prop := rule.direction = .inbound ∧ rule.protocol = .tcp

instance (rule : NetworkRule) : Decidable rule.Listens :=
  inferInstanceAs (Decidable (rule.direction = .inbound ∧ rule.protocol = .tcp))

def bindsTo (rule : NetworkRule) : UInt16 := if rule.hostPort ≠ 0 then rule.hostPort else rule.port

end NetworkRule

structure Listener where
  task : ℕ
  owner : Str
  port : UInt16
deriving DecidableEq, Repr

/-- `JoinHandle`, with the port of the listener; the task of the outbound rules has none. -/
structure Handle where
  task : ℕ
  port : Option UInt16
deriving DecidableEq, Repr

def Listener.handle (l : Listener) : Handle := ⟨l.task, some l.port⟩

/-- `ProxyNetwork`, with the tasks that it has started and that are live. `next` numbers them. -/
structure ProxyNetwork where
  activeSessions : Str → Option (List Handle)
  live : List Listener
  next : ℕ

/-- `NetError::SetupFailed("bind inbound proxy on {host_port}: {e}")` -/
inductive NetError
  | setupFailed (hostPort : UInt16)
deriving DecidableEq, Repr

structure NetworkEndpoint where
  internalIp : Str
  hostPortMappings : List (UInt16 × UInt16)
deriving DecidableEq, Repr

namespace ProxyNetwork

def new : ProxyNetwork := ⟨fun _ => none, [], 0⟩

def recorded (s : ProxyNetwork) (id : Str) : List Handle := (s.activeSessions id).getD []

def inboundPorts (s : ProxyNetwork) (id : Str) : List UInt16 := (s.recorded id).filterMap Handle.port

def livePorts (s : ProxyNetwork) : List UInt16 := s.live.map Listener.port

/-- `TcpListener::bind`: the port, if the system grants it. `answer` is what the system says, with
    the port that it would choose. -/
def bind (taken : List UInt16) (port : UInt16) (answer : Option UInt16) : Option UInt16 :=
  match answer with
  | none => none
  | some free =>
    let port := if port = 0 then free else port
    if port ∈ taken then none else some port

def startInboundProxy (s : ProxyNetwork) (id : Str) (hostPort : UInt16) (answer : Option UInt16) :
    Except NetError Handle × ProxyNetwork :=
  match bind s.livePorts hostPort answer with
  | none => (.error (.setupFailed hostPort), s)
  | some port =>
    (.ok ⟨s.next, some port⟩, { s with live := ⟨s.next, id, port⟩ :: s.live, next := s.next + 1 })

structure Collected where
  proxyHandles : List Handle := []
  hostPortMappings : List (UInt16 × UInt16) := []
deriving DecidableEq, Repr

/-- The loop over the rules, each with the system's answer. An error returns at once, and what has been
    collected is dropped. -/
def startListeners (id : Str) : List (NetworkRule × Option UInt16) → Collected → ProxyNetwork →
    Except NetError Collected × ProxyNetwork
  | [], c, s => (.ok c, s)
  | (rule, answer) :: rules, c, s =>
    if rule.Listens then
      match s.startInboundProxy id rule.bindsTo answer with
      | (.error e, s) => (.error e, s)
      | (.ok handle, s) =>
        startListeners id rules
          ⟨c.proxyHandles ++ [handle], c.hostPortMappings ++ [(rule.bindsTo, rule.port)]⟩ s
    else startListeners id rules c s

/-- The end of `register_endpoint`: the task of the outbound rules is started, and the handles replace
    what was kept for the workload. -/
def record (s : ProxyNetwork) (id : Str) (c : Collected) : ProxyNetwork :=
  { s with
    activeSessions := Function.update s.activeSessions id (some (c.proxyHandles ++ [⟨s.next, none⟩]))
    next := s.next + 1 }

def registerEndpoint (s : ProxyNetwork) (id internalIp : Str)
    (rules : List (NetworkRule × Option UInt16)) : Except NetError NetworkEndpoint × ProxyNetwork :=
  match startListeners id rules {} s with
  | (.error e, s) => (.error e, s)
  | (.ok c, s) => (.ok ⟨internalIp, c.hostPortMappings⟩, s.record id c)

def teardown (s : ProxyNetwork) (id : Str) : ProxyNetwork :=
  match s.activeSessions id with
  | none => s
  | some handles =>
    { s with
      activeSessions := Function.update s.activeSessions id none
      live := s.live.filter fun l => l.task ∉ handles.map Handle.task }

inductive Call
  | register (id internalIp : Str) (rules : List (NetworkRule × Option UInt16))
  | teardown (id : Str)

def step (s : ProxyNetwork) : Call → Option ProxyNetwork
  | .register id internalIp rules => some (s.registerEndpoint id internalIp rules).2
  | .teardown id => some (s.teardown id)

end ProxyNetwork

end Pullrun.Net
