import Pullrun.Net.Proxy

/-!
# Listeners of a virtual machine, from `create` to `stop`

`FirecrackerExecutor` of `pullrun-vm/src/lib.rs`, as far as it works on the proxy network. `create`
registers the endpoint of the machine; `stop` does not tear it down itself but spawns a task that does,
and returns. The task knows the id and nothing else of the instance it was spawned for.

The steps are the places between which others may run. A `create` binds its ports one at a time and
then records them under the lock of `active_sessions`; a teardown takes that lock once. Any number of
calls may be under way. Devices, files and the machine itself are left out.
-/

namespace Pullrun.Vm

open Net

/-- A call of `create` inside `register_endpoint`: the rules it has still to go through, and what it
    has collected. -/
structure Create where
  id : Str
  rules : List NetworkRule
  collected : ProxyNetwork.Collected := {}

/-- The proxy network, the `create` calls under way, and the spawned teardowns that have not run. -/
structure Executor where
  proxy : ProxyNetwork
  creates : ℕ → Option Create
  teardowns : List Str

namespace Executor

def new : Executor := ⟨.new, fun _ => none, []⟩

inductive Action
  /-- `stop(id)` returns. It spawns a teardown for a machine of the pool, and for any other if its
      `network.json` can be read. -/
  | stop (id : Str) (spawns : Bool)
  | create (call : ℕ) (id : Str) (rules : List NetworkRule)
  | bind (call : ℕ) (answer : Option UInt16)
  | record (call : ℕ)
  | teardown (id : Str)

/-- One turn of the loop of `register_endpoint`. A port that cannot be bound ends the call. -/
def bindNext (s : Executor) (call : ℕ) (c : Create) (rule : NetworkRule) (rules : List NetworkRule)
    (answer : Option UInt16) : Executor :=
  if rule.Listens then
    match s.proxy.startInboundProxy c.id rule.bindsTo answer with
    | (.error _, proxy) => { s with proxy := proxy, creates := Function.update s.creates call none }
    | (.ok handle, proxy) =>
      let collected : ProxyNetwork.Collected :=
        ⟨c.collected.proxyHandles ++ [handle],
          c.collected.hostPortMappings ++ [(rule.bindsTo, rule.port)]⟩
      { s with
        proxy := proxy
        creates := Function.update s.creates call (some ⟨c.id, rules, collected⟩) }
  else { s with creates := Function.update s.creates call (some ⟨c.id, rules, c.collected⟩) }

def step (s : Executor) : Action → Option Executor
  | .stop id spawns => some { s with teardowns := if spawns then id :: s.teardowns else s.teardowns }
  | .create call id rules =>
    match s.creates call with
    | some _ => none
    | none => some { s with creates := Function.update s.creates call (some ⟨id, rules, {}⟩) }
  | .bind call answer =>
    match s.creates call with
    | some ⟨id, rule :: rules, collected⟩ =>
      some (s.bindNext call ⟨id, rule :: rules, collected⟩ rule rules answer)
    | _ => none
  | .record call =>
    match s.creates call with
    | some ⟨id, [], collected⟩ =>
      some { s with
        proxy := s.proxy.record id collected
        creates := Function.update s.creates call none }
    | _ => none
  | .teardown id =>
    if id ∈ s.teardowns then
      some { s with proxy := s.proxy.teardown id, teardowns := s.teardowns.erase id }
    else none

def Action.Touches (id : Str) : Action → Prop
  | .stop id' _ => id' = id
  | .create _ id' _ => id' = id
  | _ => False

def Active (s : Executor) (c : Create) : Prop :=
  ∀ h ∈ c.collected.proxyHandles, ∀ port, h.port = some port → ⟨h.task, c.id, port⟩ ∈ s.proxy.live

end Executor

end Pullrun.Vm
