import Pullrun.Net.Proxy
import Pullrun.Workload.Launch

/-!
# The spec of a workload, twice

`run_workload` builds a `WorkloadSpec` from the request and records what it has put into it;
`attempt_restart` builds another one from the record (`pullrun-runtime/src/service.rs`, with the types of
`pullrun-exec/src/types.rs`). The record has the network mode as text.

The fields of the record that a restart does not read (the policy decisions, the kernel's digest, the
working directory, the paths of a VM's root filesystem and console) are left out.
-/

namespace Pullrun

open FileTree

/-! ## Messages -/

structure NetworkRuleMessage where
  direction : Str
  protocol : Str
  port : UInt32
  toHost : Str
  fromCidrs : List Str
  hostPort : UInt32
deriving DecidableEq

structure Mount where
  type : Str
  source : Str
  destination : Str
  options : List Str
deriving DecidableEq

structure HealthCheck where
  test : List Str
  intervalSeconds : UInt32
  timeoutSeconds : UInt32
  retries : UInt32
  startPeriodSeconds : UInt32
deriving DecidableEq

structure DnsConfig where
  nameservers : List Str := []
  searches : List Str := []
  options : List Str := []
deriving DecidableEq

structure RunMessage where
  id : Str
  rootDigest : Str
  backend : Str
  command : List Str
  env : Finmap fun _ : Str => Str
  cpuMillicores : UInt64
  memoryBytes : UInt64
  networkMode : Str
  networkRules : List NetworkRuleMessage
  kernelImage : Str
  bridgeName : Str
  mounts : List Mount
  healthCheck : Option HealthCheck
  restartPolicy : Int32
  secrets : List StageRequest
  configs : List StageRequest
  privileged : Bool
  readonlyRootfs : Bool
  noNewPrivileges : Bool
  seccompProfile : Str
  allowedSyscalls : List Str
  dns : Option DnsConfig
deriving DecidableEq

def parseRestartPolicy (p : Int32) : RestartPolicy :=
  if p = 2 then .onFailure
  else if p = 3 then .always
  else if p = 4 then .unlessStopped
  else .no

namespace RunMessage

def hasInboundPorts (m : RunMessage) : Bool := m.networkRules.any fun r => r.direction = "inbound".toList

def request (m : RunMessage) : RunRequest where
  id := m.id
  rootDigest := m.rootDigest
  backend := m.backend
  networkMode := m.networkMode
  hasInboundPorts := m.hasInboundPorts
  kernelImage := m.kernelImage
  secrets := m.secrets
  configs := m.configs
  mounts := m.mounts.map fun mount => ⟨mount.type, mount.source, mount.destination, mount.options⟩
  restartPolicy := parseRestartPolicy m.restartPolicy

end RunMessage

/-! ## Specs -/

structure SpecRule where
  rule : Net.NetworkRule
  toHost : Option Str
  fromCidrs : Option (List Str)
deriving DecidableEq

structure WorkloadSpec where
  id : Str
  imageRoot : Digest
  backend : Backend
  command : List Str
  env : Finmap fun _ : Str => Str
  cpuMillicores : Option UInt64
  memoryBytes : Option UInt64
  networkMode : NetworkMode
  networkRules : List SpecRule
  kernelPath : Option Str
  bridgeName : Option Str
  mounts : List Mount
  healthCheck : Option HealthCheck
  restartPolicy : RestartPolicy
  readonlyRootfs : Bool
  noNewPrivileges : Bool
  seccompProfile : Option Str
  allowedSyscalls : List Str
  privileged : Bool
  dns : DnsConfig
deriving DecidableEq

def nonEmpty (s : Str) : Option Str := if s = [] then none else some s

def positive (n : UInt64) : Option UInt64 := if 0 < n then some n else none

/-- The rule as the executors take it: what is not outbound is inbound, what is not UDP is TCP, and a
    port is cut off to sixteen bits. -/
def NetworkRuleMessage.toSpec (r : NetworkRuleMessage) : SpecRule where
  rule :=
    { direction := if r.direction = "outbound".toList then .outbound else .inbound
      protocol := if r.protocol = "udp".toList then .udp else .tcp
      port := r.port.toUInt16
      hostPort := r.hostPort.toUInt16 }
  toHost := nonEmpty r.toHost
  fromCidrs := if r.fromCidrs = [] then none else some r.fromCidrs

structure SecurityDefaults where
  readonlyRootfs : Bool
  noNewPrivileges : Bool
  seccompProfile : Option Str
  allowedSyscalls : List Str
deriving DecidableEq

structure SpecEnv where
  policy : SecurityDefaults
  kernelCache : Str → Option Str
  stagedSecretDir : Str

def stageMount (env : SpecEnv) (dir : Str) (r : StageRequest) : Mount where
  type := "bind".toList
  source := env.stagedSecretDir ++ '/' :: r.name
  destination := if r.targetPath = [] then dir ++ r.name else r.targetPath
  options := ["ro".toList, "rbind".toList]

/-- The spec that `run_workload` hands to the executor, with `effective_security_flags`. -/
def RunMessage.spec (m : RunMessage) (env : SpecEnv) (backend : Backend) (imageRoot : Digest) :
    WorkloadSpec where
  id := m.id
  imageRoot := imageRoot
  backend := backend
  command := m.command
  env := m.env
  cpuMillicores := positive m.cpuMillicores
  memoryBytes := positive m.memoryBytes
  networkMode := parseNetworkMode m.networkMode m.hasInboundPorts
  networkRules := m.networkRules.map NetworkRuleMessage.toSpec
  kernelPath := if m.kernelImage = [] then none else env.kernelCache m.kernelImage
  bridgeName := nonEmpty m.bridgeName
  mounts := m.mounts ++ m.secrets.map (stageMount env "/run/secrets/".toList) ++
    m.configs.map (stageMount env "/".toList)
  healthCheck := m.healthCheck
  restartPolicy := parseRestartPolicy m.restartPolicy
  readonlyRootfs := !m.privileged && (m.readonlyRootfs || env.policy.readonlyRootfs)
  noNewPrivileges := !m.privileged && (m.noNewPrivileges || env.policy.noNewPrivileges)
  seccompProfile :=
    if m.privileged then none
    else if m.seccompProfile ≠ [] then some m.seccompProfile
    else env.policy.seccompProfile
  allowedSyscalls :=
    if m.privileged then []
    else if m.allowedSyscalls ≠ [] then m.allowedSyscalls
    else env.policy.allowedSyscalls
  privileged := m.privileged
  dns := m.dns.getD {}

/-- `ExecutorRouter::create`: the backend of the handle. A daemon that is not root runs containers
    rootless. -/
def Backend.routed (rootless : Bool) : Backend → Option Backend
  | .container => some (if rootless then .containerRootless else .container)
  | .containerRootless => if rootless then some .containerRootless else none
  | .vm => some .vm
  | .sandbox => none

/-! ## The record -/

structure SavedSpec where
  imageRoot : Str
  command : List Str
  env : Finmap fun _ : Str => Str
  cpuMillicores : Option UInt64
  memoryBytes : Option UInt64
  networkRules : List SpecRule
  kernelImageRef : Str
  bridgeName : Option Str
  mounts : List Mount
  healthCheck : Option HealthCheck
  networkMode : Str
  privileged : Bool
  readonlyRootfs : Bool
  noNewPrivileges : Bool
  seccompProfile : Option Str
  allowedSyscalls : List Str
  dns : DnsConfig
deriving DecidableEq

def networkModeStr : NetworkMode → Str
  | .container target => "container:".toList ++ target
  | .bridge => "bridge".toList
  | .host => "host".toList
  | .slirp => "slirp".toList
  | .loopback => "isolated".toList

def RunMessage.saved (m : RunMessage) (spec : WorkloadSpec) : SavedSpec where
  imageRoot := RuntimeService.strippedDigest m.rootDigest
  command := m.command
  env := spec.env
  cpuMillicores := spec.cpuMillicores
  memoryBytes := spec.memoryBytes
  networkRules := spec.networkRules
  kernelImageRef := m.kernelImage
  bridgeName := spec.bridgeName
  mounts := spec.mounts
  healthCheck := spec.healthCheck
  networkMode := networkModeStr spec.networkMode
  privileged := spec.privileged
  readonlyRootfs := spec.readonlyRootfs
  noNewPrivileges := spec.noNewPrivileges
  seccompProfile := spec.seccompProfile
  allowedSyscalls := spec.allowedSyscalls
  dns := spec.dns

/-! ## The restart -/

def Backend.asStr : Backend → Str
  | .container => "container".toList
  | .containerRootless => "container-rootless".toList
  | .vm => "vm".toList
  | .sandbox => "sandbox".toList

/-- The spec that `attempt_restart` hands to the executor, if it comes to that. The text of a backend
    is lower-case ASCII. -/
def rebuildSpec (id : Str) (st : WorkloadState SavedSpec) : Option WorkloadSpec :=
  let networkMode :=
    if st.spec.networkMode ≠ [] then st.spec.networkMode
    else if st.internalIp.isSome then "bridge".toList
    else "isolated".toList
  if st.status ≠ .exited then none
  else
    match Backend.fromStr (st.backend.asStr.map Char.toLower), Digest.fromHex st.spec.imageRoot with
    | some backend, .ok imageRoot =>
      some
        { id := id
          imageRoot := imageRoot
          backend := backend
          command := st.spec.command
          env := st.spec.env
          cpuMillicores := st.spec.cpuMillicores
          memoryBytes := st.spec.memoryBytes
          networkMode := parseNetworkMode networkMode (!st.spec.networkRules.isEmpty)
          networkRules := st.spec.networkRules
          -- Skipped on purpose; both branches of the source are `None`.
          kernelPath := none
          bridgeName := st.spec.bridgeName
          mounts := st.spec.mounts
          healthCheck := st.spec.healthCheck
          restartPolicy := .always
          readonlyRootfs := st.spec.readonlyRootfs
          noNewPrivileges := st.spec.noNewPrivileges
          seccompProfile := st.spec.seccompProfile
          allowedSyscalls := st.spec.allowedSyscalls
          privileged := st.spec.privileged
          dns := st.spec.dns }
    | _, _ => none

end Pullrun
