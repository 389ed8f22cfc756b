import Pullrun.Lib.FileCanonical
import Pullrun.Service.Run
import Pullrun.Workload.Checkpoint

/-!
# `run_workload` on a host

`run_workload` of `pullrun-runtime/src/service.rs`, `ExecutorRouter` there, and `create` and `start` of
`LinuxContainerExecutor` in `pullrun-exec/src/container.rs`. A host is what they change: runc's
containers, the bundle directories, the staged secrets and the workload table.

A bundle directory has an identity (a number): a directory that is removed and made again is another
one, and a container runs on the one it was started with. runc refuses to run an id it already has, and
`delete --force` kills and removes a container. What else an executor depends on (is runc there, does
the image materialize, can the network be set up, does the VM start) is the outcome that a request is
given. The daemon runs as root, so that it has no rootless executor, and its file operations succeed.
-/

namespace Pullrun

open FileTree

/-! ## Requests -/

inductive NetworkMode
  | bridge
  | host
  | slirp
  | loopback
  | container (target : Str)
deriving DecidableEq

/-- Is the network namespace that of another workload? -/
def NetworkMode.joins : NetworkMode → Bool
  | .container _ => true
  | .bridge | .host | .slirp | .loopback => false

structure MountRequest where
  type : Str
  source : Str
  destination : Str
  options : List Str
deriving DecidableEq

/-- A `SecretRef` or a `ConfigRef`; the target is only a mount destination. -/
structure StageRequest where
  name : Str
  targetPath : Str
deriving DecidableEq

/-- `RunRequest`, less what is only copied into the spec. -/
structure RunRequest where
  id : Str
  rootDigest : Str
  backend : Str
  networkMode : Str
  /-- Is there a network rule whose direction is `inbound`? -/
  hasInboundPorts : Bool
  kernelImage : Str
  secrets : List StageRequest
  configs : List StageRequest
  mounts : List MountRequest
  restartPolicy : RestartPolicy

inductive LaunchError
  | invalidId (e : IdError)
  /-- `unknown backend: {other}` -/
  | unknownBackend
  /-- `a workload cannot join its own network namespace` -/
  | joinsItself
  /-- `network mode 'container:<id>' is only valid for container backends` -/
  | joinOfVm
  /-- `cannot join network namespace of '{target}': target is not a container backend` -/
  | joinNoContainer (target : Str)
  /-- `cannot join network namespace of '{target}': no such workload` -/
  | joinUnknown (target : Str)
  /-- `backend=vm requires kernel_image` -/
  | kernelRequired
  /-- `stage kernel {kernel_image}: {e}` -/
  | stageKernel
  | policy (e : RequestError)
  /-- `invalid digest: {e}`, `invalid root_digest: {e}` -/
  | invalidDigest (e : Digest.ParseError)
  /-- `read manifest for arch check: {e}` -/
  | readManifest
  /-- `cross-arch binfmt setup: {e}` -/
  | binfmt
  /-- `secret '{name}': {e}`, `config '{name}': {e}` -/
  | stageSource (name : Str)
  /-- `stage secret '{name}': {e}`, `stage config '{name}': {e}` -/
  | stageFile (name : Str)
  /-- `bind mount source must not be empty` -/
  | mountSource
  /-- `refusing to bind-mount the host root filesystem` -/
  | mountHostRoot
  /-- `refusing to bind-mount the pullrun store` -/
  | mountStore
  /-- `unsupported mount type '{other}'` -/
  | mountType
  /-- `mount destination must be an absolute path` -/
  | mountRelative
  /-- `mount destination must not contain '..'` -/
  | mountParent
  /-- `create failed: {e}` -/
  | createFailed
  /-- `start failed: {e}` -/
  | startFailed
deriving DecidableEq

structure LaunchEnv where
  /-- `str::to_lowercase` -/
  toLowercase : Str → Str
  /-- `std::fs::canonicalize`, where it succeeds -/
  canonicalize : Str → Option Str
  storeRoot : Str
  policyFormats : PolicyFormats
  policyEngine : Option PolicyEngine
  imageTags : TagTable
  store : MmapStore
  manifestArch : Digest → Option Str
  currentArch : Str
  ensureBinfmt : Str → Bool
  /-- `config.vm_backend.is_some()`, which is also when there is a VM executor. -/
  vmBackend : Bool
  kernelStaged : Str → Bool
  readSecretRaw : Str → Option Bytes
  readConfigRaw : Str → Option Bytes

/-! ## The checks -/

/-- `Backend::from_str`, on the lowercased text. -/
def Backend.fromStr (s : Str) : Option Backend :=
  if s = "container".toList then some .container
  else if s = "container-rootless".toList then some .containerRootless
  else if s = "vm".toList ∨ s = "firecracker".toList then some .vm
  else if s = "sandbox".toList then some .sandbox
  else none

def parseNetworkMode (s : Str) (hasInboundPorts : Bool) : NetworkMode :=
  match Digest.stripPrefix "container:".toList s with
  | some target => .container target
  | none =>
    if s = "bridge".toList then .bridge
    else if s = "host".toList then .host
    else if s = "slirp".toList then .slirp
    else if hasInboundPorts then .bridge
    else .loopback

/-- Does the backend's name start with `container`? -/
def Backend.isContainer : Backend → Bool
  | .container | .containerRootless => true
  | .vm | .sandbox => false

section Checks

variable {σ : Type} (env : LaunchEnv) (table : WorkloadTable σ) (req : RunRequest)

def checkJoin (backend : Backend) : Except LaunchError Unit :=
  match parseNetworkMode req.networkMode req.hasInboundPorts with
  | .container target =>
    if target = req.id then .error .joinsItself
    else if backend = .vm then .error .joinOfVm
    else
      match table.lookup target with
      | none => .error (.joinUnknown target)
      | some st => if st.backend.isContainer then .ok () else .error (.joinNoContainer target)
  | .bridge | .host | .slirp | .loopback => .ok ()

def checkKernel (backend : Backend) : Except LaunchError Unit :=
  if backend ≠ .vm then .ok ()
  else if req.kernelImage = [] then
    if env.vmBackend then .ok () else .error .kernelRequired
  else if env.kernelStaged req.kernelImage then .ok () else .error .stageKernel

def checkPolicy : Except LaunchError Unit :=
  match RuntimeService.evaluateForRun env.policyFormats env.policyEngine env.imageTags env.store
      (RuntimeService.strippedDigest req.rootDigest) with
  | some e => .error (.policy e)
  | none => .ok ()

def checkDigest : Except LaunchError Digest :=
  match RuntimeService.runDigest req.rootDigest with
  | .error e => .error (.invalidDigest e)
  | .ok root => .ok root

def checkArch (backend : Backend) : Except LaunchError Unit :=
  if backend = .vm then .ok ()
  else
    match checkDigest req with
    | .error e => .error e
    | .ok root =>
      match env.manifestArch root with
      | none => .error .readManifest
      | some arch =>
        if arch = env.currentArch ∨ env.ensureBinfmt arch = true then .ok () else .error .binfmt

/-- One mount of `sanitize_mounts`: what its type asks of the source. -/
def checkSource (m : MountRequest) : Except LaunchError Unit :=
  if m.type = "bind".toList then
    if m.source = [] then .error .mountSource
    else
      let canonical := (env.canonicalize m.source).getD m.source
      if components canonical = [.rootDir] then .error .mountHostRoot
      else if components env.storeRoot <+: components canonical then .error .mountStore
      else .ok ()
  else if m.type = "tmpfs".toList ∨ m.type = "volume".toList then .ok ()
  else .error .mountType

def checkDestination (m : MountRequest) : Except LaunchError Unit :=
  if ¬ isAbsolute m.destination then .error .mountRelative
  else if .up ∈ segs m.destination then .error .mountParent
  else .ok ()

def sanitizeMounts : List MountRequest → Except LaunchError Unit
  | [] => .ok ()
  | m :: ms => do
    checkSource env m
    checkDestination m
    sanitizeMounts ms

def checkRequest : Except LaunchError Backend :=
  match validateWorkloadId req.id, Backend.fromStr (env.toLowercase req.backend) with
  | .error e, _ => .error (.invalidId e)
  | .ok _, none => .error .unknownBackend
  | .ok _, some backend => do
    checkJoin table req backend
    checkKernel env req backend
    checkPolicy env req
    checkArch env req backend
    return backend

end Checks

/-! ## Staging -/

/-- A directory of staged files. -/
abbrev StageDir := Finmap fun _ : Str => Bytes

/-- Each file is read and written under its name; `create_new` refuses a name that is there. -/
def stageAll (read : Str → Option Bytes) :
    StageDir → List StageRequest → Except LaunchError Unit × StageDir
  | dir, [] => (.ok (), dir)
  | dir, r :: rs =>
    match read r.name with
    | none => (.error (.stageSource r.name), dir)
    | some content =>
      match dir.lookup r.name with
      | some _ => (.error (.stageFile r.name), dir)
      | none => stageAll read (Finmap.insert r.name content dir) rs

/-! ## The host -/

structure Host (σ : Type) where
  table : WorkloadTable σ
  containers : Finmap fun _ : Str => ℕ
  bundles : Finmap fun _ : Str => ℕ
  staged : Finmap fun _ : Str => StageDir
  /-- How many sessions the proxy has been given for an id. It keeps the last one. -/
  sessions : Str → ℕ
  /-- How often a directory `vm_root/<id>`, with what is in it, has been written. -/
  vmDirs : Str → ℕ
  fresh : ℕ
  bundle_lt : ∀ {id bundle}, bundles.lookup id = some bundle → bundle < fresh

structure ExecOutcome where
  /-- `runc --version` -/
  runcFound : Bool
  built : Bool
  /-- The namespace of the join target is found and put into the config. -/
  joined : Bool
  spawned : Bool
  /-- `runc run`, for an id that is free -/
  runs : Bool
  networked : Bool
  /-- The container has ports to publish, and the proxy has a session for them. -/
  published : Bool
  /-- `FirecrackerExecutor::create` has come to `register_endpoint`, and it succeeded. -/
  vmSession : Bool
  /-- It has come to make the directory of the machine. -/
  vmDir : Bool
  vmCreated : Bool
  vmStarted : Bool
  handle : Handle
  now : ℤ

namespace Host

variable {σ : Type}

def stageDir (h : Host σ) (id : Str) : StageDir := (h.staged.lookup id).getD ∅

def setStageDir (h : Host σ) (id : Str) (dir : StageDir) : Host σ :=
  { h with staged := Finmap.insert id dir h.staged }

def stageFiles (env : LaunchEnv) (req : RunRequest) (h : Host σ) :
    Except LaunchError Unit × Host σ :=
  if req.secrets = [] ∧ req.configs = [] then (.ok (), h)
  else
    let secrets := stageAll env.readSecretRaw (h.stageDir req.id) req.secrets
    match secrets.1 with
    | .error e => (.error e, h.setStageDir req.id secrets.2)
    | .ok _ =>
      let configs := stageAll env.readConfigRaw secrets.2 req.configs
      (configs.1, h.setStageDir req.id configs.2)

def makeBundle (h : Host σ) (id : Str) : Host σ :=
  { h with
    bundles := Finmap.insert id h.fresh h.bundles
    fresh := h.fresh + 1
    bundle_lt := by
      intro id' bundle hlookup
      by_cases hid : id' = id
      · rw [hid, Finmap.lookup_insert, Option.some.injEq] at hlookup
        omega
      · rw [Finmap.lookup_insert_of_ne _ hid] at hlookup
        exact Nat.lt_succ_of_lt (h.bundle_lt hlookup) }

/-- `LinuxContainerExecutor::create`: the bundle of the id is removed, whoever runs on it, and a new
    one is made. -/
def createContainer (o : ExecOutcome) (id : Str) (h : Host σ) : Bool × Host σ :=
  if o.runcFound then (o.built, h.makeBundle id) else (false, h)

def bump (counts : Str → ℕ) (id : Str) : Str → ℕ := Function.update counts id (counts id + 1)

/-- `LinuxContainerExecutor::start`: a `runc run` that fails is followed by `runc delete --force`. A
    network that cannot be set up is an error that leaves the container running. -/
def startContainer (o : ExecOutcome) (join : Bool) (id : Str) (h : Host σ) : Bool × Host σ :=
  if join ∧ ¬ o.joined then (false, h)
  else if ¬ o.spawned then (false, h)
  else
    match h.containers.lookup id, h.bundles.lookup id with
    | none, some bundle =>
      if o.runs then
        (o.networked, { h with
          containers := Finmap.insert id bundle h.containers
          sessions := if o.published then bump h.sessions id else h.sessions })
      else (false, h)
    | _, _ => (false, { h with containers := Finmap.erase id h.containers })

/-- The container executor, as `run_workload` calls it. -/
def runContainer (o : ExecOutcome) (join : Bool) (id : Str) (h : Host σ) :
    Except LaunchError Handle × Host σ :=
  let created := h.createContainer o id
  if created.1 then
    let started := created.2.startContainer o join id
    if started.1 then (.ok { o.handle with backend := .container }, started.2)
    else (.error .startFailed, started.2)
  else (.error .createFailed, created.2)

/-- What `FirecrackerExecutor::create` does under the id, however it ends: nothing of it is undone. A machine
    that is created has its directory, with `network.json` in it. -/
def createVm (o : ExecOutcome) (id : Str) (h : Host σ) : Host σ :=
  { h with
    sessions := if o.vmSession then bump h.sessions id else h.sessions
    vmDirs := if o.vmDir ∨ o.vmCreated then bump h.vmDirs id else h.vmDirs }

/-- `ExecutorRouter::create` and `start`. -/
def execute (env : LaunchEnv) (o : ExecOutcome) (req : RunRequest) (backend : Backend) (h : Host σ) :
    Except LaunchError Handle × Host σ :=
  match backend with
  | .container =>
    h.runContainer o (parseNetworkMode req.networkMode req.hasInboundPorts).joins req.id
  | .vm =>
    if ¬ env.vmBackend then (.error .createFailed, h)
    else if ¬ o.vmCreated then (.error .createFailed, h.createVm o req.id)
    else if ¬ o.vmStarted then (.error .startFailed, h.createVm o req.id)
    else (.ok { o.handle with backend := .vm }, h.createVm o req.id)
  | .containerRootless | .sandbox => (.error .createFailed, h)

def record (o : ExecOutcome) (spec : σ) (req : RunRequest) :
    Except LaunchError Handle × Host σ → Except LaunchError Unit × Host σ
  | (.error e, h) => (.error e, h)
  | (.ok handle, h) =>
    (.ok (), { h with table := h.table.set req.id (.launched spec req.restartPolicy handle o.now) })

/-- `run_workload` after the staging: the mounts, the digest, the executor, the table. -/
def launch (env : LaunchEnv) (o : ExecOutcome) (spec : σ) (req : RunRequest) (backend : Backend)
    (h : Host σ) : Except LaunchError Unit × Host σ :=
  match sanitizeMounts env req.mounts, checkDigest req with
  | .error e, _ => (.error e, h)
  | .ok _, .error e => (.error e, h)
  | .ok _, .ok _ => record o spec req (h.execute env o req backend)

def runWorkload (env : LaunchEnv) (o : ExecOutcome) (spec : σ) (req : RunRequest) (h : Host σ) :
    Except LaunchError Unit × Host σ :=
  match checkRequest env h.table req with
  | .error e => (.error e, h)
  | .ok backend =>
    let staged := h.stageFiles env req
    match staged.1 with
    | .error e => (.error e, staged.2)
    | .ok _ => staged.2.launch env o spec req backend

end Host

end Pullrun
