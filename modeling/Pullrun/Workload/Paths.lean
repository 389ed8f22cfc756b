import Pullrun.Lib.FileTree
import Pullrun.Workload.Checkpoint

/-!
# The paths of a workload

What is built from a workload id and later created, written or removed: the bundle
(`bundle_dir` of `pullrun-exec/src/container.rs`, for both executors), the checkpoint and the staged
secrets (`pullrun-runtime/src/service.rs`), and the directory and the disk image of a VM (`vm_dir` of
`pullrun-vm/src/lib.rs`, `ext4_path_for` of `ext4.rs`). Each is a file name joined to one of four
directories.

Two of these directories have a directory of the daemon's own among the workloads': the warm pool boots its
machines below `vm_root/pool` (`service.rs`, `pool.rs`), where the machines of other workloads go on running,
and the builder runs its containers below `bundles/build`.
-/

namespace Pullrun

open FileTree

structure PathConfig where
  storeRoot : Str
  vmRoot : Str
  warmPoolSize : ℕ

inductive BaseDir
  | bundles
  | checkpoints
  | secretsStage
  | vms
deriving DecidableEq

def BaseDir.path (cfg : PathConfig) : BaseDir → List Seg
  | .bundles => join (segs cfg.storeRoot) "bundles".toList
  | .checkpoints => join (segs cfg.storeRoot) "checkpoints".toList
  | .secretsStage => join (join (segs cfg.storeRoot) "run".toList) "secrets-stage".toList
  | .vms => segs cfg.vmRoot

/-- `ext4_path_for`: the name of the image. -/
def ext4Name (id : Str) : Str := id ++ ".ext4".toList

inductive IdPath
  | bundleDir
  | checkpoint
  | stagedSecretDir
  | vmDir
  | ext4Image
deriving DecidableEq

namespace IdPath

def base : IdPath → BaseDir
  | bundleDir => .bundles
  | checkpoint => .checkpoints
  | stagedSecretDir => .secretsStage
  | vmDir | ext4Image => .vms

def name (id : Str) : IdPath → Str
  | bundleDir | stagedSecretDir | vmDir => id
  | checkpoint => checkpointName id
  | ext4Image => ext4Name id

def path (cfg : PathConfig) (id : Str) (k : IdPath) : List Seg :=
  join (k.base.path cfg) (k.name id)

end IdPath

inductive OwnDir
  | build
  | pool
deriving DecidableEq

namespace OwnDir

def base : OwnDir → BaseDir
  | build => .bundles
  | pool => .vms

def name : OwnDir → Str
  | build => "build".toList
  | pool => "pool".toList

def path (cfg : PathConfig) (d : OwnDir) : List Seg := join (d.base.path cfg) d.name

/-- There is a pool only with `warm_pool_size > 0`. -/
def InUse (cfg : PathConfig) : OwnDir → Prop
  | build => True
  | pool => 0 < cfg.warmPoolSize

instance (cfg : PathConfig) : ∀ d, Decidable (InUse cfg d)
  | build => inferInstanceAs (Decidable True)
  | pool => inferInstanceAs (Decidable (_ < _))

end OwnDir

end Pullrun
