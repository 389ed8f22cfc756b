import Pullrun.Lib.FileCanonical
import Pullrun.Oci.Materializer
import Pullrun.Workload.Checkpoint

/-!
# `copy_file`

`copy_file` of `pullrun-runtime/src/service.rs`, on the host's file system: a file is read out of a
workload's root filesystem or written into it. A path is its components, as `std::path` has them, and
`canonicalize` follows links the way the kernel does. Of the metadata of a file, the mode and the length
are reported.
-/

namespace Pullrun

open FileTree

structure CopyFileRequest where
  id : Str
  containerPath : Str
  /-- `in` or `out` -/
  direction : Str
  content : Bytes
  mode : UInt32
deriving DecidableEq

structure CopyFileResponse where
  id : Str
  containerPath : Str
  content : Bytes
  mode : UInt32
  size : ℕ
deriving DecidableEq

inductive CopyError
  /-- `id and container_path are required` -/
  | required
  /-- `workload {id} not found` -/
  | unknownWorkload (id : Str)
  /-- `rootfs not materialized for workload {id}` -/
  | notMaterialized (id : Str)
  /-- `cannot resolve parent path: {e}` -/
  | resolveParent (e : Errno)
  /-- `container_path escapes the root filesystem` -/
  | escapes
  /-- `container_path has no filename` -/
  | noFilename
  /-- `cannot resolve path: {e}` -/
  | resolvePath (e : Errno)
  /-- `file not found: {e}` -/
  | fileNotFound (e : Errno)
  /-- `path is not a file` -/
  | notAFile
  /-- `create dirs: {e}` -/
  | createDirs (e : Errno)
  /-- `write error: {e}` -/
  | writeError (e : Errno)
  /-- `chmod error: {e}` -/
  | chmodError (e : Errno)
  /-- `stat error: {e}` -/
  | statError (e : Errno)
  /-- `invalid direction: {other}; expected 'in' or 'out'` -/
  | invalidDirection (other : Str)
deriving DecidableEq

/-! ## Paths -/

/-- `dir.join(p)`, as text. -/
def joinText (dir p : Str) : Str :=
  if isAbsolute p then p
  else if dir = [] ∨ dir.getLast? = some '/' then dir ++ p
  else dir ++ '/' :: p

def parentOf (cs : List Component) : Option (List Component) :=
  match cs.getLast? with
  | none | some .rootDir => none
  | some _ => some cs.dropLast

def fileNameOf (cs : List Component) : Option Name :=
  match cs.getLast? with
  | some (.normal n) => some n
  | _ => none

/-- `rootfs_path.join(container_path.trim_start_matches('/'))` -/
def fullPath (rootfs : Str) (req : CopyFileRequest) : List Component :=
  components (joinText rootfs (req.containerPath.dropWhile (· = '/')))

/-! ## The request -/

section Copy

variable (cwd rootfs : Str) (req : CopyFileRequest) (s : Fs Bytes Attr)

/-- The destination of a file that is copied in: the parent is canonicalized and checked, and the file
    name put after it. -/
def destination : Except CopyError Loc :=
  let full := fullPath rootfs req
  match s.nodes.canonicalize cwd ((parentOf full).getD (components rootfs)) with
  | .error e => .error (.resolveParent e)
  | .ok parent =>
    if components rootfs <+: parent.components then
      match fileNameOf full with
      | none => .error .noFilename
      | some name => .ok (parent ++ [name])
    else .error .escapes

def canonicalPath : Except CopyError Loc :=
  if req.direction = "in".toList then destination cwd rootfs req s
  else
    match s.nodes.canonicalize cwd (fullPath rootfs req) with
    | .error e => .error (.resolvePath e)
    | .ok l => .ok l

def chmodTo (mode : UInt32) (attr : Attr) : Attr := { attr with mode := mode &&& 0o7777 }

/-- `metadata.permissions().mode()`, with the bits of the type. -/
def modeBits : Inode Bytes Attr → UInt32
  | .file _ attr => 0o100000 ||| attr.mode
  | .dir attr => 0o40000 ||| attr.mode
  | .symlink _ => 0o120777

/-- `metadata.len()`; that of a directory is up to the file system. -/
def inodeLen : Inode Bytes Attr → ℕ
  | .file content _ => content.length
  | .dir _ => 0
  | .symlink target => target.length

def respond (content : Bytes) (metadata : Inode Bytes Attr) : CopyFileResponse :=
  ⟨req.id, req.containerPath, content, modeBits metadata, inodeLen metadata⟩

def copyOut (canonical : Loc) : Except CopyError CopyFileResponse :=
  match s.stat canonical.path with
  | .error e => .error (.fileNotFound e)
  | .ok (.file content attr) => .ok (respond req content (.file content attr))
  | .ok _ => .error .notAFile

def applyMode (canonical : Loc) : Except CopyError (Fs Bytes Attr) :=
  if req.mode = 0 then .ok s
  else
    match s.setAttr (chmodTo req.mode) canonical.path with
    | .error e => .error (.chmodError e)
    | .ok s => .ok s

def copyIn (canonical : Loc) : Except CopyError CopyFileResponse × Fs Bytes Attr :=
  match s.createDirAll (Loc.path canonical.dropLast) with
  | (.error e, s) => (.error (.createDirs e), s)
  | (.ok _, s) =>
    match s.write req.content canonical.path with
    | .error e => (.error (.writeError e), s)
    | .ok s =>
      match applyMode req s canonical with
      | .error e => (.error e, s)
      | .ok s =>
        match s.stat canonical.path with
        | .error e => (.error (.statError e), s)
        | .ok metadata => (.ok (respond req [] metadata), s)

/-- The request, for a workload whose root filesystem is at `rootfs`. -/
def copyAt : Except CopyError CopyFileResponse × Fs Bytes Attr :=
  match canonicalPath cwd rootfs req s with
  | .error e => (.error e, s)
  | .ok canonical =>
    if ¬ components rootfs <+: canonical.components then (.error .escapes, s)
    else if req.direction = "out".toList then (copyOut req s canonical, s)
    else if req.direction = "in".toList then copyIn req s canonical
    else (.error (.invalidDirection req.direction), s)

end Copy

structure CopyEnv (σ : Type) where
  cwd : Str
  workloads : WorkloadTable σ
  rootfsCache : Finmap fun _ : Str => Str
  bundleRoot : Str

namespace CopyEnv

variable {σ : Type} (env : CopyEnv σ) (req : CopyFileRequest)

def rootfsPath : Except CopyError Str :=
  if req.id = [] ∨ req.containerPath = [] then .error .required
  else
    match env.workloads.lookup req.id with
    | none => .error (.unknownWorkload req.id)
    | some st =>
      if st.backend = .vm ∨ st.backend = .sandbox then
        match env.rootfsCache.lookup req.id with
        | none => .error (.notMaterialized req.id)
        | some rootfs => .ok rootfs
      else .ok (joinText (joinText env.bundleRoot req.id) "rootfs".toList)

def copyFile (s : Fs Bytes Attr) : Except CopyError CopyFileResponse × Fs Bytes Attr :=
  match env.rootfsPath req with
  | .error e => (.error e, s)
  | .ok rootfs => copyAt env.cwd rootfs req s

end CopyEnv

end Pullrun
