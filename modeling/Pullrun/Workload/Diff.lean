import Mathlib.Data.Char
import Mathlib.Data.List.Lex
import Pullrun.Workload.CopyFile
import Pullrun.Workload.Spec

/-!
# `diff_workload`

`diff_workload` of `pullrun-runtime/src/service.rs`, with `walk_rootfs_for_diff` and `walk_dag_tree`:
the files of a workload's root filesystem against those of its image. Each walk fills a map from
paths to hexadecimal digests, and the two maps are compared.

The walks are recursive, over directories and over tree nodes. A directory tree is finite; what an
image that is not the converter's refers to may be anything. Both recursions have fuel here, and
`none` is one that has not come to an end.
-/

namespace Pullrun

open FileTree

/-- `HashMap<String, String>`: paths and digests. -/
abbrev FileDigests := List (Str × Str)

structure DiffResponse where
  added : List Str
  deleted : List Str
  modified : List Str
deriving DecidableEq

inductive DagWalkError
  /-- `parse digest {manifest_digest}: {e}` -/
  | parseDigest (manifestDigest : Str) (e : Digest.ParseError)
  /-- `failed to read manifest {manifest_digest}: {e}` -/
  | readManifest (manifestDigest : Str) (e : StoreError)
  /-- `not a manifest node` -/
  | notManifest
  /-- `failed to read layer: {e}` -/
  | readLayer (e : StoreError)
  /-- `failed to read tree: {e}` -/
  | readTree (e : StoreError)
deriving DecidableEq

inductive DiffError
  /-- `id is required` -/
  | required
  /-- `workload {id} not found` -/
  | unknownWorkload (id : Str)
  /-- `rootfs not materialized for workload {id}` -/
  | notMaterialized (id : Str)
  /-- `walk rootfs: {e}` -/
  | walkRootfs (e : Errno)
  /-- `walk image DAG: {e}` -/
  | walkImageDag (e : DagWalkError)
deriving DecidableEq

/-- A loop that adds to the map of files, and that an error ends. -/
def collectFiles {α ε : Type} (body : α → FileDigests → Option (Except ε FileDigests)) :
    List α → FileDigests → Option (Except ε FileDigests)
  | [], files => some (.ok files)
  | a :: as, files =>
    match body a files with
    | none => none
    | some (.error e) => some (.error e)
    | some (.ok files) => collectFiles body as files

/-! ## The root filesystem -/

/-- The bytes that stand for a file or a link: the contents, or the target. -/
def leafBytes (x : Text) {α : Type} : Inode Bytes α → Bytes
  | .file content _ => content
  | .symlink target => x.utf8 target
  | .dir _ => []

/-- `walk_dir_recursive`, in the directory `root ++ rel`. -/
def walkDirRecursive (F : Formats) (fs : Fs Bytes Attr) (root : Loc) :
    ℕ → Loc → FileDigests → Option (Except Errno FileDigests)
  | 0, _, _ => none
  | fuel + 1, rel, files =>
    match fs.readDir (Loc.path (root ++ rel)) with
    | .error e => some (.error e)
    | .ok names =>
      collectFiles (fun name files =>
        let relative := rel ++ [name]
        match fs.lookup (root ++ relative) with
        | none => some (.error .notFound)
        | some (.dir _) => walkDirRecursive F fs root fuel relative files
        | some leaf =>
          some (.ok (Value.insertKey files relative.text
            (F.codec.sha256 (leafBytes F.text leaf)).asHex))) names files

def walkRootfsForDiff (F : Formats) (fs : Fs Bytes Attr) (cwd rootfs : Str) (fuel : ℕ) :
    Option (Except Errno FileDigests) :=
  match fs.nodes.canonicalize cwd (components rootfs) with
  | .error e => some (.error e)
  | .ok root => walkDirRecursive F fs root fuel [] []

/-! ## The image -/

section

variable {κ : Type} (j : SerdeJson) (v : StoreView κ)

def walkTreeNode : ℕ → Digest → Str → FileDigests → Option (Except DagWalkError FileDigests)
  | 0, _, _, _ => none
  | fuel + 1, treeDigest, path, files =>
    match v.getArchived treeDigest with
    | .error e => some (.error (.readTree e))
    | .ok treeNode =>
      if treeNode.kind ≠ .tree then some (.ok files)
      else
        collectFiles (fun entry files =>
          let childPath := OciMaterializer.entryPath path entry.name
          -- The digest of a directory's entry is taken for that of its tree.
          if entry.isDir then walkTreeNode fuel entry.digest childPath files
          else some (.ok (Value.insertKey files childPath entry.digest.asHex)))
          (DirectoryEntry.fromInlineBytes j treeNode.inlineData) files

/-- One layer of the manifest: the first edge is its tree. -/
def walkLayerEdge (fuel : ℕ) (layerEdge : Digest) (files : FileDigests) :
    Option (Except DagWalkError FileDigests) :=
  match v.getArchived layerEdge with
  | .error e => some (.error (.readLayer e))
  | .ok layerNode =>
    if layerNode.kind ≠ .layer then some (.ok files)
    else
      match layerNode.edges.head? with
      | none => some (.ok files)
      | some treeDigest => walkTreeNode j v fuel treeDigest [] files

def walkDagTree (fuel : ℕ) (manifestDigest : Str) : Option (Except DagWalkError FileDigests) :=
  match Digest.fromHex manifestDigest with
  | .error e => some (.error (.parseDigest manifestDigest e))
  | .ok digest =>
    match v.getArchived digest with
    | .error e => some (.error (.readManifest manifestDigest e))
    | .ok manifestNode =>
      if manifestNode.kind ≠ .manifest then some (.error .notManifest)
      else collectFiles (walkLayerEdge j v fuel) manifestNode.edges []

end

/-! ## The request -/

def pathsWhere (files : FileDigests) (p : Str × Str → Bool) : List Str :=
  ((files.filter p).map Prod.fst).insertionSort (· ≤ ·)

def compareFiles (containerFiles originalFiles : FileDigests) : DiffResponse where
  added := pathsWhere containerFiles fun f => (originalFiles.lookup f.1).isNone
  deleted := pathsWhere originalFiles fun f => (containerFiles.lookup f.1).isNone
  modified := pathsWhere containerFiles fun f =>
    match originalFiles.lookup f.1 with
    | some origDigest => origDigest ≠ f.2
    | none => false

def CopyEnv.diffTarget (env : CopyEnv SavedSpec) (id : Str) : Except DiffError (Str × Str) :=
  if id = [] then .error .required
  else
    match env.workloads.lookup id with
    | none => .error (.unknownWorkload id)
    | some state =>
      if state.backend = .vm ∨ state.backend = .sandbox then
        match env.rootfsCache.lookup id with
        | none => .error (.notMaterialized id)
        | some rootfs => .ok (rootfs, state.spec.imageRoot)
      else
        .ok (joinText (joinText env.bundleRoot id) "rootfs".toList, state.spec.imageRoot)

def CopyEnv.diffWorkload (env : CopyEnv SavedSpec) (F : Formats) {κ : Type} (v : StoreView κ)
    (fs : Fs Bytes Attr) (fuel : ℕ) (id : Str) : Option (Except DiffError DiffResponse) :=
  match env.diffTarget id with
  | .error e => some (.error e)
  | .ok (rootfsPath, imageRoot) =>
    match walkRootfsForDiff F fs env.cwd rootfsPath fuel with
    | none => none
    | some (.error e) => some (.error (.walkRootfs e))
    | some (.ok containerFiles) =>
      match walkDagTree F.json v fuel imageRoot with
      | none => none
      | some (.error e) => some (.error (.walkImageDag e))
      | some (.ok originalFiles) => some (.ok (compareFiles containerFiles originalFiles))

end Pullrun
