import Pullrun.Oci.Converter
import Pullrun.Oci.Materializer

/-!
# Committing a directory

`pullrun-oci/src/dockerfile.rs`: `build_dag_from_directory` turns a directory of the host into an
image, for `commit` and for every step of a build. It goes over the directory three times:
`WalkDir` collects what is there, the contents of every file are stored, and then the tree is built
from a second walk, `build_dir_entry_tree`, and stored, `build_tree`.

The first walk does not follow links. The second one does: it asks `read_dir` and `metadata` about
every child, and both look through a link. A link to a directory above it is thus followed until
the kernel gives up at the forty-first link of a path; the recursion here has fuel, and `none` is a
recursion that has not come to an end.
-/

namespace Pullrun

open FileTree

/-- `OciError`, as far as a commit raises it. -/
inductive CommitError
  /-- `canonicalize {dir:?}: {e}` -/
  | canonicalize (e : Errno)
  /-- `store tree: {e}` -/
  | storeTree (e : StoreError)
  | store (e : StoreError)
deriving DecidableEq

/-! ## First walk -/

/-- `dir.canonicalize()` -/
def canonicalize (src : Fs Bytes Attr) (path : List Seg) : Except Errno Loc :=
  match src.nodes.resolve true path with
  | .error e => .error e
  | .ok dir => if dir = [] ∨ (src.lookup dir).isSome then .ok dir else .error .notFound

/-- `WalkDir::new(dir).sort_by_file_name()`: the paths below `dir ++ rel`, relative to `dir`, to the
    given depth. -/
def walkDir (src : Nodes Bytes Attr) (dir : Loc) : ℕ → Loc → List Loc
  | 0, _ => []
  | depth + 1, rel =>
    ((src.children (dir ++ rel)).insertionSort (· ≤ ·)).flatMap fun name =>
      (rel ++ [name]) ::
        match src.lookup (dir ++ (rel ++ [name])) with
        | some (.dir _) => walkDir src dir depth (rel ++ [name])
        | _ => []

/-! ## Contents -/

/-- A digest and a size, by relative path. -/
abbrev Results := List (Loc × (Digest × UInt64))

structure Digested where
  store : MmapStore
  fileResults : Results := []
  symlinkResults : Results := []

/-- One entry of the walk. A file that cannot be stored is passed over, and so is an empty one. -/
def digestEntry (F : Formats) (src : Nodes Bytes Attr) (dir : Loc) (p : Digested) (rel : Loc) :
    Digested :=
  match src.lookup (dir ++ rel) with
  | some (.symlink target) =>
    match p.store.putBlocking F.codec (.blob (F.text.utf8 target)) with
    | (.error _, store) => { p with store }
    | (.ok d, store) =>
      { p with
        store
        symlinkResults := (rel, d, UInt64.ofNat (F.text.utf8 target).length) :: p.symlinkResults }
  | some (.file data _) =>
    if data = [] then p
    else
      let size := UInt64.ofNat data.length
      match p.store.putBlocking F.codec (.blob data) with
      | (.error _, store) => { p with store }
      | (.ok d, store) =>
        { p with
          store := if size > smallFileThreshold then store.putBlobBlocking d data else store
          fileResults := (rel, d, size) :: p.fileResults }
  | _ => p

/-! ## Second walk -/

inductive DirEntry
  | mk (name : Str) (isDir : Bool) (fileDigest : Digest) (mode : UInt32) (size : UInt64)
    (children : List DirEntry)

namespace DirEntry

def name : DirEntry → Str
  | mk name _ _ _ _ _ => name

def isDir : DirEntry → Bool
  | mk _ isDir _ _ _ _ => isDir

def mode : DirEntry → UInt32
  | mk _ _ _ mode _ _ => mode

def size : DirEntry → UInt64
  | mk _ _ _ _ size _ => size

end DirEntry

/-- `m.permissions().readonly()` -/
def isReadonly (mode : UInt32) : Bool := mode &&& 0o222 = 0

/-- The mode in a `DirEntry`, from what `metadata` says. -/
def entryMode (isDir : Bool) : Except Errno Attr → UInt32
  | .error _ => 0o644
  | .ok stat => if isReadonly stat.mode then 0o444 else if isDir then 0o755 else 0o644

/-- The digest and size in a `DirEntry`. -/
def entryDigest (p : Digested) (isDir isSymlink : Bool) (rel : Loc) : Digest × UInt64 :=
  if isSymlink then (p.symlinkResults.lookup rel).getD (zeroDigest, 0)
  else if isDir then (zeroDigest, 0)
  else (p.fileResults.lookup rel).getD (zeroDigest, 0)

def buildDirEntryTree (src : Fs Bytes Attr) (dir : Loc) (p : Digested) : ℕ → Loc → Option DirEntry
  | 0, _ => none
  | fuel + 1, rel =>
    let current := (dir ++ rel).path
    let names :=
      match src.readDir current with
      | .ok names => names
      | .error _ => []
    match Value.readAll (fun name => buildDirEntryTree src dir p fuel (rel ++ [name])) names with
    | none => none
    | some children =>
      let isDir := src.isDirAt current
      -- `metadata` follows links: what it describes is never one.
      let isSymlink := false
      let (fileDigest, size) := entryDigest p isDir isSymlink rel
      some ⟨rel.getLast?.getD ['/'], isDir, fileDigest, entryMode isDir (src.metadata current),
        size, children⟩

/-! ## Trees -/

structure Build where
  store : MmapStore
  nodeCount : ℕ := 0
  blobBytes : UInt64 := 0

/-- The JSON object of a child, as the `json!` macro builds it: a map sorted by key. -/
def entryLine (child : DirEntry) (d : Digest) : Value :=
  .obj [(DirectoryEntry.fDigest, .str d.asHex), (DirectoryEntry.fIsDir, .bool child.isDir),
    (DirectoryEntry.fIsSymlink, .bool false), (DirectoryEntry.fMode, .num child.mode.toNat),
    (DirectoryEntry.fName, .str child.name), (DirectoryEntry.fSize, .num child.size.toNat)]

/-- `serde_json::to_vec(v).unwrap_or_default()` -/
def SerdeJson.toVecOrDefault (j : SerdeJson) (v : Value) : Bytes :=
  match j.toVec v with
  | .ok b => b
  | .error _ => []

def entryLines (j : SerdeJson) (lines : List Value) : Bytes :=
  lines.flatMap fun v => j.toVecOrDefault v ++ [10]

mutual

def buildTree (F : Formats) : DirEntry → Build → Except CommitError Digest × Build
  | ⟨_, isDir, fileDigest, _, size, children⟩, b =>
    if isDir then
      match buildChildren F children b with
      | (.error e, b) => (.error e, b)
      | (.ok built, b) =>
        match b.store.putBlocking F.codec
            ⟨.tree, built.map Prod.fst, entryLines F.json (built.map Prod.snd)⟩ with
        | (.error e, store) => (.error (.storeTree e), { b with store })
        | (.ok d, store) => (.ok d, { b with store, nodeCount := b.nodeCount + 1 })
    else if fileDigest = zeroDigest then (.ok fileDigest, b)
    else (.ok fileDigest, { b with blobBytes := b.blobBytes + size })

/-- The loop of `build_tree`: the digest and the line of each child. -/
def buildChildren (F : Formats) :
    List DirEntry → Build → Except CommitError (List (Digest × Value)) × Build
  | [], b => (.ok [], b)
  | child :: rest, b =>
    match buildTree F child b with
    | (.error e, b) => (.error e, b)
    | (.ok d, b) =>
      match buildChildren F rest b with
      | (.error e, b) => (.error e, b)
      | (.ok built, b) => (.ok ((d, entryLine child d) :: built), b)

end

/-! ## Images -/

structure DagDirectory where
  manifestDigest : Digest
  nodeCount : ℕ
  blobBytes : UInt64
deriving DecidableEq

def committedManifest (architecture os : Str) : ManifestData where
  entrypoint := []
  cmd := []
  env := []
  workingDir := none
  architecture := architecture
  os := os

def wrapTree (F : Formats) (architecture os : Str) (tree : Digest) (b : Build) :
    Except CommitError DagDirectory × MmapStore :=
  match b.store.put F.codec ⟨.layer, [tree], F.text.utf8 ['/']⟩ with
  | (.error e, s) => (.error (.store e), s)
  | (.ok layer, s) =>
    let inline := F.json.toVecOrDefault ((committedManifest architecture os).toValue {})
    match s.put F.codec ⟨.manifest, [layer], inline⟩ with
    | (.error e, s) => (.error (.store e), s)
    | (.ok manifest, s) => (.ok ⟨manifest, b.nodeCount + 2, b.blobBytes⟩, s)

def buildDagFromDirectoryWithPlatform (F : Formats) (fuel : ℕ) (src : Fs Bytes Attr)
    (path : List Seg) (architecture os : Str) (s : MmapStore) :
    Option (Except CommitError DagDirectory × MmapStore) :=
  match canonicalize src path with
  | .error e => some (.error (.canonicalize e), s)
  | .ok dir =>
    let entries := [] :: walkDir src.nodes dir (src.nodes.length + 1) []
    let p := entries.foldl (digestEntry F src.nodes dir) { store := s }
    match buildDirEntryTree src dir p fuel [] with
    | none => none
    | some rootEntry =>
      match buildTree F rootEntry { store := p.store } with
      | (.error e, b) => some (.error e, b.store)
      | (.ok tree, b) => some (wrapTree F architecture os tree b)

def buildDagFromDirectory (F : Formats) (fuel : ℕ) (src : Fs Bytes Attr) (path : List Seg)
    (s : MmapStore) : Option (Except CommitError DagDirectory × MmapStore) :=
  buildDagFromDirectoryWithPlatform F fuel src path "amd64".toList "linux".toList s

end Pullrun
