import Pullrun.Oci.Entry
import Pullrun.Oci.Manifest
import Pullrun.Store.Mmap

/-!
# Converting a pulled image to DAG nodes

`pullrun-oci/src/converter.rs`. A layer is a tar archive. `extract_tar_entries_sync` reads it once,
storing the contents of every file, and turns it into directory entries, each with the path of the
directory it is in; hard links are resolved in two more passes. `store_trees` then goes down from
the root: a directory becomes a tree node that lists its entries, inside a layer node that carries
its path. A directory entry whose own directory is not listed is reached by no tree.

The archive is what the `tar` crate makes of the bytes: a list of entries, any of which may be
unreadable. Decompression is left out; a layer that does not decompress is one whose first entry is
unreadable.
-/

namespace Pullrun

structure Formats where
  codec : Codec
  json : SerdeJson
  text : Text

/-! ## Archives -/

inductive EntryType
  | regular
  | directory
  | symlink
  | hardLink
  | other
deriving DecidableEq

structure Header where
  entryType : EntryType
  mode : UInt32
  size : UInt64
  uid : UInt64
  gid : UInt64
  mtime : UInt64
  linkName : Option Str
deriving DecidableEq

/-- A tar entry: its path, its header, its PAX records and the bytes read from it. -/
structure LayerEntry where
  path : Except String Str
  header : Except String Header
  pax : List (Str × Bytes) := []
  data : Except String Bytes
deriving DecidableEq

abbrev Archive := List (Except String LayerEntry)

/-- `OciError`, as far as the converter raises it. -/
inductive ConvertError
  | io (why : String)
  | store (e : StoreError)
  /-- `expect("SerializedEntry must always serialize")` -/
  | panicked (why : String)
deriving DecidableEq

/-! ## Paths -/

/-- `path.contains("..")` -/
def containsDotDot : Str → Bool
  | '.' :: '.' :: _ => true
  | _ :: cs => containsDotDot cs
  | [] => false

/-- `split_path`: the directory and the name, trailing slashes dropped. -/
def splitPath (path : Str) : Str × Str :=
  let rev := path.reverse.dropWhile (· = '/')
  ((rev.dropWhile (· ≠ '/')).tail.reverse, (rev.takeWhile (· ≠ '/')).reverse)

def isSkipped (path : Str) : Bool := path = ['.'] || path = [] || containsDotDot path

/-! ## Whiteouts -/

inductive WhiteoutEntry
  | delete (path : Str)
  | opaqueDir (path : Str)
deriving DecidableEq

def whPrefix : Str := ".wh.".toList
def opaqueName : Str := ".wh..wh..opq".toList

/-- The whiteout that a file name stands for. -/
def whiteoutOf (parent name : Str) : WhiteoutEntry :=
  if name = opaqueName then .opaqueDir (if parent = [] then ['/'] else parent)
  else
    let deleted := (Digest.stripPrefix whPrefix name).getD name
    .delete (if parent = [] then deleted else parent ++ '/' :: deleted)

def WhiteoutEntry.node (x : Text) : WhiteoutEntry → DagNode
  | .delete path => ⟨.whiteout, [], x.utf8 path⟩
  | .opaqueDir path => ⟨.opaqueDir, [], x.utf8 path⟩

/-! ## First pass: read the archive -/

structure RawEntry where
  path : Str
  parent : Str
  name : Str
  mode : UInt32
  size : UInt64
  uid : UInt32
  gid : UInt32
  mtime : Int64
  isDir : Bool
  isSymlink : Bool
  symlinkTarget : Option Str
  isHardlink : Bool
  hardlinkTarget : Option Str
  blobDigest : Digest
  xattrs : List (Str × Bytes)
deriving DecidableEq

def zeroDigest : Digest := ⟨List.replicate 32 0, by simp⟩

def DagNode.blob (data : Bytes) : DagNode := ⟨.blob, [], data⟩

def smallFileThreshold : UInt64 := 4096

structure Scan where
  store : MmapStore
  whiteouts : List WhiteoutEntry := []
  rawEntries : List RawEntry := []
  pathToDigest : List (Str × Digest) := []

def schilyPrefix : Str := "SCHILY.xattr.".toList

/-- The extended attributes of an entry, in the order of their map. -/
def xattrsOf (seed : Seed) (pax : List (Str × Bytes)) : List (Str × Bytes) :=
  iterate seed (Value.mapOf (pax.filterMap fun e =>
    (Digest.stripPrefix schilyPrefix e.1).map fun name => (name, e.2)))

/-- A file's contents: a blob node, and a blob file too if the header says that it is large. -/
def storeFile (c : Codec) (s : MmapStore) (size : UInt64) (data : Bytes) :
    Except StoreError Digest × MmapStore :=
  match s.putBlocking c (.blob data) with
  | (.error e, s) => (.error e, s)
  | (.ok digest, s) =>
    if size > smallFileThreshold then (.ok digest, s.putBlobBlocking digest data)
    else (.ok digest, s)

def rawEntryOf (seed : Seed) (path : Str) (h : Header) (pax : List (Str × Bytes))
    (blobDigest : Digest) : RawEntry :=
  let (parent, name) := splitPath path
  { path, parent, name, blobDigest,
    mode := h.mode
    size := h.size
    uid := h.uid.toUInt32
    gid := h.gid.toUInt32
    mtime := h.mtime.toInt64
    isDir := h.entryType = .directory
    isSymlink := h.entryType = .symlink
    symlinkTarget := if h.entryType = .symlink then h.linkName else none
    isHardlink := h.entryType = .hardLink
    hardlinkTarget := if h.entryType = .hardLink then h.linkName else none
    xattrs := xattrsOf seed pax }

/-- The loop body of the first pass, for an entry whose path and header are readable. -/
def scanEntry (c : Codec) (seed : Seed) (path : Str) (h : Header) (pax : List (Str × Bytes))
    (data : Except String Bytes) (p : Scan) : Except ConvertError Unit × Scan :=
  if h.entryType ≠ .directory ∧ whPrefix <+: (splitPath path).2 then
    (.ok (), { p with
      whiteouts := p.whiteouts ++ [whiteoutOf (splitPath path).1 (splitPath path).2] })
  else if h.entryType = .directory ∨ h.entryType = .symlink then
    (.ok (), { p with rawEntries := p.rawEntries ++ [rawEntryOf seed path h pax zeroDigest] })
  else
    -- A hard link is read like a file: it has no data of its own.
    match data with
    | .error why => (.error (.io why), p)
    | .ok data =>
      match storeFile c p.store h.size data with
      | (.error e, store) => (.error (.store e), { p with store })
      | (.ok digest, store) =>
        (.ok (), { p with
          store
          pathToDigest := Value.insertKey p.pathToDigest path digest
          rawEntries := p.rawEntries ++ [rawEntryOf seed path h pax digest] })

/-- The first pass. The seeds are those of the attribute maps, by position in the archive. -/
def scan (c : Codec) (seeds : ℕ → Seed) : ℕ → Archive → Scan → Except ConvertError Unit × Scan
  | _, [], p => (.ok (), p)
  | _, .error why :: _, p => (.error (.io why), p)
  | i, .ok entry :: rest, p =>
    match entry.path with
    | .error why => (.error (.io why), p)
    | .ok path =>
      if isSkipped path then scan c seeds (i + 1) rest p
      else
        match entry.header with
        | .error why => (.error (.io why), p)
        | .ok h =>
          match scanEntry c (seeds i) path h entry.pax entry.data p with
          | (.error e, p) => (.error e, p)
          | (.ok (), p) => scan c seeds (i + 1) rest p

/-! ## Second and third pass: hard links -/

/-- The second pass: a hard link takes the digest of its target, if the target has one by now; the
    others are deferred. -/
def resolveLinks : List (Str × Digest) → List RawEntry →
    List (RawEntry × Bool) × List (Str × Digest)
  | paths, [] => ([], paths)
  | paths, raw :: rest =>
    match raw.hardlinkTarget with
    | none => let (raws, paths) := resolveLinks paths rest; ((raw, false) :: raws, paths)
    | some target =>
      match paths.lookup target with
      | some d =>
        let (raws, paths) := resolveLinks (Value.insertKey paths raw.path d) rest
        (({ raw with blobDigest := d }, false) :: raws, paths)
      | none => let (raws, paths) := resolveLinks paths rest; ((raw, true) :: raws, paths)

def retryLinks (paths : List (Str × Digest)) (raws : List (RawEntry × Bool)) :
    List (RawEntry × Bool) :=
  raws.map fun r =>
    match r with
    | (raw, true) =>
      match raw.hardlinkTarget with
      | some target =>
        match paths.lookup target with
        | some d => ({ raw with blobDigest := d }, false)
        | none => (raw, true)
      | none => (raw, false)
    | (raw, false) => (raw, false)

/-- The third pass: as many rounds as there were deferred links, or until there is none. -/
def retryLoop (paths : List (Str × Digest)) : ℕ → List (RawEntry × Bool) → List (RawEntry × Bool)
  | 0, raws => raws
  | retries + 1, raws =>
    if raws.any (·.2) then retryLoop paths retries (retryLinks paths raws) else raws

def resolvedEntries (p : Scan) : List RawEntry :=
  let (raws, paths) := resolveLinks p.pathToDigest p.rawEntries
  (retryLoop paths (raws.countP (·.2)) raws).map Prod.fst

/-! ## The entries of a layer -/

def RawEntry.entry (raw : RawEntry) (digest : Digest) : DirectoryEntry :=
  ⟨raw.name, digest, raw.mode, raw.size, raw.uid, raw.gid, raw.mtime, raw.isDir, raw.isSymlink,
    raw.symlinkTarget, raw.xattrs⟩

/-- Build the final entries: an entry that still has the zero digest gets the digest of an empty
    blob. Each entry comes with the path of its directory, its key in `dir_index`. -/
def finishEntries (c : Codec) : List RawEntry → MmapStore →
    Except ConvertError (List (Str × DirectoryEntry)) × MmapStore
  | [], s => (.ok [], s)
  | raw :: rest, s =>
    if raw.blobDigest = zeroDigest then
      match s.putBlocking c (.blob []) with
      | (.error e, s) => (.error (.store e), s)
      | (.ok digest, s) =>
        match finishEntries c rest s with
        | (.error e, s) => (.error e, s)
        | (.ok entries, s) => (.ok ((raw.parent, raw.entry digest) :: entries), s)
    else
      match finishEntries c rest s with
      | (.error e, s) => (.error e, s)
      | (.ok entries, s) => (.ok ((raw.parent, raw.entry raw.blobDigest) :: entries), s)

structure Extracted where
  entries : List (Str × DirectoryEntry)
  whiteouts : List WhiteoutEntry
deriving DecidableEq

def extractTarEntries (c : Codec) (seeds : ℕ → Seed) (archive : Archive) (s : MmapStore) :
    Except ConvertError Extracted × MmapStore :=
  match scan c seeds 0 archive { store := s } with
  | (.error e, p) => (.error e, p.store)
  | (.ok (), p) =>
    match finishEntries c (resolvedEntries p) p.store with
    | (.error e, s) => (.error e, s)
    | (.ok entries, s) => (.ok ⟨entries, p.whiteouts⟩, s)

def entriesIn (entries : List (Str × DirectoryEntry)) (path : Str) : List DirectoryEntry :=
  (entries.filter fun e => e.1 = path).map Prod.snd

/-! ## Trees -/

def subPath (currentPath name : Str) : Str :=
  if currentPath = [] then name else currentPath ++ '/' :: name

/-- The edges of a tree: the layer of a subdirectory, the blob of anything else. -/
def childDigests
    (storeSub : Str → MmapStore → Option (Except ConvertError Digest × MmapStore))
    (currentPath : Str) : List DirectoryEntry → MmapStore →
      Option (Except ConvertError (List Digest) × MmapStore)
  | [], s => some (.ok [], s)
  | entry :: rest, s =>
    match
      if entry.isDir then storeSub (subPath currentPath entry.name) s
      else some (.ok entry.digest, s) with
    | none => none
    | some (.error e, s) => some (.error e, s)
    | some (.ok digest, s) =>
      match childDigests storeSub currentPath rest s with
      | none => none
      | some (.error e, s) => some (.error e, s)
      | some (.ok digests, s) => some (.ok (digest :: digests), s)

def putNode (c : Codec) (node : DagNode) (s : MmapStore) : Except ConvertError Digest × MmapStore :=
  match s.put c node with
  | (.error e, s) => (.error (.store e), s)
  | (.ok digest, s) => (.ok digest, s)

/-- The tree node of a directory and the layer node around it. -/
def storeTree (F : Formats) (currentPath : Str) (children : List DirectoryEntry)
    (edges : List Digest) (s : MmapStore) : Except ConvertError Digest × MmapStore :=
  match DirectoryEntry.inlineBytes F.json children with
  | .error why => (.error (.panicked why), s)
  | .ok inline =>
    match putNode F.codec ⟨.tree, edges, inline⟩ s with
    | (.error e, s) => (.error e, s)
    | (.ok treeDigest, s) =>
      putNode F.codec ⟨.layer, [treeDigest], F.text.utf8 currentPath⟩ s

def storeTrees (F : Formats) (entries : List (Str × DirectoryEntry)) :
    ℕ → Str → MmapStore → Option (Except ConvertError Digest × MmapStore)
  | 0, _, _ => none
  | fuel + 1, currentPath, s =>
    let children := entriesIn entries currentPath
    match childDigests (storeTrees F entries fuel) currentPath children s with
    | none => none
    | some (.error e, s) => some (.error e, s)
    | some (.ok edges, s) => some (storeTree F currentPath children edges s)

/-! ## Layers and images -/

def storeWhiteouts (F : Formats) : List WhiteoutEntry → MmapStore →
    Except ConvertError (List Digest) × MmapStore
  | [], s => (.ok [], s)
  | w :: ws, s =>
    match s.putBlocking F.codec (w.node F.text) with
    | (.error e, s) => (.error (.store e), s)
    | (.ok digest, s) =>
      match storeWhiteouts F ws s with
      | (.error e, s) => (.error e, s)
      | (.ok digests, s) => (.ok (digest :: digests), s)

/-- Read the layer node back and store it again with the whiteouts among its edges. -/
def addWhiteouts (F : Formats) (whiteouts : List Digest) (layer : Digest) (s : MmapStore) :
    Except ConvertError Digest × MmapStore :=
  if whiteouts = [] then (.ok layer, s)
  else
    match s.getArchived F.codec layer with
    | (.error e, s) => (.error (.store e), s)
    | (.ok node, s) => putNode F.codec { node with edges := node.edges ++ whiteouts } s

def convertLayer (F : Formats) (seeds : ℕ → Seed) (fuel : ℕ) (archive : Archive) (s : MmapStore) :
    Option (Except ConvertError Digest × MmapStore) :=
  match extractTarEntries F.codec seeds archive s with
  | (.error e, s) => some (.error e, s)
  | (.ok extracted, s) =>
    match storeWhiteouts F extracted.whiteouts s with
    | (.error e, s) => some (.error e, s)
    | (.ok whiteouts, s) =>
      match storeTrees F extracted.entries fuel [] s with
      | none => none
      | some (.error e, s) => some (.error e, s)
      | some (.ok layer, s) => some (addWhiteouts F whiteouts layer s)

/-- `PulledImage`: the layers, lowest first, and what the manifest node is made from. -/
structure PulledImage where
  layers : List Archive
  config : OciImageConfig
  annotations : Option (List (Str × Str)) := none
  subject : Option OciDescriptor := none

structure ImageSeeds where
  /-- The extended attributes of an entry of a layer. -/
  xattrs : ℕ → ℕ → Seed := fun _ _ _ => 0
  exposedPorts : Seed := fun _ => 0
  volumes : Seed := fun _ => 0
  manifest : ManifestSeeds := {}

def manifestData (seeds : ImageSeeds) (image : PulledImage) : ManifestData where
  entrypoint := (image.config.config.bind (·.entrypoint)).getD []
  cmd := (image.config.config.bind (·.cmd)).getD []
  env := (image.config.config.bind (·.env)).getD []
  workingDir := image.config.config.bind (·.workingDir)
  architecture := image.config.architecture
  os := image.config.os
  annotations := image.annotations
  subject := image.subject
  user := image.config.config.bind (·.user)
  stopSignal := image.config.config.bind (·.stopSignal)
  exposedPorts := (image.config.config.bind (·.exposedPorts)).map fun ports =>
    (iterate seeds.exposedPorts ports).map Prod.fst
  volumes := (image.config.config.bind (·.volumes)).map fun vols =>
    (iterate seeds.volumes vols).map Prod.fst
  variant := image.config.variant

/-- `create_manifest_node`. Data that does not serialize is left empty. -/
def createManifestNode (F : Formats) (seeds : ImageSeeds) (image : PulledImage)
    (layers : List Digest) (s : MmapStore) : Except ConvertError Digest × MmapStore :=
  let inline :=
    match F.json.toVec ((manifestData seeds image).toValue seeds.manifest) with
    | .ok bytes => bytes
    | .error _ => []
  putNode F.codec ⟨.manifest, layers, inline⟩ s

/-- The loop over the layers, from the layer at position `i` on. -/
def convertLayers (F : Formats) (seeds : ImageSeeds) (fuel : ℕ) : ℕ → List Archive → MmapStore →
    Option (Except ConvertError (List Digest) × MmapStore)
  | _, [], s => some (.ok [], s)
  | i, archive :: rest, s =>
    match convertLayer F (seeds.xattrs i) fuel archive s with
    | none => none
    | some (.error e, s) => some (.error e, s)
    | some (.ok layer, s) =>
      match convertLayers F seeds fuel (i + 1) rest s with
      | none => none
      | some (.error e, s) => some (.error e, s)
      | some (.ok layers, s) => some (.ok (layer :: layers), s)

def convert (F : Formats) (seeds : ImageSeeds) (fuel : ℕ) (image : PulledImage) (s : MmapStore) :
    Option (Except ConvertError Digest × MmapStore) :=
  match convertLayers F seeds fuel 0 image.layers s with
  | none => none
  | some (.error e, s) => some (.error e, s)
  | some (.ok layers, s) => some (createManifestNode F seeds image layers s)

end Pullrun
