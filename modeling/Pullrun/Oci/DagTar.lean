import Pullrun.Store.Mmap

/-!
# Exporting a DAG to a tar archive, and importing it

`pullrun-oci/src/dag_export.rs` and `dag_import.rs`. An archive is a manifest, one entry per
reachable node and one per blob of a reachable node. The importer takes any archive: it checks
every node entry against the digest in its name and against `rkyv`, and trusts the blobs.

The tar format itself is the `tar` crate's. What it hands to the importer is a list of entries, any
of which may be unreadable (`Archive`); what the exporter hands to it is a list of names with
contents, and `readBack` is the assumption that such a list is read as it was written (its names
are 78 bytes at most). JSON is `serde_json`'s, a parameter.
-/

namespace Pullrun

structure ExportManifest where
  rootDigest : Str
  format : Str
  nodeCount : ℕ
  blobCount : ℕ
deriving DecidableEq

structure Json where
  toVec : ExportManifest → Except String Bytes
  fromSlice : Bytes → Except String ExportManifest

/-- `OciError`, as far as these two functions raise it. -/
inductive OciError
  /-- `Io`: reading or writing the archive. -/
  | io (why : String)
  /-- `Json`. -/
  | json (why : String)
  /-- `BFS walk failed: {e}` -/
  | bfsWalkFailed (e : StoreError)
  /-- `read node {hex}: {e}` -/
  | readNode (hex : Str) (e : StoreError)
  /-- `read blob {hex}: {e}` -/
  | readBlob (hex : Str) (e : StoreError)
  /-- `invalid digest in archive: {e}` -/
  | invalidDigest (e : Digest.ParseError)
  /-- `node digest mismatch: expected {digest_str}, got {computed}` -/
  | nodeDigestMismatch (digestStr computed : Str)
  /-- `invalid node {digest_str}: {e}` -/
  | invalidNode (digestStr : Str) (e : String)
  /-- `pullrun-manifest.json not found in archive` -/
  | manifestNotFound
deriving DecidableEq

namespace DagTar

def manifestName : Str :=
  ['p', 'u', 'l', 'l', 'r', 'u', 'n', '-', 'm', 'a', 'n', 'i', 'f', 'e', 's', 't', '.', 'j', 's', 'o',
    'n']

def nodesDir : Str := ['p', 'u', 'l', 'l', 'r', 'u', 'n', '-', 'n', 'o', 'd', 'e', 's', '/']
def blobsDir : Str := ['p', 'u', 'l', 'l', 'r', 'u', 'n', '-', 'b', 'l', 'o', 'b', 's', '/']
def dagFormat : Str := ['d', 'a', 'g']

/-! ## Export -/

def walkDagCollect (c : Codec) (s : MmapStore) (rootDigest : Str) :
    Except StoreError (List Digest × List Digest) × MmapStore :=
  match Digest.fromHex rootDigest with
  | .error e => (.error (.archiveValidation rootDigest e), s)
  | .ok root => s.walkReachable c [root]

def writeEntries (read : MmapStore → Digest → Except StoreError Bytes × MmapStore)
    (dir : Str) (err : Str → StoreError → OciError) :
    MmapStore → List Digest → Except OciError (List (Str × Bytes)) × MmapStore
  | s, [] => (.ok [], s)
  | s, d :: ds =>
    match read s d with
    | (.error e, s) => (.error (err d.asHex e), s)
    | (.ok data, s) =>
      match writeEntries read dir err s ds with
      | (.error e, s) => (.error e, s)
      | (.ok entries, s) => (.ok ((dir ++ d.asHex, data) :: entries), s)

/-- `export_dag_to_tar`: the entries in the order they are written. -/
def exportDagToTar (c : Codec) (json : Json) (s : MmapStore) (rootDigest : Str) :
    Except OciError (List (Str × Bytes)) × MmapStore :=
  match walkDagCollect c s rootDigest with
  | (.error e, s) => (.error (.bfsWalkFailed e), s)
  | (.ok (nodeDigests, blobDigests), s) =>
    match json.toVec ⟨rootDigest, dagFormat, nodeDigests.length, blobDigests.length⟩ with
    | .error e => (.error (.json e), s)
    | .ok manifestJson =>
      match writeEntries MmapStore.get nodesDir .readNode s nodeDigests with
      | (.error e, s) => (.error e, s)
      | (.ok nodeEntries, s) =>
        match writeEntries MmapStore.getBlob blobsDir .readBlob s blobDigests with
        | (.error e, s) => (.error e, s)
        | (.ok blobEntries, s) => (.ok ((manifestName, manifestJson) :: nodeEntries ++ blobEntries), s)

/-! ## Import -/

/-- A tar entry as the importer sees it: its path, if that is readable, and the bytes read from
    it. -/
structure TarEntry where
  path : Option Str
  data : Except String Bytes
deriving DecidableEq

/-- `archive.entries()`. -/
abbrev Archive := List (Except String TarEntry)

def readBack (entries : List (Str × Bytes)) : Archive :=
  entries.map fun e => .ok ⟨some e.1, .ok e.2⟩

/-- The local variables of `import_dag_from_tar`. The two sums are `i64` in the source. -/
structure Progress where
  rootDigest : Str := []
  bytesStored : ℕ := 0
  bytesDedup : ℕ := 0
  foundManifest : Bool := false
deriving DecidableEq

def importNode (c : Codec) (digestStr : Str) (data : Bytes) (s : MmapStore) (p : Progress) :
    Except OciError Progress × MmapStore :=
  match Digest.fromHex digestStr with
  | .error e => (.error (.invalidDigest e), s)
  | .ok digest =>
    let computed := c.sha256 data
    if computed ≠ digest then (.error (.nodeDigestMismatch digestStr computed.asHex), s)
    else
      match c.checkArchivedRoot data with
      | .error e => (.error (.invalidNode digestStr e), s)
      | .ok _ =>
        if s.exists digest then (.ok { p with bytesDedup := p.bytesDedup + data.length }, s)
        else
          (.ok { p with bytesStored := p.bytesStored + data.length },
            { s with disk := s.disk.writeNode digest data })

def importBlob (digestStr : Str) (data : Bytes) (s : MmapStore) (p : Progress) :
    Except OciError Progress × MmapStore :=
  match Digest.fromHex digestStr with
  | .error e => (.error (.invalidDigest e), s)
  | .ok digest =>
    let alreadyExists := s.disk.hasBlob digest
    let s := s.putBlobBlocking digest data
    if alreadyExists then (.ok { p with bytesDedup := p.bytesDedup + data.length }, s)
    else (.ok { p with bytesStored := p.bytesStored + data.length }, s)

/-- The loop body, for an entry with a readable path and readable contents. -/
def importEntry (c : Codec) (json : Json) (path : Str) (buf : Bytes) (s : MmapStore) (p : Progress) :
    Except OciError Progress × MmapStore :=
  if path = manifestName then
    match json.fromSlice buf with
    | .error e => (.error (.json e), s)
    | .ok data => (.ok { p with rootDigest := data.rootDigest, foundManifest := true }, s)
  else
    match Digest.stripPrefix nodesDir path with
    | some digestStr => importNode c digestStr buf s p
    | none =>
      match Digest.stripPrefix blobsDir path with
      | some digestStr => importBlob digestStr buf s p
      | none => (.ok p, s)

def importEntries (c : Codec) (json : Json) :
    Archive → MmapStore → Progress → Except OciError Progress × MmapStore
  | [], s, p => (.ok p, s)
  | .error e :: _, s, _ => (.error (.io e), s)
  | .ok ⟨none, _⟩ :: rest, s, p => importEntries c json rest s p
  | .ok ⟨some _, .error e⟩ :: _, s, _ => (.error (.io e), s)
  | .ok ⟨some path, .ok buf⟩ :: rest, s, p =>
    match importEntry c json path buf s p with
    | (.error e, s) => (.error e, s)
    | (.ok p, s) => importEntries c json rest s p

/-- `import_dag_from_tar`: the root of the manifest, bytes stored, bytes deduplicated. -/
def importDagFromTar (c : Codec) (json : Json) (s : MmapStore) (archive : Archive) :
    Except OciError (Str × ℕ × ℕ) × MmapStore :=
  match importEntries c json archive s {} with
  | (.error e, s) => (.error e, s)
  | (.ok p, s) =>
    if p.foundManifest then (.ok (p.rootDigest, p.bytesStored, p.bytesDedup), s)
    else (.error .manifestNotFound, s)

theorem importDagFromTar_store (c : Codec) (json : Json) (s : MmapStore) (archive : Archive) :
    (importDagFromTar c json s archive).2 = (importEntries c json archive s {}).2 := by
  unfold importDagFromTar
  cases importEntries c json archive s {} with
  | mk r store =>
    cases r with
    | error e => rfl
    | ok p => dsimp only; split <;> rfl

/-! ## JSON for a few manifests

As `Codec.ofRows` for nodes: what `serde_json` does with the listed manifests, to be evaluated. -/

/-- The text `serde_json` writes for a manifest whose strings need no escapes. -/
def manifestJson (m : ExportManifest) : Bytes :=
  let text := "\x7b\"root_digest\":\"".toList ++ m.rootDigest ++ "\",\"format\":\"".toList ++
    m.format ++ "\",\"node_count\":".toList ++ Nat.toDigits 10 m.nodeCount ++
    ",\"blob_count\":".toList ++ Nat.toDigits 10 m.blobCount ++ "\x7d".toList
  text.map fun ch => UInt8.ofNat ch.toNat

def jsonOf (manifests : List ExportManifest) : Json where
  toVec m := .ok (manifestJson m)
  fromSlice b :=
    match manifests.find? fun m => manifestJson m == b with
    | some m => .ok m
    | none => .error "expected value"

end DagTar

end Pullrun
