import Pullrun.Oci.Export

/-!
# Exporting an image to an OCI layout directory

`export_to_oci_layout` of `pullrun-oci/src/oci_layout.rs`. An image becomes a configuration, a blob for
each layer and a manifest that names them, each in a file named after its SHA-256; `index.json` names
the manifest. A manifest list is exported child by child: each child is exported as an image of its
own, then its configuration and its manifest are made **a second time**, and it is the second manifest
that the index names. Of the second configuration only the digest is used.

The maps of a configuration are made anew for each of the two, so each has seeds of its own.
-/

namespace Pullrun

/-! ## Configurations, manifests and indices as JSON -/

structure ExportSeeds where
  exposedPorts : Seed := fun _ => 0
  volumes : Seed := fun _ => 0
  manifest : ManifestSeeds := {}

def OciRuntimeConfig.toValue (seeds : ExportSeeds) (c : OciRuntimeConfig) : Value :=
  .obj (Value.skipNone "User".toList .str c.user ++
    Value.skipNone "ExposedPorts".toList (fun m => .ofMap id (iterate seeds.exposedPorts m))
      c.exposedPorts ++
    Value.skipNone "Env".toList Value.ofStrs c.env ++
    Value.skipNone "Entrypoint".toList Value.ofStrs c.entrypoint ++
    Value.skipNone "Cmd".toList Value.ofStrs c.cmd ++
    Value.skipNone "Volumes".toList (fun m => .ofMap id (iterate seeds.volumes m)) c.volumes ++
    Value.skipNone "WorkingDir".toList .str c.workingDir ++
    Value.skipNone "StopSignal".toList .str c.stopSignal)

/-- The root file system of a configuration lists no layers. -/
def OciImageConfig.toValue (seeds : ExportSeeds) (c : OciImageConfig) : Value :=
  .obj ([("architecture".toList, .str c.architecture), ("os".toList, .str c.os)] ++
    Value.skipNone "variant".toList .str c.variant ++
    Value.skipNone "config".toList (OciRuntimeConfig.toValue seeds) c.config ++
    [("rootfs".toList, .obj [("type".toList, .str "layers".toList), ("diff_ids".toList, .arr [])])])

def imageManifestType : Str := "application/vnd.oci.image.manifest.v1+json".toList
def imageIndexType : Str := "application/vnd.oci.image.index.v1+json".toList
def imageConfigType : Str := "application/vnd.oci.image.config.v1+json".toList
def layerTarGzipType : Str := "application/vnd.oci.image.layer.v1.tar+gzip".toList

structure OciManifest where
  config : OciDescriptor
  layers : List OciDescriptor
  subject : Option OciDescriptor
  annotations : Option (List (Str × Str))

/-- The descriptors of blobs have no annotations, so they need no seed. -/
def OciManifest.toValue (seeds : ManifestSeeds) (m : OciManifest) : Value :=
  .obj ([("schemaVersion".toList, .num 2), ("mediaType".toList, .str imageManifestType),
      ("config".toList, m.config.toValue fun _ => 0),
      ("layers".toList, .arr (m.layers.map fun d => d.toValue fun _ => 0))] ++
    Value.skipNone "subject".toList (OciDescriptor.toValue seeds.subject) m.subject ++
    Value.skipNone "annotations".toList (fun a => .ofMap .str (iterate seeds.annotations a))
      m.annotations)

/-- `OciImageIndex`. An annotation is the one of a tag, if there is one. -/
def indexValue (manifests : List OciDescriptor) : Value :=
  .obj [("schemaVersion".toList, .num 2), ("mediaType".toList, .str imageIndexType),
    ("manifests".toList, .arr (manifests.map fun d => d.toValue fun _ => 0))]

def exportConfig (data : ManifestData) : OciImageConfig where
  architecture := data.architecture
  os := data.os
  variant := data.variant
  config := some {
    user := data.user
    exposedPorts := data.exposedPorts.map fun ports =>
      Value.mapOf (ports.map fun p => (p, .obj []))
    env := some data.env
    entrypoint := some data.entrypoint
    cmd := some data.cmd
    volumes := data.volumes.map fun vols => Value.mapOf (vols.map fun v => (v, .obj []))
    workingDir := data.workingDir
    stopSignal := data.stopSignal }

/-! ## The directory -/

/-- The files of a layout directory. A blob is named by the hex form of a digest. -/
structure LayoutDir where
  ociLayout : Option Str := none
  index : Option Bytes := none
  blobs : FileMap Bytes := ∅

/-- `std::fs::write(blobs_dir.join(hex), &bytes)`, under the SHA-256 of the bytes. -/
def LayoutDir.writeBlob (c : Codec) (bytes : Bytes) (dir : LayoutDir) : LayoutDir :=
  { dir with blobs := Finmap.insert (c.sha256 bytes) bytes dir.blobs }

def blobDescriptor (c : Codec) (mediaType : Str) (bytes : Bytes) : OciDescriptor where
  mediaType := mediaType
  digest := Digest.sha256Colon ++ (c.sha256 bytes).asHex
  size := UInt64.ofNat bytes.length

/-- `OciError`, as far as the exporter raises it. -/
inductive LayoutError
  /-- `read root node: {e}` -/
  | readRoot (e : StoreError)
  /-- `read manifest node: {e}` -/
  | readManifest (e : StoreError)
  /-- `manifest data parse: {e}` -/
  | invalidManifest
  | json (why : String)
  | layer (e : ExportError)
  /-- `gzip finish: {e}` -/
  | finish (why : String)
  /-- `root digest {root_digest} is neither a manifest nor manifest list` -/
  | notManifest (d : Digest)
deriving DecidableEq

structure LayoutExporter where
  formats : Formats
  tar : TarCrate
  /-- The archive of a stream, compressed. -/
  pack : List Written → Except String Bytes
  view : StoreView Bytes

namespace LayoutExporter

variable (x : LayoutExporter)

/-- `serde_json::to_vec(..)?` -/
def jsonBytes (v : Value) : Except LayoutError Bytes :=
  match x.formats.json.toVec v with
  | .ok b => .ok b
  | .error why => .error (.json why)

def readManifest (d : Digest) : Except LayoutError (List Digest × ManifestData) :=
  match x.view.getArchived d with
  | .error e => .error (.readManifest e)
  | .ok node =>
    match x.formats.json.fromSlice node.inlineData with
    | .error _ => .error .invalidManifest
    | .ok v =>
      match ManifestData.ofValue v with
      | none => .error .invalidManifest
      | some data => .ok (node.edges, data)

def reconstructLayer (fuel : ℕ) (d : Digest) : Option (Except LayoutError Bytes) :=
  match OciLayout.walkTreeForLayer x.tar x.formats.json x.formats.text x.view fuel d [] with
  | none => none
  | some (.error e) => some (.error (.layer e))
  | some (.ok stream) =>
    match x.pack stream with
    | .error why => some (.error (.finish why))
    | .ok bytes => some (.ok bytes)

def layerBlobs (fuel : ℕ) : List Digest → Option (Except LayoutError (List Bytes))
  | [] => some (.ok [])
  | d :: ds =>
    match x.reconstructLayer fuel d with
    | none => none
    | some (.error e) => some (.error e)
    | some (.ok bytes) =>
      match layerBlobs fuel ds with
      | none => none
      | some (.error e) => some (.error e)
      | some (.ok rest) => some (.ok (bytes :: rest))

def writeLayers (fuel : ℕ) : List Digest → LayoutDir →
    Option (Except LayoutError (List OciDescriptor) × LayoutDir)
  | [], dir => some (.ok [], dir)
  | d :: ds, dir =>
    match x.reconstructLayer fuel d with
    | none => none
    | some (.error e) => some (.error e, dir)
    | some (.ok bytes) =>
      match writeLayers fuel ds (dir.writeBlob x.formats.codec bytes) with
      | none => none
      | some (.error e, dir) => some (.error e, dir)
      | some (.ok rest, dir) =>
        some (.ok (blobDescriptor x.formats.codec layerTarGzipType bytes :: rest), dir)

def manifestOf (data : ManifestData) (config : Bytes) (layers : List OciDescriptor) : OciManifest where
  config := blobDescriptor x.formats.codec imageConfigType config
  layers := layers
  subject := data.subject
  annotations := data.annotations

/-- `export_single_manifest`, from the manifest's layers on. -/
def writeManifest (seeds : ExportSeeds) (data : ManifestData) (config : Bytes)
    (layers : List OciDescriptor) (dir : LayoutDir) : Except LayoutError OciDescriptor × LayoutDir :=
  match x.jsonBytes ((x.manifestOf data config layers).toValue seeds.manifest) with
  | .error e => (.error e, dir)
  | .ok bytes =>
    (.ok (blobDescriptor x.formats.codec imageManifestType bytes),
      dir.writeBlob x.formats.codec bytes)

def writeIndex (manifests : List OciDescriptor) (dir : LayoutDir) :
    Except LayoutError Unit × LayoutDir :=
  match x.jsonBytes (indexValue manifests) with
  | .error e => (.error e, dir)
  | .ok bytes => (.ok (), { dir with index := some bytes })

def refName : Str := "org.opencontainers.image.ref.name".toList

/-- The entries of the index for one manifest: one for each tag, or one without a tag. -/
def taggedDescriptors (tags : List Str) (d : OciDescriptor) : List OciDescriptor :=
  if tags = [] then [d] else tags.map fun tag => { d with annotations := some [(refName, tag)] }

def exportSingleManifest (fuel : ℕ) (seeds : ExportSeeds) (tags : List Str) (d : Digest)
    (dir : LayoutDir) : Option (Except LayoutError Unit × LayoutDir) :=
  match x.readManifest d with
  | .error e => some (.error e, dir)
  | .ok (edges, data) =>
    match x.jsonBytes ((exportConfig data).toValue seeds) with
    | .error e => some (.error e, dir)
    | .ok config =>
      match x.writeLayers fuel edges (dir.writeBlob x.formats.codec config) with
      | none => none
      | some (.error e, dir) => some (.error e, dir)
      | some (.ok layers, dir) =>
        match x.writeManifest seeds data config layers dir with
        | (.error e, dir) => some (.error e, dir)
        | (.ok manifest, dir) => some (x.writeIndex (taggedDescriptors tags manifest) dir)

/-- The loop body of `export_manifest_list` after the child has been exported: make the manifest
    again. -/
def describeChild (fuel : ℕ) (seeds : ExportSeeds) (child : Digest) (dir : LayoutDir) :
    Option (Except LayoutError OciDescriptor × LayoutDir) :=
  match x.readManifest child with
  | .error e => some (.error e, dir)
  | .ok (edges, data) =>
    match x.jsonBytes ((exportConfig data).toValue seeds) with
    | .error e => some (.error e, dir)
    | .ok config =>
      match x.layerBlobs fuel edges with
      | none => none
      | some (.error e) => some (.error e, dir)
      | some (.ok blobs) =>
        some (x.writeManifest seeds data config
          (blobs.map (blobDescriptor x.formats.codec layerTarGzipType)) dir)

structure ChildSeeds where
  first : ExportSeeds := {}
  second : ExportSeeds := {}

def exportChild (fuel : ℕ) (seeds : ChildSeeds) (child : Digest) (dir : LayoutDir) :
    Option (Except LayoutError OciDescriptor × LayoutDir) :=
  match x.exportSingleManifest fuel seeds.first [] child dir with
  | none => none
  | some (.error e, dir) => some (.error e, dir)
  | some (.ok (), dir) => x.describeChild fuel seeds.second child dir

/-- The loop over the children, from position `i` on. -/
def exportChildren (fuel : ℕ) (seeds : ℕ → ChildSeeds) : ℕ → List Digest → LayoutDir →
    Option (Except LayoutError (List OciDescriptor) × LayoutDir)
  | _, [], dir => some (.ok [], dir)
  | i, child :: rest, dir =>
    match x.exportChild fuel (seeds i) child dir with
    | none => none
    | some (.error e, dir) => some (.error e, dir)
    | some (.ok descriptor, dir) =>
      match exportChildren fuel seeds (i + 1) rest dir with
      | none => none
      | some (.error e, dir) => some (.error e, dir)
      | some (.ok descriptors, dir) => some (.ok (descriptor :: descriptors), dir)

def exportManifestList (fuel : ℕ) (seeds : ℕ → ChildSeeds) (children : List Digest)
    (dir : LayoutDir) : Option (Except LayoutError Unit × LayoutDir) :=
  match x.exportChildren fuel seeds 0 children dir with
  | none => none
  | some (.error e, dir) => some (.error e, dir)
  | some (.ok descriptors, dir) => some (x.writeIndex descriptors dir)

/-- `export_to_oci_layout`. The tags are used for a single manifest only. -/
def exportToOciLayout (fuel : ℕ) (seeds : ℕ → ChildSeeds) (tags : List Str) (root : Digest)
    (dir : LayoutDir) : Option (Except LayoutError Unit × LayoutDir) :=
  let dir := { dir with ociLayout := some "\x7b\"imageLayoutVersion\": \"1.0.0\"\x7d\n".toList }
  match x.view.getArchived root with
  | .error e => some (.error (.readRoot e), dir)
  | .ok node =>
    if node.kind = .manifestList then x.exportManifestList fuel seeds node.edges dir
    else if node.kind = .manifest then x.exportSingleManifest fuel (seeds 0).first tags root dir
    else some (.error (.notManifest root), dir)

end LayoutExporter

end Pullrun
