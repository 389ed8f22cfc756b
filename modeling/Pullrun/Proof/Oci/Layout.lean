import Pullrun.Oci.Layout
import Pullrun.Proof.Oci.Determinism

/-!
# Is an exported layout closed?

A layout is closed if every digest that is reached from `index.json` (to the manifests, and from these
to their configurations and layers) names a file with that SHA-256 and of the recorded size.
-/

namespace Pullrun

open List Value

def Value.items (v : Value) (name : Str) : List Value :=
  match v.get? name with
  | some (.arr items) => items
  | _ => []

namespace LayoutExporter

variable {x : LayoutExporter}

/-- The descriptor names a file of the directory, by its SHA-256 and its length. -/
def File (x : LayoutExporter) (dir : LayoutDir) (descriptor : Value) (bytes : Bytes) : Prop :=
  ∃ d, descriptor.get? "digest".toList = some (.str (Digest.sha256Colon ++ d.asHex)) ∧
    descriptor.get? "size".toList = some (.num (UInt64.ofNat bytes.length).toNat) ∧
    dir.blobs.lookup d = some bytes ∧ x.formats.codec.sha256 bytes = d

/-- Everything that is reached from `index.json` is there. -/
def Closed (x : LayoutExporter) (dir : LayoutDir) : Prop :=
  ∃ index iv, dir.index = some index ∧ x.formats.json.fromSlice index = .ok iv ∧
    ∀ m ∈ iv.items "manifests".toList, ∃ bytes mv, x.File dir m bytes ∧
      x.formats.json.fromSlice bytes = .ok mv ∧
      ∀ r ∈ (mv.get? "config".toList).toList ++ mv.items "layers".toList,
        ∃ blob, x.File dir r blob

def Content (x : LayoutExporter) (b : Bytes) : Prop :=
  (∃ v, x.formats.json.toVec v = .ok b) ∨ ∃ stream, x.pack stream = .ok b

structure Lawful (x : LayoutExporter) : Prop where
  json : x.formats.json.Lawful
  collisionFree : ∀ b b', x.Content b → x.Content b' →
    x.formats.codec.sha256 b = x.formats.codec.sha256 b' → b = b'
  notJson : ∀ v stream b, x.formats.json.toVec v = .ok b → x.pack stream ≠ .ok b

/-! ## Writing files -/

def writeAll (c : Codec) (files : List Bytes) (blobs : FileMap Bytes) : FileMap Bytes :=
  files.foldl (fun blobs b => Finmap.insert (c.sha256 b) b blobs) blobs

theorem writeAll_append (c : Codec) (as bs : List Bytes) (blobs : FileMap Bytes) :
    writeAll c (as ++ bs) blobs = writeAll c bs (writeAll c as blobs) :=
  foldl_append

variable {b bytes : Bytes} {fuel : ℕ} {seeds : ExportSeeds} {dir dir' : LayoutDir}
  {descriptor : OciDescriptor} {mediaType : Str} {os : List ChildOutput} {d child : Digest} {seed : Seed}
  {data : ManifestData} {tags keys : List Str} {o : ChildOutput} {c : Codec}

theorem lookup_writeAll {files : List Bytes} {blobs : FileMap Bytes}
    (hsame : ∀ b' ∈ files, c.sha256 b' = c.sha256 b → b' = b)
    (h : b ∈ files ∨ blobs.lookup (c.sha256 b) = some b) :
    (writeAll c files blobs).lookup (c.sha256 b) = some b := by
  induction files generalizing blobs with
  | nil =>
    exact h.resolve_left (by simp)
  | cons a files ih =>
    refine ih (fun b' hb' => hsame b' (mem_cons_of_mem _ hb')) ?_
    by_cases hmem : b ∈ files
    · exact .inl hmem
    · refine Or.inr ?_
      rw [FileMap.lookup_insert_if]
      split
      · rename_i hsha
        rw [hsame a mem_cons_self hsha.symm]
      · rename_i hsha
        rcases h with h | h
        · rcases mem_cons.mp h with rfl | h
          · exact absurd rfl hsha
          · exact absurd h hmem
        · exact h

theorem mem_of_lookup_writeAll {files : List Bytes} {blobs : FileMap Bytes}
    (h : (writeAll c files blobs).lookup d = some b) : b ∈ files ∨ blobs.lookup d = some b := by
  induction files generalizing blobs with
  | nil =>
    exact .inr h
  | cons a files ih =>
    rcases ih h with h | h
    · exact .inl (mem_cons_of_mem _ h)
    · rw [FileMap.lookup_insert_if] at h
      split at h
      · cases h
        exact .inl mem_cons_self
      · exact .inr h

/-! ## What an export writes -/

theorem jsonBytes_eq_ok {v : Value} : x.jsonBytes v = .ok b ↔ x.formats.json.toVec v = .ok b := by
  unfold jsonBytes
  cases h : x.formats.json.toVec v with
  | error why => simp
  | ok b' => simp

theorem writeLayers_spec {ds : List Digest} {descriptors : List OciDescriptor}
    (h : x.writeLayers fuel ds dir = some (.ok descriptors, dir')) :
    ∃ layers, x.layerBlobs fuel ds = some (.ok layers) ∧
      descriptors = layers.map (blobDescriptor x.formats.codec layerTarGzipType) ∧
      dir'.blobs = writeAll x.formats.codec layers dir.blobs := by
  fun_induction x.writeLayers fuel ds dir generalizing descriptors with
  | case1 =>
    cases h
    exact ⟨[], rfl, rfl, rfl⟩
  | case2 | case3 | case4 | case5 => cases h
  | case6 d ds dir bytes hl rest dir1 hrest ih =>
    cases h
    obtain ⟨layers, hlayers, hdesc, hblobs⟩ := ih hrest
    refine ⟨bytes :: layers, ?_, by rw [hdesc]; rfl, hblobs⟩
    rw [layerBlobs, hl]
    simp only [hlayers]

theorem reconstructLayer_packed (h : x.reconstructLayer fuel d = some (.ok b)) :
    ∃ stream, x.pack stream = .ok b := by
  revert h
  fun_cases x.reconstructLayer fuel d with
  | case1 | case2 | case3 => rintro ⟨⟩
  | case4 stream _ _ hpack =>
    rintro ⟨⟩
    exact ⟨stream, hpack⟩

theorem layerBlobs_packed {ds : List Digest} {layers : List Bytes}
    (h : x.layerBlobs fuel ds = some (.ok layers)) : ∀ b ∈ layers, ∃ stream, x.pack stream = .ok b := by
  fun_induction x.layerBlobs fuel ds generalizing layers with
  | case1 =>
    cases h
    exact fun b hb => absurd hb not_mem_nil
  | case2 | case3 | case4 | case5 => cases h
  | case6 d ds bytes hl rest hrest ih =>
    cases h
    exact forall_mem_cons.mpr ⟨reconstructLayer_packed hl, ih hrest⟩

structure Made (x : LayoutExporter) (fuel : ℕ) (seeds : ExportSeeds) (d : Digest)
    (data : ManifestData) (config : Bytes) (layers : List Bytes) (manifest : Bytes) : Prop where
  read : ∃ edges, x.readManifest d = .ok (edges, data) ∧ x.layerBlobs fuel edges = some (.ok layers)
  configJson : x.formats.json.toVec ((exportConfig data).toValue seeds) = .ok config
  manifestJson : x.formats.json.toVec ((x.manifestOf data config
    (layers.map (blobDescriptor x.formats.codec layerTarGzipType))).toValue seeds.manifest)
      = .ok manifest

theorem writeManifest_spec {config : Bytes} {layers : List OciDescriptor}
    (h : x.writeManifest seeds data config layers dir = (.ok descriptor, dir')) :
    ∃ manifest, x.formats.json.toVec ((x.manifestOf data config layers).toValue seeds.manifest)
        = .ok manifest ∧
      descriptor = blobDescriptor x.formats.codec imageManifestType manifest ∧
      dir' = dir.writeBlob x.formats.codec manifest := by
  unfold writeManifest at h
  split at h
  · cases h
  rename_i manifest hm
  cases h
  exact ⟨manifest, jsonBytes_eq_ok.mp hm, rfl, rfl⟩

theorem writeIndex_spec {manifests : List OciDescriptor}
    (h : x.writeIndex manifests dir = (.ok (), dir')) :
    ∃ index, x.formats.json.toVec (indexValue manifests) = .ok index ∧
      dir' = { dir with index := some index } := by
  unfold writeIndex at h
  split at h
  · cases h
  rename_i index hi
  cases h
  exact ⟨index, jsonBytes_eq_ok.mp hi, rfl⟩

theorem exportSingleManifest_spec
    (h : x.exportSingleManifest fuel seeds tags d dir = some (.ok (), dir')) :
    ∃ data config layers manifest, x.Made fuel seeds d data config layers manifest ∧
      dir'.blobs = writeAll x.formats.codec (config :: layers ++ [manifest]) dir.blobs := by
  revert h
  fun_cases x.exportSingleManifest fuel seeds tags d dir with
  | case1 | case2 | case3 | case4 | case5 => rintro ⟨⟩
  | case6 edges data hr config hc layers dir1 hw m dir2 hm =>
  intro h
  obtain ⟨blobs, hblobs, rfl, hdir1⟩ := writeLayers_spec hw
  obtain ⟨manifest, hmanifest, -, rfl⟩ := writeManifest_spec hm
  obtain ⟨index, -, rfl⟩ := writeIndex_spec (Option.some.inj h)
  refine ⟨data, config, blobs, manifest,
    ⟨⟨edges, hr, hblobs⟩, jsonBytes_eq_ok.mp hc, hmanifest⟩, ?_⟩
  change writeAll x.formats.codec [manifest] dir1.blobs = _
  rw [hdir1, writeAll_append]
  rfl

theorem describeChild_spec (h : x.describeChild fuel seeds d dir = some (.ok descriptor, dir')) :
    ∃ data config layers manifest, x.Made fuel seeds d data config layers manifest ∧
      descriptor = blobDescriptor x.formats.codec imageManifestType manifest ∧
      dir'.blobs = writeAll x.formats.codec [manifest] dir.blobs := by
  revert h
  fun_cases x.describeChild fuel seeds d dir with
  | case1 | case2 | case3 | case4 => rintro ⟨⟩
  | case5 edges data hr config hc blobs hl =>
  intro h
  obtain ⟨manifest, hmanifest, hdesc, rfl⟩ := writeManifest_spec (Option.some.inj h)
  exact ⟨data, config, blobs, manifest,
    ⟨⟨edges, hr, hl⟩, jsonBytes_eq_ok.mp hc, hmanifest⟩, hdesc, rfl⟩

structure ChildOutput where
  data : ManifestData
  config : Bytes
  secondConfig : Bytes
  layers : List Bytes
  manifest : Bytes
  secondManifest : Bytes

/-- The files: the second configuration is not among them. -/
def ChildOutput.files (o : ChildOutput) : List Bytes :=
  o.config :: o.layers ++ [o.manifest, o.secondManifest]

structure OutputOf (x : LayoutExporter) (fuel : ℕ) (seeds : ChildSeeds) (child : Digest)
    (o : ChildOutput) : Prop where
  first : x.Made fuel seeds.first child o.data o.config o.layers o.manifest
  second : x.Made fuel seeds.second child o.data o.secondConfig o.layers o.secondManifest

theorem exportChild_spec {seeds : ChildSeeds}
    (h : x.exportChild fuel seeds child dir = some (.ok descriptor, dir')) :
    ∃ o, x.OutputOf fuel seeds child o ∧
      descriptor = blobDescriptor x.formats.codec imageManifestType o.secondManifest ∧
      dir'.blobs = writeAll x.formats.codec o.files dir.blobs := by
  unfold exportChild at h
  split at h
  · cases h
  · cases h
  rename_i dir1 hs
  obtain ⟨data, config, layers, manifest, hfirst, hdir1⟩ := exportSingleManifest_spec hs
  obtain ⟨data', config', layers', manifest', hsecond, hdesc, hdir'⟩ := describeChild_spec h
  -- The node and its layers are read twice, with the same result.
  obtain ⟨edges, hread, hlayers⟩ := hfirst.read
  obtain ⟨edges', hread', hlayers'⟩ := hsecond.read
  rw [hread] at hread'
  cases hread'
  rw [hlayers] at hlayers'
  cases hlayers'
  refine ⟨⟨data, config, config', layers, manifest, manifest'⟩, ⟨hfirst, hsecond⟩, hdesc, ?_⟩
  have hfiles : ChildOutput.files ⟨data, config, config', layers, manifest, manifest'⟩
      = (config :: layers ++ [manifest]) ++ [manifest'] := by
    simp [ChildOutput.files]
  rw [hdir', hdir1, hfiles, ← writeAll_append]

theorem exportChildren_spec {seeds : ℕ → ChildSeeds} {children : List Digest} {i : ℕ}
    {descriptors : List OciDescriptor}
    (h : x.exportChildren fuel seeds i children dir = some (.ok descriptors, dir')) :
    ∃ os, List.Forall₂ (fun child o => ∃ k, x.OutputOf fuel (seeds k) child o) children os ∧
      descriptors = os.map (fun o =>
        blobDescriptor x.formats.codec imageManifestType o.secondManifest) ∧
      dir'.blobs = writeAll x.formats.codec (os.flatMap ChildOutput.files) dir.blobs := by
  fun_induction x.exportChildren fuel seeds i children dir generalizing descriptors with
  | case1 =>
    cases h
    exact ⟨[], .nil, rfl, rfl⟩
  | case2 | case3 | case4 | case5 => cases h
  | case6 i child children dir descriptor dir1 hc rest dir2 hrest ih =>
    cases h
    obtain ⟨o, ho, rfl, hdir1⟩ := exportChild_spec hc
    obtain ⟨os, hos, rfl, hdir2⟩ := ih hrest
    refine ⟨o :: os, .cons ⟨i, ho⟩ hos, rfl, ?_⟩
    rw [hdir2, hdir1, flatMap_cons, writeAll_append]

theorem exportToOciLayout_spec {seeds : ℕ → ChildSeeds} {root : Digest}
    {node : DagNode} (hroot : x.view.getArchived root = .ok node)
    (hkind : node.kind = .manifestList)
    (h : x.exportToOciLayout fuel seeds tags root dir = some (.ok (), dir')) :
    ∃ os index, List.Forall₂ (fun child o => ∃ k, x.OutputOf fuel (seeds k) child o) node.edges os ∧
      x.formats.json.toVec (indexValue (os.map fun o =>
        blobDescriptor x.formats.codec imageManifestType o.secondManifest)) = .ok index ∧
      dir'.index = some index ∧
      dir'.blobs = writeAll x.formats.codec (os.flatMap ChildOutput.files) dir.blobs := by
  unfold exportToOciLayout at h
  simp only [hroot, hkind, if_true] at h
  unfold exportManifestList at h
  split at h
  · cases h
  · cases h
  rename_i descriptors dir1 hc
  obtain ⟨os, hos, rfl, hdir1⟩ := exportChildren_spec hc
  obtain ⟨index, hindex, rfl⟩ := writeIndex_spec (Option.some.inj h)
  exact ⟨os, index, hos, hindex, rfl, hdir1⟩

/-! ## Reading the layout -/

theorem get_digest (c : Codec) (mediaType : Str) (b : Bytes) (seed : Seed) :
    ((blobDescriptor c mediaType b).toValue seed).get? "digest".toList
      = some (.str (Digest.sha256Colon ++ (c.sha256 b).asHex)) := rfl

theorem get_config (seeds : ManifestSeeds) (m : OciManifest) :
    (m.toValue seeds).get? "config".toList = some (m.config.toValue fun _ => 0) := rfl

theorem items_manifests (manifests : List OciDescriptor) :
    (indexValue manifests).items "manifests".toList = manifests.map fun d => d.toValue fun _ => 0 :=
  rfl

theorem file_of_written (h : dir.blobs.lookup (x.formats.codec.sha256 b) = some b) :
    x.File dir ((blobDescriptor x.formats.codec mediaType b).toValue seed) b :=
  ⟨_, get_digest _ _ _ _, rfl, h, rfl⟩

theorem File.lookup (h : x.File dir ((blobDescriptor x.formats.codec mediaType b).toValue seed) bytes) :
    dir.blobs.lookup (x.formats.codec.sha256 b) = some bytes ∧
      x.formats.codec.sha256 bytes = x.formats.codec.sha256 b := by
  obtain ⟨d, hd, -, hl, hsha⟩ := h
  rw [get_digest, Option.some.injEq, str.injEq, append_cancel_left_eq] at hd
  have heq : d = x.formats.codec.sha256 b := (Digest.asHex_injective hd).symm
  rw [← heq]
  exact ⟨hl, hsha⟩

theorem OutputOf.content {seeds : ChildSeeds}
    (h : x.OutputOf fuel seeds child o) : ∀ b ∈ o.files, x.Content b := by
  obtain ⟨edges, -, hlayers⟩ := h.first.read
  intro b hb
  simp only [ChildOutput.files, cons_append, mem_cons, mem_append, not_mem_nil,
    or_false] at hb
  rcases hb with rfl | hb | rfl | rfl
  · exact .inl ⟨_, h.first.configJson⟩
  · exact .inr (layerBlobs_packed hlayers b hb)
  · exact .inl ⟨_, h.first.manifestJson⟩
  · exact .inl ⟨_, h.second.manifestJson⟩

theorem outputs_content {seeds : ℕ → ChildSeeds} {children : List Digest}
    (hos : List.Forall₂ (fun child o => ∃ k, x.OutputOf fuel (seeds k) child o) children os) :
    ∀ o ∈ os, ∀ b ∈ o.files, x.Content b := by
  intro o ho
  obtain ⟨child, -, k, hchild⟩ := forall₂_mem_right hos ho
  exact hchild.content

theorem File.mem (hx : x.Lawful) (hcontent : ∀ o ∈ os, ∀ b ∈ o.files, x.Content b)
    (hdir : dir.blobs = writeAll x.formats.codec (os.flatMap ChildOutput.files) ∅)
    (hb : x.Content b)
    (h : x.File dir ((blobDescriptor x.formats.codec mediaType b).toValue seed) bytes) :
    bytes = b ∧ ∃ o ∈ os, b ∈ o.files := by
  obtain ⟨hlookup, hsha⟩ := h.lookup
  rw [hdir] at hlookup
  rcases mem_of_lookup_writeAll hlookup with hmem | hbefore
  · obtain ⟨o, ho, hmem⟩ := mem_flatMap.mp hmem
    have heq : bytes = b := hx.collisionFree bytes b (hcontent o ho bytes hmem) hb hsha
    exact ⟨heq, o, ho, heq ▸ hmem⟩
  · rw [Finmap.lookup_empty] at hbefore
    cases hbefore

/-! ## The two configurations -/

def keyMap (keys : List Str) : List (Str × Value) := Value.mapOf (keys.map fun k => (k, .obj []))

theorem mem_keyMap (keys : List Str) (k : Str) : k ∈ (keyMap keys).map Prod.fst ↔ k ∈ keys := by
  rw [keyMap, mem_keys_mapOf, map_map]
  simp

theorem oneKey_keyMap (h : ∀ k ∈ keys, ∀ l ∈ keys, k = l) : OneKey (keyMap keys) :=
  fun a ha b hb => h a.1 ((mem_keyMap keys a.1).mp (mem_map_of_mem ha)) b.1
    ((mem_keyMap keys b.1).mp (mem_map_of_mem hb))

theorem get_config_maps (seeds : ExportSeeds) (data : ManifestData) :
    (((exportConfig data).toValue seeds).get? "config".toList).bind
        (fun config => config.get? "ExposedPorts".toList)
      = data.exposedPorts.map (fun ports => .ofMap id (iterate seeds.exposedPorts (keyMap ports))) ∧
    (((exportConfig data).toValue seeds).get? "config".toList).bind
        (fun config => config.get? "Volumes".toList)
      = data.volumes.map (fun vols => .ofMap id (iterate seeds.volumes (keyMap vols))) := by
  constructor <;>
    simp [OciImageConfig.toValue, exportConfig, OciRuntimeConfig.toValue, get?,
      lookup_append, lookup_skipNone, lookup_cons, Function.comp_def, keyMap]

theorem config_ne_manifest (seeds : ExportSeeds) (data : ManifestData) (seeds' : ManifestSeeds)
    (m : OciManifest) : (exportConfig data).toValue seeds ≠ m.toValue seeds' := by
  intro h
  have hget := congrArg (fun v => v.get? "rootfs".toList) h
  simp [OciImageConfig.toValue, OciManifest.toValue, get?, lookup_append,
    lookup_skipNone, lookup_cons] at hget

structure OneOrder (data : ManifestData) : Prop where
  exposedPorts : ∀ ports ∈ data.exposedPorts, ∀ p ∈ ports, ∀ q ∈ ports, p = q
  volumes : ∀ vols ∈ data.volumes, ∀ v ∈ vols, ∀ w ∈ vols, v = w

theorem toValue_eq_of_oneKey {c : OciRuntimeConfig} (hports : ∀ m ∈ c.exposedPorts, OneKey m)
    (hvolumes : ∀ m ∈ c.volumes, OneKey m) (seeds seeds' : ExportSeeds) :
    c.toValue seeds = c.toValue seeds' := by
  unfold OciRuntimeConfig.toValue
  rw [skipNone_iterate hports seeds.exposedPorts seeds'.exposedPorts,
    skipNone_iterate hvolumes seeds.volumes seeds'.volumes]

theorem OneOrder.config_eq (h : OneOrder data) (seeds seeds' : ExportSeeds) :
    (exportConfig data).toValue seeds = (exportConfig data).toValue seeds' := by
  unfold OciImageConfig.toValue exportConfig
  simp only [skipNone]
  rw [toValue_eq_of_oneKey ?_ ?_ seeds seeds']
  · intro m hm
    obtain ⟨ports, hports, rfl⟩ := Option.map_eq_some_iff.mp hm
    exact oneKey_keyMap (h.exposedPorts ports hports)
  · intro m hm
    obtain ⟨vols, hvols, rfl⟩ := Option.map_eq_some_iff.mp hm
    exact oneKey_keyMap (h.volumes vols hvols)

theorem keyFirst_inj {keys' : List Str} {p q : Str} (hp : p ∈ keys) (hq : q ∈ keys)
    (h : iterate (keyFirst p) (keyMap keys') = iterate (keyFirst q) (keyMap keys)) : p = q := by
  have hp' : p ∈ (keyMap keys').map Prod.fst := by
    rw [← ((iterate_perm (keyFirst p) (keyMap keys')).map Prod.fst).mem_iff, h,
      ((iterate_perm (keyFirst q) (keyMap keys)).map Prod.fst).mem_iff, mem_keyMap]
    exact hp
  obtain ⟨a, ha, rfl⟩ := mem_map.mp hp'
  obtain ⟨b, hb, rfl⟩ := mem_map.mp ((mem_keyMap keys q).mpr hq)
  obtain ⟨first, hfirst, hkey⟩ := iterate_keyFirst ha
  obtain ⟨first', hfirst', hkey'⟩ := iterate_keyFirst hb
  rw [h, hfirst', Option.some.injEq] at hfirst
  rw [← hkey, ← hkey', hfirst]

/-! ## Closed layouts -/

section

variable {fuel : ℕ} {root : Digest} {node : DagNode}

def Exportable (x : LayoutExporter) (fuel : ℕ) (root : Digest) : Prop :=
  ∀ seeds tags, ∃ dir, x.exportToOciLayout fuel seeds tags root {} = some (.ok (), dir)

/-- Every export of the list that succeeds leaves a closed layout. -/
def AlwaysClosed (x : LayoutExporter) (fuel : ℕ) (root : Digest) : Prop :=
  ∀ seeds tags dir dir', x.exportToOciLayout fuel seeds tags root dir = some (.ok (), dir') →
    x.Closed dir'

/-- No child that can be read has two ports or two volumes. -/
def ChildrenOneOrder (x : LayoutExporter) (children : List Digest) : Prop :=
  ∀ child ∈ children, ∀ edges data, x.readManifest child = .ok (edges, data) → OneOrder data

theorem alwaysClosed_of_oneOrder (hx : x.Lawful) (hroot : x.view.getArchived root = .ok node)
    (hkind : node.kind = .manifestList) (hone : x.ChildrenOneOrder node.edges) :
    x.AlwaysClosed fuel root := by
  intro seeds tags dir dir' h
  obtain ⟨os, index, hos, hindex, hdir, hblobs⟩ := exportToOciLayout_spec hroot hkind h
  have hcontent := outputs_content hos
  have hfile : ∀ o ∈ os, ∀ b ∈ o.files, dir'.blobs.lookup (x.formats.codec.sha256 b) = some b := by
    intro o ho b hb
    rw [hblobs]
    refine lookup_writeAll (fun b' hb' hsha => ?_) (.inl (mem_flatMap.mpr ⟨o, ho, hb⟩))
    obtain ⟨o', ho', hb'⟩ := mem_flatMap.mp hb'
    exact hx.collisionFree b' b (hcontent o' ho' b' hb') (hcontent o ho b hb) hsha
  refine ⟨index, _, hdir, hx.json.reads _ _ hindex, ?_⟩
  intro m hm
  rw [items_manifests, map_map] at hm
  obtain ⟨o, ho, rfl⟩ := mem_map.mp hm
  obtain ⟨child, hchild, k, hout⟩ := forall₂_mem_right hos ho
  obtain ⟨edges, hread, -⟩ := hout.first.read
  -- The configuration that is not written is the one that is.
  have hconfig : o.secondConfig = o.config := by
    have hfirst := hout.first.configJson
    rw [(hone child hchild edges o.data hread).config_eq _ (seeds k).second] at hfirst
    exact Except.ok.inj (hout.second.configJson.symm.trans hfirst)
  refine ⟨o.secondManifest, _, file_of_written (hfile o ho _ (by simp [ChildOutput.files])),
    hx.json.reads _ _ hout.second.manifestJson, ?_⟩
  intro r hr
  rw [get_config, Option.toList_some, singleton_append] at hr
  rcases mem_cons.mp hr with rfl | hr
  · exact ⟨o.secondConfig, file_of_written (hfile o ho _ (by simp [hconfig, ChildOutput.files]))⟩
  · obtain ⟨descriptor, hdesc, rfl⟩ := mem_map.mp hr
    obtain ⟨blob, hblob, rfl⟩ := mem_map.mp hdesc
    exact ⟨blob, file_of_written (hfile o ho _ (by simp [ChildOutput.files, hblob]))⟩

def firstSeeds (k : Str) : ExportSeeds := ⟨keyFirst k, keyFirst k, {}⟩

variable {data : ManifestData}

/-- **The second configuration of a child is among the first ones**, if the layout is closed. -/
theorem second_mem_first (hx : x.Lawful) (hroot : x.view.getArchived root = .ok node)
    (hkind : node.kind = .manifestList) {seeds : ℕ → ChildSeeds}
    (h : x.exportToOciLayout fuel seeds tags root {} = some (.ok (), dir)) (hclosed : x.Closed dir)
    (hchild : child ∈ node.edges) {edges : List Digest}
    (hread : x.readManifest child = .ok (edges, data)) :
    ∃ data' k k', (exportConfig data').toValue (seeds k).first
      = (exportConfig data).toValue (seeds k').second := by
  obtain ⟨os, index, hos, hindex, hdir, hblobs⟩ := exportToOciLayout_spec hroot hkind h
  have hcontent := outputs_content hos
  obtain ⟨o, ho, k, hout⟩ := forall₂_mem_left hos hchild
  obtain ⟨edges', hread', -⟩ := hout.first.read
  rw [hread] at hread'
  injection hread' with hdata
  injection hdata with _ hdata
  -- From the index to the second manifest, and from there to the second configuration.
  obtain ⟨index', iv, hdir', hiv, hall⟩ := hclosed
  rw [hdir, Option.some.injEq] at hdir'
  subst hdir'
  rw [hx.json.reads _ _ hindex] at hiv
  cases hiv
  rw [items_manifests] at hall
  obtain ⟨bytes, mv, hfile, hmv, hrefs⟩ := hall _ (mem_map_of_mem (mem_map_of_mem ho))
  obtain ⟨rfl, -⟩ := hfile.mem hx hcontent hblobs (.inl ⟨_, hout.second.manifestJson⟩)
  rw [hx.json.reads _ _ hout.second.manifestJson] at hmv
  cases hmv
  rw [get_config, Option.toList_some, singleton_append] at hrefs
  obtain ⟨blob, hblob⟩ := hrefs _ mem_cons_self
  obtain ⟨rfl, o', ho', hmem⟩ := hblob.mem hx hcontent hblobs (.inl ⟨_, hout.second.configJson⟩)
  -- Of the files, only a first configuration can be that text.
  obtain ⟨child', -, k', hout'⟩ := forall₂_mem_right hos ho'
  have hjson := hout.second.configJson
  rw [← hdata] at hjson
  simp only [ChildOutput.files, cons_append, mem_cons, mem_append, not_mem_nil,
    or_false] at hmem
  rcases hmem with hmem | hmem | hmem | hmem
  · rw [hmem] at hjson
    exact ⟨o'.data, k', k, hx.json.injective hout'.first.configJson hjson⟩
  · obtain ⟨_, -, hlayers⟩ := hout'.first.read
    obtain ⟨stream, hstream⟩ := layerBlobs_packed hlayers _ hmem
    exact absurd hstream (hx.notJson _ _ _ hjson)
  · rw [hmem] at hjson
    exact absurd (hx.json.injective hjson hout'.first.manifestJson) (config_ne_manifest _ _ _ _)
  · rw [hmem] at hjson
    exact absurd (hx.json.injective hjson hout'.second.manifestJson) (config_ne_manifest _ _ _ _)

theorem eq_of_map_eq {maps maps' : Option (List Str)} {p q : Str}
    (hkeys : maps = some keys) (hp : p ∈ keys) (hq : q ∈ keys)
    (h : maps'.map (fun ks => ofMap id (iterate (keyFirst p) (keyMap ks))) =
      maps.map fun ks => .ofMap id (iterate (keyFirst q) (keyMap ks))) : p = q := by
  rw [hkeys, Option.map_some] at h
  obtain ⟨keys', -, hmap⟩ := Option.map_eq_some_iff.mp h
  exact keyFirst_inj hp hq (ofMap_inj Function.injective_id hmap)

theorem ports_eq_of_config_eq {data' : ManifestData} {ports : List Str} {p q : Str}
    (hports : data.exposedPorts = some ports) (hp : p ∈ ports) (hq : q ∈ ports)
    (h : (exportConfig data').toValue (firstSeeds p) = (exportConfig data).toValue (firstSeeds q)) :
    p = q := by
  have hget := (get_config_maps (firstSeeds p) data').1
  rw [h, (get_config_maps (firstSeeds q) data).1] at hget
  exact eq_of_map_eq hports hp hq hget.symm

theorem oneOrder_of_alwaysClosed (hx : x.Lawful) (hroot : x.view.getArchived root = .ok node)
    (hkind : node.kind = .manifestList) (hexp : x.Exportable fuel root)
    (hclosed : x.AlwaysClosed fuel root) : x.ChildrenOneOrder node.edges := by
  intro child hchild edges data hread
  -- The first configurations have `p` in front, the second ones `q`.
  have hpair : ∀ p q : Str, ∃ data',
      (exportConfig data').toValue (firstSeeds p) = (exportConfig data).toValue (firstSeeds q) := by
    intro p q
    obtain ⟨dir, hdir⟩ := hexp (fun _ => ⟨firstSeeds p, firstSeeds q⟩) []
    obtain ⟨data', -, -, heq⟩ :=
      second_mem_first hx hroot hkind hdir (hclosed _ _ _ _ hdir) hchild hread
    exact ⟨data', heq⟩
  constructor
  · intro ports hports p hp q hq
    obtain ⟨data', heq⟩ := hpair p q
    exact ports_eq_of_config_eq hports hp hq heq
  · intro vols hvols p hp q hq
    obtain ⟨data', heq⟩ := hpair p q
    have hget := (get_config_maps (firstSeeds p) data').2
    rw [heq, (get_config_maps (firstSeeds q) data).2] at hget
    exact eq_of_map_eq hvols hp hq hget.symm

/-- **When an exported list is closed.** Every export of a manifest list that succeeds leaves a closed
    layout, whatever the order of the maps, exactly if no child has two ports or two volumes. -/
theorem closed_iff_oneOrder (hx : x.Lawful) (hroot : x.view.getArchived root = .ok node)
    (hkind : node.kind = .manifestList) (hexp : x.Exportable fuel root) :
    x.AlwaysClosed fuel root ↔ x.ChildrenOneOrder node.edges :=
  ⟨oneOrder_of_alwaysClosed hx hroot hkind hexp, alwaysClosed_of_oneOrder hx hroot hkind⟩

end

end LayoutExporter

/-! ## Two lists -/

namespace LayoutExporter

variable {x : LayoutExporter} {data : ManifestData}

theorem writeManifest_congr (ha : data.annotations = none)
    (hs : data.subject = none) (seeds seeds' : ExportSeeds) (config : Bytes)
    (layers : List OciDescriptor) (dir : LayoutDir) :
    x.writeManifest seeds data config layers dir = x.writeManifest seeds' data config layers dir := by
  have hvalue : (x.manifestOf data config layers).toValue seeds.manifest
      = (x.manifestOf data config layers).toValue seeds'.manifest := by
    simp only [OciManifest.toValue, manifestOf, ha, hs, skipNone]
  unfold writeManifest
  rw [hvalue]

theorem exportChild_congr {child : Digest} {edges : List Digest}
    (hread : x.readManifest child = .ok (edges, data)) (hone : OneOrder data)
    (ha : data.annotations = none) (hs : data.subject = none) (fuel : ℕ) (seeds seeds' : ChildSeeds)
    (dir : LayoutDir) :
    x.exportChild fuel seeds child dir = x.exportChild fuel seeds' child dir := by
  unfold exportChild exportSingleManifest describeChild
  simp only [hread, hone.config_eq seeds.first seeds'.first, hone.config_eq seeds.second seeds'.second,
    writeManifest_congr ha hs seeds.first seeds'.first,
    writeManifest_congr ha hs seeds.second seeds'.second]

end LayoutExporter

namespace Sample

open LayoutExporter

/-- The data of an image that exposes some ports, and its configuration with one of them first. -/
def portsData (ports : List Str) : ManifestData := manifestData {} (portsImage ports)

def configWith (ports : List Str) (first : Str) : Value :=
  (exportConfig (portsData ports)).toValue (firstSeeds first)

/-- The lists with the one image, and with the other. -/
def onePortListD : Digest :=
  .ofNat 0x1d64133706a6323cbc5321dc62d6bb9426e6327123052799c17bd7690befc1a1
def twoPortsListD : Digest :=
  .ofNat 0xba84b6c31c80adcd4e283576ff68c9bfd474b896efba226f0bb76ecef5aa81ad

def layoutNodes : List (DagNode × Digest) :=
  (⟨.manifestList, [onePortD], []⟩, onePortListD) ::
    (⟨.manifestList, [httpFirstD], []⟩, twoPortsListD) :: portRows

/-- The SHA-256 of the configurations. -/
def configTexts : List (Value × Digest) :=
  [(configWith [http] http,
      .ofNat 0xb017fefe23c28ea424f2de6315c8d7454ebb55a2289c4b1e91c3b8b174715c6c),
    (configWith [http, https] http,
      .ofNat 0x580168a6d6327731eb9d1920e254d087d847815595a38839d4e1575d226b53b0),
    (configWith [http, https] https,
      .ofNat 0xf794da1de085800180bb7aaf762fa2a03f9e85422b027959bd27077799ef80c8)]

def textsCodec (texts : List (Value × Digest)) : Codec where
  toBytes _ := .error "not in the table"
  checkArchivedRoot _ := .error "invalid archive"
  sha256 b :=
    match texts.find? fun row => row.1.text == b with
    | some row => row.2
    | none => zeroDigest

def layoutWith (texts : List (Value × Digest)) (values : List Value) : LayoutExporter where
  formats := ⟨textsCodec texts, .ofTable values, .ascii⟩
  tar := tar
  pack _ := .error "no layers"
  view := viewOf layoutNodes

def manifestWith (ports : List Str) (first : Str) : Value :=
  ((layoutWith configTexts []).manifestOf (portsData ports) (configWith ports first).text []).toValue {}

/-- Those of the manifests too. -/
def manifestTexts : List (Value × Digest) :=
  configTexts ++
    [(manifestWith [http] http,
        .ofNat 0x29e7783f4e8fe2329b547ef8fa4ec4d742b48c8d0f29486cf6c380f8a7d50580),
      (manifestWith [http, https] http,
        .ofNat 0xf602329118d95935200a430e05ecd27f0be5bf837086521950ea301c5a980dfd),
      (manifestWith [http, https] https,
        .ofNat 0xbd48693d385e2bc53f69acc5fefc4fed860a54f4d5c438b45ca40c7dc0ca5653)]

def indexWith (ports : List Str) (first : Str) : Value :=
  indexValue [blobDescriptor (textsCodec manifestTexts) imageManifestType
    (manifestWith ports first).text]

/-- And those of the indices, and of the data in the nodes. -/
def layoutTexts : List (Value × Digest) :=
  manifestTexts ++
    [(indexWith [http] http,
        .ofNat 0x1472c259a61791c255fd85ae5d5008bcab2eb48c552684701ca45a3e5b24334f),
      (indexWith [http, https] http,
        .ofNat 0xee1b52f0851d35dca7cb16598361d68a4abc74f168c43f2af639fd702c4e9369),
      (indexWith [http, https] https,
        .ofNat 0x28e76b3afab61a2d5e078846ef6f12b517fe86d2489b87fdc4c2101b0cbb0332),
      (manifestValue {} onePort,
        .ofNat 0x239506561e8d21602a5836ed437b568ba1d5af4edc7d597667687eee9de8fcd0),
      (manifestValue (.all (keyFirst http)) twoPorts,
        .ofNat 0xcd429918d565ac3aa4d2282128a1c53847ed470803e027e8869272bc964b9486)]

def layout : LayoutExporter := layoutWith layoutTexts (layoutTexts.map Prod.fst)

theorem layout_json : layout.formats.json.Lawful :=
  SerdeJson.ofTable_lawful (by decide +kernel) (by decide +kernel)

theorem layout_lawful : layout.Lawful where
  json := layout_json
  collisionFree b b' hb hb' hsha := by
    have htext : ∀ b, layout.Content b → ∃ v ∈ layoutTexts.map Prod.fst, v.text = b := by
      intro b hb
      rcases hb with ⟨v, hv⟩ | ⟨stream, hstream⟩
      · exact ⟨v, SerdeJson.mem_of_ofTable hv⟩
      · cases hstream
    obtain ⟨v, hv, rfl⟩ := htext b hb
    obtain ⟨v', hv', rfl⟩ := htext b' hb'
    have hinj : ∀ v ∈ layoutTexts.map Prod.fst, ∀ v' ∈ layoutTexts.map Prod.fst,
        (textsCodec layoutTexts).sha256 v.text = (textsCodec layoutTexts).sha256 v'.text →
          v.text = v'.text := by
      decide +kernel
    exact hinj v hv v' hv' hsha
  notJson v stream b _ := by
    intro h
    cases h

theorem onePortList_node :
    layout.view.getArchived onePortListD = .ok ⟨.manifestList, [onePortD], []⟩ := by
  decide +kernel

theorem onePort_read :
    layout.readManifest onePortD = .ok ([], portsData [http]) := by
  decide +kernel

theorem onePort_children : layout.ChildrenOneOrder [onePortD] := by
  intro child hchild edges data hread
  rw [mem_singleton.mp hchild, onePort_read] at hread
  cases hread
  constructor
  · intro ports hports
    cases hports
    decide
  · intro vols hvols
    cases hvols

theorem onePort_exportable : layout.Exportable 0 onePortListD := by
  intro seeds tags
  have hone := onePort_children onePortD mem_cons_self _ _ onePort_read
  have hlist : layout.exportToOciLayout 0 seeds tags onePortListD {}
      = layout.exportToOciLayout 0 (fun _ => {}) [] onePortListD {} := by
    unfold exportToOciLayout exportManifestList
    simp only [onePortList_node, exportChildren, if_true,
      exportChild_congr onePort_read hone rfl rfl 0 (seeds 0) {}]
  have hrun : (layout.exportToOciLayout 0 (fun _ => {}) [] onePortListD {}).map Prod.fst
      = some (.ok ()) := by decide +kernel
  obtain ⟨r, hr, hfst⟩ := Option.map_eq_some_iff.mp hrun
  refine ⟨r.2, ?_⟩
  rw [hlist, hr, ← hfst]

end Sample

namespace LayoutExporter

open Sample

theorem twoPorts_not_closed :
    ∃ dir, layout.exportToOciLayout 0 (fun _ => ⟨firstSeeds http, firstSeeds https⟩) [] twoPortsListD {}
        = some (.ok (), dir) ∧
      ¬ layout.Closed dir := by
  have hrun : (layout.exportToOciLayout 0 (fun _ => ⟨firstSeeds http, firstSeeds https⟩) []
      twoPortsListD {}).map Prod.fst = some (.ok ()) := by decide +kernel
  obtain ⟨⟨_, dir⟩, hr, rfl⟩ := Option.map_eq_some_iff.mp hrun
  refine ⟨dir, hr, fun hclosed => ?_⟩
  have hnode : layout.view.getArchived twoPortsListD = .ok ⟨.manifestList, [httpFirstD], []⟩ := by
    decide +kernel
  have hread : layout.readManifest httpFirstD = .ok ([], portsData [http, https]) := by
    decide +kernel
  obtain ⟨data', -, -, heq⟩ :=
    second_mem_first layout_lawful hnode rfl hr hclosed mem_cons_self hread
  have hports : (portsData [http, https]).exposedPorts = some [http, https] := rfl
  exact absurd (ports_eq_of_config_eq hports (by decide) (by decide) heq) (by decide)

theorem closed_onePort :
    layout.ChildrenOneOrder [onePortD] ∧ layout.AlwaysClosed 0 onePortListD :=
  ⟨onePort_children, (closed_iff_oneOrder layout_lawful onePortList_node rfl
    onePort_exportable).mpr onePort_children⟩

end LayoutExporter

end Pullrun
