import Pullrun.Proof.Service.InUse
import Pullrun.Proof.Service.Ledger
import Pullrun.Service.GcRoots

/-!
# The roots of a collection are stored

A collection refuses to run if one of its roots is not in the store.
-/

namespace Pullrun

open MmapStore Sample Option Schedule DagTar Digest RuntimeService

def RuntimeService.GcRoot (s : RuntimeService) (d : Digest) : Prop := s.Tagged d ∨ s.Needs d

theorem namedDigest_eq_some {text : Str} {d : Digest} :
    namedDigest text = some d ↔ fromHex text = .ok d := by
  rw [namedDigest]
  cases h : fromHex text with
  | error e => simp
  | ok e => simp

namespace RuntimeService

variable {s : RuntimeService} {tags : List (Σ _ : Str, Str)} {rows : List (Σ _ : Str, WorkloadRow)}
  {d : Digest}

theorem gcRoot_of_mem (ho : s.Orders tags rows) (h : d ∈ enumerateGcRoots tags rows) :
    s.GcRoot d := by
  have hnamed : ∀ {text : Str}, d ∈ (if text = [] then [] else (namedDigest text).toList) →
      namedDigest text = some d := by
    intro text hd
    split at hd
    · cases hd
    · exact mem_toList.mp hd
  rcases List.mem_append.mp h with htag | hrow
  · obtain ⟨⟨key, reference⟩, hmem, hkey⟩ := List.mem_filterMap.mp htag
    have hlookup : s.imageTags.lookup key = some reference := by
      rw [← mem_def, Finmap.mem_lookup_iff, ← ho.1]
      exact hmem
    refine Or.inl ⟨key, ?_, namedDigest_eq_some.mp hkey⟩
    rw [← Finmap.lookup_isSome, hlookup]
    rfl
  · obtain ⟨row, hmem, hd⟩ := List.mem_flatMap.mp hrow
    refine Or.inr ⟨row, by rw [← ho.2]; exact hmem, ?_⟩
    exact (List.mem_append.mp hd).imp hnamed hnamed

theorem gc_ne_rootDigestMissing {c : Codec} (ho : s.Orders tags rows)
    (h : ∀ d, s.GcRoot d → s.store.disk.hasNode d = true) {config : GarbageCollector} {now : ℕ}
    {listing : List Digest} :
    s.gc c tags rows config now listing ≠ some (.error (.rootDigestMissing d)) := by
  intro hgc
  rw [gc] at hgc
  split at hgc
  · cases hgc
  · obtain ⟨hd, habs⟩ := GarbageCollector.collectListed_rootDigestMissing (some.inj hgc)
    rw [h d (gcRoot_of_mem ho hd)] at habs
    cases habs

end RuntimeService

namespace ImageHost

variable {cfg : RuntimeConfig} {s t : ImageHost} {nodes : List (DagNode × Bytes)}

/-! ## What each request has to find -/

def CarriesRoot (cfg : RuntimeConfig) (s : ImageHost) (archive : DagTar.Archive) : Prop :=
  ∀ rootDigest root, DagTar.NamesRoot cfg.manifestJson archive rootDigest →
    Digest.fromHex rootDigest = .ok root →
    s.service.store.disk.hasNode root = true ∨ ∃ b, DagTar.HasFile DagTar.nodesDir archive root b

def KernelStored (s : ImageHost) (req : Run cfg.formats.codec) : Prop :=
  ∀ d, s.kernelCache.lookup req.kernelImage = some d → s.service.store.disk.hasNode d = true

def RootBut (s : ImageHost) (key : Str) (d : Digest) : Prop :=
  (∃ k ∈ s.service.imageTags, k ≠ key ∧ Digest.fromHex k = .ok d) ∨ s.service.Needs d

/-- Every other root that is reached from the removed one has a reference of its own: its count,
    with the reference that is given back taken off, is above the number of edges to it. -/
def OwnReferences (cfg : RuntimeConfig) (s : ImageHost) (rootDigest : Str) : Prop :=
  ∀ root, s.Removes rootDigest root → ∀ d, s.RootBut rootDigest d → (s.graph cfg).Reach root d →
    (s.graph cfg).inDeg d
      < ((s.graph cfg).setRc root (s.service.store.disk.getRefcount root - 1)).rc d

def KeepsRoots (cfg : RuntimeConfig) (s : ImageHost) : Request cfg.formats.codec → Prop
  | .importImage archive => s.CarriesRoot cfg archive
  | .other (.run req) => s.KernelStored req
  | .other (.remove rootDigest) => s.OwnReferences cfg rootDigest
  | _ => True

/-! ## One request -/

structure RootsStored (cfg : RuntimeConfig) (s : ImageHost) : Prop where
  coherent : s.service.store.Coherent
  valid : s.service.store.disk.Valid cfg.formats.codec
  roots : ∀ d, s.service.GcRoot d → s.service.store.disk.hasNode d = true

structure Converted (cfg : RuntimeConfig) (s t : MmapStore) (nodes : List (DagNode × Bytes)) :
    Prop where
  coherent : t.Coherent
  valid : t.disk.Valid cfg.formats.codec
  grows : Session.Grows s t
  nodes : ∀ p ∈ nodes, t.disk.hasNode (cfg.formats.codec.sha256 p.2) = true

theorem convert_converted {s : MmapStore} (hcoh : s.Coherent) (hval : s.disk.Valid cfg.formats.codec)
    (henc : ∀ p ∈ nodes, cfg.formats.codec.Encodes p.1 p.2) :
    Converted cfg s (s.convert cfg.formats.codec nodes) nodes := by
  induction nodes generalizing s with
  | nil => exact ⟨hcoh, hval, Session.Grows.refl s, fun p hp => absurd hp (by simp)⟩
  | cons p rest ih =>
    have hp := henc p List.mem_cons_self
    have hrest := ih (s := (s.put cfg.formats.codec p.1).2) (putBlocking_coherent hcoh p.1)
      (putBlocking_valid hval hp) fun q hq => henc q (List.mem_cons_of_mem _ hq)
    refine ⟨hrest.coherent, hrest.valid, (Session.grows_put s p.1).trans hrest.grows, ?_⟩
    intro q hq
    rcases List.mem_cons.mp hq with rfl | hq
    · exact hrest.grows.hasNode ((hasNode_put hp.1 _).mpr (.inl rfl))
    · exact hrest.nodes q hq

theorem RootsStored.stored (h : RootsStored cfg s)
    (henc : ∀ p ∈ nodes, cfg.formats.codec.Encodes p.1 p.2) :
    RootsStored cfg (s.stored cfg nodes) := by
  have hconv := convert_converted h.coherent h.valid henc
  exact ⟨hconv.coherent, hconv.valid, fun d hd => hconv.grows.hasNode (h.roots d hd)⟩

theorem RootsStored.bind (h : RootsStored cfg s) {root : Digest} {key reference : Str}
    {tags : Multiset Digest} (hkey : fromHex key = .ok root)
    (hroot : s.service.store.disk.hasNode root = true) :
    RootsStored cfg { s with
      service.store := s.service.store.incrementRefcount root
      service.imageTags := Finmap.insert key reference s.service.imageTags
      tags } where
  coherent := Session.coherent_incrementRefcount h.coherent root
  valid := h.valid.of_nodes_eq (Disk.setRefcount_nodes _ _ _)
  roots d hd := by
    change (s.service.store.disk.setRefcount root _).hasNode d = true
    rw [Disk.hasNode_setRefcount]
    rcases hd with ⟨k, hk, hd⟩ | hd
    · rcases Finmap.mem_insert.mp hk with rfl | hk
      · rw [hkey, Except.ok.injEq] at hd
        exact hd ▸ hroot
      · exact h.roots d (.inl ⟨k, hk, hd⟩)
    · exact h.roots d (.inr hd)

theorem RootsStored.of_sub (h : RootsStored cfg s) (hstore : t.service.store = s.service.store)
    (hroots : ∀ d, t.service.GcRoot d → s.service.GcRoot d) : RootsStored cfg t where
  coherent := by rw [hstore]; exact h.coherent
  valid := by rw [hstore]; exact h.valid
  roots d hd := by rw [hstore]; exact h.roots d (hroots d hd)

/-! ### Imports -/

variable {archive : DagTar.Archive} {rows : Finmap fun _ : Str => WorkloadRow} {d : Digest}
  {req : Run cfg.formats.codec}

theorem importWrite_keeps {store store' : MmapStore}
    (hw : ImportWrite cfg.formats.codec archive store store')
    (h : store.Coherent ∧ store.disk.Valid cfg.formats.codec) :
    (store'.Coherent ∧ store'.disk.Valid cfg.formats.codec) ∧ Session.Grows store store' := by
  obtain ⟨hcoh, hval⟩ := h
  cases hw with
  | @node d b n hfile hd hn habs =>
    rw [exists_coherent hcoh, Bool.eq_false_iff] at habs
    exact ⟨⟨Cache.Coherent.write hcoh (by simpa [Disk.hasNode] using habs) b,
      hval.writeNode d hn⟩, Session.grows_writeNode habs b⟩
  | @blob d data hfile =>
    exact ⟨⟨Session.coherent_putBlob hcoh d data,
      hval.of_nodes_eq (Session.putBlob_frame store d data).1⟩, Session.grows_putBlob store d data⟩

theorem RootsStored.imported (h : RootsStored cfg s) {store : MmapStore}
    (hw : ImportWrites cfg.formats.codec archive s.service.store store) :
    RootsStored cfg { s with service.store := store } ∧ Session.Grows s.service.store store := by
  have hall : (store.Coherent ∧ store.disk.Valid cfg.formats.codec) ∧
      Session.Grows s.service.store store := by
    refine hw.keeps (P := fun store => (store.Coherent ∧ store.disk.Valid cfg.formats.codec) ∧
      Session.Grows s.service.store store) ?_ ⟨⟨h.coherent, h.valid⟩, Session.Grows.refl _⟩
    intro s1 s2 hw h1
    obtain ⟨h2, hg⟩ := importWrite_keeps hw h1.1
    exact ⟨h2, h1.2.trans hg⟩
  exact ⟨⟨hall.1.1, hall.1.2, fun d hd => hall.2.hasNode (h.roots d hd)⟩, hall.2⟩

theorem RootsStored.importImage (h : RootsStored cfg s) (hcarries : s.CarriesRoot cfg archive) :
    RootsStored cfg (s.importImage cfg archive) := by
  have hw := importDagFromTar_writes cfg.formats.codec cfg.manifestJson s.service.store
    archive
  unfold ImageHost.importImage RuntimeService.importImage
  cases himp : importDagFromTar cfg.formats.codec cfg.manifestJson s.service.store archive with
  | mk result store =>
    rw [himp] at hw
    obtain ⟨hstored, hgrows⟩ := h.imported hw
    cases result with
    | error e => exact hstored
    | ok result =>
      obtain ⟨rootDigest, sizes⟩ := result
      dsimp only
      cases hroot : fromHex rootDigest with
      | error e => exact hstored
      | ok root =>
        obtain ⟨hnodes, hnames⟩ := importDagFromTar_ok himp
        have hhas : store.disk.hasNode root = true := by
          rcases hcarries rootDigest root hnames hroot with hbefore | ⟨b, hfile⟩
          · exact hgrows.hasNode hbefore
          · rw [← exists_coherent hstored.coherent]
            exact hnodes root b hfile
        exact hstored.bind hroot hhas

/-! ### Runs -/

theorem needs_insert {id : Str} {row : WorkloadRow}
    (h : ∃ r ∈ (Finmap.insert id row rows).entries, r.2.StartedFrom d) :
    row.StartedFrom d ∨ ∃ r ∈ rows.entries, r.2.StartedFrom d := by
  obtain ⟨⟨id', row'⟩, hmem, hfrom⟩ := h
  rw [← Finmap.mem_lookup_iff, mem_def] at hmem
  rw [FileMap.lookup_insert_if] at hmem
  split at hmem
  · exact .inl (some.inj hmem ▸ hfrom)
  · exact .inr ⟨⟨id', row'⟩, Finmap.mem_lookup_iff.mp hmem, hfrom⟩

theorem needs_erase {id : Str} (h : ∃ r ∈ (rows.erase id).entries, r.2.StartedFrom d) :
    ∃ r ∈ rows.entries, r.2.StartedFrom d := by
  obtain ⟨⟨id', row'⟩, hmem, hfrom⟩ := h
  rw [← Finmap.mem_lookup_iff, mem_def] at hmem
  rw [FileMap.lookup_erase_if] at hmem
  split at hmem
  · cases hmem
  · exact ⟨⟨id', row'⟩, Finmap.mem_lookup_iff.mp hmem, hfrom⟩

theorem needs_pruned {ids : List Str}
    (h : ∃ r ∈ (ids.foldl (fun rows id => rows.erase id) rows).entries, r.2.StartedFrom d) :
    ∃ r ∈ rows.entries, r.2.StartedFrom d := by
  induction ids generalizing rows with
  | nil => exact h
  | cons id ids ih => exact needs_erase (ih h)

theorem RootsStored.stageKernel (h : RootsStored cfg s) (hkernel : s.KernelStored req)
    {staged : ImageHost} (hs : s.stageKernel cfg req = some staged) :
    RootsStored cfg staged ∧ staged.KernelStored req := by
  rw [ImageHost.stageKernel] at hs
  split at hs
  · cases hs
    exact ⟨h, hkernel⟩
  · cases hf : req.fetched with
    | none => rw [hf] at hs; cases hs
    | some image =>
      rw [hf] at hs
      cases hs
      have hconv := convert_converted h.coherent h.valid image.encodes
      refine ⟨(h.stored image.encodes).of_sub rfl fun d hd => hd, ?_⟩
      intro d hd
      change Finmap.lookup req.kernelImage (Finmap.insert req.kernelImage image.root s.kernelCache)
        = some d at hd
      rw [Finmap.lookup_insert, some.injEq] at hd
      rw [← hd]
      exact hconv.nodes image.manifest (by simp)

/-- Whatever is launched, the node of its image was read. -/
theorem hasNode_of_imageRead {vm : Bool} (h : s.ImageRead cfg vm d = true) :
    s.service.store.disk.hasNode d = true := by
  rw [Disk.hasNode]
  cases hlookup : s.service.store.disk.nodes.lookup d with
  | some bytes => rfl
  | none => cases vm <;> simp [ImageRead, HasArchived, HasManifest, hlookup] at h

theorem KernelStored.recorded (h : s.KernelStored req)
    (hd : namedDigest (s.kernelImageDigest req.kernelImage) = some d) :
    s.service.store.disk.hasNode d = true := by
  have hnil : namedDigest [] ≠ some d := by
    rw [show namedDigest [] = none by decide]
    exact fun hn => nomatch hn
  rw [kernelImageDigest] at hd
  split at hd
  · exact absurd hd hnil
  · cases hk : s.kernelCache.lookup req.kernelImage with
    | none =>
      rw [hk] at hd
      exact absurd hd hnil
    | some e =>
      rw [hk] at hd
      change namedDigest e.asHex = some d at hd
      rw [namedDigest_eq_some, fromHex_asHex, Except.ok.injEq] at hd
      exact hd ▸ h e hk

theorem RootsStored.runWorkload (h : RootsStored cfg s) (hkernel : s.KernelStored req) :
    RootsStored cfg (s.runWorkload cfg req) := by
  rw [ImageHost.runWorkload]
  cases hs : s.stageKernel cfg req with
  | none => exact h
  | some staged =>
    obtain ⟨hstaged, hkernel'⟩ := h.stageKernel hkernel hs
    dsimp only
    cases hd : runDigest req.rootDigest with
    | error e => exact hstaged
    | ok d =>
      dsimp only
      split
      · rename_i hlaunch
        have hhas := hasNode_of_imageRead hlaunch.2
        refine ⟨hstaged.coherent, hstaged.valid, fun e he => ?_⟩
        rcases he with htag | hneeds
        · exact hstaged.roots e (.inl htag)
        · rcases needs_insert hneeds with (himg | hker) | hold
          · rw [namedDigest_eq_some] at himg
            have hde : d = e := by
              rw [runDigest] at hd
              rw [hd, Except.ok.injEq] at himg
              exact himg
            exact hde ▸ hhas
          · exact hkernel'.recorded hker
          · exact hstaged.roots e (.inr hold)
      · exact hstaged

/-! ### Removals -/

theorem dropKeeps_ownReferences (R : Digest → Prop) :
    DropKeeps fun G => ∀ d, R d → G.inDeg d < G.rc d := by
  intro G v hG hv hz d hd
  have hlt := hG d hd
  have hne : d ≠ v := by
    rintro rfl
    omega
  have hin := RefGraph.inDeg_drop hv d
  change (G.drop v).inDeg d < if d = v then 0 else G.rc d - (G.out v).count d
  rw [if_neg hne]
  omega

theorem RootsStored.removeImage (h : RootsStored cfg s) {rootDigest : Str}
    (hown : s.OwnReferences cfg rootDigest) : RootsStored cfg (s.removeImage cfg rootDigest) := by
  rcases removes_or_same cfg s rootDigest with ⟨root, hrem⟩ | hsame
  · obtain ⟨freed, store, heq, hcoh, hval, -, hP, hend⟩ := removeTag_swept
      (dropKeeps_ownReferences fun d => s.RootBut rootDigest d ∧ (s.graph cfg).Reach root d)
      h.coherent h.valid rfl fun d hd => hown root hrem d hd.1 hd.2
    rw [removeImage_eq hrem, heq]
    refine ⟨hcoh, hval, fun d hd => ?_⟩
    have hbut : s.RootBut rootDigest d := by
      rcases hd with ⟨k, hk, hkd⟩ | hneeds
      · obtain ⟨hne, hk⟩ := Finmap.mem_erase.mp hk
        exact .inl ⟨k, hk, hne, hkd⟩
      · exact .inr hneeds
    have hbefore : s.service.store.disk.hasNode d = true := by
      rcases hbut with ⟨k, hk, -, hkd⟩ | hneeds
      · exact h.roots d (.inl ⟨k, hk, hkd⟩)
      · exact h.roots d (.inr hneeds)
    have hmem : d ∈ (s.graph cfg).stored := Disk.mem_graph_stored.mpr hbefore
    change store.disk.hasNode d = true
    rw [← Disk.mem_graph_stored (c := cfg.formats.codec)]
    rcases hend with ⟨-, hsame⟩ | ⟨-, seen, hswept⟩
    · rw [hsame]
      exact hmem
    · refine (hswept.stored d).mpr ⟨hmem, fun hseen => ?_⟩
      -- the cascade has come to it, so it is reached from the root and its count is zero
      have hlt := hP d ⟨hbut, hswept.reached d (.inr hseen)⟩
      rw [hswept.seen_zero d hseen] at hlt
      exact Nat.not_lt_zero _ hlt
  · rw [hsame]
    exact h

theorem RootsStored.request (h : RootsStored cfg s) {req : Request cfg.formats.codec}
    (hkeeps : s.KeepsRoots cfg req) (hstep : s.request cfg req = some t) : RootsStored cfg t := by
  have htagged : ∀ (image : Image cfg.formats.codec) (reference : Str),
      RootsStored cfg ((s.stored cfg image.nodes).tagged image.root reference) := by
    intro image reference
    have hconv := convert_converted h.coherent h.valid image.encodes
    exact (h.stored image.encodes).bind (fromHex_asHex image.root)
      (hconv.nodes image.manifest (by simp))
  cases req with
  | importImage archive =>
    cases hstep
    exact h.importImage hkeeps
  | other op =>
    rw [ImageHost.request] at hstep
    cases op with
    | pull imageRef fetched =>
      rcases step_pull hstep with rfl | ⟨image, -, rfl⟩
      · exact h
      · exact htagged image imageRef
    | build tag image =>
      cases hstep
      exact htagged image _
    | untagged image k =>
      cases hstep
      exact h.stored fun p hp => image.encodes p (List.mem_of_mem_take hp)
    | run req =>
      cases hstep
      exact h.runWorkload hkeeps
    | exit id =>
      cases hstep
      exact h.of_sub rfl fun d hd => hd
    | stop id =>
      cases hstep
      exact h
    | prune =>
      cases hstep
      exact h.of_sub rfl fun d hd => hd.imp_right needs_pruned
    | remove rootDigest =>
      cases hstep
      exact h.removeImage hkeeps

theorem rootsStored_start : RootsStored cfg start where
  coherent := coherent_openOn _ _ _
  valid := Disk.valid_empty _
  roots d hd := by
    rcases hd with ⟨k, hk, -⟩ | ⟨row, hrow, -⟩
    · exact absurd hk Finmap.notMem_empty
    · exact absurd hrow (Multiset.notMem_zero _)

def CountsAbove (cfg : RuntimeConfig) (s : ImageHost) (key : Str) : Prop :=
  ∀ root ∈ namedDigest key,
    (∀ tag ∈ s.service.imageTags.entries, tag.1 ≠ key → ∀ d ∈ namedDigest tag.1,
      (s.graph cfg).inDeg d
        < ((s.graph cfg).setRc root (s.service.store.disk.getRefcount root - 1)).rc d) ∧
    ∀ row ∈ s.service.workloads.entries, ∀ text ∈ [row.2.imageRoot, row.2.kernelImageDigest],
      ∀ d ∈ namedDigest text, (s.graph cfg).inDeg d
        < ((s.graph cfg).setRc root (s.service.store.disk.getRefcount root - 1)).rc d

instance (s : ImageHost) (key : Str) : Decidable (s.CountsAbove cfg key) := by
  unfold CountsAbove
  infer_instance

theorem CountsAbove.ownReferences {key : Str} (h : s.CountsAbove cfg key) :
    s.OwnReferences cfg key := by
  intro root hrem d hbut _
  obtain ⟨htags, hrows⟩ := h root (namedDigest_eq_some.mpr hrem.1)
  rcases hbut with ⟨k, hk, hne, hkd⟩ | ⟨row, hrow, hfrom | hfrom⟩
  · obtain ⟨reference, hlookup⟩ := isSome_iff_exists.mp (Finmap.lookup_isSome.mpr hk)
    exact htags ⟨k, reference⟩ (Finmap.mem_lookup_iff.mp hlookup) hne d
      (namedDigest_eq_some.mpr hkd)
  · exact hrows row hrow _ (by simp) d hfrom
  · exact hrows row hrow _ (by simp) d hfrom

def manifestA : ExportManifest := ⟨Sample.imageAD.asHex, DagTar.dagFormat, 2, 0⟩

def importing : RuntimeConfig := { Sample.listRuntime with manifestJson := DagTar.jsonOf [manifestA] }

def hollow : DagTar.Archive := DagTar.readBack [(DagTar.manifestName, DagTar.manifestJson manifestA)]
def whole : DagTar.Archive := hollow ++ DagTar.readBack
  [(DagTar.nodesDir ++ Sample.leafD.asHex, Codec.archive Sample.leaf),
    (DagTar.nodesDir ++ Sample.imageAD.asHex, Codec.archive Sample.imageA)]

theorem carriesRoot_whole (s : ImageHost) : s.CarriesRoot importing whole := by
  rintro rootDigest root ⟨buf, m, hentry, hm, rfl⟩ hroot
  have hjson : importing.manifestJson.fromSlice (manifestJson manifestA) = .ok manifestA := by
    decide +kernel
  have hnode : HasFile nodesDir whole imageAD (Codec.archive imageA) := by
    refine ⟨nodesDir ++ imageAD.asHex, imageAD.asHex, ?_, by decide +kernel,
      fromHex_asHex _⟩
    simp [HasEntry, whole, readBack]
  have hbuf : buf = manifestJson manifestA := by
    have hleaf : manifestName ≠ nodesDir ++ leafD.asHex := by decide +kernel
    have hA : manifestName ≠ nodesDir ++ imageAD.asHex := by decide +kernel
    simpa [HasEntry, whole, hollow, readBack, hleaf, hA] using hentry
  rw [hbuf, hjson, Except.ok.injEq] at hm
  rw [← hm] at hroot
  have heq : imageAD = root := by
    have := fromHex_asHex imageAD
    rw [show manifestA.rootDigest = imageAD.asHex from rfl, this, Except.ok.injEq] at hroot
    exact hroot
  exact .inr ⟨_, heq ▸ hnode⟩

/-- A list of two images is built, the first image imported by itself and run, in a container and in a
    machine. -/
def importedAndRun : List (Request Sample.listCodec) :=
  [.other (.build ['m'] Sample.platforms), .importImage whole,
    .other (.run ⟨['w'], Sample.imageAD.asHex, false, [], none, true⟩),
    .other (.run ⟨['v'], Sample.imageAD.asHex, true, [], none, true⟩)]

end ImageHost

end Pullrun
