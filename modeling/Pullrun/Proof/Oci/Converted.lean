import Pullrun.Proof.Oci.Extract

/-!
# What a converted image is in the store

`convert_layer` reads the archive, stores the whiteouts, the trees and the layer node, and if there
are whiteouts stores the layer node a second time with them among its edges.
-/

namespace Pullrun

open FileTree OciMaterializer List

structure EntriesOf (F : Formats) (L : Layer) (s : MmapStore)
    (pairs : List (Item × (Str × DirectoryEntry))) : Prop where
  items : pairs.map Prod.fst = L.entries
  entryOf : ∀ p ∈ pairs, EntryOf F L s p.1 p.2

variable {entries : List (Str × DirectoryEntry)} {F : Formats} {L : Layer}

theorem EntriesOf.of_forall₂ {s : MmapStore}
    (h : List.Forall₂ (EntryOf F L s) L.entries entries) :
    ∃ pairs, EntriesOf F L s pairs ∧ pairs.map Prod.snd = entries := by
  refine ⟨L.entries.zip entries, ⟨map_fst_zip h.length_eq.le, fun p hp => ?_⟩,
    map_snd_zip h.length_eq.ge⟩
  exact forall₂_zip h hp

theorem EntriesOf.mono {s s' : MmapStore}
    {pairs : List (Item × (Str × DirectoryEntry))} (h : EntriesOf F L s pairs) (hg : s.Grown s') :
    EntriesOf F L s' pairs :=
  ⟨h.items, fun p hp => (h.entryOf p hp).mono hg⟩

/-- Under `d` there is what `convert_layer` makes of `L`. -/
def ConvertedLayer (F : Formats) (s : MmapStore) (L : Layer) (depth : ℕ) (d : Digest) : Prop :=
  ∃ pairs tree ws, EntriesOf F L s pairs ∧
    IsTree F (s.Holds F.codec) (pairs.map Prod.snd) depth [] tree ∧
    List.Forall₂ (fun w i => s.Holds F.codec w ((WhiteoutEntry.delete i.loc.text).node F.text)) ws
      L.whiteouts ∧
    s.Holds F.codec d ⟨.layer, tree :: ws, F.text.utf8 []⟩

theorem IsTree.mono {P Q : Digest → DagNode → Prop} {depth : ℕ} {path : Str} {tree : Digest}
    (hPQ : ∀ d n, P d n → Q d n) (h : IsTree F P entries depth path tree) :
    IsTree F Q entries depth path tree := by
  obtain ⟨edges, inline, hin, ht, hedges⟩ := h
  refine ⟨edges, inline, hin, hPQ _ _ ht, hedges.imp fun edge e he => ?_⟩
  split
  · rename_i hdir
    rw [if_pos hdir] at he
    exact he.mono hPQ
  · rename_i hdir
    rw [if_neg hdir] at he
    obtain ⟨heq, data, hdata⟩ := he
    exact ⟨heq, data, hPQ _ _ hdata⟩

section

variable {F : Formats} {s s' : MmapStore} {L : Layer} {depth : ℕ} {d : Digest} {seeds : ImageSeeds}
  {image : PulledImage} {archive : Archive}

theorem ConvertedLayer.mono (h : ConvertedLayer F s L depth d) (hg : s.Grown s') :
    ConvertedLayer F s' L depth d := by
  obtain ⟨pairs, tree, ws, hpairs, htree, hws, hd⟩ := h
  exact ⟨pairs, tree, ws, hpairs.mono hg, htree.mono fun _ _ hn => hn.mono hg,
    hws.imp fun _ _ hw => hw.mono hg, hd.mono hg⟩

/-! ## Converting

A conversion that succeeds has gone through all its steps. -/

theorem convertLayer_ok {seeds : ℕ → Seed} {fuel : ℕ}
    (h : convertLayer F seeds fuel archive s = some (.ok d, s')) :
    ∃ x s1 ws s2 layer s3, extractTarEntries F.codec seeds archive s = (.ok x, s1) ∧
      storeWhiteouts F x.whiteouts s1 = (.ok ws, s2) ∧
      storeTrees F x.entries fuel [] s2 = some (.ok layer, s3) ∧
      addWhiteouts F ws layer s3 = (.ok d, s') := by
  revert h
  fun_cases convertLayer F seeds fuel archive s with
  | case1 | case2 | case3 | case4 => rintro ⟨⟩
  | case5 x s1 hx ws s2 hw layer s3 ht =>
    exact fun h => ⟨x, s1, ws, s2, layer, s3, hx, hw, ht, Option.some.inj h⟩

theorem convertLayers_cons_ok {fuel k : ℕ} {rest : List Archive} {ds : List Digest}
    (h : convertLayers F seeds fuel k (archive :: rest) s = some (.ok ds, s')) :
    ∃ d s1 ds', convertLayer F (seeds.xattrs k) fuel archive s = some (.ok d, s1) ∧
      convertLayers F seeds fuel (k + 1) rest s1 = some (.ok ds', s') ∧ ds = d :: ds' := by
  rw [convertLayers] at h
  split at h
  · cases h
  · cases h
  rename_i d s1 hl
  split at h
  · cases h
  · cases h
  rename_i ds' s2 hrest
  cases h
  exact ⟨d, s1, ds', hl, hrest, rfl⟩

theorem convert_ok {fuel : ℕ} (h : convert F seeds fuel image s = some (.ok d, s')) :
    ∃ ds s1, convertLayers F seeds fuel 0 image.layers s = some (.ok ds, s1) ∧
      createManifestNode F seeds image ds s1 = (.ok d, s') := by
  unfold convert at h
  split at h
  · cases h
  · cases h
  rename_i ds s1 hls
  exact ⟨ds, s1, hls, Option.some.inj h⟩

theorem storeWhiteouts_spec (hc : F.codec.Lawful) {whs : List WhiteoutEntry} {s s' : MmapStore} {ws}
    (hs : s.Sound F.codec) (h : storeWhiteouts F whs s = (.ok ws, s')) :
    s'.Sound F.codec ∧ s.Grown s' ∧
      List.Forall₂ (fun w wh => s'.Holds F.codec w (wh.node F.text)) ws whs := by
  fun_induction storeWhiteouts F whs s generalizing ws with
  | case1 =>
    cases h
    exact ⟨hs, .refl _, .nil⟩
  | case2 | case3 => cases h
  | case4 wh whs s w s1 hput rest s2 hrest ih =>
    cases h
    obtain ⟨hs1, hg1, hw, -⟩ := MmapStore.putBlocking_spec hc hs hput
    obtain ⟨hs2, hg2, hall⟩ := ih hs1 hrest
    exact ⟨hs2, hg1.trans hg2, .cons (hw.mono hg2) hall⟩

variable {pairs : List (Item × (Str × DirectoryEntry))} {ws : List Digest} {fuel : ℕ} {items : List Item}
  {layers : List Layer}

theorem EntriesOf.filesHeld (h : EntriesOf F L s pairs) :
    FilesHeld F s ((pairs.map Prod.snd).map Prod.snd) := by
  intro e he hdir
  rw [map_map] at he
  obtain ⟨p, hp, rfl⟩ := mem_map.mp he
  have hi := h.entryOf p hp
  exact ⟨_, hi.stored (by rw [← hi.isDir]; exact hdir)⟩

theorem addWhiteouts_spec (hc : F.codec.Lawful) (hs : s.Sound F.codec) {tree layer : Digest}
    {path : Bytes} (hlayer : s.Holds F.codec layer ⟨.layer, [tree], path⟩)
    (h : addWhiteouts F ws layer s = (.ok d, s')) :
    s'.Sound F.codec ∧ s.Grown s' ∧ s'.Holds F.codec d ⟨.layer, tree :: ws, path⟩ := by
  unfold addWhiteouts at h
  split at h
  · rename_i hws
    cases h
    subst hws
    exact ⟨hs, .refl s, hlayer⟩
  · have hread := hlayer.getArchived hc hs
    have hcoh := MmapStore.getArchived_coherent F.codec hs.coherent layer
    rcases hget : s.getArchived F.codec layer with ⟨_ | node, s1⟩
    · rw [hget] at hread; cases hread
    · rw [hget] at hread h hcoh
      cases hread
      simp only at h
      have hdisk : s1.disk = s.disk := hcoh.2.1
      have hs1 : s1.Sound F.codec := ⟨hcoh.1, hdisk ▸ hs.nodes, hdisk ▸ hs.blobs⟩
      have hg1 : s.Grown s1 :=
        ⟨fun d b hb => by rw [hdisk]; exact hb, fun d b hb => by rw [hdisk]; exact hb⟩
      obtain ⟨hs2, hg2, hd⟩ := putNode_spec hc hs1 h
      exact ⟨hs2, hg1.trans hg2, hd⟩

/-- **What `convert_layer` stores.** -/
theorem convertLayer_spec (hc : F.codec.Lawful) (hread : ReadFrom F archive L) {seeds : ℕ → Seed}
    (hs : s.Sound F.codec) (h : convertLayer F seeds fuel archive s = some (.ok d, s')) :
    ∃ depth, fuel = depth + 1 ∧ s'.Sound F.codec ∧ s.Grown s' ∧ ConvertedLayer F s' L depth d := by
  obtain ⟨x, s1, ws, s2, layer, s3, hx, hw, ht, hadd⟩ := convertLayer_ok h
  obtain ⟨hs1, hg1, hwhs, hentries⟩ := hread hs hx
  obtain ⟨pairs, hpairs, hsnd⟩ := EntriesOf.of_forall₂ hentries
  obtain ⟨hs2, hg2, hws⟩ := storeWhiteouts_spec hc hs1 hw
  have hheld : FilesHeld F s2 (x.entries.map Prod.snd) := hsnd ▸ (hpairs.mono hg2).filesHeld
  obtain ⟨hs3, hg3, hlayer⟩ := storeTrees_isLayer hc hs2 hheld ht
  obtain ⟨depth, rfl⟩ : ∃ k, fuel = k + 1 := by
    cases fuel with
    | zero => exact hlayer.elim
    | succ k => exact ⟨k, rfl⟩
  obtain ⟨tree, hl, htree⟩ := isLayer_succ_iff.mp hlayer
  obtain ⟨hs4, hg4, hd⟩ := addWhiteouts_spec hc hs3 hl hadd
  refine ⟨depth, rfl, hs4, ((hg1.trans hg2).trans hg3).trans hg4, pairs, tree, ws,
    hpairs.mono ((hg2.trans hg3).trans hg4), ?_, ?_, hd⟩
  · rw [hsnd]
    exact htree.mono fun _ _ hn => hn.mono hg4
  · rw [hwhs] at hws
    exact (forall₂_map_right_iff.mp hws).imp fun _ _ hn => hn.mono (hg3.trans hg4)

/-- Under `manifest` there is what `convert` makes of a stack of layers. -/
def ConvertedImage (F : Formats) (s : MmapStore) (layers : List Layer) (depth : ℕ)
    (manifest : Digest) : Prop :=
  ∃ ds inline, List.Forall₂ (fun d L => ConvertedLayer F s L depth d) ds layers ∧
    s.Holds F.codec manifest ⟨.manifest, ds, inline⟩

theorem convertLayers_spec (hc : F.codec.Lawful) {archives : List Archive}
    (hread : List.Forall₂ (ReadFrom F) archives layers) :
    ∀ {k : ℕ} {s s' : MmapStore} {ds}, s.Sound F.codec →
      convertLayers F seeds fuel k archives s = some (.ok ds, s') →
      s'.Sound F.codec ∧ s.Grown s' ∧
        List.Forall₂ (fun d L => ConvertedLayer F s' L (fuel - 1) d) ds layers := by
  induction hread with
  | nil =>
    intro k s s' ds hs h
    cases h
    exact ⟨hs, .refl s, .nil⟩
  | cons hL _ ih =>
    intro k s s' ds hs h
    obtain ⟨d, s1, rest, hl, hrest, rfl⟩ := convertLayers_cons_ok h
    obtain ⟨depth, hfuel, hs1, hg1, hd⟩ := convertLayer_spec hc hL hs hl
    obtain ⟨hs2, hg2, hall⟩ := ih hs1 hrest
    refine ⟨hs2, hg1.trans hg2, .cons ?_ hall⟩
    have hdepth : fuel - 1 = depth := by omega
    exact hdepth ▸ hd.mono hg2

/-- **What `convert` stores.** -/
theorem convert_spec (hc : F.codec.Lawful)
    (hread : List.Forall₂ (ReadFrom F) image.layers layers)
    (hs : s.Sound F.codec) {manifest : Digest}
    (h : convert F seeds fuel image s = some (.ok manifest, s')) :
    s'.Sound F.codec ∧ s.Grown s' ∧ ConvertedImage F s' layers (fuel - 1) manifest := by
  obtain ⟨ds, s1, hls, hnode⟩ := convert_ok h
  obtain ⟨hs1, hg1, hall⟩ := convertLayers_spec hc hread hs hls
  obtain ⟨hs2, hg2, hm⟩ := putNode_spec hc hs1 hnode
  exact ⟨hs2, hg1.trans hg2, ds, _, hall.imp fun _ _ hd => hd.mono hg2, hm⟩

/-! ## Materializing -/

def deleteAll {κ : Type} (root : Loc) (ws : List Item) (fs : Fs κ Attr) : Fs κ Attr :=
  ws.foldl (fun fs w => applyDelete (Loc.path (root ++ w.loc)) fs) fs

theorem edges_of_whiteouts {κ : Type} {v : StoreView κ} (h : List.Forall₂ (fun w i => v.getArchived w =
      .ok ((WhiteoutEntry.delete i.loc.text).node F.text)) ws items) :
    whiteoutEdges v ws = ws.map (fun w => (w, false)) ∧ treeEdges v ws = [] := by
  unfold whiteoutEdges treeEdges
  induction h with
  | nil => exact ⟨rfl, rfl⟩
  | cons hw _ ih =>
    rw [filterMap_cons, filter_cons, hw]
    simp only [WhiteoutEntry.node, map_cons, ih.1, ih.2, true_and]
    rfl

theorem applyWhiteouts_eq {κ : Type} {v : StoreView κ} (hx : F.text.Lawful) {root : Loc}
    (hok : ∀ i ∈ items, i.Ok)
    (h : List.Forall₂ (fun w i => v.getArchived w =
      .ok ((WhiteoutEntry.delete i.loc.text).node F.text)) ws items)
    (fs : Fs κ Attr) :
    forEach (applyWhiteout F.text v root []) (ws.map fun w => (w, false)) fs =
      some (.ok (), deleteAll root items fs) := by
  induction h generalizing fs with
  | nil => rfl
  | @cons w i ws items hw _ ih =>
    have hi := hok i mem_cons_self
    have hpath : whiteoutPath root [] i.loc.text = Loc.path (root ++ i.loc) := by
      rw [whiteoutPath, if_pos rfl, join_text hi.names, Loc.path_append]
    rw [map_cons, forEach, applyWhiteout, hw]
    simp only [WhiteoutEntry.node, hx i.loc.text, hpath]
    exact ih (fun j hj => hok j (mem_cons_of_mem _ hj)) _

theorem EntriesOf.wf (h : EntriesOf F L s pairs) : ∀ e ∈ pairs.map Prod.snd, e.2.Wf := by
  intro e he
  obtain ⟨p, hp, rfl⟩ := mem_map.mp he
  exact (h.entryOf p hp).wf

theorem materializeLayer_converted (hc : F.codec.Lawful) (hj : F.json.Lawful) (hx : F.text.Lawful)
    (hs : s.Sound F.codec) {tree : Digest} (hpairs : EntriesOf F L s pairs)
    (htree : IsTree F (s.Holds F.codec) (pairs.map Prod.snd) depth [] tree)
    (hws : List.Forall₂ (fun w i => s.Holds F.codec w
      ((WhiteoutEntry.delete i.loc.text).node F.text)) ws L.whiteouts)
    (hd : s.Holds F.codec d ⟨.layer, tree :: ws, F.text.utf8 []⟩) (hfuel : 2 * depth + 2 ≤ fuel)
    (root : Loc) (fs : Fs Bytes Attr) :
    materializeLayer F.json F.text (s.view F.codec) root fuel d fs =
      forEach (materializeListed (s.view F.codec) root)
        (listing (pairs.map Prod.snd) (depth + 1) []) (deleteAll root L.whiteouts fs) := by
  have htree' : IsTree F (fun d n => (s.view F.codec).getArchived d = .ok n)
      (pairs.map Prod.snd) depth [] tree := htree.mono fun _ _ hn => hn.view_getArchived hc hs
  have hws' := hws.imp fun _ _ hw => hw.view_getArchived hc hs
  have hok : ∀ i ∈ L.whiteouts, i.Ok := fun i hi => L.item_ok (Layer.mem_whiteouts.mp hi).1
  obtain ⟨hwhs, htrees⟩ := edges_of_whiteouts hws'
  -- The tree is not a whiteout.
  have hwhs' : whiteoutEdges (s.view F.codec) (tree :: ws) = ws.map (fun w => (w, false)) := by
    obtain ⟨edges, inline, -, ht, -⟩ := htree'
    rw [← hwhs, whiteoutEdges, filterMap_cons, ht]
    rfl
  have htrees' : treeEdges (s.view F.codec) (tree :: ws) = [tree] := by
    obtain ⟨edges, inline, -, ht, -⟩ := htree'
    rw [treeEdges] at htrees ⊢
    rw [filter_cons, ht, htrees]
    rfl
  rw [materializeLayer, hd.view_getArchived hc hs]
  simp only [if_true, hx []]
  rw [hwhs', htrees', applyWhiteouts_eq hx hok hws']
  simp only [forEach]
  rw [materializeTree_listing hj hx hpairs.wf htree' hfuel]
  rcases forEach (materializeListed (s.view F.codec) root)
    (listing (pairs.map Prod.snd) (depth + 1) []) (deleteAll root L.whiteouts fs) with
    _ | ⟨_ | _, fs'⟩ <;> rfl

end

end Pullrun
