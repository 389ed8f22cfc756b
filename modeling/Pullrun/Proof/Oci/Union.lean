import Pullrun.Oci.Sample
import Pullrun.Proof.Oci.Place

/-!
# Materializing gives the union of the layers, where the layers fit

Layer by layer the materializer deletes what the whiteouts name and places the entries.
-/

namespace Pullrun

open FileTree OciMaterializer Sample List Layer

namespace Layer

/-- The layer lists the place, or has a whiteout for it that the converter keeps. -/
def Covers (L : Layer) (p : Loc) : Prop :=
  (∃ i ∈ L.entries, i.loc = p) ∨ ∃ w ∈ L.whiteouts, w.loc = p

structure Fits (L : Layer) (U : View Bytes) : Prop where
  /-- No directory, file or link has two dots in a row in its path. -/
  kept : ∀ i ∈ L.items, i.kind.isReal = true → containsDotDot i.path = false
  /-- What a whiteout or an opaque marker hides is listed again, or has a whiteout of its own. -/
  hidden : ∀ i ∈ L.items, i.kind.isReal = false → ∀ p, i.hides p → U p ≠ none → L.Covers p
  /-- There is no link above a whiteout. -/
  links : ∀ w ∈ L.whiteouts, ∀ q target, q <+: w.loc → q ≠ w.loc → U q ≠ some (.symlink target)
  /-- Entries are put over nothing, over something of their kind, or where a whiteout is. -/
  types : ∀ i ∈ L.entries, i.kind.Fits (U i.loc) ∨ ∃ w ∈ L.whiteouts, w.loc = i.loc

variable {L : Layer} {U : View Bytes}

theorem Fits.linksKept (h : L.Fits U) : L.LinksKept := by
  intro i hi target htarget
  obtain ⟨f, hf, hloc, data, hdata⟩ := L.hardLinks i (mem_entries.mp hi).1 target htarget
  have hreal : f.kind.isReal = true := by rw [hdata]; rfl
  exact ⟨f, mem_entries.mpr ⟨hf, h.kept f hf hreal, hreal⟩, hloc⟩

theorem Covers.above {p q : Loc} (h : L.Covers p) (hq : q <+: p) (hne : q ≠ p) (hnil : q ≠ []) :
    ∃ d ∈ L.entries, d.loc = q ∧ d.kind.isDir = true := by
  rcases h with ⟨i, hi, rfl⟩ | ⟨w, hw, rfl⟩
  · obtain ⟨hitem, hkept, hreal⟩ := mem_entries.mp hi
    have htar := tarLoc_of_real hreal
    exact parents_kept hitem hkept (htar ▸ hq) (htar ▸ hne) hnil
  · obtain ⟨hitem, hkept, hkind⟩ := mem_whiteouts.mp hw
    have htar : w.tarLoc = w.parent ++ [whPrefix ++ w.name] := by simp [Item.tarLoc, hkind]
    have hparent : q <+: w.parent := by
      rw [(L.item_ok hitem).loc_eq] at hq hne
      exact (prefix_concat_iff.mp hq).resolve_left hne
    refine parents_kept hitem hkept ?_ ?_ hnil
    · rw [htar]
      exact hparent.trans (prefix_append _ _)
    · rintro rfl
      have hlen := hparent.length_le
      rw [htar, length_append] at hlen
      simp at hlen

end Layer

/-! ## Whiteouts -/

structure Layer.Deleted (L : Layer) (U : View Bytes) (done : List Item) (V : View Bytes) : Prop where
  /-- Nothing changes but that places of whiteouts are cleared. -/
  cleared : ∀ p, V p = U p ∨ V p = none ∧ ∃ w ∈ done, w.loc = p
  /-- A place that is not cleared is a directory, and the layer lists it. -/
  left : ∀ w ∈ done, V w.loc = none ∨
    V w.loc = some (.dir ()) ∧ ∃ d ∈ L.entries, d.loc = w.loc ∧ d.kind.isDir = true

section

variable {L : Layer} {root : Loc} {U : View Bytes}

variable {V : View Bytes} {fs : Fs Bytes Attr}

theorem Layer.Deleted.step (hfits : L.Fits U) {done : List Item} (hV : L.Deleted U done V)
    {w : Item} (hw : w ∈ L.whiteouts) (h : Shows fs root V) :
    ∃ V', Shows (applyDelete (Loc.path (root ++ w.loc)) fs) root V' ∧
      L.Deleted U (done ++ [w]) V' := by
  obtain ⟨hitem, hkept, hkind⟩ := mem_whiteouts.mp hw
  have hne : w.loc ≠ [] := (L.item_ok hitem).ne
  have hsome : ∀ p, V p ≠ none → V p = U p := fun p hp =>
    (hV.cleared p).resolve_right fun hclear => hp hclear.1
  have hlinks : ∀ q target, q <+: w.loc → q ≠ w.loc → V q ≠ some (.symlink target) := by
    intro q target hq hqw hlink
    rw [hsome q (by rw [hlink]; simp)] at hlink
    exact hfits.links w hw q target hq hqw hlink
  obtain ⟨V', hshows, hcase⟩ := applyDelete_shows h hne hlinks
  refine ⟨V', hshows, ?_⟩
  rcases hcase with rfl | ⟨rfl, hdir, p, hp, hpw, hsomep⟩
  · refine ⟨fun p => ?_, fun v hv => ?_⟩
    · by_cases hpw : p = w.loc
      · subst hpw
        exact .inr ⟨Function.update_self .., w, by simp, rfl⟩
      · rw [Function.update_of_ne hpw]
        exact (hV.cleared p).imp_right fun ⟨hnone, v, hv, hloc⟩ =>
          ⟨hnone, v, mem_append_left _ hv, hloc⟩
    · by_cases hvw : v.loc = w.loc
      · rw [hvw]
        exact .inl (Function.update_self ..)
      · rw [Function.update_of_ne hvw]
        rcases mem_append.mp hv with hv | hv
        · exact hV.left v hv
        · exact absurd (congrArg Item.loc (mem_singleton.mp hv)) hvw
  · -- What is below the directory is covered, so the directory itself is listed.
    have hcovers : L.Covers p := by
      refine hfits.hidden w hitem (by rw [hkind]; rfl) p ?_ (hsome p hsomep ▸ hsomep)
      simpa [Item.hides, hkind] using hp
    have hlisted := hcovers.above hp hpw.symm hne
    refine ⟨fun p => (hV.cleared p).imp_right fun ⟨hnone, v, hv, hloc⟩ =>
      ⟨hnone, v, mem_append_left _ hv, hloc⟩, fun v hv => ?_⟩
    rcases mem_append.mp hv with hv | hv
    · exact hV.left v hv
    · rw [mem_singleton.mp hv]
      exact .inr ⟨hdir, hlisted⟩

theorem deleteAll_shows (hfits : L.Fits U) (h : Shows fs root U) :
    ∃ V, Shows (deleteAll root L.whiteouts fs) root V ∧ L.Deleted U L.whiteouts V := by
  -- Along the whiteouts that are left.
  have hrun : ∀ (todo done : List Item) (V : View Bytes) (fs : Fs Bytes Attr),
      L.whiteouts = done ++ todo → L.Deleted U done V → Shows fs root V →
      ∃ V', Shows (deleteAll root todo fs) root V' ∧ L.Deleted U L.whiteouts V' := by
    intro todo
    induction todo with
    | nil =>
      intro done V fs hall hV h
      rw [append_nil] at hall
      exact ⟨V, h, hall ▸ hV⟩
    | cons w todo ih =>
      intro done V fs hall hV h
      have hw : w ∈ L.whiteouts := by rw [hall]; simp
      obtain ⟨V', hshows, hV'⟩ := hV.step hfits hw h
      exact ih (done ++ [w]) V' _ (by rw [hall]; simp) hV' hshows
  exact hrun L.whiteouts [] U fs rfl ⟨fun p => .inl rfl, by simp⟩ h

/-! ## One layer -/

theorem Layer.Fits.after (hfits : L.Fits U) (hV : L.Deleted U L.whiteouts V) :
    ∀ i ∈ L.entries, i.kind.Fits (V i.loc) := by
  intro i hi
  have hnone : i.kind.Fits none := by
    unfold ItemKind.Fits
    cases i.kind <;> simp
  rcases hV.cleared i.loc with hsame | ⟨hclear, -⟩
  · rcases hfits.types i hi with hfit | ⟨w, hw, hloc⟩
    · rw [hsame]
      exact hfit
    · rcases hV.left w hw with hclear | ⟨hdir, d, hd, hdloc, hkind⟩
      · rw [← hloc, hclear]
        exact hnone
      · rw [← hloc, hdir]
        obtain rfl := entries_inj hd hi (hdloc.trans hloc)
        cases hk : d.kind with
        | dir slash => exact .inr rfl
        | _ => rw [hk] at hkind; cases hkind
  · rw [hclear]
    exact hnone

theorem Layer.onTop_of_mem {i : Item} (hi : i ∈ L.entries) : L.onTop U i.loc = L.shape i := by
  obtain ⟨hitem, -, hreal⟩ := mem_entries.mp hi
  obtain ⟨v, hv⟩ := L.shape_of_mem hi
  rw [onTop, at?, find_real hitem hreal]
  simp only [hv]

theorem Layer.Fits.onTop_of_not_mem (hfits : L.Fits U) {p : Loc} (h : ∀ i ∈ L.entries, i.loc ≠ p) :
    L.onTop U p = if ∃ i ∈ L.items, i.hides p then none else U p := by
  have hnone : (L.items.find? fun i => i.loc = p ∧ i.kind.isReal) = none := by
    refine find?_eq_none.mpr fun i hi => ?_
    simp only [decide_eq_true_eq, not_and, Bool.not_eq_true]
    intro hloc
    by_contra hreal
    rw [Bool.not_eq_false] at hreal
    exact h i (mem_entries.mpr ⟨hi, hfits.kept i hi hreal, hreal⟩) hloc
  rw [onTop, at?, hnone]

theorem Layer.Fits.keptOver_eq (hfits : L.Fits U) (hc : V.Closed) (hV : L.Deleted U L.whiteouts V) :
    L.keptOver V = L.onTop U := by
  funext p
  by_cases hlisted : ∃ i ∈ L.entries, i.loc = p
  · obtain ⟨i, hi, rfl⟩ := hlisted
    rw [keptOver_of_mem hi, onTop_of_mem hi]
  have hno : ∀ i ∈ L.entries, i.loc ≠ p := fun i hi hloc => hlisted ⟨i, hi, hloc⟩
  have hcleared : ∀ w ∈ L.whiteouts, w.loc = p → V p = none := by
    rintro w hw rfl
    rcases hV.left w hw with hnone | ⟨-, d, hd, hloc, -⟩
    · exact hnone
    · exact absurd ⟨d, hd, hloc⟩ hlisted
  rw [keptOver_of_not_mem hno, hfits.onTop_of_not_mem hno]
  split
  · rename_i hhidden
    obtain ⟨i, hi, hhides⟩ := hhidden
    by_contra hsome
    have hsame : V p = U p := (hV.cleared p).resolve_right fun hclear => hsome hclear.1
    cases hreal : i.kind.isReal with
    | false =>
      rcases hfits.hidden i hi hreal p hhides (hsame ▸ hsome) with hentry | ⟨w, hw, hloc⟩
      · exact hlisted hentry
      · exact hsome (hcleared w hw hloc)
    | true =>
      -- Something is below the place of a file or link, although that is no directory.
      have hmem : i ∈ L.entries := mem_entries.mpr ⟨hi, hfits.kept i hi hreal, hreal⟩
      have hfit := hfits.after hV i hmem
      have hbelow : i.loc <+: p ∧ i.loc ≠ p ∧ i.kind.isDir = false := by
        unfold Item.hides at hhides
        cases hk : i.kind with
        | dir slash => rw [hk] at hhides; exact hhides.elim
        | whiteout => rw [hk] at hreal; cases hreal
        | _ => rw [hk] at hhides; exact ⟨hhides.1, hhides.2, rfl⟩
      have hdir := (hc p hsome i.loc hbelow.1 hbelow.2.1).resolve_left (L.item_ok hi).ne
      rw [hdir] at hfit
      cases hk : i.kind with
      | dir slash => rw [hk] at hbelow; cases hbelow.2.2
      | _ => rw [hk] at hfit; simp [ItemKind.Fits] at hfit
  · rename_i hhidden
    rcases hV.cleared p with hsame | ⟨-, w, hw, hloc⟩
    · exact hsame
    · obtain ⟨hitem, -, hkind⟩ := mem_whiteouts.mp hw
      refine absurd ⟨w, hitem, ?_⟩ hhidden
      simp [Item.hides, hkind, hloc]

variable {F : Formats} {s : MmapStore}

theorem materializeLayer_shows (hc : F.codec.Lawful) (hj : F.json.Lawful) (hx : F.text.Lawful)
    (hs : s.Sound F.codec) {depth : ℕ} {d : Digest} (hd : ConvertedLayer F s L depth d) {fuel : ℕ}
    (hfuel : 2 * depth + 2 ≤ fuel) (hfits : L.Fits U) (h : Shows fs root U) :
    ∃ fs', materializeLayer F.json F.text (s.view F.codec) root fuel d fs = some (.ok (), fs') ∧
      Shows fs' root (L.onTop U) := by
  obtain ⟨pairs, tree, ws, hpairs, htree, hws, hd⟩ := hd
  obtain ⟨V, hshowsV, hV⟩ := deleteAll_shows hfits h
  obtain ⟨fs', hfs', hshows'⟩ := listing_shows hc hs hpairs htree (hfits.after hV) hshowsV
  rw [hfits.keptOver_eq hshowsV.closed hV] at hshows'
  exact ⟨fs', (materializeLayer_converted hc hj hx hs hpairs htree hws hd hfuel root fs).trans hfs',
    hshows'⟩

/-! ## All layers -/

theorem materializeLayers_shows (hc : F.codec.Lawful) (hj : F.json.Lawful) (hx : F.text.Lawful)
    (hs : s.Sound F.codec) {depth fuel : ℕ} (hfuel : 2 * depth + 2 ≤ fuel) {ds : List Digest}
    {layers : List Layer} (hds : List.Forall₂ (fun d L => ConvertedLayer F s L depth d) ds layers) :
    ∀ {below : List Layer} {fs : Fs Bytes Attr},
      (∀ more L above, layers = more ++ L :: above → L.Fits (union (below ++ more))) →
      Shows fs root (union below) →
      ∃ fs', forEach (materializeLayer F.json F.text (s.view F.codec) root fuel) ds fs =
          some (.ok (), fs') ∧
        Shows fs' root (union (below ++ layers)) := by
  induction hds with
  | nil =>
    intro below fs _ h
    exact ⟨fs, rfl, by rwa [append_nil]⟩
  | @cons d L ds layers hd _ ih =>
    intro below fs hfits h
    have hL : L.Fits (union below) := by
      have := hfits [] L layers rfl
      rwa [append_nil] at this
    have hover : L.onTop (union below) = union (below ++ [L]) := by
      simp [union, foldl_append]
    obtain ⟨fs1, hfs1, hshows₁⟩ := materializeLayer_shows hc hj hx hs hd hfuel hL h
    rw [hover] at hshows₁
    have hmore : ∀ more L' above, layers = more ++ L' :: above →
        L'.Fits (union (below ++ [L] ++ more)) := by
      intro more L' above hsplit
      rw [append_assoc]
      exact hfits (L :: more) L' above (by rw [hsplit]; rfl)
    obtain ⟨fs', hfs', hshows'⟩ := ih hmore hshows₁
    refine ⟨fs', ?_, by rwa [append_assoc] at hshows'⟩
    rw [forEach, hfs1]
    exact hfs'

end

/-- **Materializing an image gives the union of its layers, if each layer fits what is below it.** -/
theorem materializeInto_union {F : Formats} (hc : F.codec.Lawful) (hj : F.json.Lawful)
    (hx : F.text.Lawful) {image : PulledImage} {layers : List Layer}
    (himage : image.layers = layers.map Layer.archive)
    (hfits : ∀ below L above, layers = below ++ L :: above → L.Fits (union below))
    {seeds : ImageSeeds} {fuel : ℕ} {s s' : MmapStore} (hs : s.Sound F.codec) {manifest : Digest}
    (hconvert : convert F seeds fuel image s = some (.ok manifest, s')) {root : Loc}
    {fs : Fs Bytes Attr} (hroot : fs.nodes.InPlace root)
    (hempty : ∀ rel, rel ≠ [] → fs.lookup (root ++ rel) = none) {fuel' : ℕ}
    (hfuel : 2 * fuel + 2 ≤ fuel') :
    ∃ fs', materializeInto F.json F.text (s'.view F.codec) fuel' manifest root fs =
        some (.ok (), fs') ∧
      ∀ rel, rel ≠ [] → (fs'.lookup (root ++ rel)).map Inode.shape = union layers rel := by
  have hread : Forall₂ (ReadFrom F) image.layers layers := by
    rw [himage, forall₂_map_left_iff, forall₂_same]
    intro L hL
    obtain ⟨below, above, hsplit⟩ := append_of_mem hL
    exact L.readFrom_archive hc (hfits below L above hsplit).linksKept
  obtain ⟨hs', -, ds, inline, hds, hmanifest⟩ := convert_spec hc hread hs hconvert
  have hbelow : Shows fs root (union []) := Shows.of_empty hroot hempty
  have hall : ∀ more L above, layers = more ++ L :: above → L.Fits (union ([] ++ more)) := hfits
  obtain ⟨fs', hfs', hshows⟩ := materializeLayers_shows hc hj hx hs'
    (show 2 * (fuel - 1) + 2 ≤ fuel' by omega) hds hall hbelow
  refine ⟨fs', ?_, hshows.shows⟩
  rw [materializeInto, Fs.createDirAll_inPlace hroot]
  simp only [hmanifest.view_getArchived hc hs']
  exact hfs'

theorem materializeInto_union_deleted :
    Sample.deleted.layers = [Sample.fLayer, Sample.whFLayer].map Layer.archive ∧
    ∃ s' fs', convert Sample.formats {} 4 Sample.deleted Sample.noStore =
        some (.ok Sample.deletedD, s') ∧
      materializeInto Sample.formats.json Sample.formats.text (s'.view Sample.formats.codec) 10
        Sample.deletedD [['r']] Sample.host = some (.ok (), fs') ∧
      ∀ rel, rel ≠ [] → (fs'.lookup ([['r']] ++ rel)).map Inode.shape =
        union [Sample.fLayer, Sample.whFLayer] rel := by
  have himage : deleted.layers = [fLayer, whFLayer].map archive := rfl
  -- Below the whiteout there is the file, and nothing else.
  have honly : ∀ p, p ≠ [['f']] → union [fLayer] p = none := by
    intro p hp
    have hp' : [['f']] ≠ p := hp.symm
    simp [union, onTop, at?, fLayer, ofItems, hp']
  have hfits : ∀ below L above, [fLayer, whFLayer] = below ++ L :: above →
      L.Fits (union below) := by
    intro below L above hsplit
    rcases below with _ | ⟨B, _ | ⟨C, below⟩⟩
    · cases hsplit
      refine ⟨by decide, fun i _ _ p _ hsome => absurd rfl hsome, fun w hw => ?_, fun i hi => ?_⟩
      · cases hw
      · rw [mem_singleton.mp (show i ∈ [_] from hi)]
        exact .inl (.inl rfl)
    · cases hsplit
      refine ⟨by decide, fun i hi _ p hp hsome => .inr ⟨i, ?_, ?_⟩, fun w hw q target hq hne => ?_,
        fun i hi => ?_⟩
      · rw [mem_singleton.mp (show i ∈ [_] from hi)]
        decide
      · rw [mem_singleton.mp (show i ∈ [_] from hi)]
        by_contra hne
        exact hsome (honly p (Ne.symm hne))
      · rw [mem_singleton.mp (show w ∈ [_] from hw)] at hq hne
        rw [honly q hne]
        simp
      · cases hi
    · simp at hsplit
  have hconvert : (convert formats {} 4 deleted noStore).map Prod.fst =
      some (.ok deletedD) := by decide +kernel
  obtain ⟨⟨r, s'⟩, h, rfl⟩ := Option.map_eq_some_iff.mp hconvert
  obtain ⟨fs', hfs', hunion⟩ := materializeInto_union formats_codec formats_json
    formats_text himage hfits noStore_sound h host_inPlace host_empty
    (show 2 * 4 + 2 ≤ 10 by decide)
  exact ⟨himage, s', fs', h, hfs', hunion⟩

theorem whiteout_keeps_directory :
    Sample.deletedDir.layers = [Sample.dfLayer, Sample.whDLayer].map Layer.archive ∧
    (Sample.materialize Sample.deletedDir).map (fun r =>
      (r.1, (r.2.lookup [['r'], ['d'], ['f']]).map Inode.shape)) =
        some (.ok (), some (.file Sample.leaf.inlineData ())) ∧
    union [Sample.dfLayer, Sample.whDLayer] [['d'], ['f']] = none :=
  ⟨rfl, by decide +kernel, by decide +kernel⟩

end Pullrun
