import Pullrun.Proof.Oci.Severed
import Pullrun.Proof.Oci.Whole

/-!
# Link targets of more than a hundred bytes

A header has a hundred bytes for the target of a link.
-/

namespace Pullrun

open FileTree OciMaterializer List Item

/-- What `header.link_name()` reads, as text. -/
def linkField (x : Text) (target : Str) : Str := x.fromUtf8Lossy ((x.utf8 target).take 100)

def Item.field (x : Text) (i : Item) : Option Str := i.linkName.map (linkField x)

namespace Layer

variable {L : Layer} {x : Text}

/-- What is read of a symlink can be a target. -/
def FieldsOk (L : Layer) (x : Text) : Prop := ∀ i ∈ L.items, ∀ target, i.kind = .symlink target →
  linkField x target ≠ [] ∧ '\x00' ∉ linkField x target

/-- `f` is a file that comes before the hard link `i` to it. -/
def LinksBack (L : Layer) (i f : Item) : Prop :=
  i.kind = .hardLink f.loc ∧ ∃ pre post, L.items = pre ++ i :: post ∧ f ∈ pre

/-- Of the links that have been materialized, symlinks have their targets, and hard links to files that
    come before them have the contents of these. -/
def LinksWhole (L : Layer) (U : View Bytes) : Prop :=
  ∀ i ∈ L.items, ∀ v, U i.loc = some v →
    (∀ target, i.kind = .symlink target → v = .symlink target) ∧
      ∀ f data, L.LinksBack i f → f.kind = .file data → v = .file data ()

/-- What is in the fields is enough: the field of a symlink has its target, and the field of a hard link to
    a file that comes before it leads to the contents of that file. -/
def FieldsSuffice (L : Layer) (x : Text) : Prop := ∀ i ∈ L.entries,
  (∀ target, i.kind = .symlink target → linkField x target = target) ∧
    ∀ f data, L.LinksBack i f → f.kind = .file data →
      Finds (L.archiveWith (Item.field x)).listed (i.readEntry (Item.field x)) data

noncomputable def found (L : Layer) (x : Text) (i : Item) : Bytes :=
  Classical.epsilon (Finds (L.archiveWith (Item.field x)).listed (i.readEntry (Item.field x)))

theorem found_eq_iff {i : Item} (hi : i ∈ L.entries) {data : Bytes} : L.found x i = data ↔
    Finds (L.archiveWith (field x)).listed (i.readEntry (field x)) data := by
  have hmem : i.readEntry (field x) ∈ (L.archiveWith (field x)).settled.map Prod.fst := by
    rw [Archive.settled, settle_map_fst, archive_listed]
    exact mem_map_of_mem hi
  obtain ⟨y, hy, heq⟩ := mem_map.mp hmem
  have hy := heq ▸ Archive.settled_finds (L.entries_paths _) (L.archive_links _) y hy
  have hfound : Finds _ _ (L.found x i) := Classical.epsilon_spec ⟨y.2, hy⟩
  exact ⟨fun h => h ▸ hfound, fun h => hfound.unique (L.entries_paths _) h⟩

noncomputable def cutKind (L : Layer) (x : Text) (i : Item) : ItemKind :=
  match i.kind with
  | .symlink target => .symlink (linkField x target)
  | .hardLink _ => .file (L.found x i)
  | kind => kind

theorem cutKind_kin (i : Item) : i.kind.Kin (L.cutKind x i) := by
  unfold cutKind
  cases i.kind with
  | symlink | hardLink => exact .inr ⟨rfl, rfl⟩
  | _ => exact .inl rfl

noncomputable def cut (L : Layer) (x : Text) (h : L.FieldsOk x) : Layer where
  items := L.items.map (Item.rekind (L.cutKind x))
  names := by
    intro i hi
    obtain ⟨j, hj, rfl⟩ := List.mem_map.mp hi
    exact L.names j hj
  distinct := rekind_distinct L.cutKind_kin
  parents := rekind_parents L.cutKind_kin
  links := by
    intro i hi target htarget
    obtain ⟨j, hj, rfl⟩ := List.mem_map.mp hi
    change L.cutKind x j = .symlink target at htarget
    unfold cutKind at htarget
    split at htarget
    · rename_i hk
      cases htarget
      exact h j hj _ hk
    · cases htarget
    · exact L.links j hj target htarget
  hardLinks := by
    intro i hi target htarget
    obtain ⟨j, hj, rfl⟩ := List.mem_map.mp hi
    change L.cutKind x j = .hardLink target at htarget
    unfold cutKind at htarget
    split at htarget
    · cases htarget
    · cases htarget
    · rename_i hno
      exact absurd htarget (hno target)

variable (h : L.FieldsOk x)

theorem cut_contents {i : Item} (hi : i ∈ L.entries) {data : Bytes}
    (hfinds : Finds (L.archiveWith (field x)).listed (i.readEntry (field x)) data) :
    (L.cut x h).contents (i.rekind (L.cutKind x)) = data := by
  cases hk : i.kind with
  | hardLink =>
    rw [← (found_eq_iff hi).mpr hfinds]
    simp [contents, rekind, cutKind, Item.data, hk]
  | _ =>
    rw [finds_data (by rw [hk]; rfl) hfinds]
    simp [contents, rekind, cutKind, Item.data, hk]

theorem readFrom_cut {F : Formats} (hc : F.codec.Lawful) (h : L.FieldsOk F.text) :
    ReadFrom F (L.archiveWith (field F.text)) (L.cut F.text h) := by
  obtain ⟨hentries, hwhs⟩ := @entries_rekind L (L.cut F.text h) _ L.cutKind_kin rfl
  refine readFrom_archiveWith hc (f := rekind (L.cutKind F.text)) (fun _ => rfl) hwhs hentries fun i hi =>
    ⟨⟨?_, ?_, ?_, ?_⟩, fun _ => cut_contents h hi⟩
  · exact (rekind_path (L.cutKind_kin i)).2.symm
  · exact (i.entryType_directory).trans (Bool.eq_iff_iff.mp (L.cutKind_kin i).eqs.2.1.symm)
  · refine i.entryType_symlink.trans ?_
    unfold rekind cutKind
    cases i.kind <;> rfl
  · intro hsym
    cases hk : i.kind with
    | symlink => simp [readEntry, field, linkName, rekind, cutKind, hk]
    | _ => simp [rekind, cutKind, hk, ItemKind.isSymlink] at hsym

theorem linksWhole_cut {U : View Bytes}
    (hU : ∀ i ∈ L.items, U i.loc = (L.cut x h).keptOver (fun _ => none) i.loc) :
    L.LinksWhole U ↔ L.FieldsSuffice x := by
  have hentries := (@entries_rekind L (L.cut x h) _ L.cutKind_kin rfl).1
  have hat : ∀ i ∈ L.entries, U i.loc = (L.cut x h).shape (i.rekind (L.cutKind x)) := by
    intro i hi
    rw [hU i (mem_entries.mp hi).1]
    exact (L.cut x h).keptOver_of_mem (hentries ▸ mem_map_of_mem hi)
  have hsym : ∀ i ∈ L.entries, ∀ target, i.kind = .symlink target →
      U i.loc = some (.symlink (linkField x target)) := fun i hi target hk => by
    rw [hat i hi]
    simp [shape, rekind, cutKind, hk]
  have hhard : ∀ i ∈ L.entries, ∀ target, i.kind = .hardLink target →
      U i.loc = some (.file (L.found x i) ()) := fun i hi target hk => by
    rw [hat i hi, (cut_contents h hi ((found_eq_iff hi).mp rfl)).symm]
    simp [shape, rekind, cutKind, hk]
  constructor
  · intro hwhole i hi
    have hitem := (mem_entries.mp hi).1
    refine ⟨fun target hk => ?_, fun f data hback hf => ?_⟩
    · have := (hwhole i hitem _ (hsym i hi target hk)).1 target hk
      injection this
    · have := (hwhole i hitem _ (hhard i hi _ hback.1)).2 f data hback hf
      injection this with hdata
      exact (found_eq_iff hi).mp hdata
  · intro hall i hitem v hv
    have hkept : i.kind.isReal = true → i ∈ L.entries := by
      intro hreal
      by_contra hno
      rw [hU i hitem, keptOver_of_not_mem] at hv
      · cases hv
      intro j hj hloc
      obtain ⟨k, hk, rfl⟩ := mem_map.mp (hentries ▸ hj)
      obtain ⟨hk', -, hreal'⟩ := mem_entries.mp hk
      have htar : k.tarLoc = i.tarLoc := by
        rw [tarLoc_of_real hreal, tarLoc_of_real hreal']
        exact hloc
      exact hno (inj_on_of_nodup_map L.distinct hk' hitem htar ▸ hk)
    refine ⟨fun target hk => ?_, fun f data hback hf => ?_⟩
    · have hi := hkept (by rw [hk]; rfl)
      rw [hsym i hi target hk, (hall i hi).1 target hk] at hv
      exact (Option.some.inj hv).symm
    · have hi := hkept (by rw [hback.1]; rfl)
      rw [hhard i hi _ hback.1, (found_eq_iff hi).mpr ((hall i hi).2 f data hback hf)] at hv
      exact (Option.some.inj hv).symm

end Layer

/-- **The links of a layer are whole exactly if what is in their fields is enough.** -/
theorem linksWhole_iff {F : Formats} (hc : F.codec.Lawful) (hj : F.json.Lawful) (hx : F.text.Lawful)
    {L : Layer} (hfields : L.FieldsOk F.text) {image : PulledImage}
    (himage : image.layers = [L.archiveWith (Item.field F.text)]) {seeds : ImageSeeds} {s : MmapStore}
    (hs : s.Sound F.codec) {fuel : ℕ} {manifest : Digest} {s' : MmapStore}
    (hconvert : convert F seeds fuel image s = some (.ok manifest, s')) {root : Loc}
    {fs : Fs Bytes Attr} (hroot : fs.nodes.InPlace root)
    (hempty : ∀ rel, rel ≠ [] → fs.lookup (root ++ rel) = none) {fuel' : ℕ}
    (hfuel : 2 * fuel + 2 ≤ fuel') :
    ∃ fs', materializeInto F.json F.text (s'.view F.codec) fuel' manifest root fs =
        some (.ok (), fs') ∧
      (L.LinksWhole (fun rel => (fs'.lookup (root ++ rel)).map Inode.shape) ↔
        L.FieldsSuffice F.text) := by
  obtain ⟨fs', hfs', hshows⟩ := materializeInto_shows hc hj hx (L.readFrom_cut hc hfields) himage hs
    hconvert hroot hempty hfuel
  exact ⟨fs', hfs', L.linksWhole_cut hfields fun i hi => hshows i.loc (L.item_ok hi).ne⟩

/-! ## A short link and a long one -/

namespace Sample

def shortLink : Layer :=
  .ofItems [{ loc := [['p']], kind := .symlink "/etc/passwd".toList, mode := 0o777 }] (by decide)
def longLink : Layer :=
  .ofItems [{ loc := [['p']], kind := .symlink (List.replicate 101 'a'), mode := 0o777 }] (by decide)

/-- The entry of a link whose target begins with a hundred times the same letter. -/
def aEntry : DirectoryEntry := { pEntry with symlinkTarget := some (List.replicate 100 'a') }

def aTreeD : Digest := .ofNat 0xbfb789e80756e01d160b0bee745d3c7be9af3f573a6b978e4304485cfa74a084
def aLayerD : Digest := .ofNat 0x0dcd53a60f784d59a8c13fa3bbe844da238e542fe2ed2ba7900722c647cab749
def aImageD : Digest := .ofNat 0xcf69dafc25fe0cfc245ce709838d01e1e98ee50aafdc1e91b02828adfaeeac03

def aFormats : Formats where
  codec := .ofTable ((⟨.tree, [emptyD], lineOf aEntry⟩, aTreeD) :: (⟨.layer, [aTreeD], []⟩, aLayerD) ::
    (⟨.manifest, [aLayerD], data.text⟩, aImageD) :: rows)
  json := .ofTable (aEntry.toValue :: values)
  text := .ascii

end Sample

open Sample

set_option maxRecDepth 20000

theorem linksWhole_shortLink : ∃ manifest s' fs',
    convert formats {} 4 (imageOf [shortLink.archiveWith (Item.field .ascii)]) noStore =
        some (.ok manifest, s') ∧
      materializeInto formats.json formats.text (s'.view formats.codec) 10 manifest [['r']] host =
        some (.ok (), fs') ∧
      shortLink.LinksWhole fun rel => (fs'.lookup ([['r']] ++ rel)).map Inode.shape := by
  obtain ⟨manifest, s', hconvert⟩ : ∃ manifest s', convert formats {} 4
      (imageOf [shortLink.archiveWith (field .ascii)]) noStore = some (.ok manifest, s') :=
    ⟨_, _, rfl⟩
  have hitems : ∀ i ∈ shortLink.items, i.kind = .symlink "/etc/passwd".toList := by decide
  have hfield : linkField .ascii "/etc/passwd".toList = "/etc/passwd".toList := by decide +kernel
  have hfields : shortLink.FieldsOk .ascii := by
    intro i hi target hk
    cases hk.symm.trans (hitems i hi)
    rw [hfield]
    decide
  obtain ⟨fs', hfs', hiff⟩ := linksWhole_iff formats_codec formats_json formats_text hfields rfl
    noStore_sound hconvert host_inPlace host_empty le_rfl
  refine ⟨manifest, s', fs', hconvert, hfs', hiff.mpr fun i hi => ⟨fun target hk => ?_, fun f _ hb => ?_⟩⟩
  · cases hk.symm.trans (hitems i (Layer.mem_entries.mp hi).1)
    exact hfield
  · cases hb.1.symm.trans (hitems i (Layer.mem_entries.mp hi).1)

/-- **A target of a hundred and one bytes is cut.** -/
theorem long_link_is_cut : ∃ manifest s' fs',
    convert aFormats {} 4 (imageOf [longLink.archiveWith (Item.field .ascii)]) noStore =
        some (.ok manifest, s') ∧
      materializeInto aFormats.json aFormats.text (s'.view aFormats.codec) 10 manifest [['r']] host =
        some (.ok (), fs') ∧
      ¬ longLink.LinksWhole fun rel => (fs'.lookup ([['r']] ++ rel)).map Inode.shape := by
  refine ⟨_, _, _, rfl, rfl, fun h => ?_⟩
  have hcut := (h _ mem_cons_self (.symlink (List.replicate 100 'a')) rfl).1 _ rfl
  exact absurd hcut (by decide)

end Pullrun
