import Pullrun.Proof.Oci.Converted

/-!
# Hard links whose file is lost

The converter passes over a file with two dots in a row in its path, but not over a hard link to it
from elsewhere.
-/

namespace Pullrun

open FileTree List Item

/-! ## Other links in the place of links -/

def ItemKind.isLeaf (k : ItemKind) : Bool := k.isReal && !k.isDir

/-- Nothing changes, or a file or link is replaced by another. -/
def ItemKind.Kin (k k' : ItemKind) : Prop := k' = k ∨ k.isLeaf = true ∧ k'.isLeaf = true

def Item.rekind (f : Item → ItemKind) (i : Item) : Item := { i with kind := f i }

theorem ItemKind.Kin.eqs {k k' : ItemKind} (h : k.Kin k') :
    k'.isReal = k.isReal ∧ k'.isDir = k.isDir ∧ (k' = .whiteout ↔ k = .whiteout) := by
  obtain rfl | ⟨hk, hk'⟩ := h
  · exact ⟨rfl, rfl, Iff.rfl⟩
  · cases k <;> cases hk <;> cases k' <;> cases hk' <;> simp [isReal, isDir]

theorem Item.rekind_path {f : Item → ItemKind} {i : Item} (h : i.kind.Kin (f i)) :
    (i.rekind f).tarLoc = i.tarLoc ∧ (i.rekind f).path = i.path := by
  obtain heq | ⟨hk, hk'⟩ := h
  · have hi : i.rekind f = i := by rw [rekind, heq]
    rw [hi]
    exact ⟨rfl, rfl⟩
  · unfold path tarLoc rekind
    cases h : i.kind <;> rw [h] at hk <;> cases hk <;> cases h' : f i <;> rw [h'] at hk' <;>
      cases hk' <;> exact ⟨rfl, rfl⟩

namespace Layer

section

variable {L L' : Layer} {f : Item → ItemKind} (hf : ∀ i : Item, i.kind.Kin (f i))
include hf

theorem rekind_distinct : ((L.items.map (rekind f)).map tarLoc).Nodup := by
  have htar : tarLoc ∘ rekind f = tarLoc := funext fun i => (rekind_path (hf i)).1
  rw [map_map, htar]
  exact L.distinct

theorem rekind_parents : ∀ i ∈ L.items.map (rekind f), ∀ q, q <+: i.tarLoc → q ≠ i.tarLoc →
    q ≠ [] → ∃ d ∈ L.items.map (rekind f), d.loc = q ∧ d.kind.isDir = true := by
  intro i hi q hq hne hnil
  obtain ⟨j, hj, rfl⟩ := mem_map.mp hi
  rw [(rekind_path (hf j)).1] at hq hne
  obtain ⟨d, hd, hloc, hdir⟩ := L.parents j hj q hq hne hnil
  exact ⟨d.rekind f, mem_map_of_mem hd, hloc, (hf d).eqs.2.1.trans hdir⟩

theorem entries_rekind (h : L'.items = L.items.map (rekind f)) :
    L'.entries = L.entries.map (rekind f) ∧ L'.whiteouts = L.whiteouts.map (rekind f) := by
  unfold entries whiteouts keptItems
  rw [h, filter_filter, filter_filter, filter_filter, filter_filter, filter_map, filter_map]
  have hpath := fun i => (rekind_path (hf i)).2
  have heqs := fun i => (hf i).eqs
  constructor
  · congr 1
    refine filter_congr fun i _ => ?_
    rw [Function.comp_apply, hpath, show (i.rekind f).kind = f i from rfl, (heqs i).1]
  · congr 1
    refine filter_congr fun i _ => ?_
    simp only [Function.comp_apply, hpath, show (i.rekind f).kind = f i from rfl, (heqs i).2.2]

end

/-! ## Severed links -/

/-- A hard link to a file that is not kept is an empty file. -/
def severedKind (L : Layer) : ItemKind → ItemKind
  | .hardLink target => if ∃ f ∈ L.entries, f.loc = target then .hardLink target else .file []
  | kind => kind

def sever (L : Layer) (i : Item) : Item := { i with kind := L.severedKind i.kind }

variable {L : Layer}

theorem severedKind_cases (kind : ItemKind) : L.severedKind kind = kind ∨
    ∃ target, kind = .hardLink target ∧ L.severedKind kind = .file [] ∧
      ∀ f ∈ L.entries, f.loc ≠ target := by
  cases kind with
  | hardLink target =>
    by_cases h : ∃ f ∈ L.entries, f.loc = target
    · exact .inl (if_pos h)
    · exact .inr ⟨target, rfl, if_neg h, fun f hf hloc => h ⟨f, hf, hloc⟩⟩
  | _ => exact .inl rfl

theorem severedKind_kin (kind : ItemKind) : kind.Kin (L.severedKind kind) := by
  obtain h | ⟨target, rfl, h, -⟩ := L.severedKind_cases kind
  · exact .inl h
  · rw [h]
    exact .inr ⟨rfl, rfl⟩

def severed (L : Layer) : Layer where
  items := L.items.map L.sever
  names := by
    intro i hi
    obtain ⟨j, hj, rfl⟩ := List.mem_map.mp hi
    exact L.names j hj
  distinct := rekind_distinct fun i => L.severedKind_kin i.kind
  parents := rekind_parents fun i => L.severedKind_kin i.kind
  links := by
    intro i hi target htarget
    obtain ⟨j, hj, rfl⟩ := List.mem_map.mp hi
    change L.severedKind j.kind = .symlink target at htarget
    obtain h | ⟨t, -, h, -⟩ := L.severedKind_cases j.kind
    · exact L.links j hj target (h ▸ htarget)
    · rw [h] at htarget
      cases htarget
  hardLinks := by
    intro i hi target htarget
    obtain ⟨j, hj, rfl⟩ := List.mem_map.mp hi
    have hkind : j.kind = .hardLink target := by
      change L.severedKind j.kind = .hardLink target at htarget
      obtain h | ⟨t, -, h, -⟩ := L.severedKind_cases j.kind
      · exact h ▸ htarget
      · rw [h] at htarget
        cases htarget
    obtain ⟨f, hf, hloc, data, hdata⟩ := L.hardLinks j hj target hkind
    refine ⟨L.sever f, List.mem_map_of_mem hf, hloc, data, ?_⟩
    change L.severedKind f.kind = .file data
    rw [hdata]
    rfl

theorem severed_fileAt {target : Loc} : L.severed.fileAt target = L.fileAt target := by
  unfold fileAt severed
  rw [find?_map]
  have hfind : (fun i => decide (i.loc = target ∧ i.kind.isReal = true)) ∘ L.sever =
      fun i => decide (i.loc = target ∧ i.kind.isReal = true) := by
    funext i
    simp only [Function.comp_apply, sever, (L.severedKind_kin i.kind).eqs.1]
  rw [hfind]
  cases L.items.find? fun i => decide (i.loc = target ∧ i.kind.isReal = true) with
  | none => rfl
  | some f =>
    change (L.sever f).data = f.data
    unfold sever data
    obtain h | ⟨target, hk, h, -⟩ := L.severedKind_cases f.kind
    · simp only [h]
    · rw [hk] at h
      simp only [hk, h]

theorem readFrom_severed {F : Formats} (hc : F.codec.Lawful) (L : Layer) :
    ReadFrom F L.archive L.severed := by
  obtain ⟨hentries, hwhs⟩ : L.severed.entries = L.entries.map L.sever ∧
      L.severed.whiteouts = L.whiteouts.map L.sever :=
    entries_rekind (fun i => L.severedKind_kin i.kind) rfl
  refine readFrom_archiveWith hc (f := L.sever) (fun _ => rfl) hwhs hentries fun i hi => ?_
  have hread := i.readAs_readEntry
  suffices (L.sever i).ReadAs (i.readEntry linkName) ∧
      L.severed.contents (L.sever i) = L.readContents i from
    ⟨this.1, fun _ hfinds => finds_linkName hi hfinds ▸ this.2⟩
  obtain h | ⟨target, hk, h, hlost⟩ := L.severedKind_cases i.kind
  · have hi : L.sever i = i := by rw [sever, h]
    rw [hi]
    refine ⟨hread, ?_⟩
    unfold contents readContents
    cases hk : i.kind with
    | hardLink target =>
      rw [hk] at h
      by_cases hkept : ∃ f ∈ L.entries, f.loc = target
      · exact severed_fileAt.trans (if_pos hkept).symm
      · rw [severedKind, if_neg hkept] at h
        cases h
    | _ => rfl
  · have hfile : (L.sever i).kind = .file [] := h
    have hno : ¬ ∃ f ∈ L.entries, f.loc = target := fun ⟨f, hf, hloc⟩ => hlost f hf hloc
    have hpath : (L.sever i).path = i.path := (rekind_path
      (f := fun i => L.severedKind i.kind) (L.severedKind_kin i.kind)).2
    refine ⟨⟨hpath.symm, hread.isDir.trans ?_, hread.isSymlink.trans ?_, fun hsym => ?_⟩, ?_⟩
    · simp [hfile, hk, ItemKind.isDir]
    · simp [hfile, hk, ItemKind.isSymlink]
    · rw [hfile] at hsym
      cases hsym
    · simp [contents, readContents, hfile, hk, hno, data]

end Layer

/-! ## Images -/

/-- **What `convert` stores**, whatever the hard links lead to. -/
theorem convert_image {F : Formats} (hc : F.codec.Lawful) {seeds : ImageSeeds} {fuel : ℕ}
    {layers : List Layer} {image : PulledImage}
    (himage : image.layers = layers.map Layer.archive) {s s' : MmapStore} (hs : s.Sound F.codec)
    {manifest : Digest} (h : convert F seeds fuel image s = some (.ok manifest, s')) :
    s'.Sound F.codec ∧ s.Grown s' ∧
      ConvertedImage F s' (layers.map Layer.severed) (fuel - 1) manifest := by
  refine convert_spec hc ?_ hs h
  rw [himage, forall₂_map_left_iff, forall₂_map_right_iff, forall₂_same]
  exact fun L _ => L.readFrom_severed hc

end Pullrun
