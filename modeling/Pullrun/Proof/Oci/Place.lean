import Pullrun.Proof.Oci.Order

/-!
# Placing the entries of a layer

What the materializer makes of the entries of a converted layer, as an update of the view of its
root directory (`Lib/FileModel.lean`).
-/

namespace Pullrun

open FileTree OciMaterializer List Function Prod Loc Layer

/-! ## Attributes -/

section

variable {κ : Type}

theorem attempt_setAttr_shape (fs : Fs κ Attr) (f : Attr → Attr) (p : List Seg) (l : Loc) :
    ((attempt fs (fs.setAttr f p)).lookup l).map Inode.shape = (fs.lookup l).map Inode.shape := by
  cases hs : fs.setAttr f p with
  | error e => rfl
  | ok fs' => exact Fs.setAttr_shape hs l

theorem applyUnixAttributes_shape (fs : Fs κ Attr) (p : List Seg) (entry : DirectoryEntry)
    (l : Loc) : ((applyUnixAttributes fs p entry).lookup l).map Inode.shape =
      (fs.lookup l).map Inode.shape := by
  have howner : ∀ s : Fs κ Attr, ((setOwner s p entry.uid entry.gid).lookup l).map Inode.shape =
      (s.lookup l).map Inode.shape := by
    intro s
    unfold setOwner
    split
    · rfl
    · split
      · exact attempt_setAttr_shape s _ p l
      · rfl
  have hmtime : ∀ s : Fs κ Attr, ((setMtime s p entry.mtime).lookup l).map Inode.shape =
      (s.lookup l).map Inode.shape := by
    intro s
    unfold setMtime
    split
    · rfl
    · exact attempt_setAttr_shape s _ p l
  have hxattrs : ∀ (xs : List (Str × Bytes)) (s : Fs κ Attr),
      ((xs.foldl (setXattr p) s).lookup l).map Inode.shape = (s.lookup l).map Inode.shape := by
    intro xs
    induction xs with
    | nil => exact fun s => rfl
    | cons x xs ih => exact fun s => (ih _).trans (attempt_setAttr_shape s _ p l)
  calc ((applyUnixAttributes fs p entry).lookup l).map Inode.shape
    _ = ((setMtime (setOwner (attempt fs (fs.setAttr (fun a => { a with mode := modeOf entry }) p))
          p entry.uid entry.gid) p entry.mtime).lookup l).map Inode.shape := hxattrs _ _
    _ = ((attempt fs (fs.setAttr (fun a => { a with mode := modeOf entry }) p)).lookup l).map
          Inode.shape := (hmtime _).trans (howner _)
    _ = (fs.lookup l).map Inode.shape := attempt_setAttr_shape fs _ p l

end

/-! ## Items -/

/-- What may be in the place of an item. -/
def ItemKind.Fits (k : ItemKind) (old : Option (Inode Bytes Unit)) : Prop :=
  match k with
  | .dir _ => old = none ∨ old = some (.dir ())
  | .symlink _ => old ≠ some (.dir ())
  | _ => old = none ∨ ∃ data, old = some (.file data ())

/-! ## One entry -/

section

variable {F : Formats} {L : Layer} {s : MmapStore} {root : Loc} {U : View Bytes}
  {fs : Fs Bytes Attr} {i : Item} {e : Str × DirectoryEntry}

theorem EntryOf.path (he : EntryOf F L s i e) (hok : i.Ok) (root : Loc) :
    join root.path (entryPath e.1 e.2.name) = path (root ++ i.loc) := by
  have htext : entryPath e.1 e.2.name = i.loc.text := by
    rw [entryPath, he.parent, he.name, hok.loc_eq]
    by_cases hq : i.parent = []
    · rw [if_pos ((text_eq_nil_iff hok.parent_ok).mpr hq), hq]
      rfl
    · rw [if_neg (fun h => hq ((text_eq_nil_iff hok.parent_ok).mp h)), text_concat hq]
  rw [htext, join_text hok.names, path_append]

theorem placeEntry_shows (hc : F.codec.Lawful) (hs : s.Sound F.codec) (hi : i ∈ L.entries)
    (he : EntryOf F L s i e) (h : Shows fs root U) (hu : U.Under i.loc)
    (hfits : i.kind.Fits (U i.loc)) :
    ∃ fs', placeEntry (s.view F.codec) (path (root ++ i.loc)) e.2 fs = (.ok (), fs') ∧
      Shows fs' root (update U i.loc (L.shape i)) := by
  obtain ⟨hitem, -, hreal⟩ := mem_entries.mp hi
  have hok := L.item_ok hitem
  unfold placeEntry
  rw [he.isDir, he.isSymlink, he.symlinkTarget]
  cases hk : i.kind with
  | dir slash =>
    rw [hk] at hfits
    obtain ⟨fs', hfs', hshows⟩ := h.createDirAll hu hok.ne hfits
    have hshape : L.shape i = some (.dir ()) := by simp [shape, hk]
    refine ⟨fs', ?_, hshape ▸ hshows⟩
    simp [ItemKind.isDir, hfs']
  | symlink target =>
    rw [hk] at hfits
    have htarget := (L.links i hitem target hk).1
    have hshape : L.shape i = some (.symlink target) := by simp [shape, hk]
    have hname : i.linkName = some target := by simp [Item.linkName, hk]
    simp only [ItemKind.isDir, ItemKind.isSymlink, if_true, hname, Bool.false_eq_true, if_false]
    rw [hshape]
    cases hold : U i.loc with
    | none =>
      obtain ⟨fs', hfs', hshows⟩ := h.symlink hu hok.ne htarget hold
      refine ⟨fs', ?_, hshows⟩
      rw [h.removeFile_none hu hok.ne hold]
      simp only [attempt, hfs']
    | some old =>
      have holdDir : old ≠ .dir () := by
        rintro rfl
        exact hfits hold
      obtain ⟨fs1, hfs1, hshows₁⟩ := h.removeFile hok.ne hold holdDir
      obtain ⟨fs', hfs', hshows⟩ :=
        hshows₁.symlink (hu.update none) hok.ne htarget (update_self ..)
      rw [update_idem] at hshows
      refine ⟨fs', ?_, hshows⟩
      rw [hfs1]
      simp only [attempt, hfs']
  | whiteout | opaqueDir => rw [hk] at hreal; cases hreal
  | file data => ?_
  | hardLink target => ?_
  all_goals
    rw [hk] at hfits
    have hparent : U.IsDir i.parent := by
      refine hu i.parent ?_ ?_
      · conv_rhs => rw [hok.loc_eq]
        exact prefix_append _ _
      · intro hp
        have := congrArg List.length hok.loc_eq
        rw [← hp] at this
        simp at this
    have hcontent : (s.view F.codec).content e.2.digest = some (L.contents i) :=
      (he.stored (by rw [hk]; rfl)).content hc hs
    have hdirs : (path (root ++ i.loc)).dropLast = path (root ++ i.parent) := by
      rw [hok.loc_eq, ← append_assoc, path_append]
      simp [path]
    have hshape : L.shape i = some (.file (L.contents i) ()) := by simp [shape, hk]
    obtain ⟨fs', hfs', hshows⟩ := h.write hu hok.ne (L.contents i) hfits
    refine ⟨fs', ?_, hshape ▸ hshows⟩
    simp only [ItemKind.isDir, ItemKind.isSymlink, Bool.false_eq_true, if_false, materializeFile]
    rw [hdirs, Fs.createDirAll_inPlace (h.inPlace_append hparent)]
    simp only [hcontent, hfs', demand]

theorem materializeListed_shows (hc : F.codec.Lawful) (hs : s.Sound F.codec) (hi : i ∈ L.entries)
    (he : EntryOf F L s i e) (h : Shows fs root U) (hu : U.Under i.loc)
    (hfits : i.kind.Fits (U i.loc)) :
    ∃ fs', materializeListed (s.view F.codec) root e fs = some (.ok (), fs') ∧
      Shows fs' root (update U i.loc (L.shape i)) := by
  have hok := L.item_ok (mem_entries.mp hi).1
  obtain ⟨fs', hplace, hshows⟩ := placeEntry_shows hc hs hi he h hu hfits
  refine ⟨_, ?_, hshows.of_shapes (applyUnixAttributes_shape fs' (path (root ++ i.loc)) e.2)⟩
  rw [materializeListed, materializeEntry, he.path hok]
  simp only [hplace]

end

/-! ## A whole layer -/

namespace Layer

variable {L : Layer} {U : View Bytes}

def placed (L : Layer) (U : View Bytes) (items : List Item) : View Bytes :=
  items.foldl (fun U i => Function.update U i.loc (L.shape i)) U

def keptOver (L : Layer) (U : View Bytes) : View Bytes := fun p =>
  match L.entries.find? fun i => i.loc = p with
  | some i => L.shape i
  | none => U p

variable {i : Item} {items : List Item}

theorem find_entry (hi : i ∈ L.entries) : (L.entries.find? fun j => j.loc = i.loc) = some i := by
  refine find?_of_mem hi (by simp) fun j hj hloc => ?_
  exact entries_inj hj hi (of_decide_eq_true hloc)

theorem keptOver_of_mem (hi : i ∈ L.entries) : L.keptOver U i.loc = L.shape i := by
  rw [keptOver, find_entry hi]

theorem keptOver_of_not_mem {p : Loc} (h : ∀ i ∈ L.entries, i.loc ≠ p) :
    L.keptOver U p = U p := by
  have hnone : (L.entries.find? fun i => i.loc = p) = none :=
    find?_eq_none.mpr fun i hi => by simpa using h i hi
  rw [keptOver, hnone]

theorem placed_of_not_mem {p : Loc} (h : ∀ i ∈ items, i.loc ≠ p) : L.placed U items p = U p := by
  induction items generalizing U with
  | nil => rfl
  | cons i items ih =>
    have hi : p ≠ i.loc := (h i mem_cons_self).symm
    exact (ih fun j hj => h j (mem_cons_of_mem _ hj)).trans (update_of_ne hi ..)

theorem placed_of_mem (hsub : ∀ i ∈ items, i ∈ L.entries) (hi : i ∈ items) :
    L.placed U items i.loc = L.shape i := by
  induction items generalizing U with
  | nil => cases hi
  | cons j items ih =>
    by_cases hlater : ∃ k ∈ items, k.loc = i.loc
    · obtain ⟨k, hk, hloc⟩ := hlater
      have hki : k = i :=
        entries_inj (hsub k (mem_cons_of_mem _ hk)) (hsub i hi) hloc
      exact ih (fun k hk => hsub k (mem_cons_of_mem _ hk)) (hki ▸ hk)
    · have hij : i = j := by
        rcases mem_cons.mp hi with hij | hi
        · exact hij
        · exact absurd ⟨i, hi, rfl⟩ hlater
      subst hij
      refine (placed_of_not_mem fun k hk hloc => hlater ⟨k, hk, hloc⟩).trans ?_
      exact update_self ..

theorem placed_eq (hmem : ∀ i, i ∈ items ↔ i ∈ L.entries) : L.placed U items = L.keptOver U := by
  funext p
  by_cases h : ∃ i ∈ items, i.loc = p
  · obtain ⟨i, hi, rfl⟩ := h
    rw [placed_of_mem (fun i hi => (hmem i).mp hi) hi, keptOver_of_mem ((hmem i).mp hi)]
  · have hno : ∀ i ∈ items, i.loc ≠ p := fun i hi hloc => h ⟨i, hi, hloc⟩
    rw [placed_of_not_mem hno, keptOver_of_not_mem fun i hi => hno i ((hmem i).mpr hi)]

theorem shape_of_mem (hi : i ∈ L.entries) : ∃ v, L.shape i = some v := by
  have hreal := (mem_entries.mp hi).2.2
  unfold shape
  cases hk : i.kind with
  | whiteout | opaqueDir => rw [hk] at hreal; cases hreal
  | _ => exact ⟨_, rfl⟩

end Layer

section

variable {F : Formats} {L : Layer} {s : MmapStore} {root : Loc}
  {pairs : List (Item × (Str × DirectoryEntry))}

theorem forEach_materializeListed_shows (hc : F.codec.Lawful) (hs : s.Sound F.codec)
    (hpairs : EntriesOf F L s pairs) {list : List (Item × (Str × DirectoryEntry))}
    {ready : Loc → Prop} {U : View Bytes} {fs : Fs Bytes Attr} (hsub : ∀ p ∈ list, p ∈ pairs)
    (hdirs : DirsFirst ready (list.map fst)) (hready : ∀ q, ready q → U.IsDir q)
    (hfits : ∀ i ∈ L.entries, i.kind.Fits (U i.loc)) (h : Shows fs root U) :
    ∃ fs', forEach (materializeListed (s.view F.codec) root) (list.map snd) fs =
        some (.ok (), fs') ∧
      Shows fs' root (L.placed U (list.map fst)) := by
  induction list generalizing ready U fs with
  | nil => exact ⟨fs, rfl, h⟩
  | cons p list ih =>
    have hp := hsub p mem_cons_self
    have hi := hpairs.mem_entries hp
    have hok := hpairs.ok hp
    have hunder : U.Under p.1.loc := by
      have hdir := hready _ hdirs.1
      rw [hok.loc_eq]
      exact hdir.under_concat (hdir.under h.closed)
    obtain ⟨fs1, hfs1, hshows₁⟩ :=
      materializeListed_shows hc hs hi (hpairs.entryOf p hp) h hunder (hfits _ hi)
    -- A directory stays one: only a directory fits there.
    have hstay : ∀ q, U.IsDir q →
        View.IsDir (update U p.1.loc (L.shape p.1)) q := by
      intro q hq
      rcases hq with hq | hq
      · exact .inl hq
      · refine Or.inr ?_
        by_cases hqp : q = p.1.loc
        · have hfit := hfits _ hi
          rw [← hqp, hq] at hfit
          rw [hqp, update_self, shape]
          cases hk : p.1.kind with
          | dir slash => rfl
          | _ => rw [hk] at hfit; simp [ItemKind.Fits] at hfit
        · rw [update_of_ne hqp, hq]
    have hready₁ : ∀ q, ready q ∨ q = p.1.loc ∧ p.1.kind.isDir = true →
        View.IsDir (update U p.1.loc (L.shape p.1)) q := by
      rintro q (hq | ⟨rfl, hdir⟩)
      · exact hstay q (hready q hq)
      · refine Or.inr ?_
        rw [update_self, shape]
        cases hk : p.1.kind with
        | dir slash => rfl
        | _ => rw [hk] at hdir; cases hdir
    have hfits₁ : ∀ i ∈ L.entries,
        i.kind.Fits (update U p.1.loc (L.shape p.1) i.loc) := by
      intro i hentry
      by_cases hloc : i.loc = p.1.loc
      · -- An item may be put over itself.
        rw [entries_inj hentry hi hloc, update_self]
        unfold shape ItemKind.Fits
        cases p.1.kind <;> simp
      · rw [update_of_ne hloc]
        exact hfits i hentry
    obtain ⟨fs', hfs', hshows'⟩ := ih (fun q hq => hsub q (mem_cons_of_mem _ hq)) hdirs.2
      hready₁ hfits₁ hshows₁
    refine ⟨fs', ?_, hshows'⟩
    rw [map_cons, forEach, hfs1]
    exact hfs'

theorem listing_shows (hc : F.codec.Lawful) (hs : s.Sound F.codec) (hpairs : EntriesOf F L s pairs)
    {depth : ℕ} {tree : Digest}
    (htree : IsTree F (s.Holds F.codec) (pairs.map snd) depth [] tree) {U : View Bytes}
    {fs : Fs Bytes Attr} (hfits : ∀ i ∈ L.entries, i.kind.Fits (U i.loc)) (h : Shows fs root U) :
    ∃ fs', forEach (materializeListed (s.view F.codec) root)
        (listing (pairs.map snd) (depth + 1) []) fs = some (.ok (), fs') ∧
      Shows fs' root (L.keptOver U) := by
  have hnil : Ok [] := by simp [Ok]
  obtain ⟨fs', hfs', hshows'⟩ := forEach_materializeListed_shows hc hs hpairs
    (fun p hp => mem_of_mem_order (depth + 1) hp) (order_dirsFirst fst pairs (depth + 1) [])
    (fun q hq => .inl hq) hfits h
  rw [order_map_snd hpairs (depth + 1) hnil] at hfs'
  refine ⟨fs', hfs', ?_⟩
  rw [show (order fst pairs _ _).map fst = _ from @map_order _ pairs _ id fst (depth + 1) [], hpairs.items] at hshows'
  rwa [placed_eq fun i => ⟨fun hi => mem_of_mem_order (depth + 1) hi, fun hi =>
    mem_order L.listed (depth + 1) (htree.deep hpairs depth hnil) hi nil_prefix⟩] at hshows'

end

/-! ## Whiteouts -/

section

variable {κ : Type} {root : Loc} {U : View κ} {fs : Fs κ Attr} {rel : Loc}

/-- **One whiteout**: the place is cleared, unless it is a directory with something below it. -/
theorem applyDelete_shows (h : Shows fs root U) (hne : rel ≠ [])
    (hlinks : ∀ q target, q <+: rel → q ≠ rel → U q ≠ some (.symlink target)) :
    ∃ V, Shows (applyDelete (path (root ++ rel)) fs) root V ∧
      (V = update U rel none ∨
        V = U ∧ U rel = some (.dir ()) ∧ ∃ p, rel <+: p ∧ p ≠ rel ∧ U p ≠ none) := by
  unfold applyDelete
  cases hU : U rel with
  | none =>
    -- Nothing is there, and no link leads anywhere else.
    have hgone : ∀ l, fs.nodes.resolve false (path (root ++ rel)) = .ok l →
        fs.lookup l = none := fun l hl => h.resolve_eq hlinks hl ▸ h.lookup_none hne hU
    have hfile : attempt fs (fs.removeFile (path (root ++ rel))) = fs := by
      unfold Fs.removeFile
      cases hr : fs.nodes.resolve false (path (root ++ rel)) with
      | error e => rfl
      | ok l => simp only [hgone l hr, attempt]
    have hdir : attempt fs (fs.removeDir (path (root ++ rel))) = fs := by
      unfold Fs.removeDir
      cases hr : fs.nodes.resolve false (path (root ++ rel)) with
      | error e => rfl
      | ok l => simp only [hgone l hr, attempt]
    simp only [hfile, hdir]
    exact ⟨U, h, .inl (by rw [← hU, update_eq_self])⟩
  | some i =>
    have hunder : U.Under rel := h.closed rel (by rw [hU]; simp)
    by_cases hi : i = .dir ()
    · subst hi
      have hfile : attempt fs (fs.removeFile (path (root ++ rel))) = fs := by
        obtain ⟨j, hj, hshape⟩ := h.lookup_some hne hU
        rw [Fs.removeFile, h.resolve hunder false (.inl rfl)]
        cases j with
        | dir a => simp only [hj, attempt]
        | file content a => cases hshape
        | symlink target => cases hshape
      simp only [hfile]
      by_cases hbelow : ∀ p, rel <+: p → p ≠ rel → U p = none
      · obtain ⟨fs', hfs', hshows⟩ := h.removeDir hne hU hbelow
        rw [hfs']
        exact ⟨_, hshows, .inl rfl⟩
      · cases hr : fs.removeDir (path (root ++ rel)) with
        | error e =>
          push Not at hbelow
          exact ⟨U, h, .inr ⟨rfl, trivial, hbelow⟩⟩
        | ok fs' => exact absurd (h.none_below_of_removeDir hunder hr) hbelow
    · obtain ⟨fs', hfs', hshows⟩ := h.removeFile hne hU hi
      simp only [hfs', attempt]
      rw [hshows.removeDir_none (hunder.update none) hne (update_self ..)]
      exact ⟨_, hshows, .inl rfl⟩

theorem deleteAll_empty {ws : List Item} (hws : ∀ w ∈ ws, w.loc ≠ []) (h : Shows fs root fun _ => none) :
    Shows (deleteAll root ws fs) root fun _ => none := by
  induction ws generalizing fs with
  | nil => exact h
  | cons w ws ih =>
    obtain ⟨V, hV, rfl | ⟨-, hdir, -⟩⟩ := applyDelete_shows h (hws w mem_cons_self) fun _ _ _ _ => nofun
    · rw [update_eq_self] at hV
      exact ih (fun v hv => hws v (mem_cons_of_mem _ hv)) hV
    · cases hdir

end

theorem materializeLayer_empty {F : Formats} {L : Layer} {s : MmapStore} {root : Loc}
    (hc : F.codec.Lawful) (hj : F.json.Lawful) (hx : F.text.Lawful) (hs : s.Sound F.codec) {depth : ℕ}
    {d : Digest} (hd : ConvertedLayer F s L depth d) {fuel : ℕ} (hfuel : 2 * depth + 2 ≤ fuel)
    {fs : Fs Bytes Attr} (hroot : fs.nodes.InPlace root)
    (hempty : ∀ rel, rel ≠ [] → fs.lookup (root ++ rel) = none) :
    ∃ fs', materializeLayer F.json F.text (s.view F.codec) root fuel d fs = some (.ok (), fs') ∧
      Shows fs' root (L.keptOver fun _ => none) := by
  obtain ⟨pairs, tree, ws, hpairs, htree, hws, hd⟩ := hd
  have hfits : ∀ i ∈ L.entries, i.kind.Fits none := by
    intro i hi
    unfold ItemKind.Fits
    cases i.kind <;> simp
  have hcleared : Shows (deleteAll root L.whiteouts fs) root fun _ => none :=
    deleteAll_empty (fun w hw => (L.item_ok (mem_whiteouts.mp hw).1).ne) (.of_empty hroot hempty)
  rw [materializeLayer_converted hc hj hx hs hpairs htree hws hd hfuel root fs]
  exact listing_shows hc hs hpairs htree hfits hcleared

end Pullrun
