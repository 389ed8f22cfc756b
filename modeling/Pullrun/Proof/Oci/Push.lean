import Pullrun.Oci.Sample
import Pullrun.Proof.Oci.Place

/-!
# Pushing a layer, against materializing it

The walker of `push.rs` follows an edge of a tree only if it leads to a tree.
-/

namespace Pullrun

open FileTree OciMaterializer Sample List Prod Layer

/-! ## Streams -/

theorem Appended.andThen_eq_ok_iff {first next : Appended} {out : List Written} :
    first.andThen next = some (.ok out) ↔
      ∃ ws rest, first = some (.ok ws) ∧ next = some (.ok rest) ∧ out = ws ++ rest := by
  unfold Appended.andThen
  constructor
  · intro h
    split at h
    · split at h
      · cases h
        exact ⟨_, _, rfl, rfl, rfl⟩
      · rename_i hno
        exact absurd h (hno out)
    · rename_i hno
      exact absurd h (hno out)
  · rintro ⟨ws, rest, rfl, rfl, rfl⟩
    rfl

theorem Appended.andThen_nil (first : Appended) : first.andThen (some (.ok [])) = first := by
  rcases first with _ | _ | ws
  · rfl
  · rfl
  · simp [Appended.andThen]

section

variable {β : Type} {body : β → Appended} {bs : List β}

theorem appendAll_parts {out : List Written} (h : appendAll body bs = some (.ok out)) :
    ∃ parts, List.Forall₂ (fun b ws => body b = some (.ok ws)) bs parts ∧ out = parts.flatten := by
  induction bs generalizing out with
  | nil => cases h; exact ⟨[], .nil, rfl⟩
  | cons b bs ih =>
    obtain ⟨ws, rest, hb, hrest, rfl⟩ := Appended.andThen_eq_ok_iff.mp h
    obtain ⟨parts, hparts, rfl⟩ := ih hrest
    exact ⟨ws :: parts, .cons hb hparts, rfl⟩

theorem appendAll_nothing (h : ∀ b ∈ bs, body b = some (.ok [])) :
    appendAll body bs = some (.ok []) := by
  induction bs with
  | nil => rfl
  | cons b bs ih =>
    rw [appendAll, h b mem_cons_self, ih fun c hc => h c (mem_cons_of_mem _ hc)]
    rfl

theorem appendAll_singletons {R : β → Written → Prop}
    (h : ∀ b ∈ bs, ∃ w, body b = some (.ok [w]) ∧ R b w) :
    ∃ ws, appendAll body bs = some (.ok ws) ∧ List.Forall₂ R bs ws := by
  induction bs with
  | nil => exact ⟨[], rfl, .nil⟩
  | cons b bs ih =>
    obtain ⟨w, hw, hR⟩ := h b mem_cons_self
    obtain ⟨ws, hws, hall⟩ := ih fun c hc => h c (mem_cons_of_mem _ hc)
    exact ⟨w :: ws, by rw [appendAll, hw, hws]; rfl, .cons hR hall⟩

theorem appendAll_map {γ : Type} (f : γ → β) (cs : List γ) :
    appendAll body (cs.map f) = appendAll (fun c => body (f c)) cs := by
  induction cs with
  | nil => rfl
  | cons c cs ih => rw [map_cons, appendAll, appendAll, ih]

end

/-- What extracting an entry would create. -/
def Written.shape (w : Written) : Option (Inode Bytes Unit) :=
  match w.header.entryType with
  | .directory => some (.dir ())
  | .regular => some (.file w.data ())
  | .symlink => w.header.linkName.map Inode.symlink
  | _ => none

def entriesAt (out : List Written) (rel : Loc) : List Written :=
  out.filter fun w => segs w.path = rel.path

namespace DagPusher

section

variable {F : Formats} {L : Layer} {s : MmapStore} {t : TarCrate} {i : Item}
  {e : Str × DirectoryEntry} {ws : List Written}

theorem path_of_top (ht : t.Lawful) (hok : i.Ok) (htop : i.parent = [])
    (he : EntryOf F L s i e) : t.path (entryPath [] e.2.name) = .ok i.loc.text := by
  have hname : entryPath [] e.2.name = i.loc.text := by
    rw [entryPath, if_pos rfl, he.name, hok.loc_eq, htop]
    rfl
  rw [hname]
  exact ht i.loc hok.names hok.ne

theorem appendEntry_once (hc : F.codec.Lawful) (hs : s.Sound F.codec) (ht : t.Lawful)
    (hi : i ∈ L.entries) (htop : i.parent = []) (hsym : i.kind.isSymlink = false)
    (he : EntryOf F L s i e) :
    ∃ w, appendEntry t (s.view F.codec) [] e.2 = .ok [w] ∧ w.path = i.loc.text ∧
      w.shape = L.shape i := by
  obtain ⟨hitem, -, hreal⟩ := mem_entries.mp hi
  have hpath := path_of_top ht (L.item_ok hitem) htop he
  unfold appendEntry
  simp only [TarCrate.appendData, hpath, he.isDir, he.isSymlink, hsym]
  cases hk : i.kind with
  | dir slash => exact ⟨_, rfl, rfl, by simp [Written.shape, shape, hk]⟩
  | symlink target => rw [hk] at hsym; cases hsym
  | whiteout | opaqueDir => rw [hk] at hreal; cases hreal
  | file data => ?_
  | hardLink target => ?_
  all_goals
    have hblob := (he.stored (by rw [hk]; rfl)).view_getArchived hc hs
    simp only [hblob]
    exact ⟨_, rfl, rfl, by simp [Written.shape, Header.newGnu, shape, DagNode.blob, hk]⟩

theorem appendEntry_path (ht : t.Lawful) (hi : i ∈ L.entries) (htop : i.parent = [])
    (he : EntryOf F L s i e)
    (h : appendEntry t (s.view F.codec) [] e.2 = .ok ws) :
    (∀ w ∈ ws, w.path = i.loc.text) ∧ (i.kind.isSymlink = true → ws.length = 2) := by
  obtain ⟨hitem, -, hreal⟩ := mem_entries.mp hi
  have hpath := path_of_top ht (L.item_ok hitem) htop he
  unfold appendEntry at h
  simp only [TarCrate.appendData, TarCrate.appendLink, hpath, he.isDir, he.isSymlink,
    he.symlinkTarget] at h
  cases hk : i.kind with
  | dir slash =>
    simp only [hk, ItemKind.isDir, if_true] at h
    cases h
    simp [ItemKind.isSymlink]
  | symlink target =>
    simp only [hk, ItemKind.isDir, ItemKind.isSymlink, Item.linkName, Bool.false_eq_true, if_false,
      if_true] at h
    cases hl : t.linkName target with
    | error why => rw [hl] at h; cases h
    | ok name => rw [hl] at h; cases h; simp
  | whiteout | opaqueDir => rw [hk] at hreal; cases hreal
  | file data => ?_
  | hardLink target => ?_
  all_goals
    simp only [hk, ItemKind.isDir, ItemKind.isSymlink, Bool.false_eq_true, if_false] at h
    split at h
    · cases h
    · cases h
    · cases h
      simp [ItemKind.isSymlink]

/-! ## The walk -/

variable {pairs : List (Item × (Str × DirectoryEntry))} {depth : ℕ} {d tree : Digest}
  {out : List Written}

theorem walk_converted (hc : F.codec.Lawful) (hj : F.json.Lawful) (hx : F.text.Lawful)
    (hs : s.Sound F.codec) (hpairs : EntriesOf F L s pairs)
    (htree : IsTree F (s.Holds F.codec) (pairs.map snd) depth [] tree)
    (hd : s.Holds F.codec d ⟨.layer, [tree], F.text.utf8 []⟩) {fuel : ℕ} (hfuel : 2 ≤ fuel) :
    walkTreeForLayer t F.json F.text (s.view F.codec) fuel d [] =
      appendAll (fun p => some (appendEntry t (s.view F.codec) [] p.2.2))
        (pairs.filter fun p => p.1.parent = []) := by
  obtain ⟨fuel, rfl⟩ : ∃ k, fuel = k + 2 := ⟨fuel - 2, by omega⟩
  obtain ⟨edges, inline, hin, ht, hedges⟩ := htree
  have hread : DirectoryEntry.fromInlineBytes F.json inline =
      entriesIn (pairs.map snd) [] :=
    DirectoryEntry.fromInlineBytes_inlineBytes hj (entriesIn_wf hpairs.wf []) hin
  -- Every edge leads to a layer node or to a blob, none to a tree.
  have hnothing : ∀ child ∈ edges, (if isTree (s.view F.codec) child then
      walkTreeForLayer t F.json F.text (s.view F.codec) fuel child [] else some (.ok [])) =
        some (.ok []) := by
    intro child hchild
    have hno : isTree (s.view F.codec) child = false := by
      obtain ⟨e, -, he⟩ := forall₂_mem_left hedges hchild
      unfold isTree
      split at he
      · cases depth with
        | zero => exact he.elim
        | succ depth =>
          obtain ⟨subtree, hsub, -⟩ := isLayer_succ_iff.mp he
          rw [hsub.view_getArchived hc hs]
          rfl
      · obtain ⟨-, data, hdata⟩ := he
        rw [hdata.view_getArchived hc hs]
        rfl
    rw [hno]
    rfl
  have htop : entriesIn (pairs.map snd) [] =
      (pairs.filter fun p => p.1.parent = []).map fun p => p.2.2 :=
    hpairs.entriesIn_text (q := []) (by simp [Loc.Ok])
  rw [walkTreeForLayer, hd.view_getArchived hc hs]
  simp only [hx [], appendAll, Appended.andThen_nil]
  rw [walkTreeForLayer, ht.view_getArchived hc hs]
  simp only [hread, htop]
  rw [appendAll_nothing hnothing, Appended.andThen_nil, appendAll_map]

/-! ## What is pushed and what is materialized -/

theorem filter_loc (L : Layer) (rel : Loc) :
    (L.entries.filter fun i => i.loc = rel) = (L.entries.find? fun i => i.loc = rel).toList := by
  have hnodup : (L.entries.filter fun i => i.loc = rel).Nodup :=
    (((Nodup.of_map _ L.distinct).filter _).filter _).filter _
  have hmem : ∀ i ∈ L.entries.filter fun i => i.loc = rel, i ∈ L.entries ∧ i.loc = rel := fun i hi => by
    simpa using hi
  rw [← head?_filter]
  generalize (L.entries.filter fun i => i.loc = rel) = found at *
  rcases found with _ | ⟨i, _ | ⟨j, rest⟩⟩
  · rfl
  · rfl
  · obtain ⟨hi, hiloc⟩ := hmem i mem_cons_self
    obtain ⟨hj, hjloc⟩ := hmem j (by simp)
    cases entries_inj hi hj (hiloc.trans hjloc.symm)
    simp at hnodup

theorem entriesAt_of_forall₂ {list : List (Item × (Str × DirectoryEntry))}
    (hok : ∀ p ∈ list, p.1.Ok)
    (h : List.Forall₂ (fun p w => w.path = p.1.loc.text ∧ w.shape = L.shape p.1) list ws)
    {rel : Loc} : (entriesAt ws rel).map Written.shape =
      ((list.map fst).filter fun i => i.loc = rel).map L.shape := by
  induction h with
  | nil => rfl
  | @cons p w list ws hw _ ih =>
    have hsegs : segs w.path = rel.path ↔ p.1.loc = rel := by
      rw [hw.1, segs_text (hok p mem_cons_self).names]
      exact ⟨Loc.path_injective, congrArg Loc.path⟩
    have ih' := ih fun q hq => hok q (mem_cons_of_mem _ hq)
    unfold entriesAt at ih' ⊢
    rw [filter_cons, map_cons, filter_cons]
    simp only [decide_eq_true_eq, hsegs]
    split
    · rw [map_cons, map_cons, ih', hw.2]
    · exact ih'

theorem written_top (ht : t.Lawful) (hpairs : EntriesOf F L s pairs)
    (hout : appendAll (fun p => some (appendEntry t (s.view F.codec) [] p.2.2))
      (pairs.filter fun p => p.1.parent = []) = some (.ok out)) {w : Written} (hw : w ∈ out) :
    ∃ p ∈ pairs, p.1.parent = [] ∧ w.path = p.1.loc.text := by
  obtain ⟨parts, hparts, rfl⟩ := appendAll_parts hout
  obtain ⟨ws, hws, hwws⟩ := mem_flatten.mp hw
  obtain ⟨p, hp, hbody⟩ := forall₂_mem_right hparts hws
  obtain ⟨hmem, htop⟩ := mem_filter.mp hp
  have htop := of_decide_eq_true htop
  exact ⟨p, hmem, htop, (appendEntry_path ht (hpairs.mem_entries hmem) htop
    (hpairs.entryOf p hmem) (Option.some.inj hbody)).1 w hwws⟩

theorem written_twice (ht : t.Lawful) (hpairs : EntriesOf F L s pairs)
    (hout : appendAll (fun p => some (appendEntry t (s.view F.codec) [] p.2.2))
      (pairs.filter fun p => p.1.parent = []) = some (.ok out))
    {p : Item × (Str × DirectoryEntry)} (hp : p ∈ pairs) (htop : p.1.parent = [])
    (hsym : p.1.kind.isSymlink = true) : 2 ≤ (entriesAt out p.1.loc).length := by
  obtain ⟨parts, hparts, rfl⟩ := appendAll_parts hout
  obtain ⟨ws, hws, hbody⟩ := forall₂_mem_left hparts
    (mem_filter.mpr ⟨hp, decide_eq_true htop⟩)
  obtain ⟨hpaths, htwo⟩ := appendEntry_path ht (hpairs.mem_entries hp) htop (hpairs.entryOf p hp)
    (Option.some.inj hbody)
  have hall : entriesAt ws p.1.loc = ws := by
    refine filter_eq_self.mpr fun w hw => decide_eq_true ?_
    rw [hpaths w hw, segs_text (hpairs.ok hp).names]
  have hsub : (entriesAt ws p.1.loc).Sublist (entriesAt parts.flatten p.1.loc) :=
    (sublist_flatten_of_mem hws).filter _
  calc 2 = (entriesAt ws p.1.loc).length := by rw [hall, htwo hsym]
    _ ≤ (entriesAt parts.flatten p.1.loc).length := hsub.length_le

theorem written_once (hc : F.codec.Lawful) (hs : s.Sound F.codec) (ht : t.Lawful)
    (hpairs : EntriesOf F L s pairs)
    (hall : ∀ i ∈ L.entries, i.parent = [] ∧ i.kind.isSymlink = false) :
    ∃ out, appendAll (fun p => some (appendEntry t (s.view F.codec) [] p.2.2))
        (pairs.filter fun p => p.1.parent = []) = some (.ok out) ∧
      ∀ rel, (entriesAt out rel).map Written.shape =
        (L.entries.filter fun i => i.loc = rel).map L.shape := by
  have hfilter : (pairs.filter fun p => p.1.parent = []) = pairs := by
    refine filter_eq_self.mpr fun p hp => decide_eq_true ?_
    exact (hall _ (hpairs.mem_entries hp)).1
  have hone : ∀ p ∈ pairs, ∃ w, some (appendEntry t (s.view F.codec) [] p.2.2) = some (.ok [w]) ∧
      w.path = p.1.loc.text ∧ w.shape = L.shape p.1 := by
    intro p hp
    have hi := hpairs.mem_entries hp
    obtain ⟨w, hw, hpath, hshape⟩ :=
      appendEntry_once hc hs ht hi (hall _ hi).1 (hall _ hi).2 (hpairs.entryOf p hp)
    exact ⟨w, by rw [hw], hpath, hshape⟩
  obtain ⟨out, hout, hR⟩ := appendAll_singletons hone
  refine ⟨out, by rw [hfilter]; exact hout, fun rel => ?_⟩
  rw [entriesAt_of_forall₂ (fun p hp => hpairs.ok hp) hR, hpairs.items]

end

variable {F : Formats} {L : Layer}

/-- **A pushed layer has exactly the paths of the materialized one if and only if nothing is in a
    subdirectory and nothing is a link.** -/
theorem push_iff {t : TarCrate} (ht : t.Lawful) (hc : F.codec.Lawful) (hj : F.json.Lawful)
    (hx : F.text.Lawful)
    (hkinds : ∀ i ∈ L.items, i.kind.isReal = true ∧ i.kind.isHardLink = false)
    {seeds : ℕ → Seed} {fuel : ℕ} {s s' : MmapStore} (hs : s.Sound F.codec) {d : Digest}
    (hconvert : convertLayer F seeds fuel L.archive s = some (.ok d, s')) {root : Loc}
    {fs : Fs Bytes Attr} (hroot : fs.nodes.InPlace root)
    (hempty : ∀ rel, rel ≠ [] → fs.lookup (root ++ rel) = none) {fuel' : ℕ}
    (hfuel : 2 * fuel ≤ fuel') :
    (∃ out fs', walkTreeForLayer t F.json F.text (s'.view F.codec) fuel' d [] = some (.ok out) ∧
        materializeLayer F.json F.text (s'.view F.codec) root fuel' d fs = some (.ok (), fs') ∧
        ∀ rel, rel ≠ [] → (entriesAt out rel).map Written.shape =
          ((fs'.lookup (root ++ rel)).map Inode.shape).toList.map some) ↔
      ∀ i ∈ L.entries, i.parent = [] ∧ i.kind.isSymlink = false := by
  have hno : L.whiteouts = [] := by
    refine eq_nil_iff_forall_not_mem.mpr fun w hw => ?_
    obtain ⟨hitem, -, hkind⟩ := mem_whiteouts.mp hw
    have := (hkinds w hitem).1
    rw [hkind] at this
    cases this
  obtain ⟨depth, rfl, hs', -, hd⟩ := convertLayer_spec hc (L.readFrom_archive hc
    (.of_no_hardLinks fun i hi => (hkinds i hi).2)) hs hconvert
  obtain ⟨fs', hfs', hshows⟩ :=
    materializeLayer_empty hc hj hx hs' hd (by omega) hroot hempty
  -- What is materialized at a place is what the layer lists there.
  have hlook : ∀ rel, rel ≠ [] → ((fs'.lookup (root ++ rel)).map Inode.shape).toList.map some =
      (L.entries.filter fun i => i.loc = rel).map L.shape := by
    intro rel hne
    rw [filter_loc, hshows.shows rel hne, keptOver]
    cases hf : L.entries.find? fun i => i.loc = rel with
    | none => rfl
    | some i =>
      obtain ⟨v, hv⟩ := L.shape_of_mem (mem_of_find?_eq_some hf)
      simp [hv]
  obtain ⟨pairs, tree, ws, hpairs, htree, hws, hd⟩ := hd
  rw [hno, forall₂_nil_right_iff] at hws
  subst hws
  have hwalk := @walk_converted F L s' t pairs depth d tree hc hj hx hs' hpairs htree hd fuel'
    (by omega)
  constructor
  · rintro ⟨out, fs₁, hout, hfs₁, hsame⟩ i hi
    obtain rfl : fs' = fs₁ := by
      rw [hfs'] at hfs₁
      cases hfs₁
      rfl
    have hok := L.item_ok (mem_entries.mp hi).1
    obtain ⟨p, hp, rfl⟩ := mem_map.mp (hpairs.items ▸ hi)
    rw [hwalk] at hout
    -- There is one entry for the item.
    have hone : (entriesAt out p.1.loc).length = 1 := by
      have := congrArg length ((hsame _ hok.ne).trans (hlook _ hok.ne))
      rw [filter_loc, find_entry hi] at this
      simpa using this
    have hparent : p.1.parent = [] := by
      obtain ⟨w, hw⟩ := exists_mem_of_length_pos (hone.symm ▸ Nat.one_pos)
      obtain ⟨hmem, hsegs⟩ := mem_filter.mp hw
      obtain ⟨q, hq, hqtop, hpath⟩ := written_top ht hpairs hout hmem
      have hloc : q.1.loc = p.1.loc := by
        rw [decide_eq_true_eq, hpath, segs_text (hpairs.ok hq).names] at hsegs
        exact Loc.path_injective hsegs
      rw [← hqtop, Item.parent, Item.parent, hloc]
    refine ⟨hparent, ?_⟩
    by_contra hsym
    have htwo := written_twice ht hpairs hout hp hparent (by simpa using hsym)
    omega
  · intro hall
    obtain ⟨out, hout, hat⟩ := written_once hc hs' ht hpairs hall
    exact ⟨out, fs', hwalk.trans hout, hfs', fun rel hne => (hat rel).trans (hlook rel hne).symm⟩

theorem push_iff_oneFile :
    ∃ d s', convertLayer Sample.formats (fun _ _ => 0) 4 Sample.fLayer.archive Sample.noStore =
        some (.ok d, s') ∧
      ((∃ out fs', walkTreeForLayer Sample.tar Sample.formats.json Sample.formats.text
            (s'.view Sample.formats.codec) 8 d [] = some (.ok out) ∧
          materializeLayer Sample.formats.json Sample.formats.text (s'.view Sample.formats.codec)
            [['r']] 8 d Sample.host = some (.ok (), fs') ∧
          ∀ rel, rel ≠ [] → (entriesAt out rel).map Written.shape =
            ((fs'.lookup ([['r']] ++ rel)).map Inode.shape).toList.map some) ↔
        ∀ i ∈ Sample.fLayer.entries, i.parent = [] ∧ i.kind.isSymlink = false) ∧
      ∀ i ∈ Sample.fLayer.entries, i.parent = [] ∧ i.kind.isSymlink = false := by
  have hconvert : (convertLayer formats (fun _ _ => 0) 4 fLayer.archive
      noStore).map fst = some (.ok fLayerD) := by decide +kernel
  obtain ⟨⟨r, s'⟩, h, rfl⟩ := Option.map_eq_some_iff.mp hconvert
  refine ⟨fLayerD, s', h, ?_, by decide⟩
  exact push_iff tar_lawful formats_codec formats_json formats_text
    (by decide) noStore_sound h host_inPlace host_empty
    (show 2 * 4 ≤ 8 by decide)

theorem push_loses_nested :
    (match convertLayer Sample.formats (fun _ _ => 0) 4 Sample.dfLayer.archive Sample.noStore with
      | some (.ok d, s) =>
        ((walkTreeForLayer Sample.tar Sample.formats.json Sample.formats.text
            (s.view Sample.formats.codec) 8 d []).map fun r => r.map fun out => out.map Written.path,
          (materializeLayer Sample.formats.json Sample.formats.text (s.view Sample.formats.codec)
            [['r']] 8 d Sample.host).map fun r =>
              (r.1, (r.2.lookup [['r'], ['d'], ['f']]).map Inode.shape))
      | _ => (none, none)) =
    (some (.ok [['d']]), some (.ok (), some (.file Sample.leaf.inlineData ()))) := by
  decide +kernel

end DagPusher

end Pullrun
