import Pullrun.Oci.Layer
import Pullrun.Proof.Oci.Listing
import Pullrun.Proof.Oci.Passes

/-!
# What the converter reads from a well-formed layer

`extract_tar_entries_sync` on the archive of a `Layer`.
-/

namespace Pullrun

open FileTree List Loc ReadEntry Item

/-! ## Two dots in a row -/

theorem containsDotDot_iff (s : Str) : containsDotDot s = true ↔ ['.', '.'] <:+: s := by
  induction s with
  | nil => simp [containsDotDot]
  | cons ch s ih =>
    rw [infix_cons_iff, ← ih]
    conv_lhs => unfold containsDotDot
    split
    · rename_i rest heq
      cases heq
      simp
    · rename_i hno heq
      cases heq
      have hpre : ¬ ['.', '.'] <+: ch :: s := by
        rintro ⟨rest, hrest⟩
        simp only [cons_append, nil_append, cons.injEq] at hrest
        obtain ⟨rfl, rfl⟩ := hrest
        exact hno rest rfl rfl
      simp [hpre]
    · rename_i heq
      cases heq

theorem containsDotDot_mono {a b : Str} (hab : a <:+: b) (h : containsDotDot a = true) :
    containsDotDot b = true :=
  (containsDotDot_iff b).mpr (((containsDotDot_iff a).mp h).trans hab)

/-! ## Paths of items -/

theorem splitPath_text {q : Loc} {n : Name} (hn : NameOk n) (slashes : ℕ) :
    splitPath (text (q ++ [n]) ++ List.replicate slashes '/') = (q.text, n) := by
  obtain ⟨hne, hslash, -, -⟩ := hn
  -- Read backwards: the slashes at the end, the name, and then the rest.
  obtain ⟨rest, hrest, htext⟩ : ∃ rest, (rest = [] ∨ ∃ t, rest = '/' :: t) ∧
      (text (q ++ [n])).reverse = n.reverse ++ rest ∧ rest.tail.reverse = q.text := by
    by_cases hq : q = []
    · subst hq
      exact ⟨[], .inl rfl, by simp [text], rfl⟩
    · refine ⟨'/' :: q.text.reverse, .inr ⟨_, rfl⟩, ?_, by simp⟩
      rw [text_concat hq]
      simp
  have hno : ∀ ch ∈ n.reverse, decide (ch ≠ '/') = true := by
    intro ch hch
    refine decide_eq_true ?_
    rintro rfl
    exact hslash (mem_reverse.mp hch)
  have hdrop : (n.reverse ++ rest).dropWhile (fun ch => decide (ch = '/')) = n.reverse ++ rest := by
    obtain ⟨ch, m, hm⟩ := exists_cons_of_ne_nil (reverse_ne_nil_iff.mpr hne)
    have hch : ch ≠ '/' := of_decide_eq_true (hno ch (by rw [hm]; exact mem_cons_self))
    rw [hm, cons_append, dropWhile_cons_of_neg (by simpa using hch)]
  have hstop : rest.dropWhile (fun ch => decide (ch ≠ '/')) = rest ∧
      rest.takeWhile (fun ch => decide (ch ≠ '/')) = [] := by
    rcases hrest with rfl | ⟨t, rfl⟩ <;> simp
  have hrev : (text (q ++ [n]) ++ replicate slashes '/').reverse.dropWhile
      (fun ch => decide (ch = '/')) = n.reverse ++ rest := by
    rw [reverse_append, reverse_replicate, dropWhile_append_of_pos (by simp), htext.1,
      hdrop]
  unfold splitPath
  simp only [hrev]
  rw [dropWhile_append_of_pos hno, takeWhile_append_of_pos hno, hstop.1, hstop.2,
    append_nil, reverse_reverse, htext.2]

structure Item.Ok (i : Item) : Prop where
  ne : i.loc ≠ []
  names : i.loc.Ok
  reserved : ∀ n ∈ i.loc, ¬ whPrefix <+: n

variable {i : Item} {items : List Item} {F : Formats} {s s' : MmapStore} {L : Layer} {d : Digest}
  {seeds : ℕ → Seed}

theorem Layer.tarLoc_of_real (h : i.kind.isReal = true) : i.tarLoc = i.loc := by
  unfold tarLoc
  split
  · rename_i hkind; rw [hkind] at h; cases h
  · rename_i hkind; rw [hkind] at h; cases h
  · rfl

theorem Layer.item_ok (L : Layer) (hi : i ∈ L.items) : i.Ok :=
  ⟨(L.names i hi).1, (L.names i hi).2.1, (L.names i hi).2.2⟩

namespace Item.Ok

variable {i : Item}

theorem loc_eq (h : i.Ok) : i.loc = i.parent ++ [i.name] := by
  obtain ⟨q, n, hq⟩ := (eq_nil_or_concat i.loc).resolve_left h.ne
  rw [concat_eq_append] at hq
  simp [name, parent, hq]

theorem parent_ok (h : i.Ok) : i.parent.Ok := h.names.dropLast

theorem name_ok (h : i.Ok) : NameOk i.name := by
  have hok := h.names
  rw [h.loc_eq] at hok
  exact hok.last

theorem name_reserved (h : i.Ok) : ¬ whPrefix <+: i.name := by
  refine h.reserved _ ?_
  rw [h.loc_eq]
  simp

theorem whName_ok (h : i.Ok) : NameOk (whPrefix ++ i.name) := by
  have hname := h.name_ok
  refine ⟨by simp [whPrefix], ?_, by simp [whPrefix], by simp [whPrefix], ?_⟩
  · rw [mem_append]
    exact not_or.mpr ⟨by decide, hname.2.1⟩
  · rw [mem_append]
    exact not_or.mpr ⟨by decide, hname.2.2.2.2⟩

theorem tarLoc_ok (h : i.Ok) : i.tarLoc.Ok ∧ i.tarLoc ≠ [] := by
  unfold tarLoc
  split
  · exact ⟨h.parent_ok.concat h.whName_ok, by simp⟩
  · exact ⟨h.names.concat (by decide), by simp⟩
  · exact ⟨h.names, h.ne⟩

theorem path_eq (i : Item) : ∃ slashes, i.path = i.tarLoc.text ++ List.replicate slashes '/' := by
  unfold path
  split
  · rename_i hkind
    exact ⟨1, by simp [tarLoc, hkind]⟩
  · exact ⟨0, by simp⟩

theorem isSkipped_path (h : i.Ok) : isSkipped i.path = containsDotDot i.path := by
  obtain ⟨slashes, hpath⟩ := path_eq i
  obtain ⟨hok, hne⟩ := h.tarLoc_ok
  have hnil : i.path ≠ [] := by
    rw [hpath]
    simp [text_ne_nil hok hne]
  have hdot : i.path ≠ ['.'] := by
    intro hd
    rw [hpath, append_eq_singleton_iff] at hd
    rcases hd with ⟨htext, -⟩ | ⟨htext, -⟩
    · exact text_ne_nil hok hne htext
    · have hsegs := segs_text hok
      rw [htext] at hsegs
      have hempty : i.tarLoc.path = [] := hsegs.symm.trans (by decide)
      exact hne (map_eq_nil_iff.mp hempty)
  simp [isSkipped, hnil, hdot]

theorem splitPath_real (h : i.Ok) (hreal : i.kind.isReal = true) :
    splitPath i.path = (i.parent.text, i.name) := by
  obtain ⟨slashes, hpath⟩ := path_eq i
  rw [hpath, Layer.tarLoc_of_real hreal, h.loc_eq]
  exact splitPath_text h.name_ok slashes

theorem splitPath_whiteout (h : i.Ok) (hkind : i.kind = .whiteout) :
    splitPath i.path = (i.parent.text, whPrefix ++ i.name) := by
  obtain ⟨slashes, hpath⟩ := path_eq i
  rw [hpath, tarLoc, hkind]
  exact splitPath_text h.whName_ok slashes

theorem whiteoutOf_name (h : i.Ok) :
    whiteoutOf i.parent.text (whPrefix ++ i.name) = .delete i.loc.text := by
  have hopaque : whPrefix ++ i.name ≠ opaqueName := by
    intro he
    refine h.name_reserved ⟨".opq".toList, ?_⟩
    have hsplit : opaqueName = whPrefix ++ (whPrefix ++ ".opq".toList) := by decide
    rw [hsplit] at he
    exact (append_cancel_left he).symm
  have hstrip := Digest.stripPrefix_append whPrefix i.name
  rw [whiteoutOf, if_neg hopaque, hstrip]
  simp only [Option.getD_some, text_eq_nil_iff h.parent_ok]
  congr 1
  conv_rhs => rw [h.loc_eq]
  split
  · rename_i hq; rw [hq]; rfl
  · rename_i hq; exact (text_concat hq).symm

theorem opaque_skipped (hkind : i.kind = .opaqueDir) : containsDotDot i.path = true := by
  have hpath : i.path = text (i.loc ++ [opaqueName]) := by
    simp [path, tarLoc, hkind]
  have hname : opaqueName <:+: i.path := by
    rw [hpath]
    by_cases hl : i.loc = []
    · rw [hl]
      exact infix_refl _
    · rw [text_concat hl]
      exact ⟨i.loc.text ++ ['/'], [], by simp⟩
  exact containsDotDot_mono hname (by decide)

end Item.Ok

theorem Item.Ok.segs_path (h : i.Ok) : segs i.path = i.tarLoc.path := by
  obtain ⟨slashes, hpath⟩ := path_eq i
  rw [hpath]
  clear hpath
  induction slashes with
  | zero => simp [segs_text h.tarLoc_ok.1]
  | succ k ih =>
    rw [replicate_succ', ← append_assoc, segs_append_slash, ih]
    simp [segs, Seg.ofText]

def keptItems (items : List Item) : List Item := items.filter fun i => !containsDotDot i.path

theorem mem_keptItems : i ∈ keptItems items ↔ i ∈ items ∧ containsDotDot i.path = false := by
  simp [keptItems]

/-! ## What the converter keeps -/

namespace Layer

variable {L : Layer}

def entries (L : Layer) : List Item := (keptItems L.items).filter fun i => i.kind.isReal

def whiteouts (L : Layer) : List Item := (keptItems L.items).filter fun i => i.kind = .whiteout

def LinksKept (L : Layer) : Prop :=
  ∀ i ∈ L.entries, ∀ target, i.kind = .hardLink target → ∃ f ∈ L.entries, f.loc = target

theorem mem_entries : i ∈ L.entries ↔
    i ∈ L.items ∧ containsDotDot i.path = false ∧ i.kind.isReal = true := by
  rw [entries, mem_filter, mem_keptItems, and_assoc]

theorem mem_whiteouts : i ∈ L.whiteouts ↔
    i ∈ L.items ∧ containsDotDot i.path = false ∧ i.kind = .whiteout := by
  rw [whiteouts, mem_filter, mem_keptItems, and_assoc, decide_eq_true_eq]

theorem LinksKept.of_no_hardLinks (h : ∀ i ∈ L.items, i.kind.isHardLink = false) : L.LinksKept := by
  intro i hi target htarget
  have := h i (mem_entries.mp hi).1
  rw [htarget] at this
  cases this

theorem parents_kept (hi : i ∈ L.items)
    (hkept : containsDotDot i.path = false) {q : Loc} (hq : q <+: i.tarLoc) (hne : q ≠ i.tarLoc)
    (hnil : q ≠ []) : ∃ d ∈ L.entries, d.loc = q ∧ d.kind.isDir = true := by
  obtain ⟨d, hd, hloc, hdir⟩ := L.parents i hi q hq hne hnil
  refine ⟨d, mem_entries.mpr ⟨hd, ?_, ?_⟩, hloc, hdir⟩
  · obtain ⟨rest, hrest⟩ := hq
    obtain ⟨slashes, hpath⟩ := Item.Ok.path_eq i
    have hrestNe : rest ≠ [] := by
      rintro rfl
      exact hne (by rw [← hrest, append_nil])
    have hlong : i.path = q.text ++ '/' :: (text rest ++ replicate slashes '/') := by
      rw [hpath, ← hrest, text_append hnil hrestNe, append_assoc]
      rfl
    have hinfix : d.path <:+: i.path := by
      rw [hlong]
      cases hk : d.kind with
      | dir slash =>
        cases slash with
        | true => exact ⟨[], text rest ++ replicate slashes '/', by simp [Item.path, hk, hloc]⟩
        | false => exact ⟨[], '/' :: (text rest ++ replicate slashes '/'), by
            simp [Item.path, Item.tarLoc, hk, hloc]⟩
      | _ => rw [hk] at hdir; cases hdir
    by_contra hdots
    rw [containsDotDot_mono hinfix (by simpa using hdots)] at hkept
    cases hkept
  · cases hk : d.kind with
    | dir slash => rfl
    | _ => rw [hk] at hdir; cases hdir


theorem find_real (hi : i ∈ L.items) (hreal : i.kind.isReal = true) :
    (L.items.find? fun j => j.loc = i.loc ∧ j.kind.isReal) = some i := by
  refine find?_of_mem hi (by simp [hreal]) fun j hj hloc => inj_on_of_nodup_map L.distinct hj hi ?_
  have hloc : j.loc = i.loc ∧ j.kind.isReal = true := by simpa using hloc
  rw [tarLoc_of_real hloc.2, tarLoc_of_real hreal, hloc.1]

theorem fileAt_eq {f : Item} (hf : f ∈ L.items) {data : Bytes} (hkind : f.kind = .file data) :
    L.fileAt f.loc = data := by
  have hreal : f.kind.isReal = true := by rw [hkind]; rfl
  rw [fileAt, find_real hf hreal]
  simp [Item.data, hkind]

theorem paths_nodup (L : Layer) : (L.items.map Item.path).Nodup := by
  refine Nodup.map_on ?_ (Nodup.of_map _ L.distinct)
  intro i hi j hj hpath
  have hsegs := congrArg segs hpath
  rw [(L.item_ok hi).segs_path, (L.item_ok hj).segs_path] at hsegs
  exact inj_on_of_nodup_map L.distinct hi hj (path_injective hsegs)

end Layer

/-! ## What is read -/

/-- An item as the first pass reads it, with the link name that is in its header. -/
def Item.readEntry (link : Item → Option Str) (i : Item) : ReadEntry :=
  ⟨i.path, { i.header with linkName := link i }, i.pax, i.data⟩

variable {link : Item → Option Str} {e : Str × DirectoryEntry}

theorem Item.isBare_readEntry (i : Item) :
    (i.readEntry link).isBare = (i.kind.isDir || i.kind.isSymlink) := by
  rw [Bool.eq_iff_iff]
  simp [isBare, Header.isBare, readEntry]

theorem Item.readEntry_eq (i : Item) :
    .of i.path { i.header with linkName := link i } i.pax (.ok i.data) = i.readEntry link := by
  have hbare : (i.readEntry link).isBare = _ := i.isBare_readEntry
  unfold of
  change ReadEntry.mk _ _ _ (if (i.readEntry link).isBare = true then _ else _) = _
  rw [hbare]
  cases hk : i.kind <;> simp [readEntry, data, hk, ItemKind.isDir, ItemKind.isSymlink, Except.toOption]

theorem Item.target_readEntry (i : Item) :
    (i.readEntry link).target = if i.kind.isHardLink then link i else none := by
  simp [target, readEntry]

theorem Item.Ok.marks_readEntry (h : i.Ok) (hkept : containsDotDot i.path = false) :
    (i.readEntry link).marks = !i.kind.isReal := by
  rw [Bool.eq_iff_iff]
  simp only [marks, readEntry, header_entryType, ne_eq,
    entryType_directory, decide_eq_true_eq]
  cases hk : i.kind with
  | whiteout =>
    rw [h.splitPath_whiteout hk]
    simp [ItemKind.isReal, ItemKind.isDir]
  | opaqueDir =>
    rw [opaque_skipped hk] at hkept
    cases hkept
  | _ =>
    rw [h.splitPath_real (by rw [hk]; rfl)]
    simp [ItemKind.isReal, h.name_reserved]

namespace Layer

variable (L : Layer) (link : Item → Option Str)

def archiveWith : Archive :=
  L.items.map fun i => .ok { i.entry with header := .ok { i.header with linkName := link i } }

theorem archive_read : (L.archiveWith link).read = (keptItems L.items).map (Item.readEntry link) := by
  rw [Archive.read, archiveWith, filterMap_map, keptItems, ← filterMap_eq_filter, map_filterMap]
  refine filterMap_congr fun i hi => ?_
  have hskip := (L.item_ok hi).isSkipped_path
  cases hk : containsDotDot i.path <;>
    simp [Except.toOption, LayerEntry.read?, entry, hskip, hk, Option.guard]
  exact i.readEntry_eq

theorem archive_listed : (L.archiveWith link).listed = L.entries.map (Item.readEntry link) := by
  rw [Archive.listed, archive_read, filter_map, entries]
  congr 1
  refine filter_congr fun i hi => ?_
  obtain ⟨hi, hkept⟩ := mem_keptItems.mp hi
  simp [(L.item_ok hi).marks_readEntry hkept]

theorem archive_whiteouts :
    ((L.archiveWith link).read.filter ReadEntry.marks).map ReadEntry.whiteout =
      L.whiteouts.map fun i => .delete i.loc.text := by
  rw [archive_read, filter_map, map_map, whiteouts]
  have hfilter : (keptItems L.items).filter (marks ∘ readEntry link) =
      (keptItems L.items).filter fun i => i.kind = .whiteout := by
    refine filter_congr fun i hi => ?_
    obtain ⟨hi, hkept⟩ := mem_keptItems.mp hi
    rw [Function.comp_apply, (L.item_ok hi).marks_readEntry hkept]
    cases hk : i.kind with
    | opaqueDir =>
      rw [Ok.opaque_skipped hk] at hkept
      cases hkept
    | _ => simp [ItemKind.isReal]
  rw [hfilter]
  refine map_congr_left fun i hi => ?_
  obtain ⟨hi, hkind⟩ := mem_filter.mp hi
  have hkind : i.kind = .whiteout := by simpa using hkind
  have hok := L.item_ok (mem_keptItems.mp hi).1
  simp only [Function.comp_apply, whiteout, readEntry, hok.splitPath_whiteout hkind,
    hok.whiteoutOf_name]

theorem entries_paths : ((L.archiveWith link).listed.map ReadEntry.path).Nodup := by
  rw [archive_listed, map_map]
  exact L.paths_nodup.sublist ((filter_sublist.trans filter_sublist).map _)

theorem archive_links : ∀ e ∈ (L.archiveWith link).listed, e.target ≠ none → e.data = [] := by
  intro e he hlink
  rw [archive_listed] at he
  obtain ⟨i, -, rfl⟩ := mem_map.mp he
  rw [target_readEntry] at hlink
  cases hk : i.kind with
  | hardLink => simp [Item.readEntry, Item.data, hk]
  | _ => simp [hk, ItemKind.isHardLink] at hlink

variable {L} {link}

theorem finds_data (hlink : i.kind.isHardLink = false) {data : Bytes}
    (h : Finds (L.archiveWith link).listed (i.readEntry link) data) : data = i.data :=
  h.unique (L.entries_paths link) (.own (by rw [target_readEntry, hlink]; rfl))

/-- What the converter takes for the contents of an item: a hard link to a path that is passed over
    is an empty file. -/
def readContents (L : Layer) (i : Item) : Bytes :=
  match i.kind with
  | .hardLink target => if ∃ f ∈ L.entries, f.loc = target then L.fileAt target else []
  | _ => i.data

theorem finds_linkName (hi : i ∈ L.entries) {contents : Bytes}
    (hfinds : Finds (L.archiveWith Item.linkName).listed (i.readEntry Item.linkName) contents) :
    contents = L.readContents i := by
  unfold readContents
  cases hk : i.kind with
  | hardLink target =>
    obtain ⟨f, hf, rfl, data, hdata⟩ := L.hardLinks i (mem_entries.mp hi).1 target hk
    have hreal : f.kind.isReal = true := by rw [hdata]; rfl
    have hpath : f.path = f.loc.text := by simp [Item.path, Item.tarLoc, hdata]
    have hfile : (f.readEntry Item.linkName).target = none := by
      rw [Item.target_readEntry, hdata]; rfl
    have htarget : (i.readEntry Item.linkName).target = some f.loc.text := by
      rw [Item.target_readEntry, hk]
      simp [ItemKind.isHardLink, Item.linkName, hk]
    cases hfinds with
    | own h => rw [htarget] at h; cases h
    | target he _ ht _ hrest =>
      rw [archive_listed] at he
      obtain ⟨j, hj, rfl⟩ := mem_map.mp he
      rw [htarget] at ht
      obtain rfl : j = f := inj_on_of_nodup_map L.paths_nodup (mem_entries.mp hj).1 hf
        ((Option.some.inj ht).symm.trans hpath.symm)
      simp only [if_pos (⟨j, hj, rfl⟩ : ∃ f ∈ L.entries, f.loc = j.loc), L.fileAt_eq hf hdata]
      rw [hrest.unique (L.entries_paths Item.linkName) (.own hfile)]
      simp [Item.readEntry, Item.data, hdata]
    | lost _ hno =>
      refine (if_neg ?_).symm
      rintro ⟨j, hj, hloc⟩
      obtain rfl : j = f := by
        refine inj_on_of_nodup_map L.distinct (mem_entries.mp hj).1 hf ?_
        rw [tarLoc_of_real (mem_entries.mp hj).2.2, tarLoc_of_real hreal, hloc]
      refine (hno _ ?_ (by rw [Item.isBare_readEntry, hdata]; rfl) ?_).1 hfile
      · rw [archive_listed]
        exact mem_map_of_mem hj
      · rw [htarget, ← hpath]
        rfl
  | _ => exact finds_data (by rw [hk]; rfl) hfinds

end Layer

/-! ## Entries -/

structure EntryOf (F : Formats) (L : Layer) (s : MmapStore) (i : Item) (e : Str × DirectoryEntry) :
    Prop where
  parent : e.1 = i.parent.text
  name : e.2.name = i.name
  isDir : e.2.isDir = i.kind.isDir
  isSymlink : e.2.isSymlink = i.kind.isSymlink
  symlinkTarget : e.2.symlinkTarget = if i.kind.isSymlink then i.linkName else none
  wf : e.2.Wf
  stored : i.kind.isDir = false → s.Holds F.codec e.2.digest (.blob (L.contents i))
  /-- A directory has the digest of an empty file, not that of its layer node. -/
  dirBlob : i.kind.isDir = true → s.Holds F.codec e.2.digest (.blob [])

theorem EntryOf.mono (h : EntryOf F L s i e) (hg : s.Grown s') :
    EntryOf F L s' i e :=
  { h with
    stored := fun hdir => (h.stored hdir).mono hg
    dirBlob := fun hdir => (h.dirBlob hdir).mono hg }


structure Item.ReadAs (i : Item) (e : ReadEntry) : Prop where
  path : e.path = i.path
  isDir : e.header.entryType = .directory ↔ i.kind.isDir = true
  isSymlink : e.header.entryType = .symlink ↔ i.kind.isSymlink = true
  linkName : i.kind.isSymlink = true → e.header.linkName = i.linkName

theorem Item.readAs_readEntry (i : Item) : i.ReadAs (i.readEntry Item.linkName) :=
  ⟨rfl, by simp [readEntry], by simp [readEntry], fun _ => rfl⟩

theorem Layer.contents_dir (h : i.kind.isDir = true) : L.contents i = [] := by
  cases hk : i.kind with
  | dir slash => simp [Layer.contents, Item.data, hk]
  | _ => rw [hk] at h; cases h

theorem EntryFor.entryOf {Q : Seed → Prop} {x : ReadEntry × Bytes}
    (h : EntryFor Q F.codec s x e) (hok : i.Ok) (hreal : i.kind.isReal = true) (hx : i.ReadAs x.1)
    (hcontents : L.contents i = x.2) : EntryOf F L s i e := by
  obtain ⟨seed, -, hentry⟩ := h.entry
  have hsplit : splitPath x.1.path = (i.parent.text, i.name) :=
    hx.path ▸ hok.splitPath_real hreal
  refine ⟨by rw [h.parent, hsplit], ?_, ?_, ?_, ?_, ?_, fun _ => hcontents ▸ h.stored, fun hdir => ?_⟩
  · rw [hentry]
    simp [RawEntry.entry, rawEntryOf, hsplit]
  · rw [hentry, Bool.eq_iff_iff]
    simpa [RawEntry.entry, rawEntryOf] using hx.isDir
  · rw [hentry, Bool.eq_iff_iff]
    simpa [RawEntry.entry, rawEntryOf] using hx.isSymlink
  · rw [hentry]
    simp only [RawEntry.entry, rawEntryOf, hx.isSymlink]
    split
    · rename_i hsym
      exact hx.linkName hsym
    · rfl
  · rw [hentry]
    exact (((iterate_perm seed _).map Prod.fst).nodup_iff).mpr (Value.mapOf_nodup _)
  · rw [← Layer.contents_dir hdir (L := L), hcontents]
    exact h.stored

/-- The converter makes of the archive the entries and the whiteouts of the layer. -/
def ReadFrom (F : Formats) (archive : Archive) (L : Layer) : Prop :=
  ∀ {seeds : ℕ → Seed} {s s' : MmapStore} {x : Extracted}, s.Sound F.codec →
    extractTarEntries F.codec seeds archive s = (.ok x, s') →
    s'.Sound F.codec ∧ s.Grown s' ∧
      x.whiteouts = L.whiteouts.map (fun i => .delete i.loc.text) ∧
      List.Forall₂ (EntryOf F L s') L.entries x.entries

theorem readFrom_of_settled (hc : F.codec.Lawful) {archive : Archive}
    (hwhs : (archive.read.filter ReadEntry.marks).map ReadEntry.whiteout =
      L.whiteouts.map fun i => .delete i.loc.text)
    (hsettled : List.Forall₂ (fun i x => i.ReadAs x.1 ∧ L.contents i = x.2) L.entries
      archive.settled) : ReadFrom F archive L := by
  intro seeds s s' x hs h
  obtain ⟨hs', hg, hwh, hes⟩ :=
    extractTarEntries_reads (Q := fun _ => True) hc (fun _ => trivial) hs h
  refine ⟨hs', hg, hwh.trans hwhs, ?_⟩
  have hmem : Forall₂ (fun i y => i ∈ L.entries ∧ i.ReadAs y.1 ∧ L.contents i = y.2)
      L.entries archive.settled := (forall₂_and_left _ _).mpr ⟨fun i hi => hi, hsettled⟩
  refine forall₂_comp (fun i y e hy he => ?_) hmem hes
  obtain ⟨hi, -, hreal⟩ := Layer.mem_entries.mp hy.1
  exact he.entryOf (L.item_ok hi) hreal hy.2.1 hy.2.2

theorem readFrom_archiveWith (hc : F.codec.Lawful) {L' : Layer} {f : Item → Item}
    (hloc : ∀ i, (f i).loc = i.loc) (hwhs : L'.whiteouts = L.whiteouts.map f)
    (hentries : L'.entries = L.entries.map f)
    (h : ∀ i ∈ L.entries, (f i).ReadAs (i.readEntry link) ∧
      ∀ data, Finds (L.archiveWith link).listed (i.readEntry link) data → L'.contents (f i) = data) :
    ReadFrom F (L.archiveWith link) L' := by
  refine readFrom_of_settled hc ?_ ?_
  · rw [L.archive_whiteouts, hwhs, map_map]
    exact map_congr_left fun i _ => by rw [Function.comp_apply, hloc]
  have hfst : (L.archiveWith link).settled.map Prod.fst = L.entries.map (readEntry link) :=
    (settle_map_fst _ _).trans (L.archive_listed link)
  rw [← forall₂_eq_eq_eq, forall₂_map_left_iff, forall₂_map_right_iff] at hfst
  have hfinds := (forall₂_and_left _ _).mpr
    ⟨Archive.settled_finds (L.entries_paths link) (L.archive_links link), hfst⟩
  rw [hentries, forall₂_map_left_iff]
  refine ((forall₂_and_left _ _).mpr ⟨h, Forall₂.flip hfinds⟩).imp fun i x hx => ?_
  obtain ⟨⟨hread, hcontents⟩, hx, heq⟩ := hx
  rw [heq] at hx ⊢
  exact ⟨hread, hcontents _ hx⟩

theorem Layer.readFrom_archive (hc : F.codec.Lawful) (hlinks : L.LinksKept) :
    ReadFrom F L.archive L := by
  refine readFrom_archiveWith hc (f := id) (fun _ => rfl) (map_id _).symm (map_id _).symm fun i hi =>
    ⟨i.readAs_readEntry, fun data hfinds => ?_⟩
  rw [finds_linkName hi hfinds]
  unfold contents readContents
  cases hk : i.kind with
  | hardLink target => simp only [id, hk, if_pos (hlinks i hi target hk)]
  | _ => simp only [id, hk]

end Pullrun
