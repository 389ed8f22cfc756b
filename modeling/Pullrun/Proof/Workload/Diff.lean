import Pullrun.Oci.Sample
import Pullrun.Proof.Oci.Order
import Pullrun.Proof.Oci.Severed
import Pullrun.Workload.Diff

/-!
# What `diff_workload` reports

The map of the root filesystem goes to any depth, and that of the image lists the top of its layers.
-/

namespace Pullrun

open FileTree Sample List Prod

/-! ## Maps -/

def addFiles (found files : FileDigests) : FileDigests :=
  found.foldl (fun m e => Value.insertKey m e.1 e.2) files

variable {files : FileDigests} {F : Formats} {data : Bytes}

theorem addFiles_nodup (found : FileDigests) (h : (files.map fst).Nodup) :
    ((addFiles found files).map fst).Nodup := by
  induction found generalizing files with
  | nil => exact h
  | cons e found ih => exact ih (Value.insertKey_nodup h e.1 e.2)

theorem lookup_addFiles (found files : FileDigests) (k : Str) :
    (addFiles found files).lookup k = (found.reverse.lookup k).or (files.lookup k) := by
  induction found generalizing files with
  | nil => simp [addFiles]
  | cons e found ih =>
    have hstep : addFiles (e :: found) files = addFiles found (Value.insertKey files e.1 e.2) := rfl
    rw [hstep, ih, Value.lookup_insertKey, reverse_cons, lookup_append]
    obtain ⟨p, d⟩ := e
    by_cases hk : k = p
    · simp [hk]
    · simp [lookup_cons, hk, beq_false_of_ne hk]

theorem collectFiles_eq {α ε : Type} {body : α → FileDigests → Option (Except ε FileDigests)}
    {f : α → FileDigests} {as : List α}
    (h : ∀ a ∈ as, ∀ files, body a files = some (.ok (addFiles (f a) files))) (files : FileDigests) :
    collectFiles body as files = some (.ok (addFiles (as.flatMap f) files)) := by
  induction as generalizing files with
  | nil => rfl
  | cons a as ih =>
    rw [collectFiles, h a mem_cons_self, flatMap_cons]
    refine (ih (fun b hb => h b (mem_cons_of_mem _ hb)) _).trans ?_
    simp only [addFiles, foldl_append]

theorem lookup_eq_some_iff_mem {p d : Str} (h : ∀ d d', (p, d) ∈ files → (p, d') ∈ files → d = d') :
    files.lookup p = some d ↔ (p, d) ∈ files := by
  have hmem : ∀ {d}, files.lookup p = some d → (p, d) ∈ files := by
    intro d hd
    obtain ⟨l1, l2, rfl, -⟩ := lookup_eq_some_iff.mp hd
    simp
  refine ⟨hmem, fun hd => ?_⟩
  cases hl : files.lookup p with
  | none => simpa using lookup_eq_none_iff.mp hl (p, d) hd
  | some d' => rw [h d d' hd (hmem hl)]

/-! ## The walk of the root filesystem -/

def leafAt (fs : Fs Bytes Attr) (root rel : Loc) : Option (Inode Bytes Unit) :=
  match fs.lookup (root ++ rel) with
  | none | some (.dir _) => none
  | some leaf => some leaf.shape

def leafDigest (F : Formats) {α : Type} (leaf : Inode Bytes α) : Str :=
  (F.codec.sha256 (leafBytes F.text leaf)).asHex

/-- A root filesystem: a directory, in place, with everything in it in directories, under proper
    names. -/
def IsRootfs (fs : Fs Bytes Attr) (root : Loc) : Prop :=
  ∃ U, Shows fs root U ∧ ∀ rel, U rel ≠ none → rel.Ok

section

variable {F : Formats} {fs : Fs Bytes Attr} {root rel : Loc} {U : View Bytes}

def foundIn (F : Formats) (fs : Fs Bytes Attr) (root : Loc) : ℕ → Loc → FileDigests
  | 0, _ => []
  | depth + 1, rel =>
    (fs.nodes.children (root ++ rel)).flatMap fun name =>
      match fs.lookup (root ++ (rel ++ [name])) with
      | none => []
      | some (.dir _) => foundIn F fs root depth (rel ++ [name])
      | some leaf => [(Loc.text (rel ++ [name]), leafDigest F leaf)]

theorem walkDirRecursive_eq (h : Shows fs root U) {bound : ℕ}
    (hbound : ∀ rel, fs.lookup (root ++ rel) ≠ none → rel.length ≤ bound) {fuel : ℕ} {rel : Loc}
    (hdir : U.IsDir rel) (hlen : bound < fuel + rel.length) (files : FileDigests) :
    walkDirRecursive F fs root fuel rel files =
      some (.ok (addFiles (foundIn F fs root fuel rel) files)) := by
  induction fuel generalizing rel files with
  | zero =>
    rcases hdir with rfl | hdir
    · simp at hlen
    · have hne : rel ≠ [] := by
        rintro rfl
        simp at hlen
      obtain ⟨i, hi, -⟩ := h.lookup_some hne hdir
      have := hbound rel (by rw [hi]; simp)
      omega
  | succ fuel ih =>
    have hread : fs.readDir (Loc.path (root ++ rel)) = .ok (fs.nodes.children (root ++ rel)) := by
      rw [Fs.readDir, Fs.resolve_inPlace true (h.inPlace_append hdir)]
      exact if_pos (h.isDir hdir)
    rw [walkDirRecursive, hread, foundIn]
    refine collectFiles_eq (fun name hname files => ?_) files
    dsimp only
    cases hl : fs.lookup (root ++ (rel ++ [name])) with
    | none =>
      rw [← append_assoc] at hl
      exact absurd hl (Nodes.mem_children.mp hname)
    | some i =>
      cases i with
      | dir a =>
        have hdir : U (rel ++ [name]) = some (.dir ()) := by rw [← h.shows _ (by simp), hl]; rfl
        refine ih (.inr hdir) ?_ files
        rw [length_append, length_singleton]
        omega
      | file content a => rfl
      | symlink target => rfl

theorem leafAt_eq_some_iff {leaf : Inode Bytes Unit} : leafAt fs root rel = some leaf ↔
      ∃ i, fs.lookup (root ++ rel) = some i ∧ (∀ a, i ≠ .dir a) ∧ i.shape = leaf := by
  unfold leafAt
  cases fs.lookup (root ++ rel) with
  | none => simp
  | some i => cases i <;> simp

theorem mem_foundIn_succ {k d : Str} {depth : ℕ} : (k, d) ∈ foundIn F fs root (depth + 1) rel ↔ ∃ name,
      (∃ a, fs.lookup (root ++ (rel ++ [name])) = some (.dir a) ∧
        (k, d) ∈ foundIn F fs root depth (rel ++ [name])) ∨
      ∃ leaf, leafAt fs root (rel ++ [name]) = some leaf ∧ Loc.text (rel ++ [name]) = k ∧
        leafDigest F leaf = d := by
  rw [foundIn, mem_flatMap]
  refine exists_congr fun name => ?_
  rw [Nodes.mem_children, append_assoc, leafAt]
  change fs.lookup (root ++ (rel ++ [name])) ≠ none ∧ _ ↔ _
  cases fs.lookup (root ++ (rel ++ [name])) with
  | none => simp
  | some i => cases i <;> simp [leafDigest, leafBytes, Inode.shape, eq_comm]

/-- **What is found**: the files and links below the directory, as deep as the walk went. -/
theorem mem_foundIn (h : Shows fs root U) {k d : Str} {depth : ℕ} {rel : Loc} :
    (k, d) ∈ foundIn F fs root depth rel ↔
      ∃ (p : Loc) (leaf : _), rel <+: p ∧ p ≠ rel ∧ p.length ≤ rel.length + depth ∧
      leafAt fs root p = some leaf ∧ p.text = k ∧ leafDigest F leaf = d := by
  induction depth generalizing rel with
  | zero =>
    simp only [foundIn, not_mem_nil, false_iff]
    rintro ⟨p, leaf, hp, hne, hlen, -⟩
    exact hne (hp.eq_of_length_le hlen).symm
  | succ depth ih =>
    rw [mem_foundIn_succ]
    constructor
    · rintro ⟨name, ⟨a, -, hmem⟩ | ⟨leaf, hleaf⟩⟩
      · obtain ⟨p, leaf, hp, -, hlen, hleaf⟩ := ih.mp hmem
        have hlong := hp.length_le
        rw [length_append, length_singleton] at hlen hlong
        refine ⟨p, leaf, (prefix_append _ _).trans hp, ?_, by omega, hleaf⟩
        rintro rfl
        omega
      · exact ⟨rel ++ [name], leaf, prefix_append _ _, by simp, by simp, hleaf⟩
    · rintro ⟨p, leaf, ⟨rest, rfl⟩, hne, hlen, hleaf⟩
      rcases rest with _ | ⟨name, _ | ⟨next, rest⟩⟩
      · simp at hne
      · exact ⟨name, .inr ⟨leaf, hleaf⟩⟩
      · -- There is something below, so this is a directory.
        have hbelow : rel ++ [name] <+: rel ++ name :: next :: rest := ⟨next :: rest, by simp⟩
        obtain ⟨i, hi, -⟩ := leafAt_eq_some_iff.mp hleaf.1
        have hU : U (rel ++ name :: next :: rest) ≠ none := by
          rw [← h.shows _ (by simp), hi]
          simp
        have hdir : U.IsDir (rel ++ [name]) := h.closed _ hU _ hbelow (by simp)
        obtain ⟨a, ha⟩ := Nodes.lookup_of_isDir (h.isDir hdir) (by simp)
        refine ⟨name, .inl ⟨a, ha, ih.mpr ⟨_, leaf, hbelow, by simp, ?_, hleaf⟩⟩⟩
        simp only [length_append, length_cons] at hlen ⊢
        omega

end

structure FilesOf (files : FileDigests) (g : Loc → Option Str) : Prop where
  nodup : (files.map Prod.fst).Nodup
  lookup : ∀ rel : Loc, rel.Ok → files.lookup rel.text = g rel
  only : ∀ k, files.lookup k ≠ none → ∃ rel : Loc, rel.Ok ∧ rel.text = k

theorem FilesOf.addFiles {found : FileDigests} {g g' : Loc → Option Str} (h : FilesOf files g)
    (hnew : ∀ k d, (k, d) ∈ found ↔ ∃ rel : Loc, rel.Ok ∧ rel.text = k ∧ g' rel = some d) :
    FilesOf (addFiles found files) fun rel => (g' rel).or (g rel) := by
  -- A path that is found is found with one digest.
  have huniq : ∀ k d d', (k, d) ∈ found.reverse → (k, d') ∈ found.reverse → d = d' := by
    intro k d d' hd hd'
    obtain ⟨rel, hok, htext, hd⟩ := (hnew k d).mp (mem_reverse.mp hd)
    obtain ⟨rel', hok', htext', hd'⟩ := (hnew k d').mp (mem_reverse.mp hd')
    rw [text_injective hok hok' (htext.trans htext'.symm), hd'] at hd
    exact (Option.some.inj hd).symm
  have hlast : ∀ k d, found.reverse.lookup k = some d ↔ (k, d) ∈ found := fun k d =>
    (lookup_eq_some_iff_mem (huniq k)).trans mem_reverse
  refine ⟨addFiles_nodup found h.nodup, fun rel hok => ?_, fun k hk => ?_⟩
  · rw [lookup_addFiles, h.lookup rel hok]
    congr 1
    refine Option.ext fun d => ?_
    rw [hlast, hnew]
    refine ⟨?_, fun hd => ⟨rel, hok, rfl, hd⟩⟩
    rintro ⟨rel', hok', htext, hd⟩
    exact text_injective hok' hok htext ▸ hd
  · rw [lookup_addFiles] at hk
    cases hl : found.reverse.lookup k with
    | some d =>
      obtain ⟨rel, hok, htext, -⟩ := (hnew k d).mp ((hlast k d).mp hl)
      exact ⟨rel, hok, htext⟩
    | none =>
      rw [hl, Option.none_or] at hk
      exact h.only k hk

theorem FilesOf.nil : FilesOf [] fun _ => none := ⟨nodup_nil, fun _ _ => rfl, fun _ h => absurd rfl h⟩

theorem exists_depth (fs : Fs Bytes Attr) (root : Loc) :
    ∃ bound, ∀ rel, fs.lookup (root ++ rel) ≠ none → rel.length ≤ bound := by
  refine ⟨(fs.nodes.map fun e => e.1.length).sum, fun rel hrel => ?_⟩
  obtain ⟨i, hi⟩ := Option.ne_none_iff_exists'.mp hrel
  obtain ⟨l1, l2, hsplit, -⟩ := lookup_eq_some_iff.mp hi
  have hmem : (root ++ rel).length ∈ fs.nodes.map fun e => e.1.length := by
    refine mem_map.mpr ⟨(root ++ rel, i), ?_, rfl⟩
    rw [hsplit]
    simp
  have := le_sum_of_mem hmem
  rw [length_append] at this
  omega

theorem walkRootfsForDiff_lookup {fs : Fs Bytes Attr} {root : Loc} (h : IsRootfs fs root)
    {cwd rootfs : Str} (hroot : fs.nodes.canonicalize cwd (components rootfs) = .ok root) :
    ∃ bound, ∀ fuel, bound ≤ fuel → ∃ files,
      walkRootfsForDiff F fs cwd rootfs fuel = some (.ok files) ∧
      FilesOf files fun rel => (leafAt fs root rel).map (leafDigest F) := by
  obtain ⟨U, hshows, hnames⟩ := h
  obtain ⟨bound, hbound⟩ := exists_depth fs root
  refine ⟨bound + 1, fun fuel hfuel => ⟨addFiles (foundIn F fs root fuel []) [], ?_, ?_⟩⟩
  · rw [walkRootfsForDiff, hroot]
    exact walkDirRecursive_eq hshows hbound (.inl rfl) (by simp; omega) []
  have hfound : ∀ k d, (k, d) ∈ foundIn F fs root fuel [] ↔ ∃ rel : Loc, rel.Ok ∧ rel.text = k ∧
      (leafAt fs root rel).map (leafDigest F) = some d := by
    intro k d
    rw [mem_foundIn hshows]
    constructor
    · rintro ⟨p, leaf, -, hne, -, hleaf, htext, hd⟩
      refine ⟨p, hnames p ?_, htext, by rw [hleaf, ← hd]; rfl⟩
      obtain ⟨i, hi, -⟩ := leafAt_eq_some_iff.mp hleaf
      rw [← hshows.shows p hne, hi]
      simp
    · rintro ⟨p, -, htext, hd⟩
      obtain ⟨leaf, hleaf, hd⟩ := Option.map_eq_some_iff.mp hd
      obtain ⟨i, hi, hno, -⟩ := leafAt_eq_some_iff.mp hleaf
      refine ⟨p, leaf, nil_prefix, ?_, ?_, hleaf, htext, hd⟩
      · -- The root itself is a directory.
        rintro rfl
        rw [append_nil] at hi
        have hdir := hshows.inPlace root (prefix_refl root)
        rw [Nodes.isDir, show fs.nodes.lookup root = some i from hi] at hdir
        cases i <;> simp_all
      · have := hbound p (by rw [hi]; simp)
        simp only [length_nil]
        omega
  simpa only [Option.or_none] using FilesOf.nil.addFiles hfound

/-! ## The walk of the image -/

def blobDigest (F : Formats) (data : Bytes) : Str :=
  match F.codec.toBytes (.blob data) with
  | .ok b => (F.codec.sha256 b).asHex
  | .error _ => []

theorem blobDigest_of_holds {s : MmapStore} {d : Digest}
    (h : s.Holds F.codec d (.blob data)) : d.asHex = blobDigest F data := by
  obtain ⟨b, hb, hsha, -⟩ := h
  rw [blobDigest, hb, ← hsha]

namespace Layer

/-- The file or link that the layer lists at the top, under the only name of the place. -/
def topLeaf (L : Layer) (rel : Loc) : Option Item :=
  L.entries.find? fun i => i.loc = rel ∧ rel.length = 1 ∧ i.kind.isDir = false

theorem topLeaf_eq_some_iff {L : Layer} {rel : Loc} {i : Item} : L.topLeaf rel = some i ↔
    i ∈ L.entries ∧ i.loc = rel ∧ rel.length = 1 ∧ i.kind.isDir = false := by
  constructor
  · intro h
    have hcond := find?_some h
    rw [decide_eq_true_eq] at hcond
    exact ⟨mem_of_find?_eq_some h, hcond⟩
  · rintro ⟨hi, hcond⟩
    refine find?_of_mem hi (decide_eq_true hcond) fun j hj hsame => ?_
    exact entries_inj hj hi ((of_decide_eq_true hsame).1.trans hcond.1.symm)

end Layer

/-- What the layers list at the top at a place: the contents that the topmost one has there. -/
def listedAt (layers : List Layer) (rel : Loc) : Option Bytes :=
  layers.foldl (fun below L => ((L.topLeaf rel).map L.contents).or below) none

section

variable {F : Formats} {s : MmapStore} {L : Layer} {pairs : List (Item × (Str × DirectoryEntry))}
  {layers : List Layer} {depth fuel : ℕ}

def foundInTree (entries : List DirectoryEntry) : FileDigests :=
  entries.flatMap fun e => if e.isDir then [] else [(e.name, e.digest.asHex)]

theorem walkTreeNode_eq (hc : F.codec.Lawful) (hj : F.json.Lawful) (hs : s.Sound F.codec)
    (hpairs : EntriesOf F L s pairs)
    {tree : Digest} (htree : IsTree F (s.Holds F.codec) (pairs.map snd) depth [] tree)
    (hfuel : 2 ≤ fuel) (files : FileDigests) :
    walkTreeNode F.json (s.view F.codec) fuel tree [] files =
      some (.ok (addFiles (foundInTree (entriesIn (pairs.map snd) [])) files)) := by
  obtain ⟨edges, inline, hinline, hnode, -⟩ := htree
  have hmem : ∀ e ∈ entriesIn (pairs.map snd) [], ∃ p ∈ pairs, p.2.2 = e := by
    intro e he
    obtain ⟨x, hx, rfl⟩ := mem_map.mp he
    obtain ⟨p, hp, rfl⟩ := mem_map.mp (mem_filter.mp hx).1
    exact ⟨p, hp, rfl⟩
  have hread : DirectoryEntry.fromInlineBytes F.json inline = entriesIn (pairs.map snd) [] := by
    refine DirectoryEntry.fromInlineBytes_inlineBytes hj (fun e he => ?_) hinline
    obtain ⟨p, hp, rfl⟩ := hmem e he
    exact (hpairs.entryOf p hp).wf
  obtain ⟨fuel, rfl⟩ : ∃ k, fuel = k + 1 + 1 := ⟨fuel - 2, by omega⟩
  rw [walkTreeNode, hnode.view_getArchived hc hs]
  simp only [ne_eq, not_true, if_false, hread]
  refine collectFiles_eq (fun e he files => ?_) files
  obtain ⟨p, hp, rfl⟩ := hmem e he
  have hentry := hpairs.entryOf p hp
  cases hdir : p.2.2.isDir with
  | false => rfl
  | true =>
    -- Under the digest of a directory's entry there is no tree.
    have hblob := hentry.dirBlob (hentry.isDir.symm.trans hdir)
    simp only [if_true, walkTreeNode, hblob.view_getArchived hc hs]
    rfl

theorem mem_foundInTree (hpairs : EntriesOf F L s pairs)
    {k d : Str} : (k, d) ∈ foundInTree (entriesIn (pairs.map snd) []) ↔
      ∃ rel : Loc, rel.Ok ∧ rel.text = k ∧
        ((L.topLeaf rel).map L.contents).map (blobDigest F) = some d := by
  have hitem : ∀ p ∈ pairs, p.1 ∈ L.entries ∧ p.1.Ok := by
    intro p hp
    have hmem : p.1 ∈ L.entries := hpairs.items ▸ mem_map_of_mem hp
    exact ⟨hmem, L.item_ok (Layer.mem_entries.mp hmem).1⟩
  unfold foundInTree
  rw [mem_flatMap]
  constructor
  · rintro ⟨e, he, hmem⟩
    obtain ⟨x, hx, rfl⟩ := mem_map.mp he
    obtain ⟨hx, htop⟩ := mem_filter.mp hx
    obtain ⟨p, hp, rfl⟩ := mem_map.mp hx
    have hentry := hpairs.entryOf p hp
    obtain ⟨hi, hok⟩ := hitem p hp
    rw [decide_eq_true_eq, hentry.parent, Loc.text_eq_nil_iff hok.parent_ok] at htop
    have hloc : p.1.loc = [p.1.name] := by rw [hok.loc_eq, htop]; rfl
    cases hdir : p.2.2.isDir with
    | true => simp [hdir] at hmem
    | false =>
      rw [hdir] at hmem
      cases mem_singleton.mp hmem
      have hkind : p.1.kind.isDir = false := hentry.isDir.symm.trans hdir
      refine ⟨p.1.loc, hok.names, by rw [hloc, hentry.name]; rfl, ?_⟩
      rw [Layer.topLeaf_eq_some_iff.mpr ⟨hi, rfl, by rw [hloc]; rfl, hkind⟩]
      exact congrArg some (blobDigest_of_holds (hentry.stored hkind)).symm
  · rintro ⟨rel, -, rfl, hd⟩
    rw [Option.map_map] at hd
    obtain ⟨i, hleaf, rfl⟩ := Option.map_eq_some_iff.mp hd
    obtain ⟨hi, rfl, hlen, hkind⟩ := Layer.topLeaf_eq_some_iff.mp hleaf
    obtain ⟨p, hp, rfl⟩ : ∃ p ∈ pairs, p.1 = i := by
      rw [← hpairs.items] at hi
      exact mem_map.mp hi
    have hentry := hpairs.entryOf p hp
    obtain ⟨hi, hok⟩ := hitem p hp
    have hparent : p.1.parent = [] := by
      rw [Item.parent, ← length_eq_zero_iff, length_dropLast, hlen]
    have hloc : p.1.loc = [p.1.name] := by rw [hok.loc_eq, hparent]; rfl
    have htop : p.2.1 = [] := by rw [hentry.parent, hparent]; rfl
    refine ⟨p.2.2, mem_map.mpr ⟨p.2, ?_, rfl⟩, ?_⟩
    · exact mem_filter.mpr ⟨mem_map_of_mem hp, by simpa using htop⟩
    · have hdir : p.2.2.isDir = false := hentry.isDir.trans hkind
      rw [hdir]
      refine mem_singleton.mpr ?_
      rw [hloc, hentry.name, Function.comp_apply, blobDigest_of_holds (hentry.stored hkind)]
      rfl

/-- **The layers, one after the other**: what a layer lists at the top is put over the map. -/
theorem walkLayers_lookup (hc : F.codec.Lawful) (hj : F.json.Lawful) (hs : s.Sound F.codec)
    (hfuel : 2 ≤ fuel) {ds : List Digest}
    (h : List.Forall₂ (fun d L => ConvertedLayer F s L depth d) ds layers) :
    ∀ {files : FileDigests} {below : Loc → Option Bytes},
      FilesOf files (fun rel => (below rel).map (blobDigest F)) →
      ∃ files', collectFiles (walkLayerEdge F.json (s.view F.codec) fuel) ds files =
          some (.ok files') ∧
        FilesOf files' fun rel => (layers.foldl (fun below L =>
          ((L.topLeaf rel).map L.contents).or below) (below rel)).map (blobDigest F) := by
  induction h with
  | nil => exact fun hfiles => ⟨_, rfl, hfiles⟩
  | @cons d L ds layers hd _ ih =>
    intro files below hfiles
    obtain ⟨pairs, tree, ws, hpairs, htree, -, hnode⟩ := hd
    have hwalk : walkLayerEdge F.json (s.view F.codec) fuel d files =
        some (.ok (addFiles (foundInTree (entriesIn (pairs.map snd) [])) files)) := by
      rw [walkLayerEdge, hnode.view_getArchived hc hs]
      exact walkTreeNode_eq hc hj hs hpairs htree hfuel files
    have hadd := hfiles.addFiles (fun k d => mem_foundInTree (k := k) (d := d) hpairs)
    simp only [← Option.map_or] at hadd
    rw [collectFiles, hwalk]
    exact ih hadd

/-- **The map of the image** has the digest of the blob node of what the layers list at the top. -/
theorem walkDagTree_lookup (hc : F.codec.Lawful) (hj : F.json.Lawful) (hs : s.Sound F.codec)
    (hfuel : 2 ≤ fuel) {manifest : Digest}
    (h : ConvertedImage F s layers depth manifest) :
    ∃ files, walkDagTree F.json (s.view F.codec) fuel manifest.asHex = some (.ok files) ∧
      FilesOf files fun rel => (listedAt layers rel).map (blobDigest F) := by
  obtain ⟨ds, inline, hds, hnode⟩ := h
  have hstart : FilesOf [] fun _ => (none : Option Bytes).map (blobDigest F) := FilesOf.nil
  obtain ⟨files, hfiles, hof⟩ := walkLayers_lookup hc hj hs hfuel hds hstart
  refine ⟨files, ?_, hof⟩
  rw [walkDagTree, Digest.fromHex_asHex]
  simp only [hnode.view_getArchived hc hs, ne_eq, not_true, if_false]
  exact hfiles

end

/-! ## The report -/

theorem forall_text_iff {A B : Loc → Prop} :
    (∀ p, (∃ rel : Loc, rel.Ok ∧ rel.text = p ∧ A rel) ↔
      ∃ rel : Loc, rel.Ok ∧ rel.text = p ∧ B rel) ↔
    ∀ rel : Loc, rel.Ok → (A rel ↔ B rel) := by
  constructor
  · intro h rel hok
    constructor
    · intro ha
      obtain ⟨rel', hok', htext, hb⟩ := (h rel.text).mp ⟨rel, hok, rfl, ha⟩
      exact text_injective hok' hok htext ▸ hb
    · intro hb
      obtain ⟨rel', hok', htext, ha⟩ := (h rel.text).mpr ⟨rel, hok, rfl, hb⟩
      exact text_injective hok' hok htext ▸ ha
  · intro h p
    exact exists_congr fun rel => and_congr_right fun hok => and_congr_right fun _ => h rel hok

section

variable {containerFiles originalFiles : FileDigests} {g g' : Loc → Option Str}

theorem FilesOf.mem_pathsWhere (h : FilesOf files g) {cond : Str × Str → Bool} {p : Str} :
    p ∈ pathsWhere files cond ↔
      ∃ rel : Loc, rel.Ok ∧ rel.text = p ∧ ∃ d, g rel = some d ∧ cond (p, d) = true := by
  have hmem : ∀ {q d}, files.lookup q = some d ↔ (q, d) ∈ files :=
    lookup_eq_some_iff_mem fun d d' hd hd' => congrArg snd (inj_on_of_nodup_map h.nodup hd hd' rfl)
  unfold pathsWhere
  rw [(perm_insertionSort _ _).mem_iff, mem_map]
  constructor
  · rintro ⟨⟨q, d⟩, hq, rfl⟩
    obtain ⟨hq, hcond⟩ := mem_filter.mp hq
    have hd := hmem.mpr hq
    obtain ⟨rel, hok, rfl⟩ := h.only q (by rw [hd]; simp)
    exact ⟨rel, hok, rfl, d, (h.lookup rel hok).symm.trans hd, hcond⟩
  · rintro ⟨rel, hok, rfl, d, hd, hcond⟩
    exact ⟨(rel.text, d), mem_filter.mpr ⟨hmem.mp ((h.lookup rel hok).trans hd), hcond⟩, rfl⟩

theorem mem_added (h : FilesOf containerFiles g) (h' : FilesOf originalFiles g') (p : Str) :
    p ∈ (compareFiles containerFiles originalFiles).added ↔
      ∃ rel : Loc, rel.Ok ∧ rel.text = p ∧ g rel ≠ none ∧ g' rel = none := by
  refine h.mem_pathsWhere.trans (exists_congr fun rel => and_congr_right fun hok =>
    and_congr_right fun htext => ?_)
  subst htext
  simp only [h'.lookup rel hok]
  cases g rel <;> simp

theorem mem_modified (h : FilesOf containerFiles g) (h' : FilesOf originalFiles g') (p : Str) :
    p ∈ (compareFiles containerFiles originalFiles).modified ↔
      ∃ rel : Loc, rel.Ok ∧ rel.text = p ∧ ∃ d d', g rel = some d ∧ g' rel = some d' ∧ d' ≠ d := by
  refine h.mem_pathsWhere.trans (exists_congr fun rel => and_congr_right fun hok =>
    and_congr_right fun htext => ?_)
  subst htext
  simp only [h'.lookup rel hok]
  cases g' rel <;> simp

end

/-- No other bytes have the digest of a serialized node. -/
def Codec.NoOtherPreimage (c : Codec) : Prop :=
  ∀ n b data, c.toBytes n = .ok b → c.sha256 data = c.sha256 b → data = b

theorem blobDigest_eq_leafDigest_iff (hhash : F.codec.NoOtherPreimage)
    {leaf : Inode Bytes Unit} : blobDigest F data = leafDigest F leaf ↔
      F.codec.toBytes (.blob data) = .ok (leafBytes F.text leaf) := by
  unfold blobDigest leafDigest
  cases hb : F.codec.toBytes (.blob data) with
  | error e =>
    refine ⟨fun h => ?_, fun h => by cases h⟩
    have hparse := Digest.fromHex_asHex (F.codec.sha256 (leafBytes F.text leaf))
    rw [← h] at hparse
    cases hparse
  | ok b =>
    simp only [Except.ok.injEq]
    constructor
    · intro h
      exact (hhash _ b _ hb (Digest.asHex_injective h).symm).symm
    · rintro rfl
      rfl

/-- The report has exactly the paths of the files and links that were created, changed and removed. -/
structure ReportsChanges (before after : Loc → Option (Inode Bytes Unit)) (r : DiffResponse) : Prop where
  added : ∀ p, p ∈ r.added ↔
    ∃ rel : Loc, rel.Ok ∧ rel.text = p ∧ before rel = none ∧ after rel ≠ none
  modified : ∀ p, p ∈ r.modified ↔
    ∃ rel : Loc, rel.Ok ∧ rel.text = p ∧ ∃ i j, before rel = some i ∧ after rel = some j ∧ j ≠ i
  deleted : ∀ p, p ∈ r.deleted ↔
    ∃ rel : Loc, rel.Ok ∧ rel.text = p ∧ before rel ≠ none ∧ after rel = none

structure Comparable (F : Formats) (layers : List Layer)
    (before after : Loc → Option (Inode Bytes Unit)) : Prop where
  /-- The files and links are those that the layers list at the top. -/
  listed : ∀ rel : Loc, rel.Ok → (before rel = none ↔ listedAt layers rel = none)
  /-- Of these, one that is still there has the archive of its blob node for its contents exactly if it
      is unchanged. -/
  archived : ∀ rel : Loc, rel.Ok → ∀ data i j, listedAt layers rel = some data →
    before rel = some i → after rel = some j →
      (j = i ↔ F.codec.toBytes (.blob data) = .ok (leafBytes F.text j))

theorem reportsChanges_iff (hhash : F.codec.NoOtherPreimage) {layers : List Layer}
    {before after : Loc → Option (Inode Bytes Unit)} {containerFiles originalFiles : FileDigests}
    (h : FilesOf containerFiles fun rel => (after rel).map (leafDigest F))
    (h' : FilesOf originalFiles fun rel => (listedAt layers rel).map (blobDigest F)) :
    ReportsChanges before after (compareFiles containerFiles originalFiles) ↔
      Comparable F layers before after := by
  -- Place by place.
  have hadded := forall_congr' fun p => iff_congr (mem_added h h' p) (Iff.refl
    (∃ rel : Loc, rel.Ok ∧ rel.text = p ∧ before rel = none ∧ after rel ≠ none))
  have hmodified := forall_congr' fun p => iff_congr (mem_modified h h' p) (Iff.refl
    (∃ rel : Loc, rel.Ok ∧ rel.text = p ∧ ∃ i j, before rel = some i ∧ after rel = some j ∧ j ≠ i))
  -- What is deleted is what the comparison the other way round would call added.
  have hdeleted := forall_congr' fun p => iff_congr (mem_added h' h p) (Iff.refl
    (∃ rel : Loc, rel.Ok ∧ rel.text = p ∧ before rel ≠ none ∧ after rel = none))
  rw [forall_text_iff] at hadded hmodified hdeleted
  simp only [ne_eq, Option.map_eq_none_iff] at hadded hdeleted
  constructor
  · intro hr
    have ha := hadded.mp hr.added
    have hm := hmodified.mp hr.modified
    have hd := hdeleted.mp hr.deleted
    have hlisted : ∀ rel : Loc, rel.Ok → (before rel = none ↔ listedAt layers rel = none) := by
      intro rel hok
      by_cases hafter : after rel = none
      · have := hd rel hok
        simp only [hafter, and_true] at this
        exact not_iff_not.mp this.symm
      · have := ha rel hok
        simp only [hafter, not_false_eq_true, true_and, and_true] at this
        exact this.symm
    refine ⟨hlisted, fun rel hok data i j hdata hi hj => ?_⟩
    have := hm rel hok
    simp only [hdata, hi, hj, Option.map_some, Option.some.injEq, exists_and_left, exists_eq_left',
      ne_eq] at this
    rw [← blobDigest_eq_leafDigest_iff hhash]
    exact not_iff_not.mp this.symm
  · intro hcmp
    refine ⟨hadded.mpr fun rel hok => ?_, hmodified.mpr fun rel hok => ?_,
      hdeleted.mpr fun rel hok => ?_⟩
    · rw [hcmp.listed rel hok, and_comm]
    · cases hdata : listedAt layers rel with
      | none => simp [(hcmp.listed rel hok).mpr hdata]
      | some data =>
        cases hi : before rel with
        | none => rw [(hcmp.listed rel hok).mp hi] at hdata; cases hdata
        | some i =>
          cases hj : after rel with
          | none => simp
          | some j =>
            simp only [Option.map_some, Option.some.injEq, exists_and_left, exists_eq_left', ne_eq,
              blobDigest_eq_leafDigest_iff hhash, hcmp.archived rel hok data i j hdata hi hj]
    · rw [hcmp.listed rel hok]

/-- **When the report is right**: exactly if the files and links that there were are those that the layers
list at the top, and each of them that is still there is the archive of its blob node exactly if it is
unchanged. `fs₀` is the tree that the changes are counted from, such as the one the image was materialized to;
the report does not look at it. -/
theorem diffWorkload_exact_iff {F : Formats} (hc : F.codec.Lawful) (hj : F.json.Lawful)
    (hhash : F.codec.NoOtherPreimage) {image : PulledImage} {layers : List Layer}
    (himage : image.layers = layers.map Layer.archive) {seeds : ImageSeeds} {fuel : ℕ}
    {s s' : MmapStore} (hs : s.Sound F.codec) {manifest : Digest}
    (hconvert : convert F seeds fuel image s = some (.ok manifest, s')) {root : Loc}
    {fs₀ fs₁ : Fs Bytes Attr} (hrootfs : IsRootfs fs₁ root) {env : CopyEnv SavedSpec} {id rootfs : Str}
    (henv : env.diffTarget id = .ok (rootfs, manifest.asHex))
    (hroot : fs₁.nodes.canonicalize env.cwd (components rootfs) = .ok root) :
    ∃ bound, ∀ fuel'', bound ≤ fuel'' → ∃ r,
      env.diffWorkload F (s'.view F.codec) fs₁ fuel'' id = some (.ok r) ∧
      (ReportsChanges (leafAt fs₀ root) (leafAt fs₁ root) r ↔
        Comparable F (layers.map Layer.severed) (leafAt fs₀ root) (leafAt fs₁ root)) := by
  obtain ⟨hs', -, hconverted⟩ := convert_image hc himage hs hconvert
  obtain ⟨bound, hwalk⟩ := walkRootfsForDiff_lookup (F := F) hrootfs hroot
  refine ⟨max bound 2, fun fuel'' hfuel => ?_⟩
  obtain ⟨containerFiles, hcontainer, hof⟩ := hwalk fuel'' (le_of_max_le_left hfuel)
  obtain ⟨originalFiles, horiginal, hof'⟩ :=
    walkDagTree_lookup hc hj hs' (le_of_max_le_right hfuel) hconverted
  refine ⟨compareFiles containerFiles originalFiles, ?_, reportsChanges_iff hhash hof hof'⟩
  rw [CopyEnv.diffWorkload, henv]
  simp only [hcontainer, horiginal]

/-! ## A file -/

theorem Codec.ofTable_noOtherPreimage {rows : List (DagNode × Digest)}
    (harchive : (rows.map fun row => archive row.1).Nodup) (hdigest : (rows.map snd).Nodup)
    (hzero : ∀ row ∈ rows, row.2 ≠ Digest.ofNat 0) : (ofTable rows).NoOtherPreimage := by
  intro n b data hb hsha
  obtain ⟨row, hmem, rfl, -, hrow⟩ := ofTable_row harchive hb
  have hbytes : b = archive row.1 := by
    unfold ofTable at hb
    simp only at hb
    split at hb
    · exact (Except.ok.inj hb).symm
    · cases hb
  rw [hrow] at hsha
  simp only [ofTable, ofRows] at hsha
  cases hf : rows.find? fun r => archive r.1 == data with
  | none =>
    rw [hf] at hsha
    exact absurd hsha.symm (hzero row hmem)
  | some r =>
    rw [hf] at hsha
    have hr : archive r.1 = data := by simpa using find?_some hf
    rw [← hr, hbytes, inj_on_of_nodup_map hdigest (mem_of_find?_eq_some hf) hmem hsha]

namespace Sample

theorem formats_noOtherPreimage : formats.codec.NoOtherPreimage :=
  Codec.ofTable_noOtherPreimage (by decide +kernel) (by decide +kernel) (by decide +kernel)

def savedSpec (imageRoot : Str) : SavedSpec where
  imageRoot := imageRoot
  command := []
  env := ∅
  cpuMillicores := none
  memoryBytes := none
  networkRules := []
  kernelImageRef := []
  bridgeName := none
  mounts := []
  healthCheck := none
  networkMode := "isolated".toList
  privileged := false
  readonlyRootfs := false
  noNewPrivileges := false
  seccompProfile := none
  allowedSyscalls := []
  dns := {}

/-- A daemon with one VM, whose root filesystem is `/r`. -/
def diffEnv : CopyEnv SavedSpec where
  cwd := "/".toList
  workloads := WorkloadTable.set ∅ "w".toList
    (.launched (savedSpec oneFileD.asHex) .no ⟨.vm, 7, none⟩ 0)
  rootfsCache := Finmap.singleton "w".toList "/r".toList
  bundleRoot := "/b".toList

def fresh (s : MmapStore) : Option (OciMaterializer.Outcome Bytes) :=
  OciMaterializer.materializeInto formats.json formats.text (s.view formats.codec) 10 oneFileD [['r']]
    host

def withF (data : Bytes) : Nodes Bytes Attr :=
  ([['r'], ['f']], .file data { mode := 0o644 }) :: host.nodes

theorem oneFile_untouched : ∃ s' fs0,
    convert formats {} 4 oneFile noStore = some (.ok oneFileD, s') ∧ fresh s' = some (.ok (), fs0) ∧
      fs0.nodes = withF leaf.inlineData ∧
      diffEnv.diffWorkload formats (s'.view formats.codec) fs0 10 "w".toList =
        some (.ok ⟨[], [], [['f']]⟩) := by
  have hconvert : (convert formats {} 4 oneFile noStore).map fst = some (.ok oneFileD) := by
    decide +kernel
  have hfresh : ((convert formats {} 4 oneFile noStore).bind fun r => (fresh r.2).map fst) =
      some (.ok ()) := by decide +kernel
  have hnodes : ((convert formats {} 4 oneFile noStore).bind fun r =>
      (fresh r.2).map fun m => m.2.nodes) = some (withF leaf.inlineData) := by decide +kernel
  have hrun : ((convert formats {} 4 oneFile noStore).bind fun r => (fresh r.2).bind fun m =>
      diffEnv.diffWorkload formats (r.2.view formats.codec) m.2 10 "w".toList) =
        some (.ok ⟨[], [], [['f']]⟩) := by decide +kernel
  obtain ⟨⟨r, s'⟩, h, rfl⟩ := Option.map_eq_some_iff.mp hconvert
  rw [h, Option.bind_some] at hfresh hnodes hrun
  obtain ⟨⟨m, fs0⟩, hfs0, rfl⟩ := Option.map_eq_some_iff.mp hfresh
  rw [hfs0] at hnodes hrun
  exact ⟨s', fs0, h, hfs0, Option.some.inj hnodes, hrun⟩

end Sample

theorem untouched_reported_modified :
    Sample.oneFile.layers = [Sample.fLayer].map Layer.archive ∧
    ∃ s' fs₀, convert Sample.formats {} 4 Sample.oneFile Sample.noStore =
        some (.ok Sample.oneFileD, s') ∧
      Sample.fresh s' = some (.ok (), fs₀) ∧
      Sample.diffEnv.diffWorkload Sample.formats (s'.view Sample.formats.codec) fs₀ 10 "w".toList =
        some (.ok ⟨[], [], [['f']]⟩) ∧
      ¬ ReportsChanges (leafAt fs₀ [['r']]) (leafAt fs₀ [['r']]) ⟨[], [], [['f']]⟩ := by
  obtain ⟨s', fs₀, h, hfs₀, -, hrun⟩ := oneFile_untouched
  refine ⟨rfl, s', fs₀, h, hfs₀, hrun, fun hreport => ?_⟩
  obtain ⟨rel, -, -, i, j, hi, hj, hne⟩ := (hreport.modified ['f']).mp (by simp)
  exact hne (Option.some.inj (hj.symm.trans hi))

namespace Sample

theorem lookup_withF (data : Bytes) (rel : Loc) : List.lookup ([['r']] ++ rel) (withF data) =
    if rel = [['f']] then some (.file data { mode := 0o644 })
    else if rel = [] then some (.dir default) else none := by
  rw [withF, lookup_cons]
  by_cases hrel : rel = [['f']]
  · rw [hrel]
    rfl
  · by_cases hnil : rel = []
    · rw [hnil]
      rfl
    · have hne : ([['r']] ++ rel == [['r'], ['f']]) = false := by simpa using hrel
      rw [hne, if_neg hrel, if_neg hnil]
      exact host_empty rel hnil

variable {fs : Fs Bytes Attr} {data : Bytes}

theorem leafAt_withF (h : fs.nodes = withF data) (rel : Loc) :
    leafAt fs [['r']] rel = if rel = [['f']] then some (.file data ()) else none := by
  unfold leafAt Fs.lookup
  rw [h, lookup_withF]
  by_cases hrel : rel = [['f']]
  · simp [hrel, Inode.shape]
  · by_cases hnil : rel = [] <;> simp [hrel, hnil]

theorem isRootfs_withF (h : fs.nodes = withF data) : IsRootfs fs [['r']] := by
  have honly : ∀ rel : Loc, (if rel = [['f']] then some (Inode.file data ()) else none) ≠ none →
      rel = [['f']] := fun rel hrel => by_contra fun hno => hrel (if_neg hno)
  refine ⟨fun rel => if rel = [['f']] then some (.file data ()) else none, ⟨?_, ?_, ?_⟩, ?_⟩
  · intro q hq
    rw [h]
    rcases prefix_concat_iff.mp (show q <+: [] ++ [['r']] from hq) with rfl | hq
    · rfl
    · rw [prefix_nil.mp hq]
      rfl
  · intro rel hrel q hq hne
    rw [honly rel hrel] at hq hne
    rcases prefix_concat_iff.mp (show q <+: [] ++ [['f']] from hq) with hqf | hq
    · exact absurd hqf hne
    · exact .inl (prefix_nil.mp hq)
  · intro rel hne
    unfold Fs.lookup
    rw [h, lookup_withF, if_neg hne]
    by_cases hrel : rel = [['f']] <;> simp [hrel, Inode.shape]
  · intro rel hrel
    rw [honly rel hrel]
    decide

theorem listedAt_oneFile (rel : Loc) : listedAt ([fLayer].map Layer.severed) rel =
    if rel = [['f']] then some leaf.inlineData else none := by
  have hentries : fLayer.severed.entries = [{ loc := [['f']], kind := .file leaf.inlineData }] := by
    decide +kernel
  by_cases hrel : rel = [['f']]
  · simp [listedAt, Layer.topLeaf, hentries, hrel, Layer.contents, ItemKind.isDir, Item.data]
  · simp [listedAt, Layer.topLeaf, hentries, hrel, Ne.symm hrel]

end Sample

theorem diffWorkload_exact_overwritten :
    ∃ s' fs₀ fs₁, convert Sample.formats {} 4 Sample.oneFile Sample.noStore =
        some (.ok Sample.oneFileD, s') ∧
      Sample.fresh s' = some (.ok (), fs₀) ∧ fs₀.write [1] (Loc.path [['r'], ['f']]) = .ok fs₁ ∧
      ∃ bound, ∀ fuel, bound ≤ fuel → ∃ r,
        Sample.diffEnv.diffWorkload Sample.formats (s'.view Sample.formats.codec) fs₁ fuel
          "w".toList = some (.ok r) ∧
        ReportsChanges (leafAt fs₀ [['r']]) (leafAt fs₁ [['r']]) r := by
  obtain ⟨s', fs₀, h, hfs₀, hnodes, -⟩ := oneFile_untouched
  obtain ⟨fs₁, hwrite, hnodes₁⟩ : ∃ fs₁, fs₀.write [1] (Loc.path [['r'], ['f']]) = .ok fs₁ ∧
      fs₁.nodes = withF [1] := by
    obtain ⟨nodes, log⟩ := fs₀
    simp only at hnodes
    subst hnodes
    have hset : (withF leaf.inlineData).set [['r'], ['f']]
        (.file [1] { mode := 0o644 }) = withF [1] := by decide +kernel
    exact ⟨_, rfl, hset⟩
  have himage : oneFile.layers = [fLayer].map Layer.archive := rfl
  have henv : diffEnv.diffTarget "w".toList = .ok ("/r".toList, oneFileD.asHex) := by
    decide +kernel
  have hroot : fs₁.nodes.canonicalize diffEnv.cwd (components "/r".toList) = .ok [['r']] := by
    rw [hnodes₁]
    decide +kernel
  refine ⟨s', fs₀, fs₁, h, hfs₀, hwrite, ?_⟩
  obtain ⟨bound, hdiff⟩ := diffWorkload_exact_iff formats_codec formats_json
    formats_noOtherPreimage himage
    noStore_sound h (isRootfs_withF hnodes₁) henv hroot
  refine ⟨bound, fun fuel hfuel => ?_⟩
  obtain ⟨r, hr, hiff⟩ := hdiff fuel hfuel
  refine ⟨r, hr, hiff.mpr ⟨fun rel _ => ?_, fun rel _ data i j hdata hi hj => ?_⟩⟩
  · rw [leafAt_withF hnodes, listedAt_oneFile]
    by_cases hrel : rel = [['f']] <;> simp [hrel]
  · rw [listedAt_oneFile] at hdata
    rw [leafAt_withF hnodes] at hi
    rw [leafAt_withF hnodes₁] at hj
    by_cases hrel : rel = [['f']]
    · rw [if_pos hrel] at hdata hi hj
      cases hdata
      cases hi
      cases hj
      decide +kernel
    · rw [if_neg hrel] at hdata
      cases hdata

end Pullrun
