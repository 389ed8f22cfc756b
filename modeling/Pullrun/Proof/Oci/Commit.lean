import Pullrun.Oci.Sample

/-!
# What becomes of a committed directory

`build_tree` writes a line of JSON for each child, and `from_inline_bytes` reads it — as a
`SerializedEntry`, which has a `uid`, a `gid` and an `mtime` that the line has not.
-/

namespace Pullrun

open FileTree OciMaterializer DirectoryEntry List Sample MmapStore

/-! ## Lines that do not read -/

theorem ofValue_entryLine (child : DirEntry) (d : Digest) : ofValue (entryLine child d) = none := by
  simp [entryLine, ofValue, ofFields, Value.required, Value.field,
    fName, fDigest, fMode, fSize,
    fUid, fIsDir, fIsSymlink]

theorem ofLine_toVecOrDefault {j : SerdeJson} (hj : j.Lawful) {v : Value} (hv : ofValue v = none) :
    (10 : UInt8) ∉ j.toVecOrDefault v ∧ ofLine j (j.toVecOrDefault v) = none := by
  unfold SerdeJson.toVecOrDefault
  cases h : j.toVec v with
  | error why => exact ⟨by simp, by rw [ofLine, if_pos rfl]⟩
  | ok b =>
    refine ⟨hj.noNewline _ _ h, ?_⟩
    rw [ofLine, if_neg (hj.nonempty _ _ h), hj.reads _ _ h]
    exact hv

theorem fromInlineBytes_entryLines {j : SerdeJson} (hj : j.Lawful) {lines : List Value}
    (hlines : ∀ v ∈ lines, ofValue v = none) :
    fromInlineBytes j (entryLines j lines) = [] := by
  induction lines with
  | nil => exact fromInlineBytes_nil j
  | cons v lines ih =>
    obtain ⟨hno, hread⟩ := ofLine_toVecOrDefault hj (hlines v mem_cons_self)
    have hcons : entryLines j (v :: lines) = j.toVecOrDefault v ++ 10 :: entryLines j lines := by
      simp [entryLines]
    rw [hcons, fromInlineBytes_line j hno, hread,
      ih fun w hw => hlines w (mem_cons_of_mem _ hw)]
    rfl

/-! ## Inert nodes -/

/-- Nothing is created for `d`: there is no node under it, or a file's contents, or a tree without
    readable entries over such digests. -/
inductive Inert (F : Formats) (s : MmapStore) : Digest → Prop
  | zero : Inert F s zeroDigest
  | blob {d : Digest} {data : Bytes} : s.Holds F.codec d (.blob data) → Inert F s d
  | tree {d : Digest} {edges : List Digest} {inline : Bytes} :
      s.Holds F.codec d ⟨.tree, edges, inline⟩ →
      DirectoryEntry.fromInlineBytes F.json inline = [] →
      (∀ e ∈ edges, Inert F s e) → Inert F s d

variable {s : MmapStore} {F : Formats} {d : Digest}

theorem Inert.mono {s' : MmapStore} (h : Inert F s d) (hg : s.Grown s') : Inert F s' d := by
  induction h with
  | zero => exact .zero
  | blob hd => exact .blob (hd.mono hg)
  | tree hd hin _ ih => exact .tree (hd.mono hg) hin ih

theorem view_getArchived_none {c : Codec} (hs : s.Sound c)
    (h : s.disk.nodes.lookup d = none) : (s.view c).getArchived d = .error (.notFound d) := by
  change (s.getArchived c d).1 = _
  rw [(getArchived_coherent c hs.coherent d).2.2, h]

theorem Inert.materializeTree (hc : F.codec.Lawful) (hs : s.Sound F.codec) {root : Loc} {fuel : ℕ}
    {d : Digest} {base : Str} {fs : Fs Bytes Attr} {r fs'} (hd : Inert F s d)
    (h : materializeTree F.json F.text (s.view F.codec) root fuel d base fs = some (r, fs')) :
    fs' = fs := by
  induction fuel generalizing d base fs r fs' with
  | zero => cases h
  | succ fuel ih =>
    rw [OciMaterializer.materializeTree] at h
    cases hd with
    | zero =>
      rw [view_getArchived_none hs (hs.zero hc)] at h
      cases h
      rfl
    | blob hd =>
      rw [hd.view_getArchived hc hs] at h
      cases h
      rfl
    | tree hd hin hedges =>
      rw [hd.view_getArchived hc hs] at h
      simp only [hin, forEach] at h
      refine forEach_rel (R := fun fs fs' => fs' = fs) (fun _ => rfl) (fun h h' => h'.trans h) (fun child hchild fs r fs' hb => ?_) h
      split at hb
      · exact ih (hedges child hchild) hb
      · cases hb
        rfl

theorem Inert.whiteoutEdges (hc : F.codec.Lawful) (hs : s.Sound F.codec)
    (h : Inert F s d) : whiteoutEdges (s.view F.codec) [d] = [] := by
  unfold OciMaterializer.whiteoutEdges
  rw [filterMap_cons, filterMap_nil]
  cases h with
  | zero => rw [view_getArchived_none hs (hs.zero hc)]
  | blob hd => rw [hd.view_getArchived hc hs]; rfl
  | tree hd _ _ => rw [hd.view_getArchived hc hs]

/-! ## What a commit stores -/

/-- The files of an entry are stored, or are empty. -/
inductive DirEntry.Stored (F : Formats) (s : MmapStore) : DirEntry → Prop
  | mk {name : Str} {isDir : Bool} {fileDigest : Digest} {mode : UInt32} {size : UInt64}
      {children : List DirEntry} :
      (fileDigest = zeroDigest ∨ ∃ data, s.Holds F.codec fileDigest (.blob data)) →
      (∀ e ∈ children, e.Stored F s) → Stored F s ⟨name, isDir, fileDigest, mode, size, children⟩

section

variable {F : Formats}

variable {s s' : MmapStore} {dir root : Loc} {p : Digested} {src fs : Fs Bytes Attr} {tree manifest : Digest}
  {fuel : ℕ} {out : DagDirectory} {e : DirEntry}

theorem buildChildren_inert {es : List DirEntry}
    (hbuild : ∀ e ∈ es, ∀ {b b' : Build} {d : Digest}, s.Grown b.store → b.store.Sound F.codec →
      buildTree F e b = (.ok d, b') →
      b'.store.Sound F.codec ∧ b.store.Grown b'.store ∧ Inert F b'.store d)
    {b b' : Build} {built} (hg : s.Grown b.store) (hb : b.store.Sound F.codec)
    (h : buildChildren F es b = (.ok built, b')) :
    b'.store.Sound F.codec ∧ b.store.Grown b'.store ∧
      ∀ c ∈ built, Inert F b'.store c.1 ∧ ofValue c.2 = none := by
  induction es generalizing b b' built with
  | nil =>
    rw [buildChildren] at h
    cases h
    exact ⟨hb, .refl _, by simp⟩
  | cons e es ih =>
    rw [buildChildren] at h
    split at h
    · cases h
    rename_i d b1 he
    split at h <;> cases h
    obtain ⟨hs1, hg1, hd⟩ := hbuild e mem_cons_self hg hb he
    obtain ⟨hs2, hg2, hall⟩ := ih (fun e' he' => hbuild e' (mem_cons_of_mem _ he'))
      (hg.trans hg1) hs1 ‹_›
    refine ⟨hs2, hg1.trans hg2, fun c hmem => ?_⟩
    rcases mem_cons.mp hmem with rfl | hmem
    · exact ⟨hd.mono hg2, ofValue_entryLine e d⟩
    · exact hall c hmem

/-- **`build_tree` stores inert nodes.** -/
theorem buildTree_inert (hc : F.codec.Lawful) (hj : F.json.Lawful)
    (he : e.Stored F s) {b b' : Build} {d : Digest} (hg : s.Grown b.store)
    (hb : b.store.Sound F.codec) (h : buildTree F e b = (.ok d, b')) :
    b'.store.Sound F.codec ∧ b.store.Grown b'.store ∧ Inert F b'.store d := by
  induction he generalizing b b' d with
  | @mk name isDir fileDigest mode size children hd _ ih =>
    have hfile : Inert F b.store fileDigest := by
      rcases hd with rfl | ⟨data, hdata⟩
      · exact .zero
      · exact .blob (hdata.mono hg)
    rw [buildTree] at h
    split at h
    · split at h
      · cases h
      · rename_i built b1 hbuilt
        obtain ⟨hs1, hg1, hall⟩ := buildChildren_inert ih hg hb hbuilt
        split at h <;> cases h
        obtain ⟨hs2, hg2, hheld, -⟩ := putBlocking_spec hc hs1 ‹_›
        refine ⟨hs2, hg1.trans hg2, .tree hheld (fromInlineBytes_entryLines hj ?_) ?_⟩
        · intro v hv
          obtain ⟨c, hmem, rfl⟩ := mem_map.mp hv
          exact (hall c hmem).2
        · intro q hq
          obtain ⟨c, hmem, rfl⟩ := mem_map.mp hq
          exact (hall c hmem).1.mono hg2
    · split at h <;> cases h <;> exact ⟨hb, .refl _, hfile⟩

/-! ### The two walks before it -/

structure Digested.Held (F : Formats) (p : Digested) : Prop where
  sound : p.store.Sound F.codec
  files : ∀ r ∈ p.fileResults, ∃ data, p.store.Holds F.codec r.2.1 (.blob data)
  symlinks : ∀ r ∈ p.symlinkResults, ∃ data, p.store.Holds F.codec r.2.1 (.blob data)

theorem heldAll_mono {rs : Results} (hg : s.Grown s')
    (h : ∀ r ∈ rs, ∃ data, s.Holds F.codec r.2.1 (.blob data)) :
    ∀ r ∈ rs, ∃ data, s'.Holds F.codec r.2.1 (.blob data) := by
  intro r hr
  obtain ⟨data, hdata⟩ := h r hr
  exact ⟨data, hdata.mono hg⟩

theorem putBlocking_error {c : Codec} {n : DagNode} {e : StoreError}
    (h : s.putBlocking c n = (.error e, s')) : s' = s := by
  unfold putBlocking at h
  split at h
  · cases h; rfl
  · simp only at h
    split at h <;> cases h

theorem digestEntry_held (hc : F.codec.Lawful) {src : Nodes Bytes Attr} {rel : Loc}
    (hp : p.Held F) : (digestEntry F src dir p rel).Held F := by
  unfold digestEntry
  split
  · rename_i target _
    rcases hput : p.store.putBlocking F.codec (.blob (F.text.utf8 target)) with ⟨_ | d, s⟩
    · rw [putBlocking_error hput]
      exact hp
    · obtain ⟨hs, hg, hd, -⟩ := putBlocking_spec hc hp.sound hput
      refine ⟨hs, heldAll_mono hg hp.files, fun r hr => ?_⟩
      rcases mem_cons.mp hr with rfl | hr
      · exact ⟨_, hd⟩
      · exact heldAll_mono hg hp.symlinks r hr
  · rename_i data _ _
    split
    · exact hp
    · simp only
      rcases hput : p.store.putBlocking F.codec (.blob data) with ⟨_ | d, s⟩
      · rw [putBlocking_error hput]
        exact hp
      · obtain ⟨hs, hg, hd, -⟩ := putBlocking_spec hc hp.sound hput
        -- A large file gets its blob file as well.
        have hblob : ∀ big : Prop, [Decidable big] →
            (if big then s.putBlobBlocking d data else s).Sound F.codec ∧
              s.Grown (if big then s.putBlobBlocking d data else s) := by
          intro big _
          split
          · exact putBlobBlocking_spec hs hd
          · exact ⟨hs, .refl s⟩
        obtain ⟨hs', hg'⟩ := hblob (UInt64.ofNat data.length > smallFileThreshold)
        refine ⟨hs', fun r hr => ?_, heldAll_mono (hg.trans hg') hp.symlinks⟩
        rcases mem_cons.mp hr with rfl | hr
        · exact ⟨_, hd.mono hg'⟩
        · exact heldAll_mono (hg.trans hg') hp.files r hr
  · exact hp

theorem digestEntries_held (hc : F.codec.Lawful) {src : Nodes Bytes Attr} (rels : List Loc)
    (hp : p.Held F) : (rels.foldl (digestEntry F src dir) p).Held F := by
  induction rels generalizing p with
  | nil => exact hp
  | cons rel rels ih => exact ih (digestEntry_held hc hp)

theorem mem_readAll {α β : Type} {f : α → Option β} {as : List α} {bs : List β}
    (h : Value.readAll f as = some bs) : ∀ b ∈ bs, ∃ a ∈ as, f a = some b := by
  induction as generalizing bs with
  | nil => cases h; simp
  | cons a as ih =>
    rw [Value.readAll] at h
    split at h
    · rename_i b rest hb hrest
      cases h
      intro b' hb'
      rcases mem_cons.mp hb' with rfl | hb'
      · exact ⟨a, mem_cons_self, hb⟩
      · obtain ⟨a', ha', hfa⟩ := ih hrest b' hb'
        exact ⟨a', mem_cons_of_mem _ ha', hfa⟩
    · cases h

theorem entryDigest_stored (hp : p.Held F) (isDir isSymlink : Bool) (rel : Loc) :
    (entryDigest p isDir isSymlink rel).1 = zeroDigest ∨
      ∃ data, p.store.Holds F.codec (entryDigest p isDir isSymlink rel).1 (.blob data) := by
  have hget : ∀ rs : Results, (∀ r ∈ rs, ∃ data, p.store.Holds F.codec r.2.1 (.blob data)) →
      ((rs.lookup rel).getD (zeroDigest, 0)).1 = zeroDigest ∨
        ∃ data, p.store.Holds F.codec ((rs.lookup rel).getD (zeroDigest, 0)).1 (.blob data) := by
    intro rs hrs
    cases hl : rs.lookup rel with
    | none => exact .inl rfl
    | some r =>
      obtain ⟨before, after, hrs', -⟩ := lookup_eq_some_iff.mp hl
      exact .inr (hrs (rel, r) (by simp [hrs']))
  unfold entryDigest
  split
  · exact hget _ hp.symlinks
  · split
    · exact .inl rfl
    · exact hget _ hp.files

theorem buildDirEntryTree_stored (hp : p.Held F) {fuel : ℕ} {rel : Loc} {e : DirEntry}
    (h : buildDirEntryTree src dir p fuel rel = some e) : e.Stored F p.store := by
  induction fuel generalizing rel e with
  | zero => cases h
  | succ fuel ih =>
    rw [buildDirEntryTree] at h
    simp only at h
    split at h
    · cases h
    · rename_i children hchildren
      cases h
      refine .mk (entryDigest_stored hp _ _ rel) fun child hchild => ?_
      obtain ⟨name, -, hname⟩ := mem_readAll hchildren child hchild
      exact ih hname

/-! ### The image -/

structure Committed (F : Formats) (s : MmapStore) (manifest tree : Digest) : Prop where
  sound : s.Sound F.codec
  held : ∃ layer inline, s.Holds F.codec layer ⟨.layer, [tree], F.text.utf8 ['/']⟩ ∧
    s.Holds F.codec manifest ⟨.manifest, [layer], inline⟩

theorem wrapTree_spec (hc : F.codec.Lawful) {b : Build} (hb : b.store.Sound F.codec)
    {architecture os : Str}
    (h : wrapTree F architecture os tree b = (.ok out, s')) :
    b.store.Grown s' ∧ Committed F s' out.manifestDigest tree := by
  revert h
  fun_cases wrapTree F architecture os tree b with
  | case1 | case2 => rintro ⟨⟩
  | case3 layer s1 hl inline m s2 hm =>
    rintro ⟨⟩
    obtain ⟨hs1, hg1, hlayer, -⟩ := putBlocking_spec hc hb hl
    obtain ⟨hs2, hg2, hmanifest, -⟩ := putBlocking_spec hc hs1 hm
    exact ⟨hg1.trans hg2, hs2, layer, _, hlayer.mono hg2, hmanifest⟩

theorem buildDagFromDirectory_ok (hc : F.codec.Lawful) (hj : F.json.Lawful) (hs : s.Sound F.codec)
    {path : List Seg} (hdir : canonicalize src path = .ok dir)
    (h : buildDagFromDirectory F fuel src path s = some (.ok out, s')) :
    ∃ (p : Digested) (rootEntry : DirEntry) (tree : Digest) (b : Build), p.Held F ∧
      buildDirEntryTree src dir p fuel [] = some rootEntry ∧
      buildTree F rootEntry { store := p.store } = (.ok tree, b) ∧ b.store.Grown s' ∧
      Committed F s' out.manifestDigest tree ∧ Inert F s' tree := by
  unfold buildDagFromDirectory buildDagFromDirectoryWithPlatform at h
  rw [hdir] at h
  simp only at h
  split at h
  · cases h
  · rename_i rootEntry hroot
    split at h
    · cases h
    · rename_i tree b htree
      have hp : (([] :: walkDir src.nodes dir (src.nodes.length + 1) []).foldl
          (digestEntry F src.nodes dir) { store := s }).Held F :=
        digestEntries_held hc _ ⟨hs, by simp, by simp⟩
      obtain ⟨hb, hg, hinert⟩ :=
        buildTree_inert hc hj (buildDirEntryTree_stored hp hroot) (.refl _) hp.sound htree
      injection h with h
      obtain ⟨hg', hcommitted⟩ := wrapTree_spec hc hb h
      exact ⟨_, rootEntry, tree, b, hp, hroot, htree, hg', hcommitted, hinert.mono hg'⟩

theorem Committed.materializeInto (hc : F.codec.Lawful)
    (h : Committed F s manifest tree) (htree : Inert F s tree) {fs' : Fs Bytes Attr}
    {r : Except MaterializeError Unit} (hroot : fs.nodes.InPlace root)
    (hm : materializeInto F.json F.text (s.view F.codec) fuel manifest root fs = some (r, fs')) :
    fs' = fs := by
  obtain ⟨layer, inline, hlayer, hmanifest⟩ := h.held
  unfold OciMaterializer.materializeInto at hm
  rw [Fs.createDirAll_inPlace hroot, hmanifest.view_getArchived hc h.sound] at hm
  simp only at hm
  refine forEach_rel (R := fun fs fs' => fs' = fs) (fun _ => rfl) (fun h h' => h'.trans h) (fun d hd fs r fs' hb => ?_) hm
  rw [mem_singleton.mp hd, materializeLayer, hlayer.view_getArchived hc h.sound] at hb
  simp only [htree.whiteoutEdges hc h.sound, forEach, if_true] at hb
  refine forEach_rel (R := fun fs fs' => fs' = fs) (fun _ => rfl) (fun h h' => h'.trans h) (fun child hchild fs r fs' hb => ?_) hb
  have hmem := mem_singleton.mp (mem_filter.mp hchild).1
  exact Inert.materializeTree hc h.sound (hmem ▸ htree) hb

/-! ### The empty directory -/

theorem canonicalize_inPlace (h : src.nodes.InPlace dir) : canonicalize src dir.path = .ok dir := by
  have hthere : dir = [] ∨ (src.lookup dir).isSome := by
    by_cases hne : dir = []
    · exact .inl hne
    · obtain ⟨a, ha⟩ := Nodes.lookup_of_isDir (h dir (prefix_refl dir)) hne
      exact .inr (by rw [Fs.lookup, ha]; rfl)
  rw [canonicalize, Fs.resolve_inPlace true h]
  exact if_pos hthere

theorem buildTree_empty {b b' : Build} (hc : F.codec.Lawful)
    (hb : b.store.Sound F.codec) (hdir : src.nodes.InPlace dir)
    (hempty : ∀ rest, rest ≠ [] → src.lookup (dir ++ rest) = none)
    (he : buildDirEntryTree src dir p fuel [] = some e) (h : buildTree F e b = (.ok tree, b')) :
    b'.store.Holds F.codec tree ⟨.tree, [], []⟩ := by
  cases fuel with
  | zero => cases he
  | succ fuel =>
    have hread : src.readDir dir.path = .ok [] := by
      rw [Fs.readDir, Fs.resolve_inPlace true hdir]
      simp only [hdir dir (prefix_refl dir), if_true,
        Nodes.children_eq_nil_iff.mpr fun n => hempty [n] (by simp)]
    have hisDir : src.isDirAt dir.path = true := by
      rw [Fs.isDirAt, Fs.resolve_inPlace true hdir]
      exact hdir dir (prefix_refl dir)
    rw [buildDirEntryTree] at he
    simp only [append_nil, hread, hisDir, Value.readAll] at he
    cases he
    rw [buildTree, if_pos rfl, buildChildren] at h
    simp only [map_nil] at h
    split at h
    · cases h
    rename_i d s hput
    cases h
    exact (putBlocking_spec hc hb hput).2.2.1

theorem Committed.materializeInto_empty (hc : F.codec.Lawful)
    (h : Committed F s manifest tree) (htree : s.Holds F.codec tree ⟨.tree, [], []⟩)
    (hfuel : 0 < fuel) (hroot : fs.nodes.InPlace root) :
    OciMaterializer.materializeInto F.json F.text (s.view F.codec) fuel manifest root fs =
      some (.ok (), fs) := by
  obtain ⟨layer, inline, hlayer, hmanifest⟩ := h.held
  obtain ⟨fuel, rfl⟩ : ∃ k, fuel = k + 1 := ⟨fuel - 1, by omega⟩
  have htree' := htree.view_getArchived hc h.sound
  unfold OciMaterializer.materializeInto
  rw [Fs.createDirAll_inPlace hroot, hmanifest.view_getArchived hc h.sound]
  simp only [forEach, materializeLayer, hlayer.view_getArchived hc h.sound, whiteoutEdges,
    treeEdges, filterMap_cons, filterMap_nil, filter_cons, filter_nil, htree',
    materializeTree, fromInlineBytes_nil, if_true, ne_eq,
    reduceCtorEq, not_false_eq_true, and_self, decide_true]

/-- **A committed directory comes back if and only if it is empty.** `fs` is any file system with an
    empty directory `root`. -/
theorem commit_materialize_iff (hc : F.codec.Lawful) (hj : F.json.Lawful)
    {s s' : MmapStore} (hs : s.Sound F.codec) {src fs : Fs Bytes Attr} {dir root : Loc}
    (hdir : src.nodes.InPlace dir) (hroot : fs.nodes.InPlace root)
    (hempty : ∀ rest, rest ≠ [] → fs.lookup (root ++ rest) = none) {fuel fuel' : ℕ}
    (hfuel' : 0 < fuel') {out : DagDirectory}
    (hcommit : buildDagFromDirectory F fuel src dir.path s = some (.ok out, s')) :
    (∃ fs', materializeInto F.json F.text (s'.view F.codec) fuel' out.manifestDigest root fs =
        some (.ok (), fs') ∧
      ∀ rest, rest ≠ [] → (fs'.lookup (root ++ rest)).map Inode.shape =
        (src.lookup (dir ++ rest)).map Inode.shape) ↔
    ∀ rest, rest ≠ [] → src.lookup (dir ++ rest) = none := by
  obtain ⟨p, rootEntry, tree, b, hp, hrootEntry, htree, hg, hcommitted, hinert⟩ :=
    buildDagFromDirectory_ok hc hj hs (canonicalize_inPlace hdir) hcommit
  constructor
  · rintro ⟨fs', hm, hsame⟩ rest hrest
    rw [hcommitted.materializeInto hc hinert hroot hm] at hsame
    have hshape := hsame rest hrest
    rw [hempty rest hrest] at hshape
    exact Option.map_eq_none_iff.mp hshape.symm
  · intro hsrc
    have hheld := (buildTree_empty hc hp.sound hdir hsrc hrootEntry htree).mono hg
    refine ⟨fs, hcommitted.materializeInto_empty hc hheld hfuel' hroot, fun rest hrest => ?_⟩
    rw [hempty rest hrest, hsrc rest hrest]

theorem commit_materialize_iff_source :
    ∃ out s', buildDagFromDirectory Sample.formats 4 Sample.source [.name ['s']] Sample.noStore =
        some (.ok out, s') ∧
      ((∃ fs', materializeInto Sample.formats.json Sample.formats.text
          (s'.view Sample.formats.codec) 8 out.manifestDigest [['r']] Sample.host =
            some (.ok (), fs') ∧
          ∀ rest, rest ≠ [] → (fs'.lookup ([['r']] ++ rest)).map Inode.shape =
            (Sample.source.lookup ([['s']] ++ rest)).map Inode.shape) ↔
        ∀ rest, rest ≠ [] → Sample.source.lookup ([['s']] ++ rest) = none) := by
  have hok : (buildDagFromDirectory formats 4 source [.name ['s']]
      noStore).map (fun r => r.1.isOk) = some true := by decide +kernel
  obtain ⟨⟨r, s'⟩, h, hr⟩ := Option.map_eq_some_iff.mp hok
  cases r with
  | error e => cases hr
  | ok out =>
    refine ⟨out, s', h, commit_materialize_iff formats_codec formats_json
      noStore_sound ?_ host_inPlace host_empty (by decide) h⟩
    exact .of_inits (by decide +kernel)

end

theorem commit_loses_file :
    (match buildDagFromDirectory Sample.formats 4 Sample.source [.name ['s']] Sample.noStore with
      | some (.ok out, s) => (materializeInto Sample.formats.json Sample.formats.text
          (s.view Sample.formats.codec) 8 out.manifestDigest [['r']] Sample.host).map fun r =>
            (r.1, r.2.lookup [['r'], ['f']])
      | _ => none) = some (.ok (), none) ∧
    (Sample.source.lookup [['s'], ['f']]).map Inode.shape =
      some (.file Sample.leaf.inlineData ()) := by
  decide +kernel

end Pullrun
