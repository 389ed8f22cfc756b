import Pullrun.Workload.CopyFile

/-!
# `copy_file` and the root filesystem

A file that is copied out is read at the place its canonical path names, and that path has been
compared with the root filesystem.
-/

namespace Pullrun

open FileTree List Nodes

variable {cwd rootfs : Str} {req : CopyFileRequest} {s s' : Fs Bytes Attr} {R parent l canonical : Loc}
  {name : Name} {resp : CopyFileResponse} {p : List Seg}

/-! ## Writing -/

def ChangesAt (s s' : Fs Bytes Attr) (l : Loc) : Prop :=
  ∃ calls, calls ≠ [] ∧ Evolves s s' calls ∧ ∀ c ∈ calls, c.loc = l

theorem act_changesAt {i : Inode Bytes Attr} (hp : s.nodes.resolve true p = .ok l) :
    Evolves s (s.act p true l (s.nodes.set l i)) [⟨s.nodes, p, true, l⟩] := by
  refine ⟨rfl, ?_, ?_⟩
  · intro c hc
    rw [mem_singleton.mp hc]
    exact hp
  · intro m hm
    exact Fs.lookup_set_elsewhere (hm _ (mem_singleton.mpr rfl)) i

theorem write_of_writable (hp : s.nodes.resolve true p = .ok l)
    (hl : s.nodes.Writable l) (content : Bytes) :
    ∃ attr, s.write content p = .ok (s.act p true l (s.nodes.set l (.file content attr))) := by
  rcases hl with ⟨hnone, hne⟩ | ⟨old, attr, hfile⟩
  · exact ⟨default, by rw [Fs.write, hp]; simp [Fs.lookup, hnone, hne]⟩
  · exact ⟨attr, by rw [Fs.write, hp]; simp [Fs.lookup, hfile]⟩

theorem applyMode_file (req : CopyFileRequest) {content : Bytes} {attr : Attr}
    (hp : s.nodes.resolve true canonical.path = .ok l)
    (hfile : s.lookup l = some (.file content attr)) :
    ∃ s' attr' calls, applyMode req s canonical = .ok s' ∧ Evolves s s' calls ∧
      (∀ c ∈ calls, c.loc = l) ∧ s'.nodes.resolve true canonical.path = .ok l ∧
      s'.lookup l = some (.file content attr') := by
  unfold applyMode
  by_cases hmode : req.mode = 0
  · exact ⟨s, attr, [], by rw [if_pos hmode], Evolves.refl s, by simp, hp, hfile⟩
  · have hw : s.nodes.Writable l := Or.inr ⟨content, attr, hfile⟩
    refine ⟨_, chmodTo req.mode attr, _, ?_, act_changesAt hp, by simp,
      resolve_set_file hw content (chmodTo req.mode attr) hp, ?_⟩
    · rw [if_neg hmode, Fs.setAttr, hp]
      simp only [hfile]
    · exact (lookup_set _ _ _ _).trans (if_pos rfl)

/-- **Where a file that is copied in goes**: to the place that the destination leads to, whatever is
    there to be written. -/
theorem copyIn_of_writable (req : CopyFileRequest) (hparent : s.nodes.Settled parent)
    (hthere : s.nodes.There parent)
    (hp : s.nodes.resolve true (Loc.path (parent ++ [name])) = .ok l) (hl : s.nodes.Writable l) :
    ∃ resp s', copyIn req s (parent ++ [name]) = (.ok resp, s') ∧ ChangesAt s s' l := by
  have hdirs : s.createDirAll parent.path = (.ok (), s) :=
    Fs.createDirAll_inPlace (hparent.inPlace (hparent.isDir_of_resolve hthere hp))
  obtain ⟨attr, hwrite⟩ := write_of_writable hp hl req.content
  obtain ⟨s2, attr2, calls, hmode, hev, hcalls, hp2, hfile₂⟩ :=
    applyMode_file req (s := s.act _ true l (s.nodes.set l (.file req.content attr)))
      (resolve_set_file hl req.content attr hp)
      ((lookup_set _ _ _ _).trans (if_pos rfl))
  refine ⟨respond req [] (.file req.content attr2), s2, ?_, _, ?_, (act_changesAt hp).trans hev, ?_⟩
  · unfold copyIn
    rw [dropLast_concat, hdirs]
    simp only [hwrite, hmode, Fs.stat, hp2, hfile₂]
  · simp
  · intro c hc
    rcases mem_append.mp hc with hc | hc
    · exact hcalls c hc
    · rw [mem_singleton.mp hc]

theorem writable_of_copyIn (hparent : s.nodes.Settled parent) (hthere : s.nodes.There parent)
    (h : copyIn req s (parent ++ [name]) = (.ok resp, s')) :
    ∃ l, s.nodes.resolve true (Loc.path (parent ++ [name])) = .ok l ∧ s.nodes.Writable l := by
  have hsame : (s.createDirAll (Loc.path (parent ++ [name]).dropLast)).2 = s := by
    rw [dropLast_concat]
    exact Fs.createDirAll_there hparent hthere
  revert h
  fun_cases copyIn req s (parent ++ [name]) with
  | case1 | case2 => rintro ⟨⟩
  | case3 _ s1 hdirs s2 hwrite | case4 _ s1 hdirs s2 hwrite | case5 _ s1 hdirs s2 hwrite =>
    intro
    rw [hdirs] at hsame
    subst hsame
    obtain ⟨l, attr, hp, hl, -⟩ := Fs.write_ok hwrite
    refine ⟨l, hp, ?_⟩
    rcases hl with hfree | ⟨old, hfile⟩
    · exact .inl hfree
    · exact .inr ⟨old, attr, hfile⟩

/-! ## The request -/

/-- The path of the request names an entry of a directory inside the root filesystem. -/
structure EntryIn (cwd rootfs : Str) (req : CopyFileRequest) (s : Fs Bytes Attr) (parent : Loc)
    (name : Name) : Prop where
  dir : s.nodes.canonicalize cwd ((parentOf (fullPath rootfs req)).getD (components rootfs)) =
    .ok parent
  inside : components rootfs <+: parent.components
  name : fileNameOf (fullPath rootfs req) = some name

/-- **The request stays inside**: if it succeeds, whatever it has changed is inside the root filesystem,
    and what it returns of a file copied out is the content of the place that the path leads to, which
    is inside as well. -/
def StaysInside (cwd rootfs : Str) (req : CopyFileRequest) (s : Fs Bytes Attr) (R : Loc)
    (after : Except CopyError CopyFileResponse × Fs Bytes Attr) : Prop :=
  ∀ resp, after.1 = .ok resp →
    (∃ calls, Evolves s after.2 calls ∧ ∀ c ∈ calls, R <+: c.loc) ∧
      (req.direction = "out".toList → ∃ l attr, R <+: l ∧
        s.nodes.canonicalize cwd (fullPath rootfs req) = .ok l ∧
        s.lookup l = some (.file resp.content attr))

theorem inside_of_components (hR : s.nodes.realpath cwd rootfs = .ok R) (hl : s.nodes.Settled l)
    (hthere : s.nodes.There l) (hpre : components rootfs <+: l.components) : R <+: l := by
  rcases (components_prefix_iff hl hthere).mp hpre with hnil | ⟨d, hd, -, hdl⟩
  · rw [realpath, hnil] at hR
    cases hR
  · cases hd.symm.trans hR
    exact hdl

theorem parent_proper (rootfs : Str) (req : CopyFileRequest) :
    ProperComponents ((parentOf (fullPath rootfs req)).getD (components rootfs)) := by
  unfold parentOf
  split
  · exact components_proper rootfs
  · exact components_proper rootfs
  · exact (components_proper _).anti (List.dropLast_prefix _)

theorem destination_eq_ok : destination cwd rootfs req s = .ok canonical ↔
      ∃ parent name, EntryIn cwd rootfs req s parent name ∧ canonical = parent ++ [name] := by
  constructor
  · fun_cases destination cwd rootfs req s with
    | case1 | case2 | case4 => rintro ⟨⟩
    | case3 full parent hdir hin name hname =>
      rintro ⟨⟩
      exact ⟨parent, name, ⟨hdir, hin, hname⟩, rfl⟩
  · rintro ⟨parent, name, hentry, rfl⟩
    simp only [destination, hentry.dir, hentry.inside, hentry.name, if_true]

theorem EntryIn.settled (h : EntryIn cwd rootfs req s parent name) :
    s.nodes.Settled parent ∧ s.nodes.There parent :=
  ⟨canonicalize_settled (parent_proper rootfs req) h.dir, (canonicalize_ok h.dir).2⟩

theorem copyAt_in (cwd rootfs : Str) (s : Fs Bytes Attr) (hin : req.direction = "in".toList) :
    (∃ parent name, EntryIn cwd rootfs req s parent name ∧
        copyAt cwd rootfs req s = copyIn req s (parent ++ [name])) ∨
      (∀ parent name, ¬ EntryIn cwd rootfs req s parent name) ∧
        ∃ e, copyAt cwd rootfs req s = (.error e, s) := by
  unfold copyAt canonicalPath
  rw [if_pos hin]
  cases hdest : destination cwd rootfs req s with
  | error e =>
    refine Or.inr ⟨fun parent name hentry => ?_, e, rfl⟩
    cases hdest.symm.trans (destination_eq_ok.mpr ⟨parent, name, hentry, rfl⟩)
  | ok canonical =>
    obtain ⟨parent, name, hentry, rfl⟩ := destination_eq_ok.mp hdest
    have hpre : components rootfs <+: Loc.components (parent ++ [name]) :=
      hentry.inside.trans (Loc.components_prefix.mpr (prefix_append _ _))
    have hout : req.direction ≠ "out".toList := by
      rw [hin]
      decide
    refine Or.inl ⟨parent, name, hentry, ?_⟩
    dsimp only
    rw [if_neg (not_not.mpr hpre), if_neg hout, if_pos hin]

theorem copyAt_not_in (hR : s.nodes.realpath cwd rootfs = .ok R)
    (hin : req.direction ≠ "in".toList) :
    StaysInside cwd rootfs req s R (copyAt cwd rootfs req s) := by
  intro resp
  fun_cases copyAt cwd rootfs req s with
  | case1 | case2 | case5 => rintro ⟨⟩
  | case4 _ _ _ _ hin' => exact absurd hin' hin
  | case3 l hpath hpre =>
    have hl : s.nodes.canonicalize cwd (fullPath rootfs req) = .ok l := by
      rw [canonicalPath, if_neg hin] at hpath
      split at hpath <;> cases hpath
      assumption
    have hsettled := canonicalize_settled (components_proper _) hl
    fun_cases copyOut req s l with
    | case1 | case3 => rintro ⟨⟩
    | case2 content attr hstat =>
      rintro ⟨⟩
      refine ⟨⟨[], Evolves.refl s, by simp⟩, fun _ => ⟨l, attr, ?_, hl, ?_⟩⟩
      · exact inside_of_components hR hsettled (canonicalize_ok hl).2 (not_not.mp hpre)
      · rw [Fs.stat, hsettled.resolve true] at hstat
        dsimp only at hstat
        split at hstat <;> cases hstat
        assumption

theorem resolve_entry (hentry : EntryIn cwd rootfs req s parent name)
    (hlink : ∀ target, s.lookup (parent ++ [name]) ≠ some (.symlink target))
    (hp : s.nodes.resolve true (Loc.path (parent ++ [name])) = .ok l) : l = parent ++ [name] := by
  obtain ⟨hsettled, hthere⟩ := hentry.settled
  have hdir := hsettled.isDir_of_resolve hthere hp
  have := (hsettled.concat hdir hlink).resolve true
  cases hp.symm.trans this
  rfl

namespace CopyEnv

variable {σ : Type}

/-- **When a copy stays inside the root filesystem.** For every daemon, workload, request and file
    system: exactly when it does not copy a file in under a name that is a link, in the directory the
    rest of the path leads to, to a file or to a free place outside the root filesystem. -/
theorem staysInside_iff (env : CopyEnv σ) (req : CopyFileRequest) (s : Fs Bytes Attr) (rootfs : Str)
    (R : Loc) (hroot : env.rootfsPath req = .ok rootfs)
    (hR : s.nodes.realpath env.cwd rootfs = .ok R) :
    StaysInside env.cwd rootfs req s R (env.copyFile req s) ↔
      (req.direction = "in".toList → ∀ parent name target l,
        EntryIn env.cwd rootfs req s parent name →
        s.lookup (parent ++ [name]) = some (.symlink target) →
        s.nodes.resolve true (Loc.path (parent ++ [name])) = .ok l → s.nodes.Writable l → R <+: l) := by
  have hcopy : env.copyFile req s = copyAt env.cwd rootfs req s := by
    rw [copyFile, hroot]
  rw [hcopy]
  by_cases hin : req.direction = "in".toList
  · rcases copyAt_in env.cwd rootfs s hin with
      ⟨parent, name, hentry, hat⟩ | ⟨hnone, e, hat⟩
    · obtain ⟨hsettled, hthere⟩ := hentry.settled
      rw [hat]
      constructor
      · -- A link that leads out is written through.
        intro hinside _ parent' name' target l hentry' _ hp hl
        cases hentry.dir.symm.trans hentry'.dir
        cases hentry.name.symm.trans hentry'.name
        obtain ⟨resp, s', hok, calls, hne, hev, hcalls⟩ :=
          copyIn_of_writable req hsettled hthere hp hl
        obtain ⟨⟨calls', hev', hin'⟩, -⟩ := hinside resp (by rw [hok])
        rw [hok] at hev'
        have hsame : calls' = calls := append_cancel_right (hev'.log.symm.trans hev.log)
        obtain ⟨c, rest, hcons⟩ := exists_cons_of_ne_nil hne
        have hmem : c ∈ calls := hcons ▸ mem_cons_self
        rw [← hcalls c hmem]
        exact hin' c (hsame ▸ hmem)
      · intro hcond resp hresp
        have hsucc : copyIn req s (parent ++ [name]) =
            (.ok resp, (copyIn req s (parent ++ [name])).2) := Prod.ext hresp rfl
        obtain ⟨l, hp, hl⟩ := writable_of_copyIn hsettled hthere hsucc
        obtain ⟨resp', s', hok, calls, -, hev, hcalls⟩ :=
          copyIn_of_writable req hsettled hthere hp hl
        have hdirInside := inside_of_components hR hsettled hthere hentry.inside
        have hl' : R <+: l := by
          by_cases hlink : ∃ target, s.lookup (parent ++ [name]) = some (.symlink target)
          · obtain ⟨target, htarget⟩ := hlink
            exact hcond hin parent name target l hentry htarget hp hl
          · rw [resolve_entry hentry (fun target htarget => hlink ⟨target, htarget⟩) hp]
            exact hdirInside.trans (prefix_append _ _)
        refine ⟨⟨calls, by rw [hok]; exact hev, fun c hc => hcalls c hc ▸ hl'⟩, fun hout => ?_⟩
        rw [hin] at hout
        exact absurd hout (by decide)
    · rw [hat]
      refine iff_of_true (fun resp hresp => by cases hresp) ?_
      intro _ parent name target l hentry
      exact absurd hentry (hnone parent name)
  · exact iff_of_true (copyAt_not_in hR hin) fun h => absurd h hin

/-! ## A link in the place of the file -/

/-- A host with a container whose root filesystem has a file and a link to a file of the host. -/
def sampleHost : Fs Bytes Attr where
  nodes :=
    [(["b".toList], .dir default), (["b".toList, "w".toList], .dir default),
      (["b".toList, "w".toList, "rootfs".toList], .dir default),
      (["b".toList, "w".toList, "rootfs".toList, "app".toList], .file [0] default),
      (["b".toList, "w".toList, "rootfs".toList, "log".toList], .symlink "/etc/passwd".toList),
      (["etc".toList], .dir default), (["etc".toList, "passwd".toList], .file [7] default)]
  log := []

def sampleDaemon : CopyEnv Unit where
  cwd := "/".toList
  workloads := WorkloadTable.set ∅ "w".toList (.launched () .no ⟨.container, 7, none⟩ 0)
  rootfsCache := ∅
  bundleRoot := "/b".toList

def copyTo (containerPath : Str) : CopyFileRequest := ⟨"w".toList, containerPath, "in".toList, [1], 0⟩

def sampleRoot : Loc := ["b".toList, "w".toList, "rootfs".toList]

theorem copyTo_app_inside :
    (sampleDaemon.copyFile (copyTo "/app".toList) sampleHost).2.lookup
        (sampleRoot ++ ["app".toList]) = some (.file [1] default) ∧
      StaysInside "/".toList "/b/w/rootfs".toList (copyTo "/app".toList) sampleHost sampleRoot
        (sampleDaemon.copyFile (copyTo "/app".toList) sampleHost) := by
  refine ⟨by decide +kernel, ?_⟩
  refine (staysInside_iff sampleDaemon (copyTo "/app".toList) sampleHost "/b/w/rootfs".toList
    sampleRoot (by decide +kernel) (by decide +kernel)).mpr ?_
  intro _ parent name target l hentry hlink
  have hdir : sampleHost.nodes.canonicalize "/".toList
      ((parentOf (fullPath "/b/w/rootfs".toList (copyTo "/app".toList))).getD
        (components "/b/w/rootfs".toList)) = .ok sampleRoot := by decide +kernel
  have hname : fileNameOf (fullPath "/b/w/rootfs".toList (copyTo "/app".toList)) =
      some "app".toList := by decide +kernel
  cases hdir.symm.trans hentry.dir
  cases hname.symm.trans hentry.name
  have happ : sampleHost.lookup (sampleRoot ++ ["app".toList]) = some (.file [0] default) := by
    decide +kernel
  cases happ.symm.trans hlink

/-- **A link in the root filesystem is written through**: the bytes go to a file of the host. -/
theorem copyTo_log_escapes :
    sampleDaemon.rootfsPath (copyTo "/log".toList) = .ok "/b/w/rootfs".toList ∧
      sampleHost.nodes.realpath "/".toList "/b/w/rootfs".toList = .ok sampleRoot ∧
      (sampleDaemon.copyFile (copyTo "/log".toList) sampleHost).1 =
        .ok ⟨"w".toList, "/log".toList, [], 0o100000, 1⟩ ∧
      sampleHost.lookup ["etc".toList, "passwd".toList] = some (.file [7] default) ∧
      (sampleDaemon.copyFile (copyTo "/log".toList) sampleHost).2.lookup
        ["etc".toList, "passwd".toList] = some (.file [1] default) ∧
      ¬ StaysInside "/".toList "/b/w/rootfs".toList (copyTo "/log".toList) sampleHost sampleRoot
        (sampleDaemon.copyFile (copyTo "/log".toList) sampleHost) := by
  have hok : (sampleDaemon.copyFile (copyTo "/log".toList) sampleHost).1 =
      .ok ⟨"w".toList, "/log".toList, [], 0o100000, 1⟩ := by decide +kernel
  have hbefore : sampleHost.lookup ["etc".toList, "passwd".toList] = some (.file [7] default) := by
    decide +kernel
  have hafter : (sampleDaemon.copyFile (copyTo "/log".toList) sampleHost).2.lookup
      ["etc".toList, "passwd".toList] = some (.file [1] default) := by decide +kernel
  refine ⟨by decide +kernel, by decide +kernel, hok, hbefore, hafter, fun hinside => ?_⟩
  obtain ⟨⟨calls, hev, hin⟩, -⟩ := hinside _ hok
  have hframe := hev.frame ["etc".toList, "passwd".toList] fun c hc hpre =>
    absurd ((hin c hc).trans hpre) (by decide)
  rw [hbefore, hafter] at hframe
  exact absurd hframe (by decide)

end CopyEnv

end Pullrun
