import Pullrun.Lib.FileCanonical
import Pullrun.Workload.Paths

/-!
# Ids as file names

`validate_workload_id` is a filter on characters, and a dot is one of them. Two of the names it lets
through are not names of files: `.` is the base directory itself and `..` the one above it, so that the
bundle of such a workload is the directory of all bundles, or the store. Others are names that the daemon
itself gives: `build`, `pool`, and the disk image of another workload.
-/

namespace Pullrun

open FileTree List

variable {cfg : PathConfig} {id id' : Str} {k k' : IdPath}

/-! ## Names -/

def NotDots (id : Str) : Prop := id ≠ ".".toList ∧ id ≠ "..".toList

instance (id : Str) : Decidable (NotDots id) := inferInstanceAs (Decidable (_ ∧ _))

section

variable (h : validateWorkloadId id = .ok ())
include h

theorem validateWorkloadId_ok : id ≠ [] ∧ '/' ∉ id ∧ '\x00' ∉ id := by
  unfold validateWorkloadId at h
  split at h
  · cases h
  · rename_i hne
    split at h
    · cases h
    · split at h
      · rename_i hall
        rw [all_eq_true] at hall
        refine ⟨hne, fun hmem => ?_, fun hmem => ?_⟩
        · exact absurd (hall _ hmem) (by decide)
        · exact absurd (hall _ hmem) (by decide)
      · cases h

theorem nameOk_of_valid (hdots : NotDots id) : NameOk id := by
  obtain ⟨hne, hslash, hnul⟩ := validateWorkloadId_ok h
  exact ⟨hne, hslash, hdots.1, hdots.2, hnul⟩

theorem nameOk_extension {ext : Str} (hlen : 2 < ext.length)
    (hslash : '/' ∉ ext) (hnul : '\x00' ∉ ext) : NameOk (id ++ ext) := by
  obtain ⟨hne, hslash', hnul'⟩ := validateWorkloadId_ok h
  refine ⟨by simp [hne], by simp [hslash, hslash'], fun heq => ?_, fun heq => ?_, by simp [hnul, hnul']⟩
  · have := congrArg length heq
    simp only [length_append, length_cons, length_nil] at this
    omega
  · have := congrArg length heq
    simp only [length_append, length_cons, length_nil] at this
    omega

theorem nameOk_name (hdots : NotDots id) (k : IdPath) : NameOk (k.name id) := by
  cases k with
  | bundleDir | stagedSecretDir | vmDir => exact nameOk_of_valid h hdots
  | checkpoint | ext4Image => exact nameOk_extension h (by decide) (by decide) (by decide)

end

theorem name_ne (hne : id ≠ id') (hext : id' ≠ ext4Name id) (hext' : id ≠ ext4Name id')
    (hbase : k.base = k'.base) : k.name id ≠ k'.name id' := by
  cases k with
  | bundleDir | stagedSecretDir => cases k' <;> first | exact hne | cases hbase
  | checkpoint =>
    cases k' with
    | checkpoint => exact fun heq => hne (append_cancel_right heq)
    | bundleDir | stagedSecretDir | vmDir | ext4Image => cases hbase
  | vmDir =>
    cases k' with
    | vmDir => exact hne
    | ext4Image => exact hext'
    | bundleDir | stagedSecretDir | checkpoint => cases hbase
  | ext4Image =>
    cases k' with
    | vmDir => exact fun heq => hext heq.symm
    | ext4Image => exact fun heq => hne (append_cancel_right heq)
    | bundleDir | stagedSecretDir | checkpoint => cases hbase

/-- The id is not the name of a directory of the daemon's own. -/
def NotOwn (cfg : PathConfig) (id : Str) : Prop := ∀ d : OwnDir, d.InUse cfg → id ≠ d.name

theorem nameOk_own (d : OwnDir) : NameOk d.name := by
  cases d <;> exact ⟨by decide, by decide, by decide, by decide, by decide⟩

theorem name_ne_own (hown : NotOwn cfg id) {d : OwnDir} (hd : d.InUse cfg) (hbase : k.base = d.base) :
    k.name id ≠ d.name := by
  cases k with
  | bundleDir | stagedSecretDir | vmDir => exact hown d hd
  | checkpoint => cases d <;> cases hbase
  | ext4Image =>
    cases d with
    | build => cases hbase
    | pool =>
      -- a name with `.ext4` after it is longer
      intro heq
      have hlen := congrArg length heq
      have hext : ".ext4".toList.length = 5 ∧ OwnDir.pool.name.length = 4 := by decide
      simp only [IdPath.name, ext4Name, length_append] at hlen
      omega

/-! ## Paths -/

theorem join_name {n : Name} (hname : NameOk n) (base : List Seg) : join base n = base ++ [.name n] := by
  have habs := isAbsolute_name hname []
  rw [append_nil] at habs
  rw [join, habs, segs_name hname.proper]
  rfl

theorem path_eq_concat (h : validateWorkloadId id = .ok ()) (hdots : NotDots id) (k : IdPath) :
    k.path cfg id = k.base.path cfg ++ [.name (k.name id)] :=
  join_name (nameOk_name h hdots k) _

def ProperlyBelow (cfg : PathConfig) (id : Str) : Prop :=
  ∀ k : IdPath, ∃ n, k.path cfg id = k.base.path cfg ++ [.name n]

theorem properlyBelow_iff (h : validateWorkloadId id = .ok ()) :
    ProperlyBelow cfg id ↔ NotDots id := by
  constructor
  · intro hbelow
    obtain ⟨n, hn⟩ := hbelow .bundleDir
    refine ⟨?_, ?_⟩
    · rintro rfl
      have hsegs : segs ".".toList = [] := by decide
      rw [IdPath.path, join, if_neg (by decide), IdPath.name, hsegs, append_nil] at hn
      exact absurd hn (by simp)
    · rintro rfl
      have hsegs : segs "..".toList = [.up] := by decide
      rw [IdPath.path, join, if_neg (by decide), IdPath.name, hsegs] at hn
      have := append_cancel_left hn
      cases this
  · intro hdots k
    exact ⟨_, path_eq_concat h hdots k⟩

/-! ## Removing them -/

/-- `remove_dir_all` or `remove_file` on a path. -/
def Removes (s : Fs Bytes Unit) (p : List Seg) (s' : Fs Bytes Unit) : Prop :=
  s.removeDirAll p = .ok s' ∨ s.removeFile p = .ok s'

theorem Removes.lookup {s s' : Fs Bytes Unit} {p : List Seg} (h : Removes s p s') {l q : Loc}
    (hl : s.nodes.resolve false p = .ok l) (hq : ¬ l <+: q) : s'.lookup q = s.lookup q := by
  have hremove : List.lookup q (s.nodes.remove l) = s.nodes.lookup q := by
    rw [Nodes.lookup_remove, if_neg]
    rintro rfl
    exact hq (prefix_refl _)
  rcases h with h | h
  · obtain ⟨m, hm, ⟨a, -, -, rfl⟩ | ⟨target, -, rfl⟩⟩ := Fs.removeDirAll_ok h
    · cases hl.symm.trans hm
      exact (Nodes.lookup_prune _ _ _).trans (if_neg hq)
    · cases hl.symm.trans hm
      exact hremove
  · obtain ⟨m, i, hm, -, -, rfl⟩ := Fs.removeFile_ok h
    cases hl.symm.trans hm
    exact hremove

theorem not_prefix_above {B q : Loc} (hq : q <+: B) (n : Name) : ¬ B ++ [n] <+: q := by
  intro h
  have hlen := (h.trans hq).length_le
  rw [length_append, length_singleton] at hlen
  omega

theorem eq_of_prefix_concat {B l : Loc} {n n' : Name} (h : B ++ [n] <+: l) (h' : B ++ [n'] <+: l) :
    n = n' := by
  have := prefix_of_prefix_length_le h h' (by simp)
  have heq := this.eq_of_length (by simp)
  simpa using heq

/-- **What a workload's removal may not touch.** Wherever the base directory is, on any file system,
    removing a path of `id` leaves the base directory and those above it alone, everything that belongs to
    `id'`, and everything in the directories of the builder and the pool. -/
def Spares (cfg : PathConfig) (id id' : Str) : Prop :=
  ∀ (s s' : Fs Bytes Unit) (k : IdPath) (B : Loc),
    s.nodes.resolve true (k.base.path cfg) = .ok B → s.nodes.isDir B = true →
    Removes s (k.path cfg id) s' →
    (∀ q, q <+: B → s'.lookup q = s.lookup q) ∧
      (∀ k' : IdPath, k'.base = k.base → ∀ l q, s.nodes.resolve false (k'.path cfg id') = .ok l →
        l <+: q → s'.lookup q = s.lookup q) ∧
      ∀ d : OwnDir, d.InUse cfg → d.base = k.base → ∀ l q, s.nodes.resolve false (d.path cfg) = .ok l →
        l <+: q → s'.lookup q = s.lookup q

theorem spares (h : validateWorkloadId id = .ok ()) (h' : validateWorkloadId id' = .ok ())
    (hdots : NotDots id) (hdots' : NotDots id') (hown : NotOwn cfg id)
    (hnames : ∀ k k' : IdPath, k.base = k'.base → k.name id ≠ k'.name id') :
    Spares cfg id id' := by
  intro s s' k B hB hdir hremoves
  have hl : s.nodes.resolve false (k.path cfg id) = .ok (B ++ [k.name id]) := by
    rw [path_eq_concat h hdots]
    exact Nodes.resolve_concat_name _ hB hdir
  refine ⟨fun q hq => hremoves.lookup hl (not_prefix_above hq _), ?_, ?_⟩
  · intro k' hbase l q hl' hq
    have hplace : s.nodes.resolve false (k'.path cfg id') = .ok (B ++ [k'.name id']) := by
      rw [path_eq_concat h' hdots', hbase]
      exact Nodes.resolve_concat_name _ hB hdir
    cases hplace.symm.trans hl'
    refine hremoves.lookup hl fun hpre => ?_
    exact hnames k k' hbase.symm (eq_of_prefix_concat hpre hq)
  · intro d hd hbase l q hl' hq
    have hplace : s.nodes.resolve false (d.path cfg) = .ok (B ++ [d.name]) := by
      rw [OwnDir.path, join_name (nameOk_own d), hbase]
      exact Nodes.resolve_concat_name _ hB hdir
    cases hplace.symm.trans hl'
    refine hremoves.lookup hl fun hpre => ?_
    exact name_ne_own hown hd hbase.symm (eq_of_prefix_concat hpre hq)

/-! ## Two workloads -/

/-- **The files of two workloads are apart**: every path of either is a proper descendant of its base
    directory, no path of one is a path of the other or the directory of the builder or the pool, and
    removing one's leaves the base directories, those two and the other's alone. -/
structure Apart (cfg : PathConfig) (id id' : Str) : Prop where
  below : ProperlyBelow cfg id ∧ ProperlyBelow cfg id'
  distinct : ∀ k k' : IdPath, k.base = k'.base → k.path cfg id ≠ k'.path cfg id'
  own : ∀ (d : OwnDir) (k : IdPath), d.InUse cfg → k.base = d.base →
    k.path cfg id ≠ d.path cfg ∧ k.path cfg id' ≠ d.path cfg
  spared : Spares cfg id id' ∧ Spares cfg id' id

/-- The path of the bundle or the machine, whichever is kept beside the daemon's directory. -/
theorem notOwn_of_path_ne
    (h : ∀ (d : OwnDir) (k : IdPath), d.InUse cfg → k.base = d.base → k.path cfg id ≠ d.path cfg) :
    NotOwn cfg id := by
  rintro d hd rfl
  cases d with
  | build => exact h .build .bundleDir hd rfl rfl
  | pool => exact h .pool .vmDir hd rfl rfl

theorem path_ne_own (h : validateWorkloadId id = .ok ()) (hdots : NotDots id) (hown : NotOwn cfg id)
    {d : OwnDir} (hd : d.InUse cfg) (hbase : k.base = d.base) : k.path cfg id ≠ d.path cfg := by
  rw [path_eq_concat h hdots, OwnDir.path, join_name (nameOk_own d), hbase]
  intro heq
  have hlast := append_cancel_left heq
  rw [cons.injEq, Seg.name.injEq] at hlast
  exact name_ne_own hown hd hbase hlast.1

/-- **When two accepted ids keep out of each other's way**: exactly when neither is `.` or `..`, neither is
    `build` or, with a warm pool, `pool`, and neither is the other with `.ext4` after it. -/
theorem apart_iff (cfg : PathConfig) (id id' : Str) (h : validateWorkloadId id = .ok ())
    (h' : validateWorkloadId id' = .ok ()) (hne : id ≠ id') :
    Apart cfg id id' ↔
      NotDots id ∧ NotDots id' ∧ NotOwn cfg id ∧ NotOwn cfg id' ∧
        id' ≠ id ++ ".ext4".toList ∧ id ≠ id' ++ ".ext4".toList := by
  constructor
  · rintro ⟨⟨hbelow, hbelow'⟩, hdistinct, hown, -⟩
    refine ⟨(properlyBelow_iff h).mp hbelow, (properlyBelow_iff h').mp hbelow',
      notOwn_of_path_ne fun d k hd hbase => (hown d k hd hbase).1,
      notOwn_of_path_ne fun d k hd hbase => (hown d k hd hbase).2, ?_, ?_⟩
    · rintro rfl
      exact hdistinct .ext4Image .vmDir rfl rfl
    · rintro rfl
      exact hdistinct .vmDir .ext4Image rfl rfl
  · rintro ⟨hdots, hdots', hown, hown', hext, hext'⟩
    have hnames : ∀ k k' : IdPath, k.base = k'.base → k.name id ≠ k'.name id' :=
      fun k k' hbase => name_ne hne hext hext' hbase
    refine ⟨⟨(properlyBelow_iff h).mpr hdots, (properlyBelow_iff h').mpr hdots'⟩, ?_,
      fun d k hd hbase => ⟨path_ne_own h hdots hown hd hbase, path_ne_own h' hdots' hown' hd hbase⟩,
      spares h h' hdots hdots' hown hnames,
      spares h' h hdots' hdots hown' fun k k' hbase => (hnames k' k hbase.symm).symm⟩
    intro k k' hbase heq
    rw [path_eq_concat h hdots, path_eq_concat h' hdots', hbase] at heq
    have hlast := append_cancel_left heq
    rw [cons.injEq, Seg.name.injEq] at hlast
    exact hnames k k' hbase hlast.1

/-! ## An id that is a directory above -/

/-- A daemon with a warm pool of two machines. -/
def varLib : PathConfig := ⟨"/var/lib/pullrun".toList, "/var/lib/pullrun/vm".toList, 2⟩

theorem apart_web_db : Apart varLib "web".toList "db".toList := by
  refine (apart_iff varLib "web".toList "db".toList (by decide) (by decide) (by decide)).mpr
    ⟨by decide, by decide, ?_, ?_, by decide, by decide⟩
  · intro d _
    cases d <;> decide
  · intro d _
    cases d <;> decide

/-- The store with a bundle and an object in it. -/
def bundlesTree : Nodes Bytes Unit :=
  [(["var".toList], .dir ()), (["var".toList, "lib".toList], .dir ()),
    (["var".toList, "lib".toList, "pullrun".toList], .dir ()),
    (["var".toList, "lib".toList, "pullrun".toList, "bundles".toList], .dir ()),
    (["var".toList, "lib".toList, "pullrun".toList, "bundles".toList, "web".toList], .dir ())]

/-- **The bundle of a workload `..` is the store**, that of `.` the directory of all bundles, and the machine
    of a workload `pool` has the directory of the warm pool; all three ids are accepted. -/
theorem dots_not_apart :
    validateWorkloadId "..".toList = .ok () ∧ validateWorkloadId ".".toList = .ok () ∧
      validateWorkloadId "web".toList = .ok () ∧ validateWorkloadId "web.ext4".toList = .ok () ∧
      validateWorkloadId "pool".toList = .ok () ∧
      bundlesTree.resolve false (IdPath.bundleDir.path varLib "..".toList) =
        .ok ["var".toList, "lib".toList, "pullrun".toList] ∧
      bundlesTree.resolve false (IdPath.bundleDir.path varLib ".".toList) =
        .ok ["var".toList, "lib".toList, "pullrun".toList, "bundles".toList] ∧
      ¬ ProperlyBelow varLib "..".toList ∧ ¬ ProperlyBelow varLib ".".toList ∧
      ¬ Apart varLib "..".toList "web".toList ∧
      IdPath.vmDir.path varLib "web.ext4".toList = IdPath.ext4Image.path varLib "web".toList ∧
      IdPath.vmDir.path varLib "pool".toList = OwnDir.pool.path varLib := by
  have hup : ¬ ProperlyBelow varLib "..".toList := by
    rw [properlyBelow_iff (by decide)]
    decide
  have hdot : ¬ ProperlyBelow varLib ".".toList := by
    rw [properlyBelow_iff (by decide)]
    decide
  exact ⟨by decide, by decide, by decide, by decide, by decide, by decide +kernel, by decide +kernel, hup,
    hdot, fun h => hup h.below.1, by decide +kernel, rfl⟩

end Pullrun
