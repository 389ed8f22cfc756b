import Pullrun.Lib.FileFrame
import Pullrun.Lib.FilePath

/-!
# Canonical paths

A program that has to keep a path inside a directory, or out of one, asks the system where the path
leads (`realpath`) and compares the answer with the directory component by component. What the
comparison means depends on how the directory is written. The answer of `realpath` has no link and no
`..` on it, so that it starts with the directory's path *as written* only if that path has none either:
a directory written in any other way is never found (`components_prefix_iff`).

Paths are compared as `std::path` compares them: empty components and `.` are dropped, except for a
`.` in front of a relative path.
-/

namespace FileTree

open List Loc

variable {κ α : Type}

/-! ## Paths as they are written -/

inductive Component
  | rootDir
  | curDir
  | parentDir
  | normal (n : Name)
deriving DecidableEq

def Seg.component : Seg → Component
  | .name n => .normal n
  | .up => .parentDir

def components (p : List Char) : List Component :=
  if isAbsolute p then .rootDir :: (segs p).map Seg.component
  else if (p.splitOn '/').head? = some ['.'] then .curDir :: (segs p).map Seg.component
  else (segs p).map Seg.component

namespace Loc

def absolute (l : Loc) : List Char := '/' :: l.text

def components (l : Loc) : List Component := .rootDir :: l.map .normal

theorem components_prefix {l m : Loc} : l.components <+: m.components ↔ l <+: m := by
  rw [components, components, cons_prefix_cons, and_iff_right rfl]
  exact prefix_map_iff_of_injective fun _ _ hab => Component.normal.inj hab

end Loc

/-- What a component does. -/
def Component.seg? : Component → Option Seg
  | .normal n => some (.name n)
  | .parentDir => some .up
  | .rootDir | .curDir => none

/-- The path that is followed for the components, from the working directory `cwd`. -/
def follow (cwd : List Char) (cs : List Component) : List Seg :=
  if cs.head? = some .rootDir then cs.filterMap Component.seg?
  else segs cwd ++ cs.filterMap Component.seg?

variable {l : Loc}

theorem components_eq_loc {p : List Char} :
    components p = l.components ↔ isAbsolute p = true ∧ segs p = l.path := by
  have hmap : (segs p).map Seg.component = l.map .normal ↔ segs p = l.path := by
    have hloc : l.map .normal = l.path.map Seg.component := by rw [path, map_map]; rfl
    rw [hloc]
    refine map_inj_right fun a b hab => ?_
    cases a <;> cases b <;> simp_all [Seg.component]
  unfold components Loc.components
  split
  · rename_i habs
    rw [cons.injEq, and_iff_right rfl, hmap, and_iff_right habs]
  · rename_i habs
    refine iff_of_false ?_ fun h => habs h.1
    intro h
    split at h
    · cases h
    · have hmem : Component.rootDir ∈ (segs p).map Seg.component := h ▸ mem_cons_self
      obtain ⟨seg, -, hseg⟩ := mem_map.mp hmem
      cases seg <;> cases hseg

theorem segs_absolute (h : ∀ n ∈ l, Proper n) : segs l.absolute = l.path := by
  have hslash := segs_append_slash [] l.text
  rw [nil_append] at hslash
  rw [absolute, hslash, segs_text_proper h]
  rfl

theorem components_absolute (h : ∀ n ∈ l, Proper n) : components l.absolute = l.components :=
  components_eq_loc.mpr ⟨rfl, segs_absolute h⟩

/-! ## Components that are read from a text -/

theorem not_mem_of_mem_splitOn {c : Char} {p piece : List Char} (h : piece ∈ p.splitOn c) :
    c ∉ piece := by
  unfold splitOn at h
  induction p generalizing piece with
  | nil =>
    rw [splitOnP_nil, mem_singleton] at h
    simp [h]
  | cons x p ih =>
    rw [splitOnP_cons_eq_if_modifyHead] at h
    split at h
    · rcases mem_cons.mp h with rfl | h
      · simp
      · exact ih h
    · rename_i hx
      cases hp : splitOnP (· == c) p with
      | nil => simp [hp] at h
      | cons first others =>
        rw [hp, modifyHead_cons, mem_cons] at h
        rcases h with rfl | h
        · have hfirst : c ∉ first := ih (by rw [hp]; exact mem_cons_self)
          rw [mem_cons, not_or]
          exact ⟨fun hc => hx (beq_iff_eq.mpr hc.symm), hfirst⟩
        · exact ih (by rw [hp]; exact mem_cons_of_mem _ h)

/-- Components that can be read. -/
def ProperPath (p : List Seg) : Prop := ∀ n, Seg.name n ∈ p → Proper n

theorem ProperPath.append {p q : List Seg} (hp : ProperPath p) (hq : ProperPath q) :
    ProperPath (p ++ q) := by
  intro n hn
  rcases mem_append.mp hn with hn | hn
  · exact hp n hn
  · exact hq n hn

theorem segs_properPath (p : List Char) : ProperPath (segs p) := by
  intro n hn
  obtain ⟨piece, hpiece, hof⟩ := mem_filterMap.mp hn
  have heq : piece = n := by
    unfold Seg.ofText at hof
    split at hof
    · cases hof
    · split at hof
      · cases hof
      · injection hof with hof
        exact Seg.name.inj hof
  subst heq
  exact ⟨not_mem_of_mem_splitOn hpiece, hof⟩

def ProperComponents (cs : List Component) : Prop := ∀ n, Component.normal n ∈ cs → Proper n

theorem ProperComponents.anti {cs ds : List Component} (h : ProperComponents cs) (hd : ds <+: cs) :
    ProperComponents ds := fun n hn => h n (hd.subset hn)

theorem map_component_proper {p : List Seg} (h : ProperPath p) :
    ProperComponents (p.map Seg.component) := by
  intro n hn
  obtain ⟨seg, hseg, heq⟩ := mem_map.mp hn
  cases seg with
  | up => cases heq
  | name m =>
    cases heq
    exact h n hseg

theorem components_proper (p : List Char) : ProperComponents (components p) := by
  have hbody := map_component_proper (segs_properPath p)
  unfold components
  split
  · intro n hn
    rcases mem_cons.mp hn with heq | hn
    · cases heq
    · exact hbody n hn
  · split
    · intro n hn
      rcases mem_cons.mp hn with heq | hn
      · cases heq
      · exact hbody n hn
    · exact hbody

theorem follow_properPath {cs : List Component} (cwd : List Char) (h : ProperComponents cs) :
    ProperPath (follow cwd cs) := by
  have hbody : ProperPath (cs.filterMap Component.seg?) := by
    intro n hn
    obtain ⟨component, hmem, heq⟩ := mem_filterMap.mp hn
    cases component with
    | normal m =>
      cases heq
      exact h n hmem
    | rootDir | curDir | parentDir => cases heq
  unfold follow
  split
  · exact hbody
  · exact (segs_properPath cwd).append hbody

theorem follow_components (cwd : List Char) (l : Loc) : follow cwd l.components = l.path := by
  have hbody : (l.map Component.normal).filterMap Component.seg? = l.path := by
    rw [filterMap_map, path, ← filterMap_eq_map]
    rfl
  rw [follow, Loc.components, head?_cons, if_pos rfl, filterMap_cons]
  exact hbody

namespace Nodes

variable {t : Nodes κ α} {last : Bool}

variable {dir l q : Loc} {p : List Seg} {budget : ℕ}

/-- What holds of the top and of a directory, and of what is above and below it, holds of the place that
    a path leads to. -/
theorem namei_invariant {Q : Loc → Prop} (hnil : Q []) (hup : ∀ d, Q d → Q d.dropLast)
    (hdown : ∀ d n, Q d → t.isDir d = true → Proper n →
      (last = true → ∀ target, t.lookup (d ++ [n]) ≠ some (.symlink target)) → Q (d ++ [n]))
    (hdir : Q dir) (hp : ProperPath p) (h : t.namei last budget dir p = .ok l) : Q l := by
  replace h := namei_eq_ok.mp h
  induction h with
  | nil => exact hdir
  | up _ _ ih => exact ih (hup _ hdir) fun n hn => hp n (mem_cons_of_mem _ hn)
  | vacant hd hlk => exact hdown _ _ hdir hd (hp _ mem_cons_self) fun _ target => by simp [hlk]
  | link hd _ hlast =>
    exact hdown _ _ hdir hd (hp _ mem_cons_self) fun htrue => by simp [hlast] at htrue
  | follow _ _ _ _ ih =>
    refine ih ?_ ((segs_properPath _).append fun n hn => hp n (mem_cons_of_mem _ hn))
    split
    · exact hnil
    · exact hdir
  | down hd hlk hi _ ih =>
    refine ih (hdown _ _ hdir hd (hp _ mem_cons_self) fun _ target htarget => ?_)
      fun n hn => hp n (mem_cons_of_mem _ hn)
    exact hi target (Option.some.inj (hlk.symm.trans htarget))

theorem namei_proper (hdir : ∀ n ∈ dir, Proper n) (hp : ProperPath p)
    (h : t.namei last budget dir p = .ok l) : ∀ n ∈ l, Proper n := by
  refine namei_invariant (Q := fun d => ∀ n ∈ d, Proper n) (by simp) ?_ ?_ hdir hp h
  · intro d hd n hn
    exact hd n (dropLast_subset d hn)
  · intro d m hd _ hm _ n hn
    rcases mem_append.mp hn with hn | hn
    · exact hd n hn
    · exact mem_singleton.mp hn ▸ hm

/-! ## Where a path leads -/

structure Settled (t : Nodes κ α) (l : Loc) : Prop where
  above : ∀ q, q <+: l → q ≠ l → t.isDir q = true
  noLink : l ≠ [] → ∀ target, t.lookup l ≠ some (.symlink target)

theorem settled_nil : t.Settled [] :=
  ⟨fun _ hq hne => absurd (prefix_nil.mp hq) hne, fun hne => absurd rfl hne⟩

def There (t : Nodes κ α) (l : Loc) : Prop := l = [] ∨ (t.lookup l).isSome

instance (t : Nodes κ α) (l : Loc) : Decidable (t.There l) :=
  inferInstanceAs (Decidable (_ ∨ _))

theorem Settled.anti (h : t.Settled l) (hq : q <+: l) : t.Settled q := by
  by_cases heq : q = l
  · exact heq ▸ h
  · refine ⟨fun r hr _ => h.above r (hr.trans hq) ?_, fun hne target => ?_⟩
    · rintro rfl
      exact heq (hq.eq_of_length (Nat.le_antisymm hq.length_le hr.length_le))
    · obtain ⟨a, ha⟩ := lookup_of_isDir (h.above q hq heq) hne
      simp [ha]

theorem Settled.there_prefix (h : t.Settled l) (hl : t.There l) (hq : q <+: l) :
    t.There q := by
  by_cases heq : q = l
  · exact heq ▸ hl
  · by_cases hne : q = []
    · exact .inl hne
    · obtain ⟨a, ha⟩ := lookup_of_isDir (h.above q hq heq) hne
      exact .inr (by rw [ha]; rfl)

theorem Settled.concat {n : Name} (h : t.Settled dir) (hdir : t.isDir dir = true)
    (hlink : ∀ target, t.lookup (dir ++ [n]) ≠ some (.symlink target)) : t.Settled (dir ++ [n]) := by
  refine ⟨fun q hq hne => ?_, fun _ => hlink⟩
  rcases prefix_concat_iff.mp hq with rfl | hq
  · exact absurd rfl hne
  · by_cases heq : q = dir
    · exact heq ▸ hdir
    · exact h.above q hq heq

theorem Settled.inPlace (h : t.Settled l) (hdir : t.isDir l = true) : t.InPlace l := by
  intro q hq
  by_cases heq : q = l
  · exact heq ▸ hdir
  · exact h.above q hq heq

theorem namei_settled (hdir : t.Settled dir) (hp : ProperPath p)
    (h : t.namei true budget dir p = .ok l) : t.Settled l := by
  refine namei_invariant settled_nil ?_ ?_ hdir hp h
  · intro d hd
    exact hd.anti d.dropLast_prefix
  · intro d n hd hisDir _ hlink
    exact hd.concat hisDir (hlink rfl)

theorem Settled.resolve (h : t.Settled l) (last : Bool) : t.resolve last l.path = .ok l :=
  resolve_of_above h.above (.inr (or_iff_not_imp_left.mpr h.noLink))

/-! ## A name in a directory -/

theorem Resolves.concat_name (n : Name) (h : t.Resolves true budget dir p l) (hl : t.isDir l = true) :
    t.Resolves false budget dir (p ++ [.name n]) (l ++ [n]) := by
  induction h with
  | @nil _ d =>
    cases hlk : t.lookup (d ++ [n]) with
    | none => exact .vacant hl hlk
    | some i =>
      cases i with
      | symlink target => exact .link hl hlk rfl
      | dir | file => exact .down hl hlk nofun .nil
  | up hd _ ih => exact .up hd (ih hl)
  | vacant _ hlk =>
    -- Nothing is there, so that it is no directory.
    obtain ⟨a, ha⟩ := lookup_of_isDir hl (by simp)
    rw [hlk] at ha
    cases ha
  | link _ _ hlast => cases hlast
  | follow hd hlk _ _ ih =>
    rw [append_assoc] at ih
    exact .follow hd hlk (by simp) (ih hl)
  | down hd hlk hi _ ih => exact .down hd hlk hi (ih hl)

theorem resolve_concat_name (n : Name) (h : t.resolve true p = .ok l) (hl : t.isDir l = true) :
    t.resolve false (p ++ [.name n]) = .ok (l ++ [n]) :=
  namei_eq_ok.mpr ((namei_eq_ok.mp h).concat_name n hl)

theorem Settled.resolve_path (h : t.Settled l) (hthere : t.There l) (last : Bool)
    (rest : List Seg) : t.resolve last (l.path ++ rest) = t.namei last 40 l rest := by
  rcases eq_nil_or_concat l with rfl | ⟨dir, n, rfl⟩
  · rfl
  · rw [concat_eq_append] at h hthere ⊢
    have hdir : t.isDir dir = true := h.above dir (prefix_append _ _) (by simp)
    have hplace : t.InPlace dir := (h.anti (prefix_append _ _)).inPlace hdir
    obtain ⟨i, hi⟩ := Option.isSome_iff_exists.mp (hthere.resolve_left (by simp))
    rw [Nodes.resolve, Loc.path_append, append_assoc, namei_path hplace]
    exact namei_down hdir hi fun target htarget => h.noLink (by simp) target (htarget ▸ hi)

theorem Settled.isDir_of_resolve {m : Loc} {n : Name} (h : t.Settled l) (hthere : t.There l)
    (hm : t.resolve last (Loc.path (l ++ [n])) = .ok m) : t.isDir l = true := by
  by_contra hdir
  rw [path_append, h.resolve_path hthere, path, map_singleton, namei, walk,
    if_neg hdir] at hm
  cases hm

/-! ## A file in the place that a path leads to -/

section SetFile

variable {l : Loc} {content : κ} {attr : α}

/-- A free place or a regular file: what can be opened for writing. -/
def Writable (t : Nodes κ α) (l : Loc) : Prop :=
  (t.lookup l = none ∧ l ≠ []) ∨ ∃ content attr, t.lookup l = some (.file content attr)

theorem Writable.not_isDir (h : t.Writable l) : t.isDir l = false := by
  rcases h with ⟨hnone, hne⟩ | ⟨content, attr, hfile⟩
  · rw [isDir, hnone]
    exact decide_eq_false hne
  · rw [isDir, hfile]

theorem isDir_set_file (h : t.Writable l) (content : κ) (attr : α) (d : Loc) :
    (t.set l (.file content attr)).isDir d = t.isDir d := by
  by_cases hd : d = l
  · subst hd
    rw [h.not_isDir, isDir, lookup_set, if_pos rfl]
  · exact isDir_set hd

theorem Resolves.set_file (h : t.Writable l) (content : κ) (attr : α)
    (hr : t.Resolves true budget dir p l) :
    (t.set l (.file content attr)).Resolves true budget dir p l := by
  induction hr with
  | nil => exact .nil
  | up hd _ ih => exact .up (by rwa [isDir_set_file h]) (ih h)
  | vacant hd =>
    exact .down (by rwa [isDir_set_file h]) (by rw [lookup_set, if_pos rfl]) (fun _ hi => by cases hi) .nil
  | link _ _ hlast => cases hlast
  | follow hd hlk hp _ ih =>
    refine .follow (by rwa [isDir_set_file h]) ?_ hp (ih h)
    rw [lookup_set, if_neg, hlk]
    rintro rfl
    rcases h with ⟨hnone, -⟩ | ⟨old, attr', hfile⟩
    · rw [hlk] at hnone; cases hnone
    · rw [hlk] at hfile; cases hfile
  | @down _ d n _ _ l hd hlk hi _ ih =>
    by_cases hl : d ++ [n] = l
    · -- The resolution has come to the file.
      exact .down (by rwa [isDir_set_file h]) (by rw [lookup_set, if_pos hl]) (fun _ hi => by cases hi)
        (ih h)
    · exact .down (by rwa [isDir_set_file h]) (by rw [lookup_set, if_neg hl, hlk]) hi (ih h)

theorem resolve_set_file (h : t.Writable l) (content : κ) (attr : α)
    (hp : t.resolve true p = .ok l) : (t.set l (.file content attr)).resolve true p = .ok l :=
  namei_eq_ok.mpr ((namei_eq_ok.mp hp).set_file h content attr)

end SetFile

/-! ## `canonicalize` -/

def canonicalize (t : Nodes κ α) (cwd : List Char) (cs : List Component) : Except Errno Loc :=
  if cs = [] then .error .notFound
  else
    match t.resolve true (follow cwd cs) with
    | .error e => .error e
    | .ok l => if t.There l then .ok l else .error .notFound

/-- The place that a text leads to. -/
def realpath (t : Nodes κ α) (cwd p : List Char) : Except Errno Loc := t.canonicalize cwd (components p)

variable {cwd : List Char} {cs dir : List Component} {l : Loc}

theorem canonicalize_ok (h : t.canonicalize cwd cs = .ok l) :
    t.resolve true (follow cwd cs) = .ok l ∧ t.There l := by
  revert h
  fun_cases canonicalize t cwd cs with
  | case1 | case2 | case4 => rintro ⟨⟩
  | case3 _ m hm hthere =>
    rintro ⟨⟩
    exact ⟨hm, hthere⟩

theorem canonicalize_settled (hcs : ProperComponents cs) (h : t.canonicalize cwd cs = .ok l) :
    t.Settled l :=
  namei_settled settled_nil (follow_properPath cwd hcs) (canonicalize_ok h).1

theorem canonicalize_proper (hcs : ProperComponents cs) (h : t.canonicalize cwd cs = .ok l) :
    ∀ n ∈ l, Proper n :=
  namei_proper (by simp) (follow_properPath cwd hcs) (canonicalize_ok h).1

theorem Settled.canonicalize (h : t.Settled l) (hthere : t.There l) :
    t.canonicalize cwd l.components = .ok l := by
  rw [Nodes.canonicalize, if_neg (by simp [Loc.components]), follow_components, h.resolve true]
  simp [hthere]

/-- **A real path starts with a directory's path as written only if that one is real as well.** -/
theorem components_prefix_iff (h : t.Settled l) (hthere : t.There l) :
    dir <+: l.components ↔
      dir = [] ∨ ∃ d, t.canonicalize cwd dir = .ok d ∧ dir = d.components ∧ d <+: l := by
  constructor
  · intro hpre
    rcases prefix_cons_iff.mp hpre with hnil | ⟨names, hdir, hnames⟩
    · exact .inl hnil
    · right
      obtain ⟨q, hq, rfl⟩ := prefix_map_iff.mp hnames
      refine ⟨q, ?_, hdir, hq⟩
      rw [hdir]
      exact (h.anti hq).canonicalize (h.there_prefix hthere hq)
  · rintro (hnil | ⟨d, -, hdir, hd⟩)
    · rw [hnil]
      exact nil_prefix
    · rw [hdir]
      exact components_prefix.mpr hd

end Nodes

theorem Fs.createDirAll_there [Inhabited α] {s : Fs κ α} (h : s.nodes.Settled l)
    (hthere : s.nodes.There l) : (s.createDirAll l.path).2 = s := by
  have hmkdir : s.mkdir l.path = .error .alreadyExists := by
    rw [mkdir, h.resolve false]
    simp only
    rcases hthere with rfl | hsome
    · cases s.lookup [] <;> simp
    · obtain ⟨i, hi⟩ := Option.isSome_iff_exists.mp hsome
      rw [Fs.lookup, hi]
  rw [createDirAll]
  cases hrev : (path l).reverse with
  | nil => rfl
  | cons seg above =>
    have hp : (seg :: above).reverse = path l := by rw [← hrev, reverse_reverse]
    rw [createDirAllRev]
    simp only [hp, hmkdir]

end FileTree
