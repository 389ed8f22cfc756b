import Mathlib.Data.List.Infix
import Pullrun.Lib.FileTree

/-!
# Where calls land, and what they leave alone

`Evolves s s' calls` says what any sequence of calls can do to a tree: it records changes, each at
the place its path resolved to when it was made, and whatever is not at or below one of these places
is as it was. Loops of calls are by composition.

A path through directories that are in place leads where it says, so that creating such a directory
again changes nothing.
-/

namespace FileTree

open List

variable {κ α : Type}

/-! ## Recorded changes -/

structure Evolves (s s' : Fs κ α) (calls : List (Call κ α)) : Prop where
  log : s'.log = calls ++ s.log
  resolved : ∀ c ∈ calls, c.before.resolve c.follow c.path = .ok c.loc
  frame : ∀ l, (∀ c ∈ calls, ¬ c.loc <+: l) → s'.lookup l = s.lookup l

namespace Evolves

variable {s s' s'' : Fs κ α} {cs ds : List (Call κ α)}

theorem refl (s : Fs κ α) : Evolves s s [] := ⟨rfl, by simp, fun _ _ => rfl⟩

theorem trans (h : Evolves s s' cs) (h' : Evolves s' s'' ds) : Evolves s s'' (ds ++ cs) where
  log := by rw [h'.log, h.log, append_assoc]
  resolved c hc := (mem_append.mp hc).elim (h'.resolved c) (h.resolved c)
  frame l hl := by
    rw [h'.frame l fun c hc => hl c (mem_append_left _ hc)]
    exact h.frame l fun c hc => hl c (mem_append_right _ hc)

end Evolves

namespace Fs

variable {s s' : Fs κ α} {p : List Seg}

theorem lookup_set_elsewhere {l m : Loc} (h : ¬ l <+: m) (i : Inode κ α) :
    List.lookup m (s.nodes.set l i) = s.lookup m := by
  have hne : m ≠ l := fun he => h (he ▸ prefix_refl _)
  rw [Nodes.lookup_set, if_neg hne]
  rfl

end Fs

/-! ## Paths through directories that are in place -/

namespace Nodes

variable {t : Nodes κ α} {last : Bool} {root : Loc} {rest : List Seg}

/-- The directory `root` and those above it are directories, none of them through a link. -/
def InPlace (t : Nodes κ α) (root : Loc) : Prop := ∀ q, q <+: root → t.isDir q = true

theorem lookup_of_isDir {l : Loc} (h : t.isDir l = true) (hne : l ≠ []) :
    ∃ a, t.lookup l = some (.dir a) := by
  unfold isDir at h
  split at h
  · rename_i a ha
    exact ⟨a, ha⟩
  · cases h
  · exact absurd (of_decide_eq_true h) hne

theorem namei_append {budget : ℕ} {dir post : Loc} (h : t.InPlace (dir ++ post)) :
    t.namei last budget dir (Loc.path post ++ rest) = t.namei last budget (dir ++ post) rest := by
  induction post generalizing dir with
  | nil => rw [append_nil]; rfl
  | cons n post ih =>
    have happ : dir ++ [n] ++ post = dir ++ n :: post := by simp
    obtain ⟨a, ha⟩ := lookup_of_isDir (h (dir ++ [n]) ⟨post, happ⟩) (by simp)
    refine (namei_down (h dir (prefix_append _ _)) ha nofun).trans ?_
    rw [← happ] at h ⊢
    exact ih h

theorem namei_path {budget : ℕ} (h : t.InPlace root) :
    t.namei last budget [] (root.path ++ rest) = t.namei last budget root rest :=
  namei_append (show t.InPlace ([] ++ root) from h)

theorem resolve_of_above {l : Loc} (habove : ∀ q, q <+: l → q ≠ l → t.isDir q = true)
    (hlast : last = false ∨ l = [] ∨ ∀ target, t.lookup l ≠ some (.symlink target)) :
    t.resolve last l.path = .ok l := by
  rcases eq_nil_or_concat l with rfl | ⟨dir, n, rfl⟩
  · rfl
  rw [concat_eq_append] at habove hlast ⊢
  have hne : dir ≠ dir ++ [n] := by simp
  have hplace : t.InPlace dir := fun q hq =>
    habove q (hq.trans (prefix_append _ _)) fun heq => hne (hq.eq_of_length_le (by simp [heq]) ▸ heq)
  have hdir := hplace dir (prefix_refl _)
  rw [resolve, Loc.path_append, namei_path hplace, namei_eq_ok]
  cases hlk : t.lookup (dir ++ [n]) with
  | none => exact .vacant hdir hlk
  | some i =>
    cases i with
    | dir | file => exact .down hdir hlk nofun .nil
    | symlink target =>
      rcases hlast with rfl | hnil | hlast
      · exact .link hdir hlk rfl
      · simp at hnil
      · exact absurd hlk (hlast target)

theorem isDir_set {l m : Loc} {i : Inode κ α} (hm : m ≠ l) : (t.set l i).isDir m = t.isDir m := by
  unfold isDir
  rw [lookup_set, if_neg hm]

/-- `InPlace`, tested. -/
theorem InPlace.of_inits (h : root.inits.all t.isDir = true) : t.InPlace root :=
  fun q hq => all_eq_true.mp h q ((mem_inits _ _).mpr hq)

end Nodes

/-! ## Calls on a directory that is in place -/

namespace Fs

open Nodes

variable {s : Fs κ α} {root : Loc}

theorem resolve_inPlace (last : Bool) (h : s.nodes.InPlace root) :
    s.nodes.resolve last root.path = .ok root := by
  refine resolve_of_above (fun q hq _ => h q hq) (or_iff_not_imp_left.mpr fun _ => ?_)
  refine or_iff_not_imp_left.mpr fun hne target hlk => ?_
  obtain ⟨a, ha⟩ := lookup_of_isDir (h root (prefix_refl root)) hne
  rw [ha] at hlk
  cases hlk

theorem mkdir_root [Inhabited α] (h : s.nodes.InPlace root) :
    s.mkdir root.path = .error .alreadyExists := by
  rw [mkdir, resolve_inPlace false h]
  simp only
  by_cases hne : root = []
  · subst hne
    split
    · rfl
    · rw [if_pos rfl]
  · obtain ⟨a, ha⟩ := lookup_of_isDir (h root (prefix_refl root)) hne
    rw [lookup, ha]

theorem createDirAll_inPlace [Inhabited α] (h : s.nodes.InPlace root) :
    s.createDirAll root.path = (.ok (), s) := by
  have hex := mkdir_root h
  have hdir : s.isDirAt root.path = true := by
    rw [isDirAt, resolve_inPlace true h]
    exact h root (prefix_refl root)
  rw [createDirAll]
  cases hrev : (Loc.path root).reverse with
  | nil => rfl
  | cons seg above =>
    have hp : (seg :: above).reverse = Loc.path root := by rw [← hrev, reverse_reverse]
    rw [createDirAllRev]
    simp only [hp, hex, settle, hdir, if_true]

end Fs

end FileTree
