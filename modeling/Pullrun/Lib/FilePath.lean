import Pullrun.Lib.FileTree

/-!
# Places as text

A program that builds paths as strings, by putting a slash between a directory and a name, names a
place by the text of its components. For components that are proper names the text reads back as the
place it was built for, so such texts can be compared instead of places.
-/

namespace FileTree

open List

def NameOk (n : Name) : Prop := n ≠ [] ∧ '/' ∉ n ∧ n ≠ ['.'] ∧ n ≠ ['.', '.'] ∧ '\x00' ∉ n

instance (n : Name) : Decidable (NameOk n) := inferInstanceAs (Decidable (_ ∧ _ ∧ _ ∧ _ ∧ _))

namespace Loc

def Ok (l : Loc) : Prop := ∀ n ∈ l, NameOk n

instance (l : Loc) : Decidable l.Ok := inferInstanceAs (Decidable (∀ n ∈ l, NameOk n))

def text : Loc → List Char
  | [] => []
  | [n] => n
  | n :: m :: rest => n ++ '/' :: text (m :: rest)

variable {l q : Loc} {n : Name}

theorem Ok.concat (hq : q.Ok) (hn : NameOk n) : Ok (q ++ [n]) := by
  intro m hm
  rcases mem_append.mp hm with hm | hm
  · exact hq m hm
  · exact mem_singleton.mp hm ▸ hn

theorem Ok.last (h : Ok (q ++ [n])) : NameOk n := h n (by simp)

theorem Ok.dropLast (h : l.Ok) : Ok l.dropLast := fun m hm => h m (dropLast_subset l hm)

theorem text_cons (hl : l ≠ []) : text (n :: l) = n ++ '/' :: l.text := by
  obtain ⟨m, rest, rfl⟩ := exists_cons_of_ne_nil hl
  rfl

theorem text_append (hq : q ≠ []) (hl : l ≠ []) : text (q ++ l) = q.text ++ '/' :: l.text := by
  induction q with
  | nil => exact absurd rfl hq
  | cons m q ih =>
    by_cases hne : q = []
    · subst hne
      exact text_cons hl
    · rw [cons_append, text_cons (by simp [hl]), ih hne, text_cons hne]
      simp

theorem text_concat (hq : q ≠ []) : text (q ++ [n]) = q.text ++ '/' :: n :=
  text_append hq (by simp)

theorem text_ne_nil (h : l.Ok) (hl : l ≠ []) : l.text ≠ [] := by
  obtain ⟨m, rest, rfl⟩ := exists_cons_of_ne_nil hl
  have hm : m ≠ [] := (h m mem_cons_self).1
  by_cases hne : rest = []
  · subst hne; exact hm
  · rw [text_cons hne]
    simp

theorem text_eq_nil_iff (h : l.Ok) : l.text = [] ↔ l = [] := by
  constructor
  · intro ht
    by_contra hne
    exact text_ne_nil h hne ht
  · rintro rfl; rfl

end Loc

/-! ## Reading a text -/

/-- A name that a text can have as a component. -/
def Proper (n : Name) : Prop := '/' ∉ n ∧ Seg.ofText n = some (.name n)

variable {n : Name} {l m : Loc}

theorem NameOk.proper (h : NameOk n) : Proper n := by
  obtain ⟨hne, hslash, hdot, hdots, -⟩ := h
  refine ⟨hslash, ?_⟩
  rw [Seg.ofText, if_neg (not_or.mpr ⟨hne, hdot⟩), if_neg hdots]

theorem splitOn_name (h : '/' ∉ n) : n.splitOn '/' = [n] := by
  have := @splitOn_intercalate Char [n] _ _ '/' (by simpa using h) (by simp)
  simpa using this

theorem segs_name (h : Proper n) : segs n = [.name n] := by
  rw [segs, splitOn_name h.1, filterMap_cons, filterMap_nil, h.2]

theorem segs_text_proper (h : ∀ n ∈ l, Proper n) : segs l.text = l.path := by
  induction l with
  | nil => simp [Loc.text, segs, Loc.path, Seg.ofText]
  | cons n l ih =>
    have hn := h n mem_cons_self
    have hl : ∀ m ∈ l, Proper m := fun m hm => h m (mem_cons_of_mem _ hm)
    by_cases hne : l = []
    · subst hne
      exact segs_name hn
    · rw [Loc.text_cons hne, segs_append_slash, segs_name hn, ih hl]
      rfl

theorem segs_text (h : l.Ok) : segs l.text = l.path :=
  segs_text_proper fun n hn => (h n hn).proper

theorem isAbsolute_name (h : NameOk n) (rest : List Char) : isAbsolute (n ++ rest) = false := by
  obtain ⟨ch, n, rfl⟩ := exists_cons_of_ne_nil h.1
  have hch : ch ≠ '/' := fun he => h.2.1 (he ▸ mem_cons_self)
  simpa [isAbsolute] using hch

theorem isAbsolute_text (h : l.Ok) : isAbsolute l.text = false := by
  cases l with
  | nil => rfl
  | cons n l =>
    have hn := h n mem_cons_self
    by_cases hne : l = []
    · subst hne
      have hname := isAbsolute_name hn []
      rwa [append_nil] at hname
    · rw [Loc.text_cons hne]
      exact isAbsolute_name hn _

theorem join_text (h : l.Ok) (dir : List Seg) : join dir l.text = dir ++ l.path := by
  rw [join, isAbsolute_text h, segs_text h]
  rfl

theorem Loc.path_injective (h : l.path = m.path) : l = m :=
  map_injective_iff.mpr (fun _ _ hab => Seg.name.inj hab) h

theorem text_injective (hl : l.Ok) (hm : m.Ok) (h : l.text = m.text) : l = m :=
  Loc.path_injective (by rw [← segs_text hl, ← segs_text hm, h])

end FileTree
