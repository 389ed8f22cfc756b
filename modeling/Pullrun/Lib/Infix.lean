import Mathlib.Data.List.Infix

/-!
# Searching a text

When a pattern occurs in a text (`pattern <:+: text`), read off the characters that neither can contain. A
separator that the pattern does not have cuts the text in parts that can be searched one by one; a mark
that the pattern begins with is looked for one occurrence after the other.
-/

namespace Infix

open List

variable {α : Type*} {p t u u' v v' l r : List α} {c q : α}

theorem prefix_of_prefix_append_cons (hc : c ∉ p) (h : p <+: l ++ c :: r) : p <+: l := by
  induction l generalizing p with
  | nil =>
    rcases prefix_cons_iff.mp h with rfl | ⟨t, rfl, -⟩
    · exact nil_prefix
    · exact absurd mem_cons_self hc
  | cons x l ih =>
    rcases prefix_cons_iff.mp h with rfl | ⟨t, rfl, ht⟩
    · exact nil_prefix
    · exact prefix_cons_iff.mpr (.inr ⟨t, rfl, ih (fun hmem => hc (mem_cons_of_mem _ hmem)) ht⟩)

theorem infix_append_cons_iff (hc : c ∉ p) : p <:+: l ++ c :: r ↔ p <:+: l ∨ p <:+: r := by
  constructor
  · intro h
    induction l with
    | nil =>
      rcases infix_cons_iff.mp h with h | h
      · exact .inl (prefix_of_prefix_append_cons hc h).isInfix
      · exact .inr h
    | cons x l ih =>
      rcases infix_cons_iff.mp h with h | h
      · exact .inl (prefix_of_prefix_append_cons hc h).isInfix
      · exact (ih h).imp_left infix_cons
  · rintro (h | h)
    · exact h.trans (prefix_append _ _).isInfix
    · exact h.trans ((suffix_cons _ _).trans (suffix_append _ _)).isInfix

theorem infix_lines_iff {lines : List (List α)} (hp : p ≠ []) (hc : c ∉ p) :
    p <:+: lines.flatMap (· ++ [c]) ↔ ∃ line ∈ lines, p <:+: line := by
  induction lines with
  | nil => simpa using hp
  | cons line lines ih =>
    rw [flatMap_cons, append_assoc, singleton_append, infix_append_cons_iff hc, ih]
    simp only [mem_cons, exists_eq_or_imp]

/-- **A pattern that begins with a mark** is looked for at the first mark of the text, and then after it. -/
theorem mark_infix_iff (hq : q ∉ l) :
    q :: t <:+: l ++ q :: r ↔ t <+: r ∨ q :: t <:+: r := by
  induction l with
  | nil => rw [nil_append, infix_cons_iff, cons_prefix_cons, eq_self, true_and]
  | cons x l ih =>
    have hx : q ≠ x := fun h => hq (h ▸ mem_cons_self)
    rw [cons_append, infix_cons_iff, cons_prefix_cons,
      ih fun h => hq (mem_cons_of_mem _ h)]
    simp only [hx, false_and, false_or]

theorem append_mark_prefix_iff (hu : q ∉ u) (hu' : q ∉ u') :
    u ++ q :: v <+: u' ++ q :: v' ↔ u = u' ∧ v <+: v' := by
  induction u generalizing u' with
  | nil =>
    cases u' with
    | nil => simp
    | cons x u' =>
      have hx : q ≠ x := fun h => hu' (h ▸ mem_cons_self)
      simp [hx]
  | cons y u ih =>
    cases u' with
    | nil =>
      have hy : y ≠ q := fun h => hu (h ▸ mem_cons_self)
      simp [hy]
    | cons x u' =>
      rw [cons_append, cons_append, cons_prefix_cons,
        ih (fun h => hu (mem_cons_of_mem _ h)) (fun h => hu' (mem_cons_of_mem _ h)),
        cons.injEq, and_assoc]

end Infix
