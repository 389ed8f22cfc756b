import Mathlib.Data.List.Basic

/-!
# Worklist loops

The loop `while let Some(a) = queue.pop_front() { if !seen.insert(a) { continue } … }`, stated
once over an arbitrary state. What an iteration does to the state, and which elements it appends
to the queue, is the parameter `visit`; an iteration may also abort the loop with an error, in
which case the state keeps what was already done to it.

A `while` loop needs no fuel and a Lean function does, so the loop carries a bound on its
iterations, and ends in the error `stalled` if the bound is too small. The bound is discharged by a *potential*: a number that every first visit lowers by at
least as many elements as it appends.
-/

namespace Worklist

variable {α σ ε : Type*} [DecidableEq α] (stalled : ε)

/-- Pop the front; skip what was seen; otherwise visit it and append what the visit returns. -/
def run (visit : α → σ → Except ε (List α) × σ) :
    ℕ → List α → List α → σ → Except ε (List α) × σ
  | _, [], seen, s => (.ok seen, s)
  | 0, _ :: _, _, s => (.error stalled, s)
  | fuel + 1, a :: queue, seen, s =>
    if a ∈ seen then run visit fuel queue seen s
    else
      match visit a s with
      | (.error e, s') => (.error e, s')
      | (.ok next, s') => run visit fuel (queue ++ next) (a :: seen) s'

/-- What the loop is allowed to end in: `Inv` at the empty queue, or `Err` if a visit aborted. -/
def Ends (Inv : List α → List α → σ → Prop) (Err : ε → σ → Prop) :
    Except ε (List α) × σ → Prop
  | (.ok seen, s) => Inv [] seen s
  | (.error e, s) => Err e s

/-- What one first visit has to establish: the invariant at the longer queue, paid for out of the
    potential, or the error condition. -/
def Visits (Inv : List α → List α → σ → Prop) (Err : ε → σ → Prop) (pot : List α → σ → ℕ)
    (a : α) (queue seen : List α) (s : σ) : Except ε (List α) × σ → Prop
  | (.ok next, s') =>
      Inv (queue ++ next) (a :: seen) s' ∧ next.length + pot (a :: seen) s' ≤ pot seen s
  | (.error e, s') => Err e s'

/-- **The invariant rule.** An invariant kept by skipping and by visiting holds when the queue is
    empty, provided the fuel covers the queue and the potential; in particular the loop does not stall. -/
theorem run_rule (visit : α → σ → Except ε (List α) × σ) (Inv : List α → List α → σ → Prop)
    {Err : ε → σ → Prop} {pot : List α → σ → ℕ}
    (hskip : ∀ a queue seen s, a ∈ seen → Inv (a :: queue) seen s → Inv queue seen s)
    (hvisit : ∀ a queue seen s, a ∉ seen → Inv (a :: queue) seen s →
      Visits Inv Err pot a queue seen s (visit a s)) (fuel queue seen s) (hinv : Inv queue seen s)
    (hlt : queue.length + pot seen s < fuel) : Ends Inv Err (run stalled visit fuel queue seen s) := by
  fun_induction run stalled visit fuel queue seen s with
  | case1 => exact hinv
  | case2 => omega
  | case3 fuel a queue seen s hs ih =>
    rw [List.length_cons] at hlt
    exact ih (hskip a queue seen s hs hinv) (by omega)
  | case4 fuel a queue seen s hs e s' hr =>
    have hv := hvisit a queue seen s hs hinv
    rw [hr] at hv
    exact hv
  | case5 fuel a queue seen s hs next s' hr ih =>
    have hv := hvisit a queue seen s hs hinv
    rw [hr] at hv
    obtain ⟨hinv', hpot⟩ := hv
    rw [List.length_cons] at hlt
    exact ih hinv' (by rw [List.length_append]; omega)

/-- What every visit keeps, the loop keeps, however it ends. -/
theorem run_keeps (visit : α → σ → Except ε (List α) × σ) (P : σ → Prop)
    (hvisit : ∀ a s, P s → P (visit a s).2) (fuel queue seen s) (h : P s) :
    P (run stalled visit fuel queue seen s).2 := by
  fun_induction run stalled visit fuel queue seen s with
  | case1 | case2 => exact h
  | case3 fuel a queue seen s hs ih => exact ih h
  | case4 fuel a queue seen s hs e s' hr =>
    have hv := hvisit a s h
    rwa [hr] at hv
  | case5 fuel a queue seen s hs next s' hr ih =>
    have hv := hvisit a s h
    rw [hr] at hv
    exact ih hv

end Worklist
