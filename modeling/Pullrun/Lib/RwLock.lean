import Mathlib.Algebra.BigOperators.Group.List.Basic
import Mathlib.Algebra.GroupWithZero.Nat
import Pullrun.Lib.Schedule

/-!
# Tasks on one reader/writer lock

Several tasks share one lock. What a task does to the lock is its script: the guards it takes and
gives back, in order; whatever else it does in between cannot make it wait. Taking a guard is two
steps, the task asks for it and is let in later, so that a state shows who is waiting.

The lock prefers writers. A reader is let in when no writer holds the lock and none waits for it,
a writer when nobody holds it. A task gets no special treatment for the guards it holds itself:
one that asks for a second guard while it holds a first waits for itself.
-/

namespace RwLock

open List

inductive Mode
  | read
  | write
deriving DecidableEq

inductive Act
  | acquire (m : Mode)
  | release (m : Mode)
deriving DecidableEq

/-- A task: what is left of its script, the guards it holds, and whether it has asked for the
    guard at the head of its script. -/
structure Task where
  script : List Act
  held : List Mode
  waiting : Bool
deriving DecidableEq

namespace Task

def new (script : List Act) : Task := ⟨script, [], false⟩

def WaitsFor (t : Task) (m : Mode) : Prop := t.waiting = true ∧ t.script.head? = some (.acquire m)

instance (t : Task) (m : Mode) : Decidable (t.WaitsFor m) := inferInstanceAs (Decidable (_ ∧ _))

end Task

/-- May a task that asks for `m` be let in? -/
def Free (s : List Task) : Mode → Prop
  | .read => ∀ t ∈ s, .write ∉ t.held ∧ ¬ t.WaitsFor .write
  | .write => ∀ t ∈ s, t.held = []

instance (s : List Task) : ∀ m, Decidable (Free s m)
  | .read => inferInstanceAs (Decidable (∀ t ∈ s, .write ∉ t.held ∧ ¬ t.WaitsFor .write))
  | .write => inferInstanceAs (Decidable (∀ t ∈ s, t.held = []))

/-- What the task `t` does next among the tasks `s`. -/
def advance (s : List Task) (t : Task) : Option Task :=
  match t.script with
  | [] => none
  | .release m :: rest => some { t with script := rest, held := t.held.erase m }
  | .acquire m :: rest =>
    if t.waiting = false then some { t with waiting := true }
    else if Free s m then some ⟨rest, m :: t.held, false⟩
    else none

def step (s : List Task) (i : ℕ) : Option (List Task) :=
  match s[i]? with
  | none => none
  | some t =>
    match advance s t with
    | none => none
    | some t' => some (s.set i t')

def Finished (s : List Task) : Prop := ∀ t ∈ s, t.script = []

instance (s : List Task) : Decidable (Finished s) :=
  inferInstanceAs (Decidable (∀ t ∈ s, t.script = []))

/-! ## What a step does -/

variable {s s' : List Task} {i : ℕ}

theorem step_eq_some :
    step s i = some s' ↔ ∃ t t', s[i]? = some t ∧ advance s t = some t' ∧ s' = s.set i t' := by
  rw [step]
  cases ht : s[i]? with
  | none => simp
  | some t =>
    cases ha : advance s t with
    | none => simp [ha]
    | some t' => simp [ha, eq_comm]

inductive Moves (s : List Task) : Task → Task → Prop
  | release (m : Mode) (rest : List Act) (held : List Mode) (waiting : Bool) :
      Moves s ⟨.release m :: rest, held, waiting⟩ ⟨rest, held.erase m, waiting⟩
  | ask (m : Mode) (rest : List Act) (held : List Mode) :
      Moves s ⟨.acquire m :: rest, held, false⟩ ⟨.acquire m :: rest, held, true⟩
  | enter (m : Mode) (rest : List Act) (held : List Mode) (hfree : Free s m) :
      Moves s ⟨.acquire m :: rest, held, true⟩ ⟨rest, m :: held, false⟩

variable {t t' : Task}

theorem moves_of_advance (h : advance s t = some t') : Moves s t t' := by
  obtain ⟨script, held, waiting⟩ := t
  cases script with
  | nil => cases h
  | cons a rest =>
    cases a with
    | release m =>
      cases h
      exact .release m rest held waiting
    | acquire m =>
      cases waiting with
      | false =>
        cases h
        exact .ask m rest held
      | true =>
        by_cases hfree : Free s m
        · simp only [advance, Bool.true_eq_false, if_false, if_pos hfree, Option.some.injEq] at h
          subst h
          exact .enter m rest held hfree
        · simp [advance, hfree] at h

/-! ## Flat scripts -/

/-- Each guard is given back before the next is asked for. -/
inductive Flat : List Act → Prop
  | nil : Flat []
  | guarded (m : Mode) {rest : List Act} (h : Flat rest) : Flat (.acquire m :: .release m :: rest)

theorem Flat.append {a b : List Act} (ha : Flat a) (hb : Flat b) : Flat (a ++ b) := by
  induction ha with
  | nil => exact hb
  | guarded m _ ih => exact .guarded m ih

/-- A task on its way through a flat script: outside the lock, or about to leave it. -/
inductive Task.Sound : Task → Prop
  | outside {script : List Act} (waiting : Bool) (h : Flat script) : Sound ⟨script, [], waiting⟩
  | inside (m : Mode) {script : List Act} (h : Flat script) :
      Sound ⟨.release m :: script, [m], false⟩

def Sound (s : List Task) : Prop := ∀ t ∈ s, t.Sound

theorem Task.Sound.held_of_waiting (h : t.Sound) (hw : t.waiting = true) : t.held = [] := by
  cases h with
  | outside => rfl
  | inside => cases hw

theorem Moves.sound (hm : Moves s t t') (h : t.Sound) : t'.Sound := by
  cases hm with
  | release m rest held waiting =>
    cases h with
    | outside _ hflat => cases hflat
    | inside _ hflat => simpa using Task.Sound.outside false hflat
  | ask m rest held =>
    cases h with
    | outside _ hflat => exact .outside true hflat
  | enter m rest held =>
    cases h with
    | outside _ hflat =>
      cases hflat with
      | guarded _ hrest => exact .inside m hrest

theorem Sound.step (hs : Sound s) (h : step s i = some s') : Sound s' := by
  obtain ⟨t, t', ht, ha, rfl⟩ := step_eq_some.mp h
  intro u hu
  rcases mem_or_eq_of_mem_set hu with hmem | rfl
  · exact hs u hmem
  · exact (moves_of_advance ha).sound (hs t (mem_of_getElem? ht))

theorem Sound.run {turns : List ℕ} (hs : Sound s) (h : Schedule.run RwLock.step s turns = some s') :
    Sound s' :=
  Schedule.run_inv' Sound (fun _ _ _ hi hstep => hi.step hstep) hs h

/-! ## Progress -/

theorem exists_step_of_advance (ht : t ∈ s) (ha : advance s t = some t') :
    ∃ i s', step s i = some s' := by
  obtain ⟨i, hi⟩ := mem_iff_getElem?.mp ht
  exact ⟨i, _, step_eq_some.mpr ⟨t, t', hi, ha, rfl⟩⟩

/-- When nobody holds the lock and somebody waits, somebody is let in: a writer if one waits, or
    else whoever it is. -/
theorem exists_step_of_waiting (hfree : ∀ t ∈ s, t.held = []) (ht : t ∈ s) {m : Mode}
    (hw : t.WaitsFor m) : ∃ i s', step s i = some s' := by
  have henter : ∀ u ∈ s, ∀ m, u.WaitsFor m → Free s m → ∃ i s', step s i = some s' := by
    rintro ⟨script, held, waiting⟩ hu m ⟨hwait, hhead⟩ hm
    cases script with
    | nil => cases hhead
    | cons a rest =>
      cases hwait
      cases hhead
      have hadvance : advance s ⟨.acquire m :: rest, held, true⟩ = some ⟨rest, m :: held, false⟩ := by
        simp [advance, hm]
      exact exists_step_of_advance hu hadvance
  by_cases hwriter : ∃ u ∈ s, u.WaitsFor .write
  · obtain ⟨u, hu, huw⟩ := hwriter
    exact henter u hu .write huw hfree
  · cases m with
    | write => exact absurd ⟨t, ht, hw⟩ hwriter
    | read =>
      refine henter t ht .read hw fun u hu => ⟨?_, fun h => hwriter ⟨u, hu, h⟩⟩
      rw [hfree u hu]
      exact not_mem_nil

theorem Sound.exists_step (hs : Sound s) (hu : ¬ Finished s) :
    ∃ i s', RwLock.step s i = some s' := by
  by_cases hin : ∃ t ∈ s, t.held ≠ []
  · -- whoever is inside leaves
    obtain ⟨t, ht, hheld⟩ := hin
    cases hs t ht with
    | outside => exact absurd rfl hheld
    | inside m _ => exact exists_step_of_advance ht rfl
  · have hfree : ∀ t ∈ s, t.held = [] := by
      intro t ht
      by_contra h
      exact hin ⟨t, ht, h⟩
    obtain ⟨t, ht, hscript⟩ : ∃ t ∈ s, t.script ≠ [] := by
      by_contra h
      exact hu fun t ht => by_contra fun hne => h ⟨t, ht, hne⟩
    cases hs t ht with
    | inside => exact absurd (hfree _ ht) (by simp)
    | outside waiting hflat =>
      cases hflat with
      | nil => exact absurd rfl hscript
      | guarded m _ =>
        cases waiting with
        | false => exact exists_step_of_advance ht rfl
        | true => exact exists_step_of_waiting hfree ht ⟨rfl, rfl⟩

/-! ## Every run can be finished -/

def Task.left (t : Task) : ℕ := 2 * t.script.length - t.waiting.toNat

theorem Moves.left_lt (h : Moves s t t') : t'.left < t.left := by
  cases h with
  | release m rest held waiting =>
    have : waiting.toNat ≤ 1 := waiting.toNat_le
    simp only [Task.left, length_cons]
    omega
  | ask | enter =>
    simp only [Task.left, length_cons, Bool.toNat_true, Bool.toNat_false]
    omega

def left (s : List Task) : ℕ := (s.map Task.left).sum

theorem left_step_lt (h : step s i = some s') : left s' < left s := by
  obtain ⟨t, t', ht, ha, rfl⟩ := step_eq_some.mp h
  obtain ⟨hi, hget⟩ := List.getElem?_eq_some_iff.mp ht
  obtain ⟨before, after, hsplit, _, hset⟩ := @exists_of_set _ i t' s hi
  rw [hset, hsplit, hget]
  have hlt := (moves_of_advance ha).left_lt
  simp only [left, map_append, map_cons, sum_append, sum_cons]
  omega

theorem Sound.canFinish (hs : Sound s) :
    ∃ turns s', Schedule.run RwLock.step s turns = some s' ∧ Finished s' := by
  induction hn : left s using Nat.strongRecOn generalizing s with
  | ind n ih =>
    by_cases hfin : Finished s
    · exact ⟨[], s, rfl, hfin⟩
    · obtain ⟨i, s1, hstep⟩ := hs.exists_step hfin
      obtain ⟨turns, s', hrun, hend⟩ := ih (left s1) (hn ▸ left_step_lt hstep) (hs.step hstep) rfl
      exact ⟨i :: turns, s', Schedule.run_cons_eq_some.mpr ⟨s1, hstep, hrun⟩, hend⟩

end RwLock
