import Mathlib.Data.List.Basic
import Mathlib.Order.Basic

/-!
# Runs of a partial step function

A system is a step function `σ → α → Option σ`: an action either applies to the state or is not
enabled in it. A run is a list of actions, every one of them enabled where it is taken. A run of
several processes is the same thing, with the action saying whose turn it is, so that a statement
about every list of actions is a statement about every interleaving.

`Meets step Ok s as` says that every action of the run met the condition `Ok` in the state it was
taken from.
-/

namespace Schedule

open Option

variable {σ α : Type*} {step : σ → α → Option σ}

/-- Take the actions in order; `none` as soon as one of them is not enabled. -/
def run (step : σ → α → Option σ) : σ → List α → Option σ
  | s, [] => some s
  | s, a :: as =>
    match step s a with
    | none => none
    | some s' => run step s' as

variable {s t : σ} {as bs : List α} {Ok P Q : σ → α → Prop} {a : α}

@[simp] theorem run_nil : run step s [] = some s := rfl

theorem run_cons_eq_some :
    run step s (a :: as) = some t ↔ ∃ s', step s a = some s' ∧ run step s' as = some t := by
  rw [run]
  cases h : step s a with
  | none => simp
  | some s' => simp

theorem run_append_eq_some : run step s (as ++ bs) = some t ↔
      ∃ s', run step s as = some s' ∧ run step s' bs = some t := by
  induction as generalizing s with
  | nil => simp
  | cons a as ih =>
    simp only [List.cons_append, run_cons_eq_some, ih]
    constructor
    · rintro ⟨s1, h1, s2, h2, h3⟩
      exact ⟨s2, ⟨s1, h1, h2⟩, h3⟩
    · rintro ⟨s2, ⟨s1, h1, h2⟩, h3⟩
      exact ⟨s1, h1, s2, h2, h3⟩

scoped instance decidableExists {o : Option σ} {P : σ → Prop} [DecidablePred P] :
    Decidable (∃ s, o = some s ∧ P s) := inferInstanceAs (Decidable (∃ s ∈ o, P s))

scoped instance decidableForall {o : Option σ} {P : σ → Prop} [DecidablePred P] :
    Decidable (∀ s, o = some s → P s) := inferInstanceAs (Decidable (∀ s ∈ o, P s))

/-- Every action of the run meets `Ok` in the state it is taken from. -/
def Meets (step : σ → α → Option σ) (Ok : σ → α → Prop) : σ → List α → Prop
  | _, [] => True
  | s, a :: as => Ok s a ∧ ∀ s', step s a = some s' → Meets step Ok s' as

theorem meets_cons_some {s' : σ} (h : step s a = some s') :
    Meets step Ok s (a :: as) ↔ Ok s a ∧ Meets step Ok s' as := by
  simp only [Meets, h, some.injEq, forall_eq']

theorem meets_cons_none (h : step s a = none) : Meets step Ok s (a :: as) ↔ Ok s a := by
  simp [Meets, h]

/-- **Two conditions that agree where an invariant holds.** If the second keeps the invariant, a run
    of admissible actions that starts in it meets both or neither. -/
theorem meets_congr_on (Inv : σ → Prop) (Adm : α → Prop)
    (hstep : ∀ s a s', Inv s → Adm a → Q s a → step s a = some s' → Inv s')
    (hiff : ∀ s a, Inv s → Adm a → (P s a ↔ Q s a)) (hs : Inv s) (hadm : ∀ a ∈ as, Adm a) :
    Meets step P s as ↔ Meets step Q s as := by
  induction as generalizing s with
  | nil => exact Iff.rfl
  | cons a as ih =>
    have ha := hadm a List.mem_cons_self
    have hrest : ∀ b ∈ as, Adm b := fun b hb => hadm b (List.mem_cons_of_mem _ hb)
    constructor
    · rintro ⟨hp, hmeets⟩
      have hq := (hiff s a hs ha).mp hp
      exact ⟨hq, fun s' hs' => (ih (hstep s a s' hs ha hq hs') hrest).mp (hmeets s' hs')⟩
    · rintro ⟨hq, hmeets⟩
      exact ⟨(hiff s a hs ha).mpr hq,
        fun s' hs' => (ih (hstep s a s' hs ha hq hs') hrest).mpr (hmeets s' hs')⟩

theorem meets_congr (Inv : σ → Prop) (hstep : ∀ s a s', Inv s → Q s a → step s a = some s' → Inv s')
    (hiff : ∀ s a, Inv s → (P s a ↔ Q s a)) (hs : Inv s) (as : List α) :
    Meets step P s as ↔ Meets step Q s as :=
  meets_congr_on Inv (fun _ => True) (fun s a s' hi _ => hstep s a s' hi)
    (fun s a hi _ => hiff s a hi) hs fun _ _ => trivial

theorem Meets.of_inv (Inv : σ → Prop)
    (hstep : ∀ s a s', Inv s → Q s a → step s a = some s' → Inv s')
    (himp : ∀ s a, Inv s → Q s a → P s a) (hs : Inv s) (h : Meets step Q s as) :
    Meets step P s as := by
  induction as generalizing s with
  | nil => trivial
  | cons a as ih =>
    exact ⟨himp s a hs h.1, fun s' hs' => ih (hstep s a s' hs h.1 hs') (h.2 s' hs')⟩

def Meets.decide {Ok : σ → α → Prop} (hdec : ∀ s a, Decidable (Ok s a)) :
    ∀ s as, Decidable (Meets step Ok s as)
  | _, [] => isTrue trivial
  | s, a :: as =>
    match h : step s a with
    | none => have := hdec s a; decidable_of_iff _ (meets_cons_none h).symm
    | some s' =>
      have := hdec s a
      have := Meets.decide hdec s' as
      decidable_of_iff _ (meets_cons_some h).symm

instance {Ok : σ → α → Prop} [hdec : ∀ s a, Decidable (Ok s a)] (s : σ) (as : List α) :
    Decidable (Meets step Ok s as) := Meets.decide hdec s as

/-- **Induction over a run.** What every step that meets the condition preserves holds wherever a
    run of such steps leads. -/
theorem run_inv (Inv : σ → Prop) (Ok : σ → α → Prop)
    (hstep : ∀ s a s', Inv s → Ok s a → step s a = some s' → Inv s')
    (hs : Inv s) (hm : Meets step Ok s as) (hr : run step s as = some t) : Inv t := by
  induction as generalizing s t with
  | nil =>
    rw [run_nil, some.injEq] at hr
    exact hr ▸ hs
  | cons a as ih =>
    obtain ⟨s', hstep', hrest⟩ := run_cons_eq_some.mp hr
    exact ih (hstep s a s' hs hm.1 hstep') (hm.2 s' hstep') hrest

theorem Meets.mem (h : Meets step Ok s as) : Meets step (fun s a => Ok s a ∧ a ∈ as) s as := by
  have hgen : ∀ (bs : List α) (s : σ), (∀ b ∈ bs, b ∈ as) → Meets step Ok s bs →
      Meets step (fun s a => Ok s a ∧ a ∈ as) s bs := by
    intro bs
    induction bs with
    | nil => intro _ _ _; trivial
    | cons b bs ih =>
      intro s hmem hm
      exact ⟨⟨hm.1, hmem b List.mem_cons_self⟩,
        fun s' hs' => ih s' (fun x hx => hmem x (List.mem_cons_of_mem _ hx)) (hm.2 s' hs')⟩
  exact hgen as s (fun _ hb => hb) h

theorem Meets.and (hp : Meets step P s as) (hq : Meets step Q s as) :
    Meets step (fun s a => P s a ∧ Q s a) s as := by
  induction as generalizing s with
  | nil => trivial
  | cons a as ih => exact ⟨⟨hp.1, hq.1⟩, fun s' hs' => ih (hp.2 s' hs') (hq.2 s' hs')⟩

theorem meets_append (hr : run step s as = some t) :
    Meets step Ok s (as ++ bs) ↔ Meets step Ok s as ∧ Meets step Ok t bs := by
  induction as generalizing s with
  | nil =>
    rw [run_nil, some.injEq] at hr
    subst hr
    simp [Meets]
  | cons a as ih =>
    obtain ⟨s', hs', hrest⟩ := run_cons_eq_some.mp hr
    rw [List.cons_append, meets_cons_some hs', meets_cons_some hs', ih hrest, and_assoc]

theorem meets_of_forall (h : ∀ s, ∀ a ∈ as, Ok s a) : Meets step Ok s as := by
  induction as generalizing s with
  | nil => trivial
  | cons a as ih =>
    exact ⟨h s a List.mem_cons_self, fun _ _ => ih fun s b hb => h s b (List.mem_cons_of_mem _ hb)⟩

theorem meets_true : Meets step (fun _ _ => True) s as :=
  meets_of_forall fun _ _ _ => trivial

theorem run_inv' (Inv : σ → Prop) (hstep : ∀ s a s', Inv s → step s a = some s' → Inv s')
    (hs : Inv s) (hr : run step s as = some t) : Inv t :=
  run_inv Inv (fun _ _ => True) (fun s a s' hi _ h => hstep s a s' hi h) hs meets_true hr

/-- **Striking actions from a run.** If another system keeps up without the actions that are struck, the
    rest of the run is one of its runs. -/
theorem run_struck {τ : Type*} {step' : τ → α → Option τ} {u : τ} (Sim : σ → τ → Prop) (keep : α → Bool)
    (hkeep : ∀ s u a s', Sim s u → keep a = true → step s a = some s' →
      ∃ u', step' u a = some u' ∧ Sim s' u')
    (hstrike : ∀ s u a s', Sim s u → keep a = false → step s a = some s' → Sim s' u)
    (hs : Sim s u) (hr : run step s as = some t) :
    ∃ v, run step' u (as.filter keep) = some v ∧ Sim t v := by
  induction as generalizing s u with
  | nil =>
    rw [run_nil, some.injEq] at hr
    exact ⟨u, rfl, hr ▸ hs⟩
  | cons a as ih =>
    obtain ⟨s', hstep, hrest⟩ := run_cons_eq_some.mp hr
    cases ha : keep a with
    | false =>
      rw [List.filter_cons_of_neg (by simp [ha])]
      exact ih (hstrike s u a s' hs ha hstep) hrest
    | true =>
      obtain ⟨u', hu', hs'⟩ := hkeep s u a s' hs ha hstep
      obtain ⟨v, hv, htv⟩ := ih hs' hrest
      exact ⟨v, (List.filter_cons_of_pos ha).symm ▸ run_cons_eq_some.mpr ⟨u', hu', hv⟩, htv⟩

/-- **A gauge for the condition.** If a quantity stays where it is on every step that meets the
    condition and rises on every other, the runs that meet it throughout are those that end where
    they began. -/
theorem meets_iff_gauge {β : Type*} [Preorder β] (Inv : σ → Prop) (Ok : σ → α → Prop)
    (gauge : σ → β) (hstep : ∀ s a s', Inv s → step s a = some s' → Inv s')
    (hok : ∀ s a s', Inv s → Ok s a → step s a = some s' → gauge s' = gauge s)
    (hbad : ∀ s a s', Inv s → ¬ Ok s a → step s a = some s' → gauge s < gauge s') (hs : Inv s)
    (hr : run step s as = some t) : Meets step Ok s as ↔ gauge t = gauge s := by
  have hboth : gauge s ≤ gauge t ∧ (Meets step Ok s as ↔ gauge t = gauge s) := by
    induction as generalizing s with
    | nil =>
      rw [run_nil, some.injEq] at hr
      subst hr
      exact ⟨le_refl _, by simp [Meets]⟩
    | cons a as ih =>
      obtain ⟨s', hs', hrest⟩ := run_cons_eq_some.mp hr
      obtain ⟨hle, hiff⟩ := ih (hstep s a s' hs hs') hrest
      by_cases h : Ok s a
      · rw [← hok s a s' hs h hs']
        rw [meets_cons_some hs']
        exact ⟨hle, fun hm => hiff.mp hm.2, fun he => ⟨h, hiff.mpr he⟩⟩
      · have hlt := lt_of_lt_of_le (hbad s a s' hs h hs') hle
        exact ⟨hlt.le, fun hm => absurd hm.1 h, fun he => absurd he hlt.ne'⟩
  exact hboth.2

/-- **Once lost, lost.** If the first step that misses the condition loses something that no later
    step brings back, a run keeps the invariant or has lost it, by whether it meets the condition. -/
theorem meets_or_lost_on (Base Inv Lost : σ → Prop) (Ok : σ → α → Prop)
    (hbase : ∀ s a s', Base s → step s a = some s' → Base s')
    (hok : ∀ s a s', Base s → Inv s → Ok s a → step s a = some s' → Inv s')
    (hbad : ∀ s a s', Base s → ¬ Ok s a → step s a = some s' → Lost s')
    (hlost : ∀ s a s', Base s → Lost s → step s a = some s' → Lost s') (hb : Base s) (hs : Inv s)
    (hr : run step s as = some t) :
    (Meets step Ok s as → Inv t) ∧ (¬ Meets step Ok s as → Lost t) := by
  refine ⟨fun hm => ?_, fun hm => ?_⟩
  · have hboth : Base t ∧ Inv t := run_inv (fun s => Base s ∧ Inv s) Ok
      (fun s a s' hi ha h => ⟨hbase s a s' hi.1 h, hok s a s' hi.1 hi.2 ha h⟩) ⟨hb, hs⟩ hm hr
    exact hboth.2
  · clear hs
    induction as generalizing s with
    | nil => exact absurd trivial hm
    | cons a as ih =>
      obtain ⟨s', hs', hrest⟩ := run_cons_eq_some.mp hr
      have hb' := hbase s a s' hb hs'
      rw [meets_cons_some hs', not_and] at hm
      by_cases h : Ok s a
      · exact ih hb' hrest (hm h)
      · have hboth : Base t ∧ Lost t := run_inv' (fun s => Base s ∧ Lost s)
          (fun s a s' hi h => ⟨hbase s a s' hi.1 h, hlost s a s' hi.1 hi.2 h⟩)
          ⟨hb', hbad s a s' hb h hs'⟩ hrest
        exact hboth.2

end Schedule
