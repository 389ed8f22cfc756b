import Mathlib.Data.List.Nodup
import Mathlib.Logic.Relation
import Pullrun.Store.Digest

/-!
# The order in which services are started

`sortServices` of `cmd/pullrun-compose/compose.go`, which `up` calls on the services that are asked for:
all of the project, or those named on the command line. The search goes down to dependencies that were
not asked for, and they take up room in the slice that it is copied back to.
-/

namespace Pullrun.Compose

open List Relation

/-- The services of a project, and what each depends on, in the order in which the map is gone through.
The search goes through the dependencies of a service once. -/
structure Project where
  services : List Str
  dependsOn : Str → List Str

namespace Project

variable (p : Project)

/-- `visit`. What is `visited` is what `order` has; `none` is a recursion that has not come to an end. -/
def visit : ℕ → List Str → List Str → Str → Option (List Str)
  | 0, _, _, _ => none
  | fuel + 1, inStack, order, name =>
    if order.contains name || inStack.contains name then some order
    else do
      let order ← ((p.dependsOn name).filter p.services.contains).foldlM (visit fuel (name :: inStack)) order
      some (order ++ [name])

/-- What `names` is after the call: `copy` stops at the end of the shorter slice. -/
def sortServices (names : List Str) : Option (List Str) := do
  let order ← names.foldlM (p.visit (p.services.length + 1) []) []
  some (order.take names.length ++ names.drop order.length)

/-- The dependencies of `n` that the project has. -/
def Needs (n d : Str) : Prop := d ∈ p.dependsOn n ∧ d ∈ p.services

/-- What holds of `order` while the services of `inStack` are being visited: each service comes after
its dependencies, unless it is on a cycle. -/
structure Ok (inStack order : List Str) : Prop where
  nodup : order.Nodup
  apart : ∀ s ∈ inStack, s ∉ order
  closed : ∀ n ∈ order, ∀ d, p.Needs n d → d ∈ order ∨ d ∈ inStack
  sorted : ∀ l n r, order = l ++ n :: r → ∀ d, p.Needs n d → d ∈ l ∨ TransGen p.Needs n n

structure Visits (inStack names order order' : List Str) : Prop where
  ok : p.Ok inStack order'
  grows : order <+: order'
  done : ∀ n ∈ names, n ∈ order' ∨ n ∈ inStack
  reached : ∀ m ∈ order', m ∈ order ∨ ∃ n ∈ names, ReflTransGen p.Needs n m
  last : order' = order ∨ ∃ l, ∃ n ∈ names, order' = l ++ [n]

variable {p} {inStack names order order' : List Str} {name : Str}

theorem visits_foldlM {f : List Str → Str → Option (List Str)}
    (hf : ∀ n ∈ names, ∀ order, p.Ok inStack order →
      ∃ order', f order n = some order' ∧ p.Visits inStack [n] order order')
    (h : p.Ok inStack order) :
    ∃ order', names.foldlM f order = some order' ∧ p.Visits inStack names order order' := by
  induction names generalizing order with
  | nil => exact ⟨order, rfl, h, prefix_rfl, by simp, fun m hm => .inl hm, .inl rfl⟩
  | cons n names ih =>
    obtain ⟨order₁, heq₁, h₁⟩ := hf n mem_cons_self order h
    obtain ⟨order₂, heq₂, h₂⟩ := ih (fun m hm => hf m (mem_cons_of_mem _ hm)) h₁.ok
    refine ⟨order₂, by rw [foldlM_cons, heq₁]; exact heq₂, h₂.ok, h₁.grows.trans h₂.grows, ?_, ?_, ?_⟩
    · intro m hm
      rcases mem_cons.mp hm with rfl | hm
      · exact (h₁.done m mem_cons_self).imp_left (h₂.grows.subset ·)
      · exact h₂.done m hm
    · intro m hm
      rcases h₂.reached m hm with hm | ⟨k, hk, hreach⟩
      · refine (h₁.reached m hm).imp_right ?_
        rintro ⟨k, hk, hreach⟩
        exact ⟨k, mem_cons.mpr (.inl (mem_singleton.mp hk)), hreach⟩
      · exact .inr ⟨k, mem_cons_of_mem _ hk, hreach⟩
    · rcases h₂.last with rfl | ⟨l, k, hk, heq⟩
      · refine h₁.last.imp_right ?_
        rintro ⟨l, k, hk, heq⟩
        exact ⟨l, k, mem_cons.mpr (.inl (mem_singleton.mp hk)), heq⟩
      · exact .inr ⟨l, k, mem_cons_of_mem _ hk, heq⟩

/-- A service is put after its dependencies, which are all there or being visited. -/
theorem Ok.append (h : p.Ok (name :: inStack) order) (hfree : name ∉ inStack)
    (hdeps : ∀ d, p.Needs name d → d ∈ order ∨ d ∈ name :: inStack)
    (hreach : ∀ s ∈ inStack, TransGen p.Needs s name) : p.Ok inStack (order ++ [name]) where
  nodup := by
    rw [nodup_append]
    exact ⟨h.nodup, nodup_singleton _, fun a ha b hb heq => h.apart name mem_cons_self
      (mem_singleton.mp hb ▸ heq ▸ ha)⟩
  apart s hs := by
    rw [mem_append, mem_singleton, not_or]
    exact ⟨h.apart s (mem_cons_of_mem _ hs), fun heq => hfree (heq ▸ hs)⟩
  closed n hn d hd := by
    have hd' : d ∈ order ∨ d ∈ name :: inStack := by
      rcases mem_append.mp hn with hn | hn
      · exact h.closed n hn d hd
      · exact hdeps d (mem_singleton.mp hn ▸ hd)
    simpa [or_assoc] using hd'
  sorted l n r hsplit d hd := by
    rcases eq_nil_or_concat r with rfl | ⟨r, x, rfl⟩
    · -- a dependency that is being visited leads back to the service
      obtain ⟨rfl, heq⟩ := append_inj' hsplit rfl
      cases heq
      refine (hdeps d hd).imp_right fun hstack => ?_
      rcases mem_cons.mp hstack with rfl | hstack
      · exact .single hd
      · exact .head hd (hreach d hstack)
    · rw [concat_eq_append, ← cons_append, ← append_assoc] at hsplit
      exact h.sorted l n r (append_inj' hsplit rfl).1 d hd

theorem visits_visit {fuel : ℕ} (hstack : inStack.Nodup) (hsub : inStack ⊆ p.services)
    (hname : name ∈ p.services) (hfuel : p.services.length < fuel + inStack.length)
    (hreach : ∀ s ∈ inStack, TransGen p.Needs s name) (h : p.Ok inStack order) :
    ∃ order', p.visit fuel inStack order name = some order' ∧ p.Visits inStack [name] order order' := by
  induction fuel generalizing inStack name order with
  | zero =>
    -- the stack has no service twice
    have hle := (hstack.subperm hsub).length_le
    omega
  | succ fuel ih =>
    rw [visit]
    split
    case isTrue hseen =>
      exact ⟨order, rfl, h, prefix_rfl, by simpa using hseen, fun m hm => .inl hm, .inl rfl⟩
    case isFalse hseen =>
      obtain ⟨hnew, hfree⟩ : name ∉ order ∧ name ∉ inStack := by simpa using hseen
      have hok : p.Ok (name :: inStack) order :=
        ⟨h.nodup, forall_mem_cons.mpr ⟨hnew, h.apart⟩,
          fun n hn d hd => (h.closed n hn d hd).imp_right (mem_cons_of_mem _), h.sorted⟩
      have hneeds : ∀ {d}, d ∈ (p.dependsOn name).filter p.services.contains ↔ p.Needs name d := by
        simp [Needs]
      obtain ⟨order', heq, hv⟩ := visits_foldlM (fun d hd order hok =>
        ih (nodup_cons.mpr ⟨hfree, hstack⟩) (cons_subset.mpr ⟨hname, hsub⟩) (hneeds.mp hd).2
          (by rw [length_cons]; omega)
          (forall_mem_cons.mpr ⟨.single (hneeds.mp hd), fun s hs => (hreach s hs).tail (hneeds.mp hd)⟩)
          hok) hok
      rw [heq]
      refine ⟨order' ++ [name], rfl, hv.ok.append hfree (fun d hd => hv.done d (hneeds.mpr hd)) hreach,
        hv.grows.trans (prefix_append _ _), by simp, ?_, .inr ⟨order', name, by simp⟩⟩
      intro m hm
      rcases mem_append.mp hm with hm | hm
      · refine (hv.reached m hm).imp_right ?_
        rintro ⟨d, hd, hm⟩
        exact ⟨name, mem_singleton_self _, .head (hneeds.mp hd) hm⟩
      · exact .inr ⟨m, hm, .refl⟩

/-- **All services that are asked for are started, each after those it depends on, exactly if what they
depend on is asked for too.** Otherwise the last one is cut off. -/
theorem sortServices_complete_iff (p : Project) {names : List Str} (hnames : names.Nodup)
    (hsub : names ⊆ p.services) : ∃ out, p.sortServices names = some out ∧
      ((names ⊆ out ∧ ∀ l n r, out = l ++ n :: r → ¬ TransGen p.Needs n n →
        ∀ d ∈ out, p.Needs n d → d ∈ l) ↔ ∀ n ∈ names, ∀ d, p.Needs n d → d ∈ names) := by
  have hstart : p.Ok [] [] := ⟨nodup_nil, by simp, by simp, by simp⟩
  obtain ⟨order, heq, hv⟩ := visits_foldlM (f := p.visit (p.services.length + 1) []) (fun n hn order hok =>
    visits_visit nodup_nil (nil_subset _) (hsub hn) (by simp) (by simp) hok) hstart
  have hall : names ⊆ order := fun n hn => (hv.done n hn).resolve_right not_mem_nil
  have hperm := hnames.subperm hall
  refine ⟨order.take names.length, by simp [sortServices, heq, drop_eq_nil_of_le hperm.length_le], ?_⟩
  rw [and_iff_left]
  · constructor
    · intro hin n hn d hd
      have hlength : order.length ≤ names.length := by
        rcases hv.last with rfl | ⟨l, k, hk, rfl⟩
        · exact Nat.zero_le _
        · by_contra hlt
          rw [length_append, length_singleton] at hlt
          have hkl := hin hk
          rw [take_append_of_le_length (by omega)] at hkl
          exact (nodup_append.mp hv.ok.nodup).2.2 k (mem_of_mem_take hkl) k (mem_singleton_self _) rfl
      rw [(hperm.perm_of_length_le hlength).mem_iff]
      exact (hv.ok.closed n (hall hn) d hd).resolve_right not_mem_nil
    · intro hclosed
      have hback : order ⊆ names := by
        intro m hm
        obtain ⟨n, hn, hreach⟩ := (hv.reached m hm).resolve_left not_mem_nil
        clear hm
        induction hreach with
        | refl => exact hn
        | tail _ hstep ih => exact hclosed _ ih _ hstep
      rw [take_of_length_le (hv.ok.nodup.subperm hback).length_le]
      exact hall
  · intro l n r hsplit hcycle d _ hd
    refine (hv.ok.sorted l n (r ++ order.drop names.length) ?_ d hd).resolve_right hcycle
    rw [← cons_append, ← append_assoc, ← hsplit, take_append_drop]

end Project

/-- `a` depends on `b`. -/
def aOnB : Project := ⟨[['a'], ['b']], fun n => if n = ['a'] then [['b']] else []⟩

theorem dependency_takes_place : aOnB.sortServices [['a']] = some [['b']] := by decide

theorem sortServices_complete_both : [['a'], ['b']].Nodup ∧ [['a'], ['b']] ⊆ aOnB.services ∧
    ∃ out, aOnB.sortServices [['a'], ['b']] = some out ∧ [['a'], ['b']] ⊆ out := by
  refine ⟨by decide, by decide, ?_⟩
  obtain ⟨out, heq, hiff⟩ := @Project.sortServices_complete_iff aOnB [['a'], ['b']] (by decide) (by decide)
  exact ⟨out, heq, (hiff.mpr fun n hn d hd => hd.2).1⟩

end Pullrun.Compose
