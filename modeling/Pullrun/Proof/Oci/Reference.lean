import Pullrun.Oci.Reference

/-!
# Where a pull, a build and a push go

The three take a reference apart with the same test for a registry host.
-/

namespace Pullrun

open List

variable {c : Char} {a b ref host rest registry : Str}

theorem splitOnce_append (h : c ∉ a) : splitOnce c (a ++ c :: b) = some (a, b) := by
  have hne : ∀ x ∈ a, decide (x ≠ c) = true := by
    intro x hx
    have : x ≠ c := ne_of_mem_of_not_mem hx h
    simpa using this
  rw [splitOnce, if_pos (by simp), takeWhile_append_of_pos hne, dropWhile_append_of_pos hne]
  simp

theorem splitOnce_of_notMem (h : c ∉ a) : splitOnce c a = none := if_neg h

theorem splitOnce_eq_some (h : splitOnce c ref = some (a, b)) : ref = a ++ c :: b ∧ c ∉ a := by
  by_cases hc : c ∈ ref
  · obtain ⟨a', b', rfl, ha'⟩ := eq_append_cons_of_mem hc
    rw [splitOnce_append ha', Option.some.injEq, Prod.mk.injEq] at h
    obtain ⟨rfl, rfl⟩ := h
    exact ⟨rfl, ha'⟩
  · rw [splitOnce_of_notMem hc] at h
    cases h

theorem splitHost_eq_some (h : splitHost ref = some (host, rest)) :
    ref = host ++ '/' :: rest ∧ '/' ∉ host ∧ isHost host = true := by
  obtain ⟨hsplit, hhost⟩ := Option.filter_eq_some_iff.mp h
  obtain ⟨href, hslash⟩ := splitOnce_eq_some hsplit
  exact ⟨href, hslash, hhost⟩

theorem splitTag_of_mem (h : ':' ∉ a) : splitTag (a ++ ':' :: b) = (a, b) := by
  rw [splitTag, splitOnce_append h]
  rfl

theorem splitTag_of_notMem (h : ':' ∉ a) : splitTag a = (a, "latest".toList) := by
  rw [splitTag, splitOnce_of_notMem h]
  rfl

theorem splitTag_append (h : ':' ∉ a) : splitTag (a ++ b) = (a ++ (splitTag b).1, (splitTag b).2) := by
  by_cases hb : ':' ∈ b
  · obtain ⟨name, tag, rfl, hname⟩ := eq_append_cons_of_mem hb
    rw [splitTag_of_mem hname, ← append_assoc, splitTag_of_mem (by simp [h, hname])]
  · rw [splitTag_of_notMem hb, splitTag_of_notMem (by simp [h, hb])]

/-! ## The targets -/

/-- A registry, `docker.io` and `registry-1.docker.io` being one. -/
def canonical (registry : Str) : Str := if isDockerHub registry then registry1 else registry

def pullTarget (imageRef : Str) (explicitRegistry : Option Str) : Str × Str × Str :=
  let registry := OciPuller.registryFor imageRef explicitRegistry
  (canonical registry, OciPuller.imageParts imageRef registry)

def buildTarget (imageRef : Str) : Str × Str × Str :=
  pullTarget (Builder.extractImageRef imageRef) (some (Builder.extractRegistry imageRef))

def pushTarget (targetRef : Str) : Str × Str × Str :=
  let target := OciPusher.registryFor targetRef
  (canonical target.1, target.2)

open OciPuller

theorem inLibrary_eq_self_iff {name : Str} :
    inLibrary registry name = name ↔ (isDockerHub registry = true → '/' ∈ name) := by
  unfold inLibrary
  by_cases hslash : '/' ∈ name
  · simp [hslash]
  · by_cases hhub : isDockerHub registry = true
    · have hlonger : "library/".toList ++ name ≠ name := by
        intro h
        cases append_left_eq_self.mp h
      simp only [hslash, hhub, if_false, if_true, hlonger, forall_true_left]
    · simp [hslash, hhub]

theorem pullTarget_of_some {explicit : Option Str} (h : splitHost ref = some (host, rest)) :
    pullTarget ref explicit = (canonical host, inLibrary host (splitTag rest).1, (splitTag rest).2) := by
  simp only [pullTarget, imageParts, registryFor, afterRegistry, h]

theorem pullTarget_of_none (h : splitHost ref = none) :
    pullTarget ref (some registry)
      = (canonical registry, inLibrary registry (splitTag ref).1, (splitTag ref).2) := by
  simp only [pullTarget, imageParts, registryFor, afterRegistry, h, Option.getD_some]

/-- **A host behind the host.** If what follows the registry begins with the name of another, the build
    takes that for the registry, and goes elsewhere. -/
theorem targets_ne {host' rest' : Str} (h' : splitHost rest = some (host', rest')) :
    ((canonical host, inLibrary host (splitTag rest).1, (splitTag rest).2) : Str × Str × Str)
      ≠ (canonical host', inLibrary host' (splitTag rest').1, (splitTag rest').2) := by
  obtain ⟨rfl, hslash, hhost⟩ := splitHost_eq_some h'
  intro heq
  rw [Prod.mk.injEq, Prod.mk.injEq] at heq
  obtain ⟨-, hname, htag⟩ := heq
  by_cases hcolon : ':' ∈ host'
  · -- The tag begins in the host, so that it has all of the rest in it.
    obtain ⟨x, y, rfl, hx⟩ := eq_append_cons_of_mem hcolon
    rw [append_assoc, cons_append, splitTag_of_mem hx] at htag
    by_cases hrest : ':' ∈ rest'
    · obtain ⟨u, v, rfl, hu⟩ := eq_append_cons_of_mem hrest
      rw [splitTag_of_mem hu] at htag
      have := congrArg List.length htag
      simp only [length_append, length_cons] at this
      omega
    · rw [splitTag_of_notMem hrest] at htag
      have hmem : '/' ∈ y ++ '/' :: rest' := mem_append_right _ mem_cons_self
      rw [show y ++ '/' :: rest' = "latest".toList from htag] at hmem
      exact absurd hmem (by decide)
  · -- The name has the host before it, and a host is not the library.
    rw [← singleton_append, ← append_assoc, splitTag_append (by simp [hcolon])] at hname
    rw [inLibrary, if_pos (by simp)] at hname
    unfold inLibrary at hname
    have hlonger : host' ++ ['/'] ++ (splitTag rest').1 ≠ (splitTag rest').1 := by
      intro h
      simpa using append_left_eq_self.mp h
    split at hname
    · exact hlonger hname
    · split at hname
      · have hlib := append_cancel_right hname
        rw [show "library/".toList = "library".toList ++ ['/'] from rfl] at hlib
        rw [append_cancel_right hlib] at hhost
        exact absurd hhost (by decide)
      · exact hlonger hname

end Pullrun
