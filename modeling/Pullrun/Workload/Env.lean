import Pullrun.Proof.Oci.Reference

/-!
# The environment of a container

What `LinuxContainerExecutor::create` of `pullrun-exec/src/container.rs` writes as the environment: the
image's entries, in the image's order, with the values of the request, and after them what only the
request has.
-/

namespace Pullrun

/-- `HashMap<String, String>`: what it answers, and its entries in the order it is gone through. -/
structure EnvMap where
  get : Str → Option Str
  iter : List (Str × Str)
  nodup : iter.Nodup
  mem_iter : ∀ {k v : Str}, (k, v) ∈ iter ↔ get k = some v

namespace Env

/-- `format!("{k}={v}")`. -/
def entry (p : Str × Str) : Str := p.1 ++ '=' :: p.2

def keyOf (kv : Str) : Option Str := (splitOnce '=' kv).map Prod.fst

/-- An entry of the image, with the request's value if the request has its key. -/
def overridden (specEnv : EnvMap) (kv : Str) : Str :=
  match splitOnce '=' kv with
  | none => kv
  | some (key, _) =>
    match specEnv.get key with
    | none => kv
    | some val => entry (key, val)

/-- The environment that is written for the entries of the image and those of the request. -/
def merge (image : List Str) (specEnv : EnvMap) : List Str :=
  let envVars := image.map (overridden specEnv)
  let existingKeys := envVars.filterMap keyOf
  envVars ++ (specEnv.iter.filter fun p => !existingKeys.contains p.1).map entry

def pairs (env : List Str) : List (Str × Str) := env.filterMap (splitOnce '=')

/-- The value of a key: that of the first entry that has it. -/
def getenv (env : List Str) (key : Str) : Option Str :=
  ((pairs env).find? fun p => p.1 = key).map Prod.snd

variable {image : List Str} {specEnv : EnvMap}

theorem splitOnce_entry {p : Str × Str} (h : '=' ∉ p.1) : splitOnce '=' (entry p) = some p :=
  splitOnce_append h

theorem splitOnce_overridden (kv : Str) : splitOnce '=' (overridden specEnv kv) =
    (splitOnce '=' kv).map fun p => (p.1, (specEnv.get p.1).getD p.2) := by
  unfold overridden
  cases hkv : splitOnce '=' kv with
  | none => exact hkv
  | some p =>
    cases hval : specEnv.get p.1 with
    | none => simpa [hval] using hkv
    | some val => simp [hval, splitOnce_entry (p := (p.1, val)) (splitOnce_eq_some hkv).2]

theorem keyOf_overridden (kv : Str) : keyOf (overridden specEnv kv) = keyOf kv := by
  rw [keyOf, splitOnce_overridden, Option.map_map]
  rfl

theorem keys_eq (image : List Str) : image.filterMap keyOf = (pairs image).map Prod.fst :=
  List.map_filterMap.symm

theorem merge_eq (image : List Str) (specEnv : EnvMap) : merge image specEnv =
    image.map (overridden specEnv) ++
      (specEnv.iter.filter fun p => p.1 ∉ image.filterMap keyOf).map entry := by
  simp only [merge, List.filterMap_map, Function.comp_def, keyOf_overridden, List.contains_eq_mem,
    decide_not]

theorem pairs_merge (hkeys : ∀ p ∈ specEnv.iter, '=' ∉ p.1) : pairs (merge image specEnv) =
    (pairs image).map (fun p => (p.1, (specEnv.get p.1).getD p.2)) ++
      specEnv.iter.filter fun p => p.1 ∉ image.filterMap keyOf := by
  have hentries : ∀ p ∈ specEnv.iter.filter fun p => p.1 ∉ image.filterMap keyOf,
      (splitOnce '=' ∘ entry) p = some p :=
    fun p hp => splitOnce_entry (hkeys p (List.mem_of_mem_filter hp))
  rw [merge_eq, pairs, List.filterMap_append, List.filterMap_map, List.filterMap_map,
    List.filterMap_congr hentries, List.filterMap_some, pairs, List.map_filterMap]
  simp only [Function.comp_def, splitOnce_overridden]

theorem find_appended {key : Str} (h : (pairs image).find? (fun p => p.1 = key) = none) :
    ((specEnv.iter.filter fun p => p.1 ∉ image.filterMap keyOf).find? fun p => p.1 = key).map
      Prod.snd = specEnv.get key := by
  cases hfind : (specEnv.iter.filter fun p => p.1 ∉ image.filterMap keyOf).find? fun p => p.1 = key with
  | some p =>
    obtain rfl : p.1 = key := by simpa using List.find?_some hfind
    exact (specEnv.mem_iter.mp (List.mem_of_mem_filter (List.mem_of_find?_eq_some hfind))).symm
  | none =>
    cases hget : specEnv.get key with
    | none => rfl
    | some v =>
      have hnew : key ∉ image.filterMap keyOf := by
        rw [keys_eq]
        rintro hmem
        obtain ⟨p, hp, rfl⟩ := List.mem_map.mp hmem
        simpa using List.find?_eq_none.mp h p hp
      have hmem := List.find?_eq_none.mp hfind (key, v)
        (List.mem_filter.mpr ⟨specEnv.mem_iter.mpr hget, by simpa using hnew⟩)
      simp at hmem

/-- **The environment is the image's, with the values of the request, and after it one entry for each
key that only the request has**; a key has the request's value if it has one there, and the image's
otherwise. -/
theorem merge_spec (image : List Str) (specEnv : EnvMap)
    (hkeys : ∀ p ∈ specEnv.iter, '=' ∉ p.1) :
    (∃ kept appended, merge image specEnv = kept ++ appended ∧
      List.Forall₂ (fun kv out =>
        (∀ k v, keyOf kv = some k → specEnv.get k = some v → out = entry (k, v)) ∧
        ((∀ k, keyOf kv = some k → specEnv.get k = none) → out = kv)) image kept ∧
      appended.Nodup ∧ ∀ kv, kv ∈ appended ↔ ∃ k v, specEnv.get k = some v ∧
        (∀ e ∈ image, keyOf e ≠ some k) ∧ kv = entry (k, v)) ∧
      ∀ key, getenv (merge image specEnv) key = (specEnv.get key).or (getenv image key) := by
  rw [merge_eq]
  refine ⟨⟨_, _, rfl, ?_, ?_, ?_⟩, ?_⟩
  · rw [List.forall₂_map_right_iff, List.forall₂_same]
    intro kv _
    unfold overridden keyOf
    cases splitOnce '=' kv with
    | none => simp
    | some p => cases hval : specEnv.get p.1 <;> simp_all
  · refine (specEnv.nodup.filter _).map_on ?_
    intro p hp q hq heq
    have hp' := splitOnce_entry (hkeys p (List.mem_of_mem_filter hp))
    rw [heq, splitOnce_entry (hkeys q (List.mem_of_mem_filter hq))] at hp'
    exact (Option.some.inj hp').symm
  · intro kv
    simp [EnvMap.mem_iter, and_assoc, eq_comm]
  · intro key
    rw [← merge_eq, getenv, pairs_merge hkeys, List.find?_append, List.find?_map, getenv, Option.map_or,
      Option.map_map]
    cases hfind : (pairs image).find? fun p => p.1 = key with
    | none => simpa [Function.comp_def, hfind] using find_appended hfind
    | some p =>
      obtain rfl : p.1 = key := by simpa using List.find?_some hfind
      cases hget : specEnv.get p.1 <;> simp [Function.comp_def, hfind, hget]

/-- A request that sets `A`, which the image has too, and `C`, which is appended. -/
def setsA : EnvMap where
  get k := if k = ['A'] then some ['1'] else if k = ['C'] then some ['2'] else none
  iter := [(['A'], ['1']), (['C'], ['2'])]
  nodup := by decide
  mem_iter := by grind

theorem merge_spec_A : (∀ p ∈ setsA.iter, '=' ∉ p.1) ∧
    merge [['A', '=', '0'], ['B']] setsA = [['A', '=', '1'], ['B'], ['C', '=', '2']] ∧
    getenv (merge [['A', '=', '0'], ['B']] setsA) ['A'] = some ['1'] ∧
    getenv (merge [['A', '=', '0'], ['B']] setsA) ['C'] = some ['2'] := by
  have hspec := (merge_spec [['A', '=', '0'], ['B']] setsA (by decide)).2
  exact ⟨by decide, by decide, (hspec ['A']).trans (by decide), (hspec ['C']).trans (by decide)⟩

end Env

end Pullrun
