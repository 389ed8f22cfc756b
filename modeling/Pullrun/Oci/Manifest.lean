import Pullrun.Oci.Json

/-!
# Image configurations and manifests

The structures of `pullrun-oci/src/puller.rs` and `converter.rs` that become JSON, with what `serde`
derives for them. A field marked `skip_serializing_if = "Option::is_none"` is left out when it is
`None`.

Several fields are hash maps. A map is here the list of its bindings, in no meaningful order; the
order in which a run of the program visits them is given by a `Seed`, one for each map that is built
(Rust seeds every map on its own), and `iterate` puts the bindings in that order.
-/

namespace Pullrun

open Value List

/-! ## Iteration order -/

/-- The order of a hash map: keys are visited by increasing rank. -/
abbrev Seed := Str → ℕ

def iterate {V : Type} (seed : Seed) (m : List (Str × V)) : List (Str × V) :=
  m.insertionSort fun a b => seed a.1 ≤ seed b.1

variable {V : Type} {m : List (Str × V)}

theorem iterate_perm (seed : Seed) (m : List (Str × V)) : (iterate seed m).Perm m :=
  perm_insertionSort _ m

/-- All bindings are of one key; in a map, there is at most one. -/
def OneKey {V : Type} (m : List (Str × V)) : Prop := ∀ a ∈ m, ∀ b ∈ m, a.1 = b.1

instance {V : Type} (m : List (Str × V)) : Decidable (OneKey m) :=
  inferInstanceAs (Decidable (∀ a ∈ m, ∀ b ∈ m, a.1 = b.1))

theorem iterate_of_oneKey (seed : Seed) (h : OneKey m) : iterate seed m = m := by
  have hsorted : m.Pairwise fun a b => seed a.1 ≤ seed b.1 :=
    pairwise_of_forall_mem_list fun a ha b hb => le_of_eq (by rw [h a ha b hb])
  exact hsorted.insertionSort_eq

def keyFirst (k : Str) : Seed := fun l => if l = k then 0 else 1

theorem iterate_keyFirst {b : Str × V} (hb : b ∈ m) :
    ∃ first, (iterate (keyFirst b.1) m).head? = some first ∧ first.1 = b.1 := by
  have hsorted := pairwise_insertionSort
    (fun a c : Str × V => keyFirst b.1 a.1 ≤ keyFirst b.1 c.1) m
  have hmem : b ∈ iterate (keyFirst b.1) m := (iterate_perm _ m).mem_iff.mpr hb
  cases hit : iterate (keyFirst b.1) m with
  | nil => rw [hit] at hmem; cases hmem
  | cons first rest =>
    refine ⟨first, rfl, ?_⟩
    -- Only a binding of that key can stand before one.
    have hle : keyFirst b.1 first.1 ≤ keyFirst b.1 b.1 := by
      rw [hit] at hmem
      rcases mem_cons.mp hmem with rfl | hrest
      · exact le_refl _
      · rw [iterate] at hit
        rw [hit] at hsorted
        exact (pairwise_cons.mp hsorted).1 b hrest
    by_contra hne
    simp [keyFirst, hne] at hle

/-- **The order shows.** The keys of a map are visited in one order only if there is at most one. -/
theorem oneKey_of_keys_eq
    (h : ∀ seed seed', (iterate seed m).map Prod.fst = (iterate seed' m).map Prod.fst) :
    OneKey m := by
  intro a ha b hb
  obtain ⟨first, hfirst, hkey⟩ := iterate_keyFirst ha
  obtain ⟨first', hfirst', hkey'⟩ := iterate_keyFirst hb
  have hheads := congrArg head? (h (keyFirst a.1) (keyFirst b.1))
  rw [head?_map, head?_map, hfirst, hfirst', Option.map_some, Option.map_some,
    Option.some.injEq] at hheads
  rw [← hkey, ← hkey', hheads]

theorem oneKey_of_iterate_eq (h : ∀ seed seed', iterate seed m = iterate seed' m) : OneKey m :=
  oneKey_of_keys_eq fun seed seed' => by rw [h seed seed']

/-! ## `serde` on optional fields and on maps -/

/-- A field that is left out when it is `None`. -/
def Value.skipNone {α : Type} (name : Str) (f : α → Value) : Option α → List (Str × Value)
  | none => []
  | some a => [(name, f a)]

def Value.ofStrs (l : List Str) : Value := .arr (l.map .str)

/-- A field of type `Option<T>`, written or not. -/
def Value.optionalOf {α : Type} (fields : List (Str × Value)) (name : Str) (f : Value → Option α) :
    Option (Option α) :=
  match field fields name with
  | some none => some none
  | some (some .null) => some none
  | some (some v) => (f v).map some
  | none => none

def Value.asStrs : Value → Option (List Str)
  | .arr items => readAll asStr items
  | _ => none

def Value.get? (v : Value) (name : Str) : Option Value :=
  match v with
  | .obj fields => fields.lookup name
  | _ => none

theorem Value.lookup_skipNone {α : Type} (name k : Str) (f : α → Value) (o : Option α) :
    (skipNone name f o).lookup k = if k = name then o.map f else none := by
  cases o with
  | none => simp [skipNone]
  | some a =>
    by_cases hk : k = name
    · simp [skipNone, hk]
    · have hne : (k == name) = false := by simpa using hk
      simp [skipNone, hk, lookup_cons, hne]

theorem Value.skipNone_iterate {name : Str} {f : V → Value} {o : Option (List (Str × V))}
    (h : ∀ m ∈ o, OneKey m) (seed seed' : Seed) :
    Value.skipNone name (fun m => .ofMap f (iterate seed m)) o
      = Value.skipNone name (fun m => .ofMap f (iterate seed' m)) o := by
  cases o with
  | none => rfl
  | some m => simp only [skipNone, iterate_of_oneKey _ (h m rfl)]

theorem Value.ofStrs_inj {l l' : List Str} (h : ofStrs l = ofStrs l') : l = l' := by
  injection h with h
  exact map_injective_iff.mpr (fun a b hab => str.inj hab) h

theorem Value.ofMap_inj {f : V → Value} (hf : Function.Injective f) {m' : List (Str × V)}
    (h : ofMap f m = ofMap f m') : m = m' := by
  injection h with h
  refine map_injective_iff.mpr (fun a b hab => ?_) h
  injection hab with hk hv
  exact Prod.ext hk (hf hv)

/-! ## Descriptors -/

structure OciPlatform where
  architecture : Str
  os : Str
  osVersion : Option Str
  osFeatures : Option (List Str)
  variant : Option Str
deriving DecidableEq

def OciPlatform.toValue (p : OciPlatform) : Value :=
  .obj ([("architecture".toList, .str p.architecture), ("os".toList, .str p.os)] ++
    Value.skipNone "os.version".toList .str p.osVersion ++
    Value.skipNone "os.features".toList Value.ofStrs p.osFeatures ++
    Value.skipNone "variant".toList .str p.variant)

def OciPlatform.ofValue : Value → Option OciPlatform
  | .obj fields => do
    let architecture ← Value.required fields "architecture".toList Value.asStr
    let os ← Value.required fields "os".toList Value.asStr
    let osVersion ← Value.optionalOf fields "os.version".toList Value.asStr
    let osFeatures ← Value.optionalOf fields "os.features".toList Value.asStrs
    let variant ← Value.optionalOf fields "variant".toList Value.asStr
    pure ⟨architecture, os, osVersion, osFeatures, variant⟩
  | _ => none

structure OciDescriptor where
  mediaType : Str
  digest : Str
  size : UInt64
  urls : Option (List Str) := none
  annotations : Option (List (Str × Str)) := none
  data : Option Str := none
  platform : Option OciPlatform := none
  artifactType : Option Str := none
deriving DecidableEq

/-- The descriptor as JSON, its annotations in the order of `seed`. -/
def OciDescriptor.toValue (seed : Seed) (d : OciDescriptor) : Value :=
  .obj ([("mediaType".toList, .str d.mediaType), ("digest".toList, .str d.digest),
      ("size".toList, .num d.size.toNat)] ++
    Value.skipNone "urls".toList Value.ofStrs d.urls ++
    Value.skipNone "annotations".toList (fun m => .ofMap .str (iterate seed m)) d.annotations ++
    Value.skipNone "data".toList .str d.data ++
    Value.skipNone "platform".toList OciPlatform.toValue d.platform ++
    Value.skipNone "artifactType".toList .str d.artifactType)

def OciDescriptor.ofValue : Value → Option OciDescriptor
  | .obj fields => do
    let mediaType ← Value.required fields "mediaType".toList Value.asStr
    let digest ← Value.required fields "digest".toList Value.asStr
    let size ← Value.required fields "size".toList Value.asU64
    let urls ← Value.optionalOf fields "urls".toList Value.asStrs
    let annotations ← Value.optionalOf fields "annotations".toList (Value.asMap Value.asStr)
    let data ← Value.optionalOf fields "data".toList Value.asStr
    let platform ← Value.optionalOf fields "platform".toList OciPlatform.ofValue
    let artifactType ← Value.optionalOf fields "artifactType".toList Value.asStr
    pure ⟨mediaType, digest, size, urls, annotations, data, platform, artifactType⟩
  | _ => none

/-! ## Image configurations -/

/-- `OciRuntimeConfig`, without the labels, which nothing here reads or writes. -/
structure OciRuntimeConfig where
  user : Option Str := none
  exposedPorts : Option (List (Str × Value)) := none
  env : Option (List Str) := none
  entrypoint : Option (List Str) := none
  cmd : Option (List Str) := none
  volumes : Option (List (Str × Value)) := none
  workingDir : Option Str := none
  stopSignal : Option Str := none

/-- `OciImageConfig`: what the converter reads and the exporter writes. -/
structure OciImageConfig where
  architecture : Str
  os : Str
  variant : Option Str := none
  config : Option OciRuntimeConfig := none

structure ManifestData where
  entrypoint : List Str
  cmd : List Str
  env : List Str
  workingDir : Option Str
  architecture : Str
  os : Str
  annotations : Option (List (Str × Str)) := none
  subject : Option OciDescriptor := none
  user : Option Str := none
  stopSignal : Option Str := none
  exposedPorts : Option (List Str) := none
  volumes : Option (List Str) := none
  variant : Option Str := none
deriving DecidableEq

structure ManifestSeeds where
  annotations : Seed := fun _ => 0
  subject : Seed := fun _ => 0

def ManifestData.toValue (seeds : ManifestSeeds) (m : ManifestData) : Value :=
  .obj ([("entrypoint".toList, .ofStrs m.entrypoint), ("cmd".toList, .ofStrs m.cmd),
      ("env".toList, .ofStrs m.env), ("working_dir".toList, .ofOptStr m.workingDir),
      ("architecture".toList, .str m.architecture), ("os".toList, .str m.os)] ++
    Value.skipNone "annotations".toList (fun a => .ofMap .str (iterate seeds.annotations a))
      m.annotations ++
    Value.skipNone "subject".toList (OciDescriptor.toValue seeds.subject) m.subject ++
    Value.skipNone "user".toList .str m.user ++
    Value.skipNone "stop_signal".toList .str m.stopSignal ++
    Value.skipNone "exposed_ports".toList Value.ofStrs m.exposedPorts ++
    Value.skipNone "volumes".toList Value.ofStrs m.volumes ++
    Value.skipNone "variant".toList .str m.variant)

def ManifestData.ofValue : Value → Option ManifestData
  | .obj fields => do
    let entrypoint ← Value.required fields "entrypoint".toList Value.asStrs
    let cmd ← Value.required fields "cmd".toList Value.asStrs
    let env ← Value.required fields "env".toList Value.asStrs
    let workingDir ← Value.optionalOf fields "working_dir".toList Value.asStr
    let architecture ← Value.required fields "architecture".toList Value.asStr
    let os ← Value.required fields "os".toList Value.asStr
    let annotations ← Value.optionalOf fields "annotations".toList (Value.asMap Value.asStr)
    let subject ← Value.optionalOf fields "subject".toList OciDescriptor.ofValue
    let user ← Value.optionalOf fields "user".toList Value.asStr
    let stopSignal ← Value.optionalOf fields "stop_signal".toList Value.asStr
    let exposedPorts ← Value.optionalOf fields "exposed_ports".toList Value.asStrs
    let volumes ← Value.optionalOf fields "volumes".toList Value.asStrs
    let variant ← Value.optionalOf fields "variant".toList Value.asStr
    pure ⟨entrypoint, cmd, env, workingDir, architecture, os, annotations, subject, user, stopSignal,
      exposedPorts, volumes, variant⟩
  | _ => none

end Pullrun
