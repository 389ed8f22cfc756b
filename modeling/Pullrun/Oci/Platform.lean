import Pullrun.Oci.Manifest
import Pullrun.Policy.Engine
import Pullrun.Proof.Oci.Reference

/-!
# Which manifest of a list is pulled

The choice that `fetch_manifest_with_platform` of `pullrun-oci/src/puller.rs` makes in a manifest list, and
`parse_platform`, which takes `$OS/$ARCH`. What follows a second slash is left in the architecture.
-/

namespace Pullrun

/-- `splitn(2, '/')`: the architecture and the operating system. -/
def parsePlatform (platform : Str) : Str × Str :=
  let (os, arch) := (splitOnce '/' platform).getD (platform, [])
  (if arch = [] then "amd64".toList else arch, if os = [] then "linux".toList else os)

def OciDescriptor.isFor (arch os : Str) (m : OciDescriptor) : Bool :=
  m.platform.any fun p => eqIgnoreAsciiCase p.os os && eqIgnoreAsciiCase p.architecture arch

/-- The first manifest that is no attestation, or else the first. -/
def fallback (manifests : List OciDescriptor) : Option OciDescriptor :=
  (manifests.find? fun m => m.platform.all fun p =>
    p.os ≠ "unknown".toList && p.architecture ≠ "unknown".toList).or manifests.head?

/-- The manifest that is followed for an explicit platform. -/
def followed (manifests : List OciDescriptor) (platform : Str) : Option OciDescriptor :=
  let (targetArch, targetOs) := parsePlatform platform
  (manifests.find? (OciDescriptor.isFor targetArch targetOs)).or (fallback manifests)

/-- `os/arch` or `os/arch/variant`. -/
def platformText (os arch : Str) (variant : Option Str) : Str :=
  os ++ '/' :: (arch ++ variant.elim [] ('/' :: ·))

/-- The descriptor is for the system and the architecture, and for the variant if one is given. -/
def Requested (os arch : Str) (variant : Option Str) (m : OciDescriptor) : Prop :=
  m.isFor arch os ∧ ∀ v ∈ variant, m.platform.bind OciPlatform.variant = some v

variable {os arch : Str} {variant : Option Str} {manifests : List OciDescriptor}

theorem parsePlatform_platformText (hos : os ≠ []) (harch : arch ≠ []) (hslash : '/' ∉ os) :
    parsePlatform (platformText os arch variant) = (arch ++ variant.elim [] ('/' :: ·), os) := by
  rw [parsePlatform, platformText, splitOnce_append hslash]
  simp [hos, harch]

theorem not_isFor_both {m : OciDescriptor} {v : Str} (h : m.isFor (arch ++ '/' :: v) os = true) :
    m.isFor arch os = false := by
  rw [← Bool.not_eq_true]
  intro h'
  obtain ⟨p, hp, hboth⟩ := (Option.any_eq_true _ _).mp h
  obtain ⟨p', hp', hone⟩ := (Option.any_eq_true _ _).mp h'
  cases hp.symm.trans hp'
  simp only [eqIgnoreAsciiCase, Bool.and_eq_true, decide_eq_true_eq] at hboth hone
  have hlength := congrArg List.length (hboth.2.symm.trans hone.2)
  simp at hlength

/-- **A list that has the platform is followed to it unless a variant is asked for.** -/
theorem followed_requested_iff (hos : os ≠ []) (harch : arch ≠ []) (hslash : '/' ∉ os)
    (hsome : ∃ m ∈ manifests, Requested os arch variant m) :
    (∃ m, followed manifests (platformText os arch variant) = some m ∧ Requested os arch variant m) ↔
      ∀ v ∈ variant, (∀ m ∈ manifests, m.isFor (arch ++ '/' :: v) os = false) ∧
        ∃ m, fallback manifests = some m ∧ Requested os arch variant m := by
  rw [followed, parsePlatform_platformText hos harch hslash]
  cases variant with
  | none =>
    refine iff_of_true ?_ (by simp)
    obtain ⟨m, hm, hfor, -⟩ := hsome
    simp only [Option.elim_none, List.append_nil]
    obtain ⟨m', hm'⟩ := Option.isSome_iff_exists.mp (List.find?_isSome.mpr ⟨m, hm, hfor⟩)
    exact ⟨m', by rw [hm', Option.some_or], List.find?_some hm', by simp⟩
  | some v =>
    simp only [Option.elim_some, Option.mem_def, Option.some.injEq, forall_eq']
    cases hfind : manifests.find? (OciDescriptor.isFor (arch ++ '/' :: v) os) with
    | none =>
      rw [Option.none_or]
      exact (and_iff_right (by simpa using hfind)).symm
    | some m =>
      have hfor := List.find?_some hfind
      refine iff_of_false ?_ fun h => ?_
      · rintro ⟨m', hm', hreq⟩
        cases hm'
        exact Bool.false_ne_true ((not_isFor_both hfor).symm.trans hreq.1)
      · exact Bool.false_ne_true ((h.1 m (List.mem_of_find?_eq_some hfind)).symm.trans hfor)

def manifestFor (arch : Str) (variant : Option Str) : OciDescriptor where
  mediaType := []
  digest := arch
  size := 0
  platform := some ⟨arch, "linux".toList, none, none, variant⟩

theorem variant_not_followed :
    Requested "linux".toList "arm".toList (some ['v', '7']) (manifestFor "arm".toList (some ['v', '7'])) ∧
    followed [manifestFor "arm64".toList none, manifestFor "arm".toList (some ['v', '7'])]
      (platformText "linux".toList "arm".toList (some ['v', '7'])) = some (manifestFor "arm64".toList none) :=
  ⟨⟨by decide +kernel, by simp [manifestFor]⟩, by decide +kernel⟩

theorem followed_requested_arm : ∃ m,
    followed [manifestFor "arm64".toList none, manifestFor "arm".toList none]
      (platformText "linux".toList "arm".toList none) = some m ∧
    Requested "linux".toList "arm".toList none m :=
  (followed_requested_iff (by decide) (by decide) (by decide)
    ⟨manifestFor "arm".toList none, by simp, by decide +kernel, by simp⟩).mpr (by simp)

end Pullrun
