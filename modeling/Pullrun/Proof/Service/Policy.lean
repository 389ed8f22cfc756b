import Pullrun.Proof.Policy.Engine
import Pullrun.Proof.Service.Tags
import Pullrun.Service.Run

/-!
# When the policy is asked, and about what

A pull evaluates the policy for an image that it fetched, after it has tagged it.
-/

namespace Pullrun

namespace RuntimeService

variable {cfg : RuntimeConfig}

/-! ## Pulls -/

/-- Whatever a pull answers, in whatever order the table is searched, is an image that the policy
    allows under that reference in the store as it then stands. -/
def AnswersAllowed (cfg : RuntimeConfig) (s : RuntimeService) : Op → Prop
  | .pullImage req _ seeds fuel =>
    ∀ order, s.imageTags.Iterates order → ∀ r, s.pullImage cfg order seeds fuel req = some r →
      ∀ digest, r.result = .ok digest → evaluatePulled cfg r.store req.imageRef digest = none
  | _ => True

/-- Everything tagged with the reference of a pull is allowed under it when the pull begins. -/
def TagsAllowed (cfg : RuntimeConfig) (s : RuntimeService) : Op → Prop
  | .pullImage req _ _ _ =>
    ∀ digest, s.imageTags.lookup digest = some req.imageRef →
      evaluatePulled cfg s.store req.imageRef digest = none
  | _ => True

variable {s : MmapStore} {f : PolicyFormats} {t imageRef : Str} {policy : Policy} {b : Bytes}

theorem evaluatePulled_of_tagPulled {digest : Str} {root : Digest}
    (h : (tagPulled cfg imageRef root s).result = .ok digest) :
    evaluatePulled cfg (tagPulled cfg imageRef root s).store imageRef digest = none := by
  unfold tagPulled at h ⊢
  cases he : evaluatePulled cfg (s.incrementRefcount root) imageRef root.asHex with
  | some e => simp [he] at h
  | none =>
    simp only [he, Except.ok.injEq] at h ⊢
    rw [← h, he]

theorem answersAllowed_iff (s : RuntimeService) (op : Op) :
    AnswersAllowed cfg s op ↔ TagsAllowed cfg s op := by
  cases op with
  | pullImage req order₀ seeds fuel =>
    constructor
    · intro h digest hd
      obtain ⟨order, ho, hhit⟩ := TagTable.exists_order_of_lookup hd
      refine h order ho ⟨.ok digest, s.store, none⟩ ?_ digest rfl
      rw [pullImage, hhit]
    · intro h order ho r hr digest hdigest
      revert hr
      fun_cases s.pullImage cfg order seeds fuel req with
      | case1 d hhit =>
        rintro ⟨⟩
        cases hdigest
        exact h _ (TagTable.lookup_of_localHit ho hhit)
      | case2 | case4 =>
        rintro ⟨⟩
        cases hdigest
      | case3 => rintro ⟨⟩
      | case5 =>
        rintro ⟨⟩
        exact evaluatePulled_of_tagPulled hdigest
  | _ => exact Iff.rfl

/-- **Pulls answer with allowed images exactly as long as allowed images are tagged.** -/
theorem pulls_allowed_iff (cfg : RuntimeConfig) (ops : List Op) :
    Schedule.Meets (step cfg) (AnswersAllowed cfg) start ops ↔
      Schedule.Meets (step cfg) (TagsAllowed cfg) start ops :=
  Schedule.meets_congr (fun _ => True) (fun _ _ _ _ _ _ => trivial)
    (fun s op _ => answersAllowed_iff s op) trivial ops

theorem denied_then_answered :
    (let cfg := Sample.runtime (some Sample.signedOnly)
    match start.reply cfg (.pullImage { imageRef := ['a'] } [] {} 4) with
    | none => none
    | some first =>
      match (start.after first).reply cfg
        (.pullImage { imageRef := ['a'] } [⟨Sample.oneFileHex, ['a']⟩] {} 4) with
      | none => none
      | some second => some (first.result, second.result,
          evaluatePulled cfg second.store ['a'] Sample.oneFileHex)) =
    some (.error (.policyDenied ['a'] (.notSigned ['a'])), .ok Sample.oneFileHex,
      some (.policyDenied ['a'] (.notSigned ['a']))) := by
  decide +kernel

/-! ## Runs -/

theorem getBlob_openOn (k : Disk) (m n : Option ℕ) (d : Digest) :
    ((MmapStore.openOn k m n).getBlob d).1 =
      match k.blobs.lookup d with
      | some b => .ok b
      | none => .error (.notFound d) := by
  have hempty : (Cache.empty n).entries.lookup d = none := Finmap.lookup_empty d
  rw [MmapStore.getBlob, MmapStore.openOn, Cache.read, hempty]
  dsimp only
  cases k.blobs.lookup d <;> rfl

def oneBlob (d : Digest) (b : Bytes) : MmapStore :=
  .openOn { Disk.empty with blobs := Finmap.insert d b ∅ } none none

theorem evaluateSbom_present : (evaluateSbom f (oneBlob (sbomDigestFor f t) b) t).1 =
      match f.checkSbomBlob b with
      | .error e => .error (.sbomMissing e)
      | .ok blob => .ok (.found ⟨blob.vulnerabilities, blob.components.flatten⟩) := by
  have hget : ((oneBlob (sbomDigestFor f t) b).getBlob (sbomDigestFor f t)).1 = .ok b := by
    rw [oneBlob, getBlob_openOn, FileMap.lookup_insert_if, if_pos rfl]
  rw [evaluateSbom]
  match hblob : (oneBlob (sbomDigestFor f t) b).getBlob (sbomDigestFor f t), hget with
  | (.ok _, s), rfl => cases hc : f.checkSbomBlob b <;> simp [hc]

theorem evaluateSbom_absent {d : Digest} (h : sbomDigestFor f t ≠ d) :
    (evaluateSbom f (oneBlob d b) t).1 = .ok .missing := by
  have hget : ((oneBlob d b).getBlob (sbomDigestFor f t)).1 =
      .error (.notFound (sbomDigestFor f t)) := by
    rw [oneBlob, getBlob_openOn, FileMap.lookup_insert_if, if_neg h, Finmap.lookup_empty]
  rw [evaluateSbom]
  match hblob : (oneBlob d b).getBlob (sbomDigestFor f t), hget with
  | (.error _, s), rfl => rfl

theorem evaluateForRun_sbom_only {keys : List CosignKey} {tags : TagTable}
    (hsig : policy.requiredSignature = false) (hseccomp : policy.seccompProfile = none) :
    evaluateForRun f (some ⟨policy, keys⟩) tags s t = none ↔
      (denyBySbom f policy s ((tags.lookup t).getD t) t).1 = .ok none := by
  simp only [evaluateForRun, PolicyEngine.evaluateForImage, denySignature, hsig, denySeccomp,
    hseccomp, Bool.false_eq_true, if_false]
  rcases denyBySbom f policy s ((tags.lookup t).getD t) t with ⟨_ | _ | _, _⟩ <;> simp

theorem exists_policy_between (f : PolicyFormats) {t' : Str}
    (h : sbomDigestFor f t' ≠ sbomDigestFor f t) :
    ∃ engine s, ¬ (evaluateForRun f (some engine) ∅ s t = none ↔
      evaluateForRun f (some engine) ∅ s t' = none) := by
  have habsent : (evaluateSbom f (oneBlob (sbomDigestFor f t) []) t').1 = .ok .missing :=
    evaluateSbom_absent h
  cases hblob : f.checkSbomBlob [] with
  | error e =>
    refine ⟨⟨{ denyLicenses := [[]] }, []⟩, oneBlob (sbomDigestFor f t) [], ?_⟩
    rw [evaluateForRun_sbom_only rfl rfl, evaluateForRun_sbom_only rfl rfl, denyBySbom_fst rfl,
      denyBySbom_fst rfl, evaluateSbom_present, habsent, hblob]
    simp
  | ok blob =>
    refine ⟨⟨{ requireSbom := true }, []⟩, oneBlob (sbomDigestFor f t) [], ?_⟩
    rw [evaluateForRun_sbom_only rfl rfl, evaluateForRun_sbom_only rfl rfl, denyBySbom_fst rfl,
      denyBySbom_fst rfl, evaluateSbom_present, habsent, hblob]
    simp [denySbom, denySbom.denyLicense]

/-- **A run passes the policy by its spelling.** Two texts pass the policy check of `run_workload`
    alike under every policy, with every store and tag table, if and only if they are the same text
    once one `sha256:` is taken off — provided the two do not collide as SBOM keys. -/
theorem passesPolicy_iff_same_text (f : PolicyFormats) (s₁ s₂ : Str)
    (hcollision : sbomDigestFor f (strippedDigest s₂) = sbomDigestFor f (strippedDigest s₁) →
      strippedDigest s₂ = strippedDigest s₁) :
    (∀ engine tags store, PassesPolicy f engine tags store s₁ ↔
      PassesPolicy f engine tags store s₂) ↔ strippedDigest s₂ = strippedDigest s₁ := by
  constructor
  · intro h
    refine hcollision (by_contra fun hne => ?_)
    obtain ⟨engine, store, hdiffer⟩ := exists_policy_between f hne
    exact hdiffer (h (some engine) ∅ store)
  · intro h engine tags store
    rw [PassesPolicy, PassesPolicy, h]

theorem passesPolicy_iff_upper :
    runDigest Sample.oneFileHex = .ok Sample.oneFileD ∧
    runDigest Sample.oneFileUpper = .ok Sample.oneFileD ∧
    ((∀ engine tags store, PassesPolicy Sample.policyFormats engine tags store Sample.oneFileHex ↔
      PassesPolicy Sample.policyFormats engine tags store Sample.oneFileUpper) ↔
      strippedDigest Sample.oneFileUpper = strippedDigest Sample.oneFileHex) :=
  ⟨by decide +kernel, by decide +kernel,
    passesPolicy_iff_same_text _ _ _ fun h => absurd h (by decide +kernel)⟩

theorem upper_passes :
    runDigest Sample.oneFileUpper = runDigest Sample.oneFileHex ∧
    ¬ PassesPolicy Sample.policyFormats (some Sample.noL) ∅ Sample.withSbom Sample.oneFileHex ∧
    PassesPolicy Sample.policyFormats (some Sample.noL) ∅ Sample.withSbom Sample.oneFileUpper := by
  decide +kernel

end RuntimeService

end Pullrun
