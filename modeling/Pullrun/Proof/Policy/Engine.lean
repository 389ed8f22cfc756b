import Pullrun.Policy.Engine
import Pullrun.Store.Sample

/-!
# What the policy engine lets pass

A policy that wants a signature lets an image pass only if a trusted key has signed its reference and
its digest, and it lets every image pass that is signed so (`signature_binds`).
-/

namespace Pullrun

open List

variable {f : PolicyFormats} {keys : List CosignKey} {policy : Policy} {s : MmapStore}
  {imageRef manifestDigest : Str} {blob : SignatureBlob}

/-! ## Decisions -/

theorem allow_iff {engine : PolicyEngine} :
    (engine.evaluateForImage f policy s imageRef manifestDigest).1 = .ok .allow ↔
      (denySignature f engine.trustedKeys policy s imageRef manifestDigest).1 = .ok none ∧
      (denyBySbom f policy (denySignature f engine.trustedKeys policy s imageRef manifestDigest).2
        imageRef manifestDigest).1 = .ok none ∧ denySeccomp policy = none := by
  unfold PolicyEngine.evaluateForImage
  rcases denySignature f engine.trustedKeys policy s imageRef manifestDigest with ⟨_ | _ | _, s1⟩
  · simp
  · dsimp only
    rcases denyBySbom f policy s1 imageRef manifestDigest with ⟨_ | _ | _, s2⟩
    · simp
    · cases denySeccomp policy <;> simp
    · simp
  · simp

theorem denyBySbom_fst (h : policy.readsSbom = true) :
    (denyBySbom f policy s imageRef manifestDigest).1 =
      match (evaluateSbom f s manifestDigest).1 with
      | .error e => .error e
      | .ok .missing => .ok (if policy.requireSbom then some (.noSbom imageRef) else none)
      | .ok (.found report) => .ok (denySbom policy imageRef report) := by
  rw [denyBySbom, if_pos h]
  match evaluateSbom f s manifestDigest with
  | (.error e, s) => rfl
  | (.ok .missing, s) => rfl
  | (.ok (.found report), s) => rfl

/-! ## Signatures -/

def SignedBy (f : PolicyFormats) (keys : List CosignKey) (blob : SignatureBlob) : Prop :=
  ∃ key ∈ keys, key.id = blob.keyId ∧ blob.signature.length = 64 ∧
    f.verify key.verifyingKey (f.text.utf8 blob.payload) blob.signature = .ok ()

theorem checkKeys_valid_iff
    (hverify : ∀ key payload signature why, f.verify key payload signature = .error why →
      "signature".toList <:+: why) :
    checkKeys f blob keys = .valid ↔ SignedBy f keys blob := by
  induction keys with
  | nil => simp [checkKeys, SignedBy]
  | cons key rest ih =>
    rw [checkKeys, SignedBy, exists_mem_cons_iff]
    by_cases hid : key.id = blob.keyId
    · rw [if_neg (not_not.mpr hid), verifyCosignSignature]
      by_cases hlen : blob.signature.length = 64
      · rw [if_neg (not_not.mpr hlen)]
        cases hv : f.verify key.verifyingKey (f.text.utf8 blob.payload) blob.signature with
        | ok u => simp [hid, hlen]
        | error why =>
          dsimp only
          rw [if_pos (.inl (hverify _ _ _ _ hv)), ih, SignedBy]
          simp
      · simp [hlen]
    · rw [if_pos hid, ih, SignedBy]
      simp [hid]

theorem checkPayload_valid_iff : checkPayload f keys blob imageRef manifestDigest = .valid ↔
    payloadLine blob.payload 0 = "pullrun-image-v1".toList ∧ payloadLine blob.payload 1 = imageRef ∧
      payloadLine blob.payload 2 = manifestDigest ∧ checkKeys f blob keys = .valid := by
  unfold checkPayload
  generalize "pullrun-image-v1".toList = version
  dsimp only
  split_ifs <;> simp_all

theorem checkSignature_valid_iff :
    (checkSignature f keys s imageRef manifestDigest).1 = .ok .valid ↔
      ∃ bytes blob, (s.getBlob (signatureDigestFor f imageRef)).1 = .ok bytes ∧
        f.checkSignatureBlob bytes = .ok blob ∧
        checkPayload f keys blob imageRef manifestDigest = .valid := by
  unfold checkSignature
  rcases s.getBlob (signatureDigestFor f imageRef) with ⟨e | bytes, s1⟩
  · cases e <;> simp
  · cases hb : f.checkSignatureBlob bytes <;> simp [hb]

theorem splitOn_canonicalPayload (hr : '\n' ∉ imageRef) (hd : '\n' ∉ manifestDigest) :
    (canonicalPayload imageRef manifestDigest).splitOn '\n' =
      ["pullrun-image-v1".toList, imageRef, manifestDigest, []] := by
  have hv : '\n' ∉ "pullrun-image-v1".toList := by decide
  unfold canonicalPayload
  generalize "pullrun-image-v1".toList = version at hv ⊢
  have hlines := @splitOn_intercalate Char [version, imageRef, manifestDigest, []] _ _ '\n'
    (by simp [hv, hr, hd]) (by simp)
  simpa [intercalate] using hlines

theorem take_splitOn {payload : Str} (h : payloadLine payload 2 ≠ []) : (payload.splitOn '\n').take 3 =
    [payloadLine payload 0, payloadLine payload 1, payloadLine payload 2] := by
  revert h
  unfold payloadLine
  rcases payload.splitOn '\n' with _ | ⟨a, _ | ⟨b, _ | ⟨c, rest⟩⟩⟩ <;> simp

/-- **What a signature stands for**: a stored blob whose payload has the reference and the digest as its
second and third line, signed by a trusted key with the id of the blob. -/
theorem signature_binds
    (hverify : ∀ key payload signature why, f.verify key payload signature = .error why →
      "signature".toList <:+: why) :
    (∀ (engine : PolicyEngine) policy s imageRef manifestDigest, policy.requiredSignature = true →
      (engine.evaluateForImage f policy s imageRef manifestDigest).1 = .ok .allow →
      ∃ bytes blob, (s.getBlob (signatureDigestFor f imageRef)).1 = .ok bytes ∧
        f.checkSignatureBlob bytes = .ok blob ∧
        payloadLine blob.payload 0 = "pullrun-image-v1".toList ∧
        payloadLine blob.payload 1 = imageRef ∧ payloadLine blob.payload 2 = manifestDigest ∧
        (manifestDigest ≠ [] → (blob.payload.splitOn '\n').take 3 =
          ["pullrun-image-v1".toList, imageRef, manifestDigest]) ∧
        SignedBy f engine.trustedKeys blob) ∧
    (∀ keys keys' blob blob' r r' d d', checkPayload f keys blob r d = .valid →
      checkPayload f keys' blob' r' d' = .valid → blob.payload = blob'.payload → (r, d) = (r', d')) ∧
    ∀ keys s imageRef manifestDigest bytes blob, '\n' ∉ imageRef → '\n' ∉ manifestDigest →
      (s.getBlob (signatureDigestFor f imageRef)).1 = .ok bytes → f.checkSignatureBlob bytes = .ok blob →
      blob.payload = canonicalPayload imageRef manifestDigest → SignedBy f keys blob →
      (checkSignature f keys s imageRef manifestDigest).1 = .ok .valid := by
  refine ⟨fun engine policy s imageRef manifestDigest hreq h => ?_, ?_, ?_⟩
  · have hvalid := (allow_iff.mp h).1
    unfold denySignature at hvalid
    rw [if_pos hreq] at hvalid
    have hcheck : (checkSignature f engine.trustedKeys s imageRef manifestDigest).1 = .ok .valid := by
      revert hvalid
      rcases checkSignature f engine.trustedKeys s imageRef manifestDigest with ⟨_ | _ | _ | _, s₁⟩ <;> simp
    obtain ⟨bytes, blob, hget, hblob, hpay⟩ := checkSignature_valid_iff.mp hcheck
    obtain ⟨hv, hr, hd, hkeys⟩ := checkPayload_valid_iff.mp hpay
    refine ⟨bytes, blob, hget, hblob, hv, hr, hd, fun hne => ?_, (checkKeys_valid_iff hverify).mp hkeys⟩
    rw [take_splitOn (hd ▸ hne), hv, hr, hd]
  · intro keys keys' blob blob' r r' d d' h h' hsame
    obtain ⟨-, rfl, rfl, -⟩ := checkPayload_valid_iff.mp h
    obtain ⟨-, rfl, rfl, -⟩ := checkPayload_valid_iff.mp h'
    rw [hsame]
  · intro keys s imageRef manifestDigest bytes blob hr hd hget hblob hpay hkey
    refine checkSignature_valid_iff.mpr ⟨bytes, blob, hget, hblob, checkPayload_valid_iff.mpr ?_⟩
    simp only [payloadLine, hpay, splitOn_canonicalPayload hr hd]
    exact ⟨rfl, rfl, rfl, (checkKeys_valid_iff hverify).mpr hkey⟩

namespace Sample

/-- A store with one blob. It is the signature of `a` with the digest `d`, and an SBOM with the scores. -/
def judge (scores : List F32) : PolicyFormats where
  sha256 _ := .ofNat 0
  text := ⟨fun s => s.map fun ch => UInt8.ofNat ch.toNat, fun _ => []⟩
  checkSignatureBlob _ := .ok ⟨['k'], canonicalPayload ['a'] ['d'], replicate 64 0⟩
  checkSbomBlob _ := .ok ⟨[], scores⟩
  verify key _ _ := if key = [1] then .ok () else .error "signature error".toList

def judged : MmapStore := (MmapStore.openOn .empty none none).putBlob (.ofNat 0) []

end Sample

open Sample

theorem signature_binds_second :
    (checkSignature (judge []) [⟨['k'], [0]⟩, ⟨['k'], [1]⟩] judged ['a'] ['d']).1 = .ok .valid := by
  refine (signature_binds fun key payload signature why h => ?_).2.2 _ _ _ _ [] _ (by decide) (by decide)
    (by decide +kernel) rfl rfl ⟨⟨['k'], [1]⟩, by decide, rfl, rfl, rfl⟩
  simp only [judge] at h
  split at h
  · cases h
  · cases h
    decide

/-! ## Scores -/

theorem F32.isNan_keep (x y : F32) : (if x.gt y then x else y).isNan = y.isNan := by
  split
  · rename_i h
    simp only [gt, Bool.and_eq_true, Bool.not_eq_true'] at h
    rw [h.1.1, h.1.2]
  · rfl

theorem F32.ge_keep {x y : F32} (hy : y.isNan = false) (max : F32) :
    (if x.gt y then x else y).ge max = true ↔ x.ge max = true ∨ y.ge max = true := by
  unfold gt ge
  cases hx : x.isNan with
  | true => simp
  | false =>
    cases max.isNan with
    | true => simp
    | false =>
      split_ifs with h
      · simp only [hx, hy, Bool.not_false, Bool.true_and, decide_eq_true_eq] at h ⊢
        omega
      · simp only [hy, Bool.not_false, Bool.true_and, decide_eq_true_eq] at h ⊢
        omega

theorem maxCvss_ge_iff (max : F32) (licenses : List Str) (xs : List F32) (y : F32) :
    ∃ highest, SbomData.maxCvss ⟨y :: xs, licenses⟩ = some highest ∧
      (highest.ge max = true ↔ y.isNan = false ∧ ∃ v ∈ y :: xs, v.ge max = true) := by
  induction xs generalizing y with
  | nil =>
    refine ⟨y, rfl, ?_⟩
    simp only [mem_singleton, exists_eq_left, F32.ge, Bool.and_eq_true, Bool.not_eq_true']
    tauto
  | cons x xs ih =>
    obtain ⟨highest, hmax, hge⟩ := ih (if x.gt y then x else y)
    refine ⟨highest, hmax, ?_⟩
    rw [hge, F32.isNan_keep]
    refine and_congr_right fun hy => ?_
    simp only [mem_cons, exists_eq_or_imp, F32.ge_keep hy, or_left_comm, or_assoc]

def SbomData.FirstIsNumber (report : SbomData) : Prop :=
  ∀ first ∈ report.vulnerabilities.head?, first.isNan = false

theorem denySbom_eq_none_iff {max : F32} (hmax : policy.maxCvssScore = some max) (report : SbomData) :
    denySbom policy imageRef report = none ↔
      denySbom { policy with maxCvssScore := none, requireSbom := true } imageRef report = none ∧
        ¬ (report.FirstIsNumber ∧ ∃ v ∈ report.vulnerabilities, v.ge max = true) := by
  obtain ⟨scores, licenses⟩ := report
  unfold denySbom
  rw [hmax]
  cases scores with
  | nil => simp [SbomData.maxCvss, denySbom.denyLicense]
  | cons y xs =>
    obtain ⟨highest, hhigh, hge⟩ := maxCvss_ge_iff max licenses xs y
    have hfirst : SbomData.FirstIsNumber ⟨y :: xs, licenses⟩ ↔ y.isNan = false := by
      simp [SbomData.FirstIsNumber]
    rw [hhigh, hfirst, ← hge]
    dsimp only
    split
    · rename_i h
      simp [h]
    · rename_i h
      simp [h, denySbom.denyLicense]

/-- **A high score is denied** exactly if the first score is a number, or the image is not allowed without
the threshold either. -/
theorem highScore_denied_iff {engine : PolicyEngine} {max : F32} (hmax : policy.maxCvssScore = some max)
    {report : SbomData} (hsbom : (evaluateSbom f
      (denySignature f engine.trustedKeys policy s imageRef manifestDigest).2 manifestDigest).1
        = .ok (.found report)) {decision : PolicyDecision}
    (hdec : (engine.evaluateForImage f policy s imageRef manifestDigest).1 = .ok decision) :
    ((∃ v ∈ report.vulnerabilities, v.ge max = true) → ∃ reason, decision = .deny reason) ↔
      ((∃ v ∈ report.vulnerabilities, v.ge max = true) → report.FirstIsNumber ∨
        (engine.evaluateForImage f { policy with maxCvssScore := none, requireSbom := true } s imageRef
          manifestDigest).1 ≠ .ok .allow) := by
  have hallow : (engine.evaluateForImage f policy s imageRef manifestDigest).1 = .ok .allow ↔
      (engine.evaluateForImage f { policy with maxCvssScore := none, requireSbom := true } s imageRef
          manifestDigest).1 = .ok .allow ∧
        ¬ (report.FirstIsNumber ∧ ∃ v ∈ report.vulnerabilities, v.ge max = true) := by
    have hsame : denySignature f engine.trustedKeys { policy with maxCvssScore := none, requireSbom := true }
        s imageRef manifestDigest = denySignature f engine.trustedKeys policy s imageRef manifestDigest := rfl
    rw [allow_iff, allow_iff, hsame, denyBySbom_fst (by simp [Policy.readsSbom, hmax]), hsbom,
      denyBySbom_fst (by rfl), hsbom]
    simp only [Except.ok.injEq, denySbom_eq_none_iff hmax, denySeccomp]
    tauto
  refine imp_congr_right fun hhigh => ?_
  rw [hdec] at hallow
  cases decision with
  | allow =>
    obtain ⟨hother, hnot⟩ := hallow.mp rfl
    refine iff_of_false (by simp) ?_
    rintro (hfirst | hne)
    · exact hnot ⟨hfirst, hhigh⟩
    · exact hne hother
  | deny reason =>
    refine iff_of_true ⟨reason, rfl⟩ ?_
    by_contra hor
    obtain ⟨hfirst, hother⟩ := not_or.mp hor
    cases hallow.mpr ⟨not_not.mp hother, fun h => hfirst h.1⟩

def Sample.nan : F32 := ⟨0x7fc00000⟩
def Sample.high : F32 := ⟨0x411ccccd⟩
def Sample.upTo7 : PolicyEngine := ⟨{ maxCvssScore := some ⟨0x40e00000⟩ }, []⟩

theorem nan_hides_high : high.ge ⟨0x40e00000⟩ = true ∧
    (upTo7.evaluateForImage (judge [nan, high]) upTo7.defaultPolicy judged ['a'] ['d']).1 = .ok .allow := by
  decide +kernel

theorem high_first_denied : ∃ decision reason,
    (upTo7.evaluateForImage (judge [high, nan]) upTo7.defaultPolicy judged ['a'] ['d']).1 = .ok decision ∧
      decision = .deny reason := by
  have hdec : (upTo7.evaluateForImage (judge [high, nan]) upTo7.defaultPolicy judged ['a'] ['d']).1
      = .ok (.deny (.cvss ['a'] high ⟨0x40e00000⟩)) := by decide +kernel
  have hsbom : (evaluateSbom (judge [high, nan]) judged ['d']).1 = .ok (.found ⟨[high, nan], []⟩) := rfl
  obtain ⟨reason, hreason⟩ := (highScore_denied_iff rfl hsbom hdec).mpr
    (fun _ => .inl (by rintro _ ⟨⟩; decide)) ⟨high, by decide, by decide⟩
  exact ⟨_, reason, hdec, hreason⟩

end Pullrun
