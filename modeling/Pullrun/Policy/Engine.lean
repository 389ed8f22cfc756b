import Pullrun.Oci.Json
import Pullrun.Store.Mmap

/-!
# The policy engine

`pullrun-policy/src/lib.rs`, `cosign.rs` and `sbom.rs`. A policy is evaluated for an image reference
and a manifest digest, both as *text*: the signature of a reference is the blob under a hash of the
reference, the SBOM of an image the blob under a hash of the digest's text, and a signed payload is
compared line by line with the two texts.

`ed25519_dalek` and the `rkyv` validation of the two blobs are parameters (`PolicyFormats`). The
warning about `allowed_syscalls` without a profile decides nothing and is left out, and so are the
fields of an SBOM that no check reads.
-/

namespace Pullrun

/-! ## `f32` -/

structure F32 where
  bits : UInt32
deriving DecidableEq

namespace F32

def magnitude (x : F32) : ℕ := x.bits.toNat % 2 ^ 31

def isNan (x : F32) : Bool := 0x7f800000 < x.magnitude

/-- The order of the numbers that are not NaN; both zeros are zero. -/
def key (x : F32) : ℤ := if x.bits.toNat < 2 ^ 31 then x.magnitude else -x.magnitude

def gt (x y : F32) : Bool := !x.isNan && !y.isNan && y.key < x.key

def ge (x y : F32) : Bool := !x.isNan && !y.isNan && y.key ≤ x.key

end F32

/-! ## Policies -/

/-- `Policy`, less what the evaluation of an image does not read. -/
structure Policy where
  requiredSignature : Bool := false
  seccompProfile : Option Str := none
  maxCvssScore : Option F32 := none
  denyLicenses : List Str := []
  requireSbom : Bool := false
deriving DecidableEq

structure CosignKey where
  id : Str
  verifyingKey : Bytes
deriving DecidableEq

structure SignatureBlob where
  keyId : Str
  payload : Str
  signature : Bytes
deriving DecidableEq

structure SbomBlob where
  components : List (List Str)
  vulnerabilities : List F32
deriving DecidableEq

structure PolicyFormats where
  sha256 : Bytes → Digest
  text : Text
  checkSignatureBlob : Bytes → Except String SignatureBlob
  checkSbomBlob : Bytes → Except String SbomBlob
  /-- `VerifyingKey::verify`, with the text of its error -/
  verify : Bytes → Bytes → Bytes → Except Str Unit

structure PolicyEngine where
  defaultPolicy : Policy
  trustedKeys : List CosignKey
deriving DecidableEq

/-! ## Signatures -/

inductive CosignError
  | badLength (n : ℕ)
  | verify (why : Str)
deriving DecidableEq

inductive SignatureFault
  /-- `signature payload has unknown format` -/
  | unknownFormat
  /-- `signature payload references {signed_ref}, not {image_ref}` -/
  | otherReference (signedRef imageRef : Str)
  /-- `signature payload manifest digest does not match the image being run` -/
  | otherDigest
  | cosign (e : CosignError)
  /-- `no trusted key matched the signature key_id` -/
  | noTrustedKey
deriving DecidableEq

inductive SignatureCheck
  | valid
  | missing
  | invalid (why : SignatureFault)
deriving DecidableEq

inductive PolicyError
  /-- `corrupt signature blob: {e}` -/
  | invalidSignature (e : String)
  | sbomMissing (e : String)
  | store (e : StoreError)
deriving DecidableEq

/-- `verify_cosign_signature`. A failed verification is an error only if its text says none of
    the three words. -/
def verifyCosignSignature (f : PolicyFormats) (key : CosignKey) (payload signature : Bytes) :
    Except CosignError Bool :=
  if signature.length ≠ 64 then .error (.badLength signature.length)
  else
    match f.verify key.verifyingKey payload signature with
    | .ok () => .ok true
    | .error msg =>
      if "signature".toList <:+: msg ∨ "verify".toList <:+: msg ∨ "Invalid".toList <:+: msg then
        .ok false
      else .error (.verify msg)

/-- `sha256("pullrun.cosign.sig.v1\n" + image_ref + "\n")` -/
def signatureDigestFor (f : PolicyFormats) (imageRef : Str) : Digest :=
  f.sha256 (f.text.utf8 ("pullrun.cosign.sig.v1\n".toList ++ imageRef ++ ['\n']))

def canonicalPayload (imageRef manifestDigest : Str) : Str :=
  "pullrun-image-v1".toList ++ '\n' :: imageRef ++ '\n' :: manifestDigest ++ ['\n']

def checkKeys (f : PolicyFormats) (blob : SignatureBlob) : List CosignKey → SignatureCheck
  | [] => .invalid .noTrustedKey
  | key :: rest =>
    if key.id ≠ blob.keyId then checkKeys f blob rest
    else
      match verifyCosignSignature f key (f.text.utf8 blob.payload) blob.signature with
      | .ok true => .valid
      | .ok false => checkKeys f blob rest
      | .error e => .invalid (.cosign e)

/-- `lines.next().unwrap_or("")`, the `n`-th time. -/
def payloadLine (payload : Str) (n : ℕ) : Str := ((payload.splitOn '\n')[n]?).getD []

/-- What `check_signature` does with a signature blob. -/
def checkPayload (f : PolicyFormats) (keys : List CosignKey) (blob : SignatureBlob)
    (imageRef manifestDigest : Str) : SignatureCheck :=
  let version := payloadLine blob.payload 0
  let signedRef := payloadLine blob.payload 1
  let signedDigest := payloadLine blob.payload 2
  if version ≠ "pullrun-image-v1".toList then .invalid .unknownFormat
  else if signedRef ≠ imageRef then .invalid (.otherReference signedRef imageRef)
  else if signedDigest ≠ manifestDigest then .invalid .otherDigest
  else checkKeys f blob keys

def checkSignature (f : PolicyFormats) (keys : List CosignKey) (s : MmapStore)
    (imageRef manifestDigest : Str) : Except PolicyError SignatureCheck × MmapStore :=
  match s.getBlob (signatureDigestFor f imageRef) with
  | (.error (.notFound _), s) => (.ok .missing, s)
  | (.error e, s) => (.error (.store e), s)
  | (.ok bytes, s) =>
    match f.checkSignatureBlob bytes with
    | .error e => (.error (.invalidSignature e), s)
    | .ok blob => (.ok (checkPayload f keys blob imageRef manifestDigest), s)

/-! ## SBOMs -/

/-- `SbomData`. The source sorts and deduplicates the licenses; the checks only ask for members. -/
structure SbomData where
  vulnerabilities : List F32
  licenses : List Str

/-- `max_cvss`: a fold with `>`, so that a NaN stays once it is the first score. -/
def SbomData.maxCvss (report : SbomData) : Option F32 :=
  report.vulnerabilities.foldl (fun acc x =>
    match acc with
    | none => some x
    | some y => some (if x.gt y then x else y)) none

inductive SbomReport
  | missing
  | found (data : SbomData)

/-- `sha256("pullrun.sbom.v1\n" + manifest_digest)` -/
def sbomDigestFor (f : PolicyFormats) (manifestDigest : Str) : Digest :=
  f.sha256 (f.text.utf8 ("pullrun.sbom.v1\n".toList ++ manifestDigest))

def evaluateSbom (f : PolicyFormats) (s : MmapStore) (manifestDigest : Str) :
    Except PolicyError SbomReport × MmapStore :=
  match s.getBlob (sbomDigestFor f manifestDigest) with
  | (.error (.notFound _), s) => (.ok .missing, s)
  | (.error e, s) => (.error (.store e), s)
  | (.ok bytes, s) =>
    match f.checkSbomBlob bytes with
    | .error e => (.error (.sbomMissing e), s)
    | .ok blob => (.ok (.found ⟨blob.vulnerabilities, blob.components.flatten⟩), s)

/-! ## Decisions -/

inductive DenyReason
  /-- `image {image_ref} is not signed by a trusted key` -/
  | notSigned (imageRef : Str)
  /-- `signature for {image_ref} is invalid: {reason}` -/
  | signatureInvalid (imageRef : Str) (why : SignatureFault)
  /-- `no SBOM found for {image_ref}` -/
  | noSbom (imageRef : Str)
  /-- `image {image_ref} has vulnerability with CVSS {highest} (policy max {max})` -/
  | cvss (imageRef : Str) (highest max : F32)
  /-- `image {image_ref} contains banned license: {banned}` -/
  | bannedLicense (imageRef banned : Str)
  /-- `unknown seccomp profile: {profile}` -/
  | unknownSeccompProfile (profile : Str)
deriving DecidableEq

inductive PolicyDecision
  | allow
  | deny (reason : DenyReason)
deriving DecidableEq

def eqIgnoreAsciiCase (a b : Str) : Bool := a.map Char.toLower = b.map Char.toLower

def denySbom (policy : Policy) (imageRef : Str) (report : SbomData) : Option DenyReason :=
  match policy.maxCvssScore, report.maxCvss with
  | some max, some highest =>
    if highest.ge max then some (.cvss imageRef highest max) else denyLicense
  | _, _ => denyLicense
where
  denyLicense : Option DenyReason :=
    (policy.denyLicenses.find? fun banned =>
      report.licenses.any fun l => eqIgnoreAsciiCase l banned).map (.bannedLicense imageRef)

def Policy.readsSbom (policy : Policy) : Bool :=
  policy.requireSbom || policy.maxCvssScore.isSome || !policy.denyLicenses.isEmpty

def denySeccomp (policy : Policy) : Option DenyReason :=
  match policy.seccompProfile with
  | none => none
  | some profile =>
    if profile = "default".toList ∨ profile = "unconfined".toList ∨
        "pullrun:".toList <+: profile then none
    else some (.unknownSeccompProfile profile)

/-- The signature part: a reason to deny, if there is one. -/
def denySignature (f : PolicyFormats) (keys : List CosignKey) (policy : Policy) (s : MmapStore)
    (imageRef manifestDigest : Str) : Except PolicyError (Option DenyReason) × MmapStore :=
  if policy.requiredSignature then
    match checkSignature f keys s imageRef manifestDigest with
    | (.error e, s) => (.error e, s)
    | (.ok .valid, s) => (.ok none, s)
    | (.ok .missing, s) => (.ok (some (.notSigned imageRef)), s)
    | (.ok (.invalid why), s) => (.ok (some (.signatureInvalid imageRef why)), s)
  else (.ok none, s)

def denyBySbom (f : PolicyFormats) (policy : Policy) (s : MmapStore)
    (imageRef manifestDigest : Str) : Except PolicyError (Option DenyReason) × MmapStore :=
  if policy.readsSbom then
    match evaluateSbom f s manifestDigest with
    | (.error e, s) => (.error e, s)
    | (.ok .missing, s) => (.ok (if policy.requireSbom then some (.noSbom imageRef) else none), s)
    | (.ok (.found report), s) => (.ok (denySbom policy imageRef report), s)
  else (.ok none, s)

/-- `evaluate_for_image`. The store changes in what its blob cache holds. -/
def PolicyEngine.evaluateForImage (engine : PolicyEngine) (f : PolicyFormats) (policy : Policy)
    (s : MmapStore) (imageRef manifestDigest : Str) :
    Except PolicyError PolicyDecision × MmapStore :=
  match denySignature f engine.trustedKeys policy s imageRef manifestDigest with
  | (.error e, s) => (.error e, s)
  | (.ok (some reason), s) => (.ok (.deny reason), s)
  | (.ok none, s) =>
    match denyBySbom f policy s imageRef manifestDigest with
    | (.error e, s) => (.error e, s)
    | (.ok (some reason), s) => (.ok (.deny reason), s)
    | (.ok none, s) =>
      match denySeccomp policy with
      | some reason => (.ok (.deny reason), s)
      | none => (.ok .allow, s)

end Pullrun
