import Pullrun.Service.Requests

/-!
# `run_workload` and the policy

`pullrun-runtime/src/service.rs`. A run names its image by the text of a digest. `run_workload` takes
one `sha256:` off it and keeps the rest as it is; `Digest::from_hex`, which the executor and the
manifest reader go through, takes another one off and reads digits of either case. The policy is
evaluated in between, for the text.
-/

namespace Pullrun

namespace RuntimeService

/-- `req.root_digest` after `strip_prefix("sha256:")`. -/
def strippedDigest (rootDigest : Str) : Str :=
  (Digest.stripPrefix Digest.sha256Colon rootDigest).getD rootDigest

def runDigest (rootDigest : Str) : Except Digest.ParseError Digest :=
  Digest.fromHex (strippedDigest rootDigest)

/-- `evaluate_for_run`, for the text it is called with: the reason why not, if the run does not pass.
    The reference is the one the tag table has for that text, or else the text itself. -/
def evaluateForRun (f : PolicyFormats) (policyEngine : Option PolicyEngine) (tags : TagTable)
    (s : MmapStore) (rootDigest : Str) : Option RequestError :=
  match policyEngine with
  | none => none
  | some engine =>
    let imageRef := (tags.lookup rootDigest).getD rootDigest
    match (engine.evaluateForImage f engine.defaultPolicy s imageRef rootDigest).1 with
    | .error e => some (.policyEvaluation e)
    | .ok (.deny reason) => some (.policyDenied imageRef reason)
    | .ok .allow => none

/-- Does `run_workload` with this `root_digest` pass the policy check? -/
def PassesPolicy (f : PolicyFormats) (policyEngine : Option PolicyEngine) (tags : TagTable)
    (s : MmapStore) (rootDigest : Str) : Prop :=
  evaluateForRun f policyEngine tags s (strippedDigest rootDigest) = none

instance (f : PolicyFormats) (policyEngine : Option PolicyEngine) (tags : TagTable) (s : MmapStore)
    (rootDigest : Str) : Decidable (PassesPolicy f policyEngine tags s rootDigest) :=
  inferInstanceAs (Decidable (_ = _))

end RuntimeService

end Pullrun
