import Pullrun.Lib.Schedule
import Pullrun.Oci.DagTar
import Pullrun.Oci.Dockerfile
import Pullrun.Policy.Engine

/-!
# The image requests and the tag table

`pull_image`, `build_image`, `commit_image`, `import_image` and `remove_image` of
`pullrun-runtime/src/service.rs`, each as one step: what it answers, what it leaves in the store and
what it does to `image_tags`.

`image_tags` maps the *text* of a digest to a reference. It is searched by value where `pull_image`
looks for a local image, in the order in which the hash map happens to iterate; that order is part
of the request. A request changes the table at most once, by a `TagEffect`.
-/

namespace Pullrun

/-- A map from texts to texts: `HashMap<String, String>`. -/
abbrev TagTable := Finmap fun _ : Str => Str

inductive TagEffect
  /-- `tags.insert(digest, reference)` -/
  | insert (digest reference : Str)
  /-- `tags.retain(|k, _| k != digest)` -/
  | remove (digest : Str)
deriving DecidableEq

namespace TagTable

def apply (tags : TagTable) : Option TagEffect → TagTable
  | none => tags
  | some (.insert digest reference) => Finmap.insert digest reference tags
  | some (.remove digest) => Finmap.erase digest tags

def Iterates (tags : TagTable) (order : List (Σ _ : Str, Str)) : Prop :=
  (order : Multiset (Σ _ : Str, Str)) = tags.entries

instance (tags : TagTable) (order : List (Σ _ : Str, Str)) : Decidable (tags.Iterates order) :=
  inferInstanceAs (Decidable (_ = _))

end TagTable

/-- `for (digest, tag) in tags.iter() { if *tag == image_ref { return digest } }` -/
def localHit (order : List (Σ _ : Str, Str)) (imageRef : Str) : Option Str :=
  (order.find? fun entry => entry.2 = imageRef).map Sigma.fst

inductive RequestError
  /-- `pull failed: {e}` -/
  | pullFailed (e : String)
  /-- `conversion failed: {e}` -/
  | conversionFailed (e : ConvertError)
  /-- `Policy denied image {image_ref}: {reason}` -/
  | policyDenied (imageRef : Str) (reason : DenyReason)
  /-- `policy evaluation failed: {e}` -/
  | policyEvaluation (e : PolicyError)
  /-- `build failed: {e}`, `multi-arch build failed: {e}` -/
  | buildFailed (e : String)
  /-- `push requires a tag (use -t registry/repo:tag)` -/
  | pushRequiresTag
  /-- `push failed: {e}` -/
  | pushFailed (e : String)
  /-- `commit failed: {e}` -/
  | commitFailed (e : CommitError)
  /-- `import failed: {e}` -/
  | importFailed (e : OciError)
  /-- `invalid root digest: {e}`, `invalid root_digest: {e}` -/
  | invalidDigest (e : Digest.ParseError)
  /-- `image {root_digest} not found` -/
  | imageNotFound (rootDigest : Str)
  /-- `image is in use by workload {id}` -/
  | imageInUse
deriving DecidableEq

structure WorkloadRow where
  imageRoot : Str
  kernelImageDigest : Str
deriving DecidableEq

structure RuntimeService where
  store : MmapStore
  imageTags : TagTable
  workloads : Finmap fun _ : Str => WorkloadRow

/-- `PullImageRequest`, less the credentials. -/
structure PullImageRequest where
  imageRef : Str
  registry : Str := []
  platform : Str := []
deriving DecidableEq

/-- What the daemon is configured with, and the registries as it finds them. -/
structure RuntimeConfig where
  formats : Formats
  policyFormats : PolicyFormats
  manifestJson : Json
  policyEngine : Option PolicyEngine
  registry : PullImageRequest → Except String PulledImage

/-- The answer to a request, the store it leaves, and its effect on the table. -/
structure Reply where
  result : Except RequestError Str
  store : MmapStore
  effect : Option TagEffect

namespace RuntimeService

def start : RuntimeService := ⟨.new, ∅, ∅⟩

/-- `evaluate_pulled`: the reason why not, if the policy does not allow the image. The entries that
    the engine's reads leave in the blob cache are dropped. -/
def evaluatePulled (cfg : RuntimeConfig) (s : MmapStore) (imageRef manifestDigest : Str) :
    Option RequestError :=
  match cfg.policyEngine with
  | none => none
  | some engine =>
    match (engine.evaluateForImage cfg.policyFormats engine.defaultPolicy s imageRef
        manifestDigest).1 with
    | .error e => some (.policyEvaluation e)
    | .ok (.deny reason) => some (.policyDenied imageRef reason)
    | .ok .allow => none

/-- `pull_image` after the image is converted: the tag, the count of the root, the policy gate. -/
def tagPulled (cfg : RuntimeConfig) (imageRef : Str) (root : Digest) (s : MmapStore) : Reply :=
  let store := s.incrementRefcount root
  let effect := some (.insert root.asHex imageRef)
  match evaluatePulled cfg store imageRef root.asHex with
  | some e => ⟨.error e, store, effect⟩
  | none => ⟨.ok root.asHex, store, effect⟩

/-- `pull_image`. `none` is a conversion that has not come to an end. -/
def pullImage (cfg : RuntimeConfig) (s : RuntimeService) (order : List (Σ _ : Str, Str))
    (seeds : ImageSeeds) (fuel : ℕ) (req : PullImageRequest) : Option Reply :=
  match localHit order req.imageRef with
  | some digest => some ⟨.ok digest, s.store, none⟩
  | none =>
    match cfg.registry req with
    | .error e => some ⟨.error (.pullFailed e), s.store, none⟩
    | .ok pulled =>
      match convert cfg.formats seeds fuel pulled s.store with
      | none => none
      | some (.error e, store) => some ⟨.error (.conversionFailed e), store, none⟩
      | some (.ok root, store) => some (tagPulled cfg req.imageRef root store)

/-- `build_image` after the builder has run: `built` is what it returned and `store` what it left.
    `push` is the outcome of the push after the build, if one was asked for. -/
def buildImage (built : Except String Digest) (store : MmapStore) (tag : Str)
    (push : Option (Except String Unit)) : Reply :=
  match built with
  | .error e => ⟨.error (.buildFailed e), store, none⟩
  | .ok root =>
    let store := store.incrementRefcount root
    let effect := some (.insert root.asHex (if tag = [] then root.asHex.take 12 else tag))
    match push with
    | none => ⟨.ok root.asHex, store, effect⟩
    | some pushed =>
      if tag = [] then ⟨.error .pushRequiresTag, store, effect⟩
      else
        match pushed with
        | .error e => ⟨.error (.pushFailed e), store, effect⟩
        | .ok () => ⟨.ok root.asHex, store, effect⟩

/-- `commit_image` from the container's root directory on. The reply to a commit with a tag is the one that the
    code would send: it waits for the lock of the tags while it holds it, so that nobody gets it
    (`TagLock`). What becomes of the store is nevertheless what is said here. -/
def commitImage (cfg : RuntimeConfig) (s : RuntimeService) (fuel : ℕ) (src : FileTree.Fs Bytes Attr)
    (rootfs : List FileTree.Seg) (architecture os tag : Str) : Option Reply :=
  match buildDagFromDirectoryWithPlatform cfg.formats fuel src rootfs architecture os s.store with
  | none => none
  | some (.error e, store) => some ⟨.error (.commitFailed e), store, none⟩
  | some (.ok dag, store) =>
    let digest := dag.manifestDigest.asHex
    if tag = [] then some ⟨.ok digest, store, none⟩
    else some ⟨.ok digest, store.incrementRefcount dag.manifestDigest, some (.insert digest tag)⟩

/-- `import_image`. The key is the text the archive's manifest has for the digest. -/
def importImage (cfg : RuntimeConfig) (s : RuntimeService) (archive : DagTar.Archive) : Reply :=
  match DagTar.importDagFromTar cfg.formats.codec cfg.manifestJson s.store archive with
  | (.error e, store) => ⟨.error (.importFailed e), store, none⟩
  | (.ok (rootDigest, _, _), store) =>
    match Digest.fromHex rootDigest with
    | .error e => ⟨.error (.invalidDigest e), store, none⟩
    | .ok root =>
      ⟨.ok rootDigest, store.incrementRefcount root,
        some (.insert rootDigest ("load:".toList ++ rootDigest.take 12))⟩

/-- Is the image the root of a workload in the table? The texts are compared. -/
def inUse (s : RuntimeService) (rootDigest : Str) : Prop :=
  ∃ row ∈ s.workloads.entries, row.2.imageRoot = rootDigest

instance (s : RuntimeService) (rootDigest : Str) : Decidable (s.inUse rootDigest) :=
  Multiset.decidableExistsMultiset

/-- `remove_image`. A digest is at most one key of the table, so `remove_tag` is called once; its
    error is logged and the tag removed all the same. -/
def removeImage (cfg : RuntimeConfig) (s : RuntimeService) (rootDigest : Str) : Reply :=
  match Digest.fromHex rootDigest with
  | .error e => ⟨.error (.invalidDigest e), s.store, none⟩
  | .ok digest =>
    if s.imageTags.lookup rootDigest = none then
      ⟨.error (.imageNotFound rootDigest), s.store, none⟩
    else if s.inUse rootDigest then ⟨.error .imageInUse, s.store, none⟩
    else
      ⟨.ok rootDigest, (s.store.removeTag cfg.formats.codec digest).2, some (.remove rootDigest)⟩

/-! ## Requests in sequence -/

inductive Op
  | pullImage (req : PullImageRequest) (order : List (Σ _ : Str, Str)) (seeds : ImageSeeds)
      (fuel : ℕ)
  | buildImage (built : Except String Digest) (store : MmapStore) (tag : Str)
      (push : Option (Except String Unit))
  | commitImage (fuel : ℕ) (src : FileTree.Fs Bytes Attr) (rootfs : List FileTree.Seg)
      (architecture os tag : Str)
  | importImage (archive : DagTar.Archive)
  | removeImage (rootDigest : Str)

/-- The reply to a request; `none` if it does not apply, for an order that is not one of the table's
    or too little fuel. -/
def reply (cfg : RuntimeConfig) (s : RuntimeService) : Op → Option Reply
  | .pullImage req order seeds fuel =>
    if s.imageTags.Iterates order then s.pullImage cfg order seeds fuel req else none
  | .buildImage built store tag push => some (buildImage built store tag push)
  | .commitImage fuel src rootfs architecture os tag =>
    s.commitImage cfg fuel src rootfs architecture os tag
  | .importImage archive => some (s.importImage cfg archive)
  | .removeImage rootDigest => some (s.removeImage cfg rootDigest)

def after (s : RuntimeService) (r : Reply) : RuntimeService :=
  { s with store := r.store, imageTags := s.imageTags.apply r.effect }

def step (cfg : RuntimeConfig) (s : RuntimeService) (op : Op) : Option RuntimeService :=
  match s.reply cfg op with
  | none => none
  | some r => some (s.after r)

end RuntimeService

end Pullrun
