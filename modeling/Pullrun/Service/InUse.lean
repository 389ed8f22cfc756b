import Pullrun.Service.Image
import Pullrun.Service.Run
import Pullrun.Service.Sample

/-!
# Images and the workloads that run on them

`pull_image`, `build_image`, `run_workload`, `stop_workload`, `prune` and `remove_image` of
`pullrun-runtime/src/service.rs`, one after the other, as far as they decide which nodes are in the
store and which of them a workload needs. `remove_image` is the one of `Service/Requests.lean`.

An image that is pulled or built is an `Image`; that of a multi-platform build has the manifest list
for its last node, with an edge to the manifest of every platform. A conversion that ends without a
tag (because it fails, or because what it converts is the base of a build) leaves the nodes it has
stored. A kernel image is converted by `run_workload` and never tagged.
-/

namespace Pullrun

def namedDigest (text : Str) : Option Digest :=
  match Digest.fromHex text with
  | .ok d => some d
  | .error _ => none

/-- What a workload was started from: the digests that `enumerate_gc_roots` reads from its row. -/
def WorkloadRow.StartedFrom (row : WorkloadRow) (d : Digest) : Prop :=
  namedDigest row.imageRoot = some d ∨ namedDigest row.kernelImageDigest = some d

instance (row : WorkloadRow) (d : Digest) : Decidable (row.StartedFrom d) :=
  inferInstanceAs (Decidable (_ ∨ _))

/-- Was a workload in the table started from the digest? -/
def RuntimeService.Needs (s : RuntimeService) (d : Digest) : Prop :=
  ∃ row ∈ s.workloads.entries, row.2.StartedFrom d

instance (s : RuntimeService) (d : Digest) : Decidable (s.Needs d) :=
  Multiset.decidableExistsMultiset

structure ImageHost where
  service : RuntimeService
  kernelCache : Finmap fun _ : Str => Digest
  exited : List Str
  tags : Multiset Digest

namespace ImageHost

/-- `RunRequest`. `fetched` is what the registry has for the kernel image, and `launched` whether the
    executor starts the workload. -/
structure Run (c : Codec) where
  id : Str
  rootDigest : Str
  vm : Bool
  kernelImage : Str
  fetched : Option (Image c)
  launched : Bool

inductive Op (c : Codec)
  | pull (imageRef : Str) (fetched : Option (Image c))
  | build (tag : Str) (image : Image c)
  | untagged (image : Image c) (stored : ℕ)
  | run (req : Run c)
  | exit (id : Str)
  | stop (id : Str)
  | prune
  | remove (rootDigest : Str)

def Op.nodes {c : Codec} : Op c → List DagNode
  | .pull _ (some image) => image.nodes.map Prod.fst
  | .build _ image => image.nodes.map Prod.fst
  | .untagged image _ => image.nodes.map Prod.fst
  | .run ⟨_, _, _, _, some image, _⟩ => image.nodes.map Prod.fst
  | _ => []

def start : ImageHost := ⟨.start, ∅, [], 0⟩

variable (cfg : RuntimeConfig)

def stored (s : ImageHost) (nodes : List (DagNode × Bytes)) : ImageHost :=
  { s with service.store := s.service.store.convert cfg.formats.codec nodes }

def tagged (s : ImageHost) (root : Digest) (reference : Str) : ImageHost :=
  { s with
    service.store := s.service.store.incrementRefcount root
    service.imageTags := Finmap.insert root.asHex reference s.service.imageTags
    tags := root ::ₘ s.tags }

/-- Is there a local image under the reference? -/
def Local (s : ImageHost) (imageRef : Str) : Prop :=
  ∃ entry ∈ s.service.imageTags.entries, entry.2 = imageRef

instance (s : ImageHost) (imageRef : Str) : Decidable (s.Local imageRef) :=
  Multiset.decidableExistsMultiset

/-- The kernel image is in the cache, or staged; `none` if that fails. -/
def stageKernel (s : ImageHost) (req : Run cfg.formats.codec) : Option ImageHost :=
  if req.vm = false ∨ req.kernelImage = [] ∨ s.kernelCache.lookup req.kernelImage ≠ none then some s
  else
    match req.fetched with
    | none => none
    | some image =>
      let s := s.stored cfg image.nodes
      some { s with kernelCache := s.kernelCache.insert req.kernelImage image.root }

def HasManifest (s : ImageHost) (d : Digest) : Bool :=
  match s.service.store.disk.nodes.lookup d with
  | none => false
  | some bytes =>
    match cfg.formats.codec.checkArchivedRoot bytes with
    | .error _ => false
    | .ok node => node.kind = .manifest

/-- `get_archived` finds the node. -/
def HasArchived (s : ImageHost) (d : Digest) : Bool :=
  match s.service.store.disk.nodes.lookup d with
  | none => false
  | some bytes =>
    match cfg.formats.codec.checkArchivedRoot bytes with
    | .error _ => false
    | .ok _ => true

/-- What the executor reads of an image. A container needs its manifest, for the architecture and for its
    root filesystem. The disk of a machine is made by `materialize_into`, which reads the node that it is
    given and does not ask for its kind. -/
def ImageRead (s : ImageHost) (vm : Bool) (d : Digest) : Bool :=
  if vm then s.HasArchived cfg d else s.HasManifest cfg d

/-- `kernel_image_digest` of the state that is recorded. -/
def kernelImageDigest (s : ImageHost) (kernelImage : Str) : Str :=
  if kernelImage = [] then [] else ((s.kernelCache.lookup kernelImage).map Digest.asHex).getD []

/-- `run_workload`. -/
def runWorkload (s : ImageHost) (req : Run cfg.formats.codec) : ImageHost :=
  match s.stageKernel cfg req with
  | none => s
  | some s =>
    match RuntimeService.runDigest req.rootDigest with
    | .error _ => s
    | .ok d =>
      if req.launched = true ∧ s.ImageRead cfg req.vm d = true then
        { s with
          service.workloads := Finmap.insert req.id
            ⟨RuntimeService.strippedDigest req.rootDigest, s.kernelImageDigest req.kernelImage⟩
            s.service.workloads
          exited := s.exited.filter (· ≠ req.id) }
      else s

def untag (s : ImageHost) (rootDigest : Str) : Multiset Digest :=
  match Digest.fromHex rootDigest with
  | .error _ => s.tags
  | .ok root => s.tags.erase root

def removeImage (s : ImageHost) (rootDigest : Str) : ImageHost :=
  let reply := s.service.removeImage cfg rootDigest
  match reply.result with
  | .error _ => s
  | .ok _ => { s with service := s.service.after reply, tags := s.untag rootDigest }

def step (s : ImageHost) : Op cfg.formats.codec → Option ImageHost
  | .pull imageRef fetched =>
    if s.Local imageRef then some s
    else
      match fetched with
      | none => some s
      | some image => some ((s.stored cfg image.nodes).tagged image.root imageRef)
  | .build tag image =>
    let reference := if tag = [] then image.root.asHex.take 12 else tag
    some ((s.stored cfg image.nodes).tagged image.root reference)
  | .untagged image k => some (s.stored cfg (image.nodes.take k))
  | .run req => some (s.runWorkload cfg req)
  | .exit id => some { s with exited := id :: s.exited }
  -- The row of a stopped workload stays, and `prune` leaves it: its status is `stopped`.
  | .stop _ => some s
  | .prune =>
    some { s with
      service.workloads := s.exited.foldl (fun rows id => rows.erase id) s.service.workloads
      exited := [] }
  | .remove rootDigest => some (s.removeImage cfg rootDigest)

end ImageHost

/-! ## A build for two platforms -/

namespace Sample

def listD : Digest := .ofNat 0xeb954d7550cac7e4ae2ad5cc8e36d2b185fb67280f1347a63293e9fdd833ac82

def list : DagNode := ⟨.manifestList, [imageAD, imageBD], []⟩

def listNodes : List DagNode := [leaf, imageA, imageB, list]

def listCodec : Codec :=
  .ofRows [(leaf, leafD), (imageA, imageAD), (imageB, imageBD), (list, listD)]

def listRank (d : Digest) : ℕ := if d = listD then 2 else if d = leafD then 0 else 1

theorem listCodec_acyclic : listCodec.Acyclic listNodes := by
  have hrank : ∀ n ∈ listNodes, ∀ p ∈ listCodec.digest? n, ∀ q ∈ n.edges,
      listRank q < listRank p := by decide +kernel
  exact Codec.acyclic_of_rank listRank fun n hn p hp q hq => hrank n hn p hp q hq

def platforms : Image listCodec where
  below := [(leaf, Codec.archive leaf), (imageA, Codec.archive imageA),
    (imageB, Codec.archive imageB)]
  manifest := (list, Codec.archive list)
  encodes := by decide +kernel
  childrenFirst := by decide +kernel

def platformA : Image listCodec where
  below := [(leaf, Codec.archive leaf)]
  manifest := (imageA, Codec.archive imageA)
  encodes := by decide +kernel
  childrenFirst := by decide +kernel

def listRuntime : RuntimeConfig :=
  { runtime none with formats := { formats with codec := listCodec } }

end Sample

end Pullrun
