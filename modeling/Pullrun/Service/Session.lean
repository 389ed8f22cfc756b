import Pullrun.Gc.Collect
import Pullrun.Lib.Schedule
import Pullrun.Oci.DagTar

/-!
# Sessions: sequences of operations on one store

What the daemon does to its store over time, one operation after the other: store nodes and blobs,
tag a root (`increment_refcount`), remove a tag (`remove_tag`), import an archive and tag its root
(`import_image`), collect garbage with the tagged digests as roots (`gc`).

The tags are a multiset: how often each digest is tagged now. The store does not know it; it is
what the counts are *about*. An operation that is not allowed in a state — removing a tag that is
not there, a directory listing that is not the store's — is not a step. An operation that fails is
a step, and leaves what it left.
-/

namespace Pullrun

structure Session where
  store : MmapStore
  tags : Multiset Digest

namespace Session

/-- One operation. `collect` carries what it finds in its environment: the clock, the request's
    `force`, the listing of the store directory, and the roots in the order of the tag table. -/
inductive Op
  | put (node : DagNode)
  | putBlob (digest : Digest) (data : Bytes)
  | tag (digest : Digest)
  | removeTag (digest : Digest)
  | importImage (archive : DagTar.Archive)
  | collect (now : ℕ) (force : Bool) (listing roots : List Digest)

def start (maxNode maxBlob : Option ℕ) : Session := ⟨.openOn .empty maxNode maxBlob, 0⟩

def addTag (s : Session) (d : Digest) : Session := ⟨s.store.incrementRefcount d, d ::ₘ s.tags⟩

/-- `import_image`: import, then tag the root of the manifest. -/
def importImage (c : Codec) (json : Json) (s : Session) (archive : DagTar.Archive) : Session :=
  match DagTar.importDagFromTar c json s.store archive with
  | (.error _, store) => { s with store }
  | (.ok (rootDigest, _, _), store) =>
    match Digest.fromHex rootDigest with
    | .error _ => { s with store }
    | .ok root => addTag { s with store } root

def Collects (s : Session) (listing roots : List Digest) : Prop :=
  (listing : Multiset Digest) = s.store.disk.nodes.keys.val ∧ roots.toFinset = s.tags.toFinset

instance (s : Session) (listing roots : List Digest) : Decidable (s.Collects listing roots) :=
  inferInstanceAs (Decidable (_ ∧ _))

def step (c : Codec) (json : Json) (s : Session) : Op → Option Session
  | .put node => some { s with store := (s.store.put c node).2 }
  | .putBlob digest data => some { s with store := s.store.putBlob digest data }
  | .tag digest => some (s.addTag digest)
  | .removeTag digest =>
    if digest ∈ s.tags then some ⟨(s.store.removeTag c digest).2, s.tags.erase digest⟩ else none
  | .importImage archive => some (s.importImage c json archive)
  | .collect now force listing roots =>
    if s.Collects listing roots then
      some { s with
        store := (GarbageCollector.collectListed c ⟨false, force⟩ now listing s.store roots).2 }
    else none

def putNodes : List Op → List DagNode
  | [] => []
  | .put node :: ops => node :: putNodes ops
  | _ :: ops => putNodes ops

theorem mem_putNodes {ops : List Op} {n : DagNode} (h : .put n ∈ ops) : n ∈ putNodes ops := by
  induction ops with
  | nil => exact absurd h (by simp)
  | cons op ops ih =>
    rcases List.mem_cons.mp h with rfl | hrest
    · exact List.mem_cons_self
    · cases op with
      | put m => exact List.mem_cons_of_mem _ (ih hrest)
      | _ => exact ih hrest

end Session

end Pullrun
