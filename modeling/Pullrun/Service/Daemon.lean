import Pullrun.Lib.Schedule
import Pullrun.Service.Image

/-!
# The daemon over restarts

`pullrun-runtime/src/service.rs`. The daemon keeps `image_tags`, a map from root digests to image
references that is saved in the store directory and read back at startup. A digest is a key of it
at most once, however often the image was pulled; the reference count of the root is raised by
every pull. At startup, in a new process with empty caches, the counts are rebuilt from the keys
(`recompute_all_refcounts`).

Only the keys of the map are modelled, and a daemon without workloads. The operations are
sequential: a rebuild is finished before the next request.
-/

namespace Pullrun

structure Daemon where
  store : MmapStore
  imageTags : Finset Digest

namespace Daemon

inductive Op (c : Codec)
  | put (image : Image c)
  /-- `tags.insert(root, _)` and `increment_refcount(root)` -/
  | tag (root : Digest)
  | remove (root : Digest)
  /-- A new process, with the limits of its caches and the keys in the order of its hash map. -/
  | restart (maxNode maxBlob : Option ℕ) (roots : List Digest)

def start (maxNode maxBlob : Option ℕ) : Daemon := ⟨.openOn .empty maxNode maxBlob, ∅⟩

def rebuild (c : Codec) (s : MmapStore) (roots : List Digest) : MmapStore :=
  if roots = [] then s else (s.recomputeAllRefcounts c roots).2

/-- A request to remove an image that is not in the table is refused and changes nothing. -/
def step (c : Codec) (s : Daemon) : Op c → Option Daemon
  | .put image => some { s with store := s.store.convert c image.nodes }
  | .tag root => some ⟨s.store.incrementRefcount root, insert root s.imageTags⟩
  | .remove root =>
    if root ∈ s.imageTags then some ⟨(s.store.removeTag c root).2, s.imageTags.erase root⟩
    else some s
  | .restart maxNode maxBlob roots =>
    if (roots : Multiset Digest) = s.imageTags.val then
      some { s with store := rebuild c (.openOn s.store.disk maxNode maxBlob) roots }
    else none

end Daemon

end Pullrun
