import Pullrun.Gc.Collect
import Pullrun.Service.InUse

/-!
# The roots of a garbage collection

`enumerate_gc_roots` and the `gc` request of `pullrun-runtime/src/service.rs`, on the daemon of
`Service/InUse.lean`; and `import_image`, which tags a root that it takes from the archive, as one
more request of that daemon.

The two tables are hash maps; the orders in which they are iterated are arguments, and so is what
`collect` finds: the clock and the listing of the store directory.
-/

namespace Pullrun

namespace RuntimeService

/-- `enumerate_gc_roots`: the keys of the tag table, and for each workload its image and its kernel
    image. A text that is no digest is passed over. -/
def enumerateGcRoots (tags : List (Σ _ : Str, Str)) (rows : List (Σ _ : Str, WorkloadRow)) :
    List Digest :=
  tags.filterMap (fun tag => namedDigest tag.1) ++
    rows.flatMap fun row =>
      (if row.2.imageRoot = [] then [] else (namedDigest row.2.imageRoot).toList) ++
      (if row.2.kernelImageDigest = [] then [] else (namedDigest row.2.kernelImageDigest).toList)

/-- The answer to a `gc` request: `none` is `no GC roots found — nothing to preserve`. -/
def gc (c : Codec) (s : RuntimeService) (tags : List (Σ _ : Str, Str))
    (rows : List (Σ _ : Str, WorkloadRow)) (config : GarbageCollector) (now : ℕ)
    (listing : List Digest) : Option (Except GcError GcReport) :=
  let roots := enumerateGcRoots tags rows
  if roots = [] then none
  else some (GarbageCollector.collectListed c config now listing s.store roots).1

/-- Orders in which the two tables may be iterated. -/
def Orders (s : RuntimeService) (tags : List (Σ _ : Str, Str))
    (rows : List (Σ _ : Str, WorkloadRow)) : Prop :=
  s.imageTags.Iterates tags ∧ (rows : Multiset (Σ _ : Str, WorkloadRow)) = s.workloads.entries

end RuntimeService

namespace ImageHost

variable (cfg : RuntimeConfig)

def importImage (s : ImageHost) (archive : DagTar.Archive) : ImageHost :=
  let reply := s.service.importImage cfg archive
  { s with
    service := s.service.after reply
    tags :=
      match reply.effect with
      | some (.insert key _) => ↑(namedDigest key).toList + s.tags
      | _ => s.tags }

/-- The requests of `Service/InUse.lean`, and imports. -/
inductive Request (c : Codec)
  | other (op : Op c)
  | importImage (archive : DagTar.Archive)

def request (s : ImageHost) : Request cfg.formats.codec → Option ImageHost
  | .other op => s.step cfg op
  | .importImage archive => some (s.importImage cfg archive)

end ImageHost

end Pullrun
