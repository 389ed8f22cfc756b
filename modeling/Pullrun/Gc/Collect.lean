import Pullrun.Store.Layout
import Pullrun.Store.Mmap
import Pullrun.Store.OpLock

/-!
# `GarbageCollector`

`pullrun-gc/src/lib.rs`. The collector defers to fresh op locks, cleans stale ones, checks its
roots, lists the stored nodes from the directory tree, walks what the roots reach, and deletes the
rest, node file and blob file together. Reference counts are no concern of it: it neither reads nor
removes a `node.refcount`.

The directory tree is an argument (`Dir`), the clock too. `collectListed` is `collect` from the
point where the tree has been turned into a list of digests; the order of that list is the file
system's.
-/

namespace Pullrun

/-- `GcError`, less its I/O case. -/
inductive GcError
  | activeOpLocks
  | emptyRootSet
  | rootDigestMissing (d : Digest)
  | corruptedNodeDuringWalk (d : Digest)
  | store (e : StoreError)
  | wouldFreeTooMuch (pct totalMb maxPct : ℕ)
deriving DecidableEq

structure GcReport where
  totalNodes : ℕ := 0
  reachableNodes : ℕ := 0
  unreachableNodes : ℕ := 0
  deletedNodes : ℕ := 0
  deletedBlobs : ℕ := 0
  bytesFreed : ℕ := 0
  dryRun : Bool := false
deriving DecidableEq

/-- `GarbageCollector`, less the store it holds. A new one is a dry run and does not force. -/
structure GarbageCollector where
  dryRun : Bool := true
  force : Bool := false
deriving DecidableEq

namespace GarbageCollector

structure Swept where
  deletedNodes : ℕ := 0
  deletedBlobs : ℕ := 0
  bytesFreed : ℕ := 0
deriving DecidableEq

/-- One iteration of the sweep: evict the digest, delete its node file, delete its blob file. -/
def sweepDigest (st : MmapStore × Swept) (digest : Digest) : MmapStore × Swept :=
  let (s, n) := st
  let s := s.evictCacheEntry digest
  let (s, n) :=
    if s.disk.hasNode digest then
      ({ s with disk := s.disk.removeNode digest },
        { n with
          bytesFreed := n.bytesFreed + MmapStore.fileSize s.disk.nodes digest
          deletedNodes := n.deletedNodes + 1 })
    else (s, n)
  if s.disk.hasBlob digest then
    ({ s with disk := s.disk.removeBlob digest },
      { n with
        bytesFreed := n.bytesFreed + MmapStore.fileSize s.disk.blobs digest
        deletedBlobs := n.deletedBlobs + 1 })
  else (s, n)

def sweep (s : MmapStore) (unreachable : List Digest) : MmapStore × Swept :=
  unreachable.foldl sweepDigest (s, {})

/-- The guard against freeing most of a large store. The total is `total_bytes`: what is mapped. -/
def freesTooMuch (s : MmapStore) (unreachable : List Digest) : Option GcError :=
  let unreachableBytes := (unreachable.map (MmapStore.fileSize s.disk.nodes)).sum
  let totalBytes := s.totalBytes
  if 100 * 1024 * 1024 < totalBytes then
    let pct := unreachableBytes * 100 / totalBytes
    if 90 ≤ pct then some (.wouldFreeTooMuch pct (totalBytes / 1024 / 1024) 90) else none
  else none

/-- `collect`, given the listing of the stored nodes. -/
def collectListed (c : Codec) (gc : GarbageCollector) (now : ℕ) (listing : List Digest)
    (s : MmapStore) (roots : List Digest) : Except GcError GcReport × MmapStore :=
  if listFreshOpLocks now s.disk ≠ [] ∧ gc.force = false then (.error .activeOpLocks, s)
  else
    let s := if gc.dryRun then s else { s with disk := (cleanStaleOpLocks now s.disk).2 }
    if roots = [] then (.error .emptyRootSet, s)
    else
      match roots.find? fun root => !s.exists root with
      | some root => (.error (.rootDigestMissing root), s)
      | none =>
        match s.walkReachable c roots with
        | (.error (.corrupted d _), s) => (.error (.corruptedNodeDuringWalk d), s)
        | (.error e, s) => (.error (.store e), s)
        | (.ok (reachable, _), s) =>
          let unreachable := listing.filter (· ∉ reachable)
          let tooMuch :=
            if gc.force = false ∧ 0 < listing.length then freesTooMuch s unreachable else none
          match tooMuch with
          | some e => (.error e, s)
          | none =>
            let report : GcReport :=
              { totalNodes := listing.length
                reachableNodes := reachable.dedup.length
                unreachableNodes := unreachable.length }
            if gc.dryRun then (.ok { report with dryRun := true }, s)
            else
              let (s, n) := sweep s unreachable
              (.ok { report with
                  deletedNodes := n.deletedNodes
                  deletedBlobs := n.deletedBlobs
                  bytesFreed := n.bytesFreed }, s)

/-- `collect`, over the directory tree `tree` at the absolute path `root`. -/
def collect (c : Codec) (gc : GarbageCollector) (now : ℕ) (root : List Str) (tree : Dir)
    (s : MmapStore) (roots : List Digest) : Except GcError GcReport × MmapStore :=
  collectListed c gc now (walkStoreDir root tree) s roots

end GarbageCollector

end Pullrun
