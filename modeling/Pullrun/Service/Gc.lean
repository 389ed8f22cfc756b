import Pullrun.Gc.Collect
import Pullrun.Service.Pull

/-!
# A `gc` request beside a pull

The `gc` handler enumerates its roots and then runs `collect` on a blocking thread. Here the request
is taken apart into the steps between which a pull can move: the roots, the op locks, the cleaning
of stale locks, the existence of each root, the listing, each iteration of the walk, the guard, each
iteration of the sweep.

An action says whose turn it is and carries what the step finds: the clock, and for the two steps
that read an unordered collection the order in which it comes.
-/

namespace Pullrun

open MmapStore GarbageCollector

inductive GcStage
  /-- `enumerate_gc_roots` -/
  | enumerate
  /-- `list_fresh_op_locks` -/
  | locks (roots : List Digest)
  /-- `clean_stale_op_locks` -/
  | clean (roots : List Digest)
  | check (left roots : List Digest)
  /-- `list_all_node_digests` -/
  | list (roots : List Digest)
  /-- `walk_reachable`, between two iterations -/
  | walk (listing queue seen nodes blobs : List Digest)
  | guard (listing reachable : List Digest)
  | sweep (left : List Digest) (report : GcReport) (swept : Swept)
  | done (report : GcReport)
  /-- `no GC roots found — nothing to preserve` -/
  | refused
  | failed (e : GcError)
deriving DecidableEq

def GcError.ofWalk : StoreError → GcError
  | .corrupted d _ => .corruptedNodeDuringWalk d
  | e => .store e

/-- A pull and a `gc` request on one store. `pinned` are the roots that workloads hold. -/
structure PullGc (c : Codec) where
  store : MmapStore
  imageTags : Finset Digest
  pinned : List Digest
  pull : Pull c
  config : GarbageCollector
  gc : GcStage

namespace PullGc

inductive Act
  | pull (now : ℕ)
  | gc (now : ℕ) (order : List Digest)

variable {c : Codec}

def start (store : MmapStore) (imageTags : Finset Digest) (pinned : List Digest) (image : Image c)
    (config : GarbageCollector) : PullGc c :=
  ⟨store, imageTags, pinned, .new image, config, .enumerate⟩

/-- One iteration of the walk: pop, skip what was seen, otherwise visit. -/
def walkStep (w : PullGc c) (listing nodes blobs : List Digest) :
    List Digest → List Digest → PullGc c
  | [], _ => { w with gc := .guard listing nodes }
  | digest :: queue, seen =>
    if digest ∈ seen then { w with gc := .walk listing queue seen nodes blobs }
    else
      match walkVisit c digest (w.store, (nodes, blobs)) with
      | (.error e, (store, _)) => { w with store, gc := .failed (.ofWalk e) }
      | (.ok next, (store, (nodes, blobs))) =>
        { w with store, gc := .walk listing (queue ++ next) (digest :: seen) nodes blobs }

/-- From the listing and the walk to the sweep, or to the end of a dry run. -/
def guardStep (w : PullGc c) (listing reachable : List Digest) : PullGc c :=
  let unreachable := listing.filter (· ∉ reachable)
  let tooMuch :=
    if w.config.force = false ∧ 0 < listing.length then freesTooMuch w.store unreachable else none
  match tooMuch with
  | some e => { w with gc := .failed e }
  | none =>
    let report : GcReport :=
      { totalNodes := listing.length
        reachableNodes := reachable.dedup.length
        unreachableNodes := unreachable.length }
    if w.config.dryRun then { w with gc := .done { report with dryRun := true } }
    else { w with gc := .sweep unreachable report {} }

def gcStep (w : PullGc c) (now : ℕ) (order : List Digest) : Option (PullGc c) :=
  match w.gc with
  | .enumerate =>
    if (order : Multiset Digest) = w.imageTags.val then
      let roots := order ++ w.pinned
      if roots = [] then some { w with gc := .refused }
      else some { w with gc := .locks roots }
    else none
  | .locks roots =>
    if listFreshOpLocks now w.store.disk ≠ [] ∧ w.config.force = false then
      some { w with gc := .failed .activeOpLocks }
    else some { w with gc := .clean roots }
  | .clean roots =>
    let store :=
      if w.config.dryRun then w.store
      else { w.store with disk := (cleanStaleOpLocks now w.store.disk).2 }
    if roots = [] then some { w with store, gc := .failed .emptyRootSet }
    else some { w with store, gc := .check roots roots }
  | .check [] roots => some { w with gc := .list roots }
  | .check (root :: left) roots =>
    if w.store.exists root then some { w with gc := .check left roots }
    else some { w with gc := .failed (.rootDigestMissing root) }
  | .list roots =>
    if (order : Multiset Digest) = w.store.disk.nodes.keys.val then
      some { w with gc := .walk order roots [] [] [] }
    else none
  | .walk listing queue seen nodes blobs => some (w.walkStep listing nodes blobs queue seen)
  | .guard listing reachable => some (w.guardStep listing reachable)
  | .sweep [] report swept =>
    some { w with gc := .done { report with
      deletedNodes := swept.deletedNodes
      deletedBlobs := swept.deletedBlobs
      bytesFreed := swept.bytesFreed } }
  | .sweep (digest :: left) report swept =>
    let (store, swept) := sweepDigest (w.store, swept) digest
    some { w with store, gc := .sweep left report swept }
  | .done _ | .refused | .failed _ => none

def step (w : PullGc c) : Act → Option (PullGc c)
  | .pull now =>
    match w.pull.step now ⟨w.store.disk, w.imageTags⟩ with
    | none => none
    | some (pull, f) =>
      some { w with store := { w.store with disk := f.disk }, imageTags := f.imageTags, pull }
  | .gc now order => w.gcStep now order

end PullGc

end Pullrun
