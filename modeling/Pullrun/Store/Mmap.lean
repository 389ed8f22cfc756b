import Pullrun.Lib.Worklist
import Pullrun.Store.Cache

/-!
# `MmapStore`

`pullrun-store/src/store.rs`: the content-addressed node store, its reference counts, and the
three breadth-first walks over it (`remove_tag`, `recompute_all_refcounts`, `walk_reachable`).

A function of the source that can fail half way returns its result *and* the store as it then
stands, because nothing is rolled back. Errors of the operating system are not modelled: a file
operation does what it says. Empty shard directories carry no data and are not part of a `Disk`.
-/

namespace Pullrun

/-- `StoreError`, less its I/O case. -/
inductive StoreError
  | notFound (d : Digest)
  | corrupted (d : Digest) (why : String)
  | serialization (why : String)
  | archiveValidation (root : Str) (e : Digest.ParseError)
  /-- Not in the source: the bound on the iterations of a loop was too small. -/
  | stalled
deriving DecidableEq

structure MmapStore where
  disk : Disk
  cache : Cache
  blobCache : Cache

namespace MmapStore

/-- `DEFAULT_MAX_NODE_CACHE_BYTES` and `DEFAULT_MAX_BLOB_CACHE_BYTES`. -/
def defaultMaxCacheBytes : ℕ := 256 * 1024 * 1024

def openOn (k : Disk) (maxNode maxBlob : Option ℕ) : MmapStore :=
  ⟨k, Cache.empty maxNode, Cache.empty maxBlob⟩

/-- `MmapStore::new` on a fresh root. -/
def new : MmapStore := openOn Disk.empty (some defaultMaxCacheBytes) (some defaultMaxCacheBytes)

/-! ## Reading -/

def get (s : MmapStore) (d : Digest) : Except StoreError Bytes × MmapStore :=
  match s.cache.read s.disk.nodes d with
  | (some b, cache) => (.ok b, { s with cache := cache })
  | (none, cache) => (.error (.notFound d), { s with cache := cache })

/-- `get_archived`: the mapped bytes, validated. -/
def getArchived (c : Codec) (s : MmapStore) (d : Digest) : Except StoreError DagNode × MmapStore :=
  match s.get d with
  | (.error e, s) => (.error e, s)
  | (.ok b, s) =>
    match c.checkArchivedRoot b with
    | .error why => (.error (.corrupted d why), s)
    | .ok n => (.ok n, s)

def getBlob (s : MmapStore) (d : Digest) : Except StoreError Bytes × MmapStore :=
  match s.blobCache.read s.disk.blobs d with
  | (some b, cache) => (.ok b, { s with blobCache := cache })
  | (none, cache) => (.error (.notFound d), { s with blobCache := cache })

/-- `exists`: cached, or on disk. -/
def «exists» (s : MmapStore) (d : Digest) : Bool :=
  (s.cache.entries.lookup d).isSome || s.disk.hasNode d

/-- `total_bytes`: what is mapped, not what is stored. -/
def totalBytes (s : MmapStore) : ℕ := s.cache.totalBytes + s.blobCache.totalBytes

/-! ## Writing -/

/-- `for edge in &node.edges { increment_refcount(edge) }` -/
def incrementEdges (k : Disk) : List Digest → Disk
  | [] => k
  | edge :: rest => incrementEdges (k.incrementRefcount edge).2 rest

/-- `put_blocking`: dedup by existence of the file, else write it and count its edges. -/
def putBlocking (c : Codec) (s : MmapStore) (node : DagNode) :
    Except StoreError Digest × MmapStore :=
  match c.toBytes node with
  | .error e => (.error (.serialization s!"rkyv serialization failed: {e}"), s)
  | .ok bytes =>
    let digest := c.sha256 bytes
    if s.disk.hasNode digest then (.ok digest, s)
    else (.ok digest, { s with disk := incrementEdges (s.disk.writeNode digest bytes) node.edges })

/-- `put`: the same steps with the write on a blocking thread. -/
def put (c : Codec) (s : MmapStore) (node : DagNode) : Except StoreError Digest × MmapStore :=
  putBlocking c s node

/-- `put_blob_blocking`: dedup by existence, whatever the bytes. -/
def putBlobBlocking (s : MmapStore) (d : Digest) (data : Bytes) : MmapStore :=
  if s.disk.hasBlob d then s else { s with disk := s.disk.writeBlob d data }

def putBlob (s : MmapStore) (d : Digest) (data : Bytes) : MmapStore := putBlobBlocking s d data

def incrementRefcount (s : MmapStore) (d : Digest) : MmapStore :=
  { s with disk := (s.disk.incrementRefcount d).2 }

/-- `evict_cache_entry`: the node cache only. -/
def evictCacheEntry (s : MmapStore) (d : Digest) : MmapStore :=
  { s with cache := s.cache.evictEntry d }

/-! ## Walking -/

def walkFuel (c : Codec) (k : Disk) (n : ℕ) : ℕ :=
  n + (∑ d ∈ k.nodes.keys, (k.edgesOf c d).length) + 1

/-- `for child in &edges { if decrement_refcount(child)? == 0 { queue.push_back(child) } }` -/
def decrementEdges (k : Disk) : List Digest → List Digest × Disk
  | [] => ([], k)
  | child :: rest =>
    let (new, k) := k.decrementRefcount child
    let (next, k) := decrementEdges k rest
    (if new = 0 then child :: next else next, k)

def fileSize (m : FileMap Bytes) (d : Digest) : ℕ := ((m.lookup d).map List.length).getD 0

/-- The end of `remove_tag`'s loop body: take the edges off their targets, evict the node, remove
    its three files. -/
def dropNode (s : MmapStore) (node : Digest) (edges : List Digest) : List Digest × MmapStore :=
  let (next, k) := decrementEdges s.disk edges
  let s := { s with disk := k }.evictCacheEntry node
  (next, { s with disk := ((s.disk.removeNode node).removeBlob node).removeRefcount node })

/-- `remove_tag`'s loop body for a digest it has not seen, with the bytes freed so far. -/
def removeTagVisit (c : Codec) (node : Digest) :
    MmapStore × ℕ → Except StoreError (List Digest) × (MmapStore × ℕ)
  | (s, bytesFreed) =>
    if s.disk.hasNode node then
      let freed := bytesFreed + fileSize s.disk.nodes node + fileSize s.disk.blobs node
      match s.getArchived c node with
      | (.ok archived, s) =>
        let (next, s) := s.dropNode node archived.edges
        (.ok next, (s, freed))
      | (.error (.notFound _), s) =>
        let (next, s) := s.dropNode node []
        (.ok next, (s, freed))
      | (.error e, s) => (.error e, (s, bytesFreed))
    else (.ok [], (s, bytesFreed))

/-- `remove_tag`: release one reference to the root and, if it was the last, cascade. -/
def removeTag (c : Codec) (s : MmapStore) (root : Digest) : Except StoreError ℕ × MmapStore :=
  let (remaining, k) := s.disk.decrementRefcount root
  let s := { s with disk := k }
  if 0 < remaining then (.ok 0, s)
  else
    match Worklist.run .stalled (removeTagVisit c) (walkFuel c s.disk 1) [root] [] (s, 0) with
    | (.ok _, (s, bytesFreed)) => (.ok bytesFreed, s)
    | (.error e, (s, _)) => (.error e, s)

/-- `*counts.entry(d).or_default() += 1` -/
def bump (d : Digest) : List (Digest × ℕ) → List (Digest × ℕ)
  | [] => [(d, 1)]
  | (e, n) :: counts => if e = d then (e, n + 1) :: counts else (e, n) :: bump d counts

/-- The edges of a visited node: a child that is not on disk is neither counted nor queued. -/
def countEdges (k : Disk) : List Digest → List (Digest × ℕ) → List Digest × List (Digest × ℕ)
  | [], counts => ([], counts)
  | child :: rest, counts =>
    if k.hasNode child then
      let (next, counts) := countEdges k rest (bump child counts)
      (child :: next, counts)
    else countEdges k rest counts

/-- `recompute_all_refcounts`' loop body. -/
def recomputeVisit (c : Codec) (node : Digest) :
    MmapStore × List (Digest × ℕ) →
      Except StoreError (List Digest) × (MmapStore × List (Digest × ℕ))
  | (s, counts) =>
    if s.disk.hasNode node then
      match s.getArchived c node with
      | (.ok archived, s) =>
        let (next, counts) := countEdges s.disk archived.edges counts
        (.ok next, (s, counts))
      | (.error (.notFound _), s) => (.ok [], (s, counts))
      | (.error e, s) => (.error e, (s, counts))
    else (.ok [], (s, counts))

/-- `for (digest, count) in &counts { set_refcount(digest, count) }` -/
def writeCounts (k : Disk) : List (Digest × ℕ) → Disk
  | [] => k
  | (d, n) :: counts => writeCounts (k.setRefcount d n) counts

/-- `recompute_all_refcounts`: count from the roots, then overwrite the counts that were
    reached. -/
def recomputeAllRefcounts (c : Codec) (s : MmapStore) (roots : List Digest) :
    Except StoreError Unit × MmapStore :=
  let counts := roots.foldl (fun counts root => bump root counts) []
  match Worklist.run .stalled (recomputeVisit c) (walkFuel c s.disk roots.length) roots [] (s, counts) with
  | (.error e, (s, _)) => (.error e, s)
  | (.ok _, (s, counts)) => (.ok (), { s with disk := writeCounts s.disk counts })

/-- The text `walk_reachable` puts into the `Corrupted` it returns. -/
def corruptedDuringWalk : String :=
  "corrupted node during BFS walk — aborting to prevent subtree deletion"

/-- `walk_reachable`'s loop body; the accumulator is `(node_digests, blob_digests)`. -/
def walkVisit (c : Codec) (digest : Digest) :
    MmapStore × (List Digest × List Digest) →
      Except StoreError (List Digest) × (MmapStore × (List Digest × List Digest))
  | (s, (nodes, blobs)) =>
    if s.exists digest then
      let nodes := nodes ++ [digest]
      let blobs := if s.disk.hasBlob digest then blobs ++ [digest] else blobs
      match s.getArchived c digest with
      | (.ok archived, s) => (.ok archived.edges, (s, (nodes, blobs)))
      | (.error (.notFound _), s) => (.ok [], (s, (nodes, blobs)))
      | (.error (.corrupted d _), s) =>
        (.error (.corrupted d corruptedDuringWalk), (s, (nodes, blobs)))
      | (.error e, s) => (.error e, (s, (nodes, blobs)))
    else (.ok [], (s, (nodes, blobs)))

/-- `walk_reachable`: the reachable nodes in breadth-first order, and those with a blob file. -/
def walkReachable (c : Codec) (s : MmapStore) (roots : List Digest) :
    Except StoreError (List Digest × List Digest) × MmapStore :=
  match Worklist.run .stalled (walkVisit c) (walkFuel c s.disk roots.length) roots [] (s, ([], [])) with
  | (.ok _, (s, acc)) => (.ok acc, s)
  | (.error e, (s, _)) => (.error e, s)

/-! ## The store and its files

What every function above does to the *files*, as equations; the caches are dealt with once, by
`Coherent`. -/

/-- The node cache agrees with the node files. The blob cache is not mentioned: nothing that
    removes a blob file evicts it. -/
def Coherent (s : MmapStore) : Prop := s.cache.Coherent s.disk.nodes

theorem coherent_openOn (k : Disk) (m1 m2 : Option ℕ) : (openOn k m1 m2).Coherent :=
  Cache.coherent_empty _ _

theorem get_frame (s : MmapStore) (d : Digest) :
    ∃ cache, (s.get d).2 = { s with cache := cache } := by
  unfold get
  split <;> exact ⟨_, rfl⟩

theorem getArchived_frame (c : Codec) (s : MmapStore) (d : Digest) :
    ∃ cache, (s.getArchived c d).2 = { s with cache := cache } := by
  obtain ⟨cache, hs⟩ := get_frame s d
  unfold getArchived
  split
  · rename_i heq; rw [heq] at hs; exact ⟨cache, hs⟩
  · rename_i heq
    rw [heq] at hs
    split <;> exact ⟨cache, hs⟩

theorem get_coherent {s : MmapStore} (h : s.Coherent) (d : Digest) :
    (s.get d).2.Coherent ∧ (s.get d).2.disk = s.disk ∧
      (s.get d).1 = match s.disk.nodes.lookup d with
        | none => .error (.notFound d)
        | some b => .ok b := by
  obtain ⟨hval, hcoh⟩ := Cache.Coherent.read h d
  unfold get
  rcases hr : s.cache.read s.disk.nodes d with ⟨_ | b, cache⟩
  · rw [hr] at hval hcoh
    rw [← hval]
    exact ⟨hcoh, rfl, rfl⟩
  · rw [hr] at hval hcoh
    rw [← hval]
    exact ⟨hcoh, rfl, rfl⟩

theorem getArchived_coherent (c : Codec) {s : MmapStore} (h : s.Coherent) (d : Digest) :
    (s.getArchived c d).2.Coherent ∧ (s.getArchived c d).2.disk = s.disk ∧
      (s.getArchived c d).1 = match s.disk.nodes.lookup d with
        | none => .error (.notFound d)
        | some b => match c.checkArchivedRoot b with
          | .error why => .error (.corrupted d why)
          | .ok n => .ok n := by
  obtain ⟨hcoh, hdisk, hval⟩ := get_coherent h d
  unfold getArchived
  rcases hr : s.get d with ⟨e | b, s'⟩
  · rw [hr] at hcoh hdisk hval
    cases hl : s.disk.nodes.lookup d with
    | none =>
      rw [hl] at hval
      injection hval with he
      subst he
      exact ⟨hcoh, hdisk, rfl⟩
    | some b => rw [hl] at hval; cases hval
  · rw [hr] at hcoh hdisk hval
    split at hval
    · cases hval
    rename_i b' hl
    injection hval with hb
    subst hb
    cases hc : c.checkArchivedRoot b with
    | error why | ok n => simp only [hc]; exact ⟨hcoh, hdisk, trivial⟩

theorem exists_coherent {s : MmapStore} (h : s.Coherent) (d : Digest) :
    s.exists d = s.disk.hasNode d := by
  unfold «exists»
  cases hc : s.cache.entries.lookup d with
  | none => simp
  | some b =>
    have := h d b hc
    simp [Disk.hasNode, this]

end MmapStore

end Pullrun
