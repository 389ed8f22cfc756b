import Pullrun.Proof.Gc.Exact
import Pullrun.Proof.Store.Accounting

/-!
# The guard against freeing most of a large store

Without `force` a collection is to refuse when it would free nine tenths of a store of more than
100 MB. The guard has neither number: for the size of the store it takes the bytes that are mapped
at that moment, and of what is to go it counts the node files only, although the sweep deletes the
blob files too.

What is mapped when the guard comes is known from the store before the call: the node files that
were mapped already or that the roots reach, since the walk reads those and no others, and the blob
files that were mapped (`totalBytes_walked`). That holds as long as the cache has room for the node
files; from a smaller one the walk may drop some of them again.
-/

namespace Pullrun

open Finset

/-! ## A cache with room for all files -/

namespace Cache

open MmapStore (fileSize)

def filesSize (files : FileMap Bytes) : ℕ := ∑ d ∈ files.keys, fileSize files d

/-- All files together fit the limit, if there is one. -/
def Roomy (k : Cache) (files : FileMap Bytes) : Prop :=
  ∀ max, k.maxBytes = some max → max = 0 ∨ filesSize files ≤ max

variable {k : Cache} {files : FileMap Bytes}

theorem evictLru_of_le (h : ∀ max, k.maxBytes = some max → max = 0 ∨ k.totalBytes ≤ max) :
    k.evictLru = k := by
  unfold evictLru
  split
  · rfl
  · rename_i max hmax
    rcases h max hmax with hzero | hle
    · rw [if_pos hzero]
    · split
      · rfl
      · have hkeep : evictWhile max k.lru k.entries k.totalBytes = (k.entries, k.lru, k.totalBytes) := by
          cases hl : k.lru with
          | nil => rfl
          | cons oldest lru => rw [evictWhile, if_neg (by omega)]
        rw [hkeep]

theorem Coherent.fileSize_eq (h : k.Coherent files) {d : Digest} (hd : (k.entries.lookup d).isSome) :
    fileSize k.entries d = fileSize files d := by
  obtain ⟨b, hb⟩ := Option.isSome_iff_exists.mp hd
  rw [fileSize, fileSize, hb, h d b hb]

theorem Accounted.totalBytes_eq (h : k.Accounted) (hcoh : k.Coherent files) {ds : Finset Digest}
    (hds : ∀ d, d ∈ ds ↔ (k.entries.lookup d).isSome) : k.totalBytes = ∑ d ∈ ds, fileSize files d := by
  have hlru : ds = k.lru.toFinset := by
    ext d
    rw [hds, List.mem_toFinset, h.mem]
  rw [h.total, mapped, ← List.sum_toFinset _ h.nodup, hlru]
  refine sum_congr rfl fun d hd => hcoh.fileSize_eq ?_
  rwa [List.mem_toFinset, h.mem] at hd

theorem Accounted.totalBytes_le (h : k.Accounted) (hcoh : k.Coherent files) :
    k.totalBytes ≤ filesSize files := by
  rw [h.totalBytes_eq hcoh fun d => FileMap.mem_keys_iff]
  refine sum_le_sum_of_subset fun d hd => ?_
  obtain ⟨b, hb⟩ := Option.isSome_iff_exists.mp (FileMap.mem_keys_iff.mp hd)
  exact FileMap.mem_keys_iff.mpr (by rw [hcoh d b hb]; rfl)

/-- Where there is room a read adds the file and drops none. -/
theorem read_roomy (h : k.Accounted) (hcoh : k.Coherent files) (hroom : k.Roomy files) {d : Digest}
    (hd : (files.lookup d).isSome) :
    (k.read files d).2.maxBytes = k.maxBytes ∧ ∀ e,
      ((k.read files d).2.entries.lookup e).isSome ↔ (k.entries.lookup e).isSome ∨ e = d := by
  have hle : ∀ max, k.maxBytes = some max → max = 0 ∨ k.totalBytes ≤ max := fun max hmax =>
    (hroom max hmax).imp_right (h.totalBytes_le hcoh).trans
  unfold Cache.read
  split
  · rename_i b hb
    have hsame : k.touch d = { k with lru := k.lru.erase d ++ [d] } := evictLru_of_le hle
    rw [hsame]
    refine ⟨rfl, fun e => (or_iff_left_of_imp ?_).symm⟩
    rintro rfl
    rw [hb]
    rfl
  · obtain ⟨b, hb⟩ := Option.isSome_iff_exists.mp hd
    rw [hb]
    dsimp only
    rw [load, evictLru_of_le hle]
    refine ⟨rfl, fun e => ?_⟩
    dsimp only
    rw [FileMap.lookup_insert_if]
    by_cases he : e = d <;> simp [he]

end Cache

namespace GarbageCollector

open MmapStore Sample
open Cache (filesSize Roomy read_roomy accounted_empty)

def diskBytes (s : MmapStore) : ℕ := filesSize s.disk.nodes + filesSize s.disk.blobs

/-- From a store of more than 100 MB, less than nine tenths are deleted. -/
def SparesMost (s s' : MmapStore) : Prop :=
  100 * 1024 * 1024 < diskBytes s → 100 * (diskBytes s - diskBytes s') < 90 * diskBytes s

section

open Classical in
/-- The bytes that are mapped once the roots have been walked: of node files, those that are mapped
    already or reached, and the blob files that are mapped. -/
noncomputable def mappedBytes (c : Codec) (s : MmapStore) (roots : List Digest) : ℕ :=
  (∑ d ∈ s.disk.nodes.keys with (s.cache.entries.lookup d).isSome ∨ (s.disk.graph c).ReachFrom roots d,
    fileSize s.disk.nodes d) + s.blobCache.totalBytes

open Classical in
/-- The bytes of the files in `files` of stored nodes that the roots do not reach. -/
noncomputable def unreachedBytes (c : Codec) (s : MmapStore) (roots : List Digest)
    (files : FileMap Bytes) : ℕ :=
  ∑ d ∈ s.disk.nodes.keys with ¬ (s.disk.graph c).ReachFrom roots d, fileSize files d

end

/-- If the files of what the roots do not reach are nine tenths of a store of more than 100 MB, then
    more than 100 MB are mapped, and the node files among them are nine tenths of what is mapped. -/
def GuardSees (c : Codec) (s : MmapStore) (roots : List Digest) : Prop :=
  100 * 1024 * 1024 < diskBytes s →
  90 * diskBytes s ≤
    100 * (unreachedBytes c s roots s.disk.nodes + unreachedBytes c s roots s.disk.blobs) →
  100 * 1024 * 1024 < mappedBytes c s roots ∧
    90 ≤ unreachedBytes c s roots s.disk.nodes * 100 / mappedBytes c s roots

theorem filesSize_swept {m m' : FileMap Bytes} {l : List Digest} (hl : l.Nodup)
    (h : ∀ d, m'.lookup d = if d ∈ l then none else m.lookup d) :
    filesSize m = filesSize m' + (l.map (fileSize m)).sum := by
  have habs : ∀ {m : FileMap Bytes} {d}, d ∉ m.keys → fileSize m d = 0 := fun hd =>
    fileSize_absent (by simpa [FileMap.mem_keys_iff] using hd)
  have hsize : ∀ d, fileSize m d = fileSize m' d + if d ∈ l.toFinset then fileSize m d else 0 := by
    intro d
    simp only [fileSize, h d, List.mem_toFinset]
    split <;> simp
  have hsub : m'.keys ⊆ m.keys := by
    intro d hd
    rw [FileMap.mem_keys_iff, h d] at hd
    split at hd
    · cases hd
    · exact FileMap.mem_keys_iff.mpr hd
  rw [filesSize, sum_congr rfl fun d _ => hsize d, sum_add_distrib, ← sum_filter,
    filter_mem_eq_inter, ← sum_subset hsub fun d _ hd => habs hd, ← List.sum_toFinset _ hl,
    sum_subset inter_subset_right fun d hd hnot => habs fun hm => hnot (mem_inter.mpr ⟨hm, hd⟩)]
  rfl

variable {c : Codec} {gc : GarbageCollector} {now : ℕ} {s s' s₁ : MmapStore}
  {listing roots reachable blobs : List Digest}

/-! ## What the walk maps -/

theorem getArchived_cache (s : MmapStore) (d : Digest) :
    (s.getArchived c d).2.cache = (s.cache.read s.disk.nodes d).2 := by
  have hget : (s.get d).2.cache = (s.cache.read s.disk.nodes d).2 := by
    unfold MmapStore.get
    split <;> rename_i hread <;> rw [hread]
  fun_cases MmapStore.getArchived c s d with
  | case1 _ _ h | case2 _ _ h | case3 _ _ h => rw [← hget, h]

/-- The walk has mapped what it has listed, and nothing that was mapped is gone. -/
structure Mapping (s₀ : MmapStore) (st : MmapStore × (List Digest × List Digest)) : Prop where
  accounted : st.1.cache.Accounted
  coherent : st.1.Coherent
  disk : st.1.disk = s₀.disk
  maxBytes : st.1.cache.maxBytes = s₀.cache.maxBytes
  mapped : ∀ d, (st.1.cache.entries.lookup d).isSome ↔ (s₀.cache.entries.lookup d).isSome ∨ d ∈ st.2.1

theorem Mapping.visit {s₀ : MmapStore} (hroom : s₀.cache.Roomy s₀.disk.nodes) (d : Digest)
    (st : MmapStore × (List Digest × List Digest)) (h : Mapping s₀ st) :
    Mapping s₀ (walkVisit c d st).2 := by
  obtain ⟨s, nodes, blobs⟩ := st
  obtain ⟨haccount, hcoh, hdisk, hmax, hmapped⟩ := h
  dsimp only at haccount hcoh hdisk hmax hmapped
  by_cases hd : s.exists d = true
  · -- a node that is there is read, whatever its bytes are
    have hstored : (s.disk.nodes.lookup d).isSome := (exists_coherent hcoh d).symm.trans hd
    have hread := read_roomy haccount hcoh (by rw [Roomy, hmax, hdisk]; exact hroom) hstored
    have hnext : Mapping s₀ ((s.getArchived c d).2, nodes ++ [d],
        if s.disk.hasBlob d then blobs ++ [d] else blobs) := by
      obtain ⟨hcoh', hdisk', -⟩ := getArchived_coherent c hcoh d
      refine ⟨?_, hcoh', hdisk'.trans hdisk, ?_, fun e => ?_⟩
      · rw [getArchived_cache]
        exact haccount.read _ d
      · rw [getArchived_cache, hread.1, hmax]
      · rw [getArchived_cache, hread.2, hmapped, List.mem_append, List.mem_singleton, or_assoc]
    simp only [walkVisit, if_pos hd]
    generalize (if s.disk.hasBlob d then blobs ++ [d] else blobs) = listed at *
    split <;> rename_i heq <;> rwa [heq] at hnext
  · simp only [walkVisit, if_neg hd]
    exact ⟨haccount, hcoh, hdisk, hmax, hmapped⟩

/-- **What is mapped after the walk, from the store before it.** -/
theorem totalBytes_walked (hcoh : s.Coherent) (haccount : s.cache.Accounted)
    (hroom : s.cache.Roomy s.disk.nodes)
    (hwalk : walkReachable c s roots = (.ok (reachable, blobs), s₁)) :
    s₁.totalBytes = mappedBytes c s roots := by
  classical
  obtain ⟨hsame, -, -, -, hmem⟩ := walkReachable_ok hcoh hwalk
  have hstart : Mapping s (s, ([], [])) := ⟨haccount, hcoh, rfl, rfl, by simp⟩
  have hrun := Worklist.run_keeps .stalled (walkVisit c) (Mapping s) (Mapping.visit hroom)
    (walkFuel c s.disk roots.length) roots [] _ hstart
  have hend : Mapping s (s₁, (reachable, blobs)) := by
    unfold walkReachable at hwalk
    split at hwalk
    · rename_i heq
      cases hwalk
      rwa [heq] at hrun
    · cases hwalk
  have hnodes : s₁.cache.Coherent s.disk.nodes := by
    have := hend.coherent
    rwa [Coherent, hend.disk] at this
  rw [MmapStore.totalBytes, mappedBytes, hsame.blobCache]
  congr 1
  refine hend.accounted.totalBytes_eq hnodes fun d => ?_
  rw [mem_filter, FileMap.mem_keys_iff, hend.mapped, hmem]
  constructor
  · rintro ⟨hd, hcached | hreach⟩
    · exact .inl hcached
    · exact .inr ⟨hreach, hd⟩
  · rintro (hcached | ⟨hreach, hd⟩)
    · obtain ⟨b, hb⟩ := Option.isSome_iff_exists.mp hcached
      exact ⟨by rw [hcoh d b hb]; rfl, .inl hcached⟩
    · exact ⟨hd, .inr hreach⟩

theorem sum_unreached (hcoh : s.Coherent) (hlist : Lists listing s)
    (hwalk : walkReachable c (cleaned now s) roots = (.ok (reachable, blobs), s₁)) (files : FileMap Bytes) :
    ((listing.filter (· ∉ reachable)).map (fileSize files)).sum = unreachedBytes c s roots files := by
  classical
  obtain ⟨-, -, -, -, hmem⟩ := walkReachable_ok (cleaned_coherent hcoh now) hwalk
  rw [← List.sum_toFinset _ (hlist.nodup.filter _), unreachedBytes]
  refine sum_congr (ext fun d => ?_) fun _ _ => rfl
  rw [List.mem_toFinset, List.mem_filter, hlist.mem, mem_filter, FileMap.mem_keys_iff, decide_eq_true_eq,
    hmem]
  exact and_congr_right fun hd => not_congr (and_iff_left hd)

theorem diskBytes_sweep (hcoh : s.Coherent) (hlist : Lists listing s)
    (hwalk : walkReachable c (cleaned now s) roots = (.ok (reachable, blobs), s₁)) :
    let unreachable := listing.filter (· ∉ reachable)
    diskBytes s = diskBytes (sweep s₁ unreachable).1 +
      ((unreachable.map (fileSize s.disk.nodes)).sum + (unreachable.map (fileSize s.disk.blobs)).sum) := by
  intro unreachable
  obtain ⟨hsame, -⟩ := walkReachable_ok (cleaned_coherent hcoh now) hwalk
  have hnd : unreachable.Nodup := hlist.nodup.filter _
  have hsw := sweep_spec hsame.coherent hnd
  have hdisk : s₁.disk.nodes = s.disk.nodes ∧ s₁.disk.blobs = s.disk.blobs := by
    rw [hsame.disk]
    exact ⟨rfl, rfl⟩
  have hn := filesSize_swept hnd fun d => hdisk.1 ▸ hsw.nodes d
  have hb := filesSize_swept hnd fun d => hdisk.2 ▸ hsw.blobs d
  rw [diskBytes, diskBytes, hn, hb]
  omega

theorem guard_decides {r : Except GcError GcReport} (hforce : gc.force = false) (hcoh : s.Coherent)
    (hdry : gc.dryRun = false) (hlock : listFreshOpLocks now s.disk = []) (hne : roots ≠ [])
    (hroots : ∀ r ∈ roots, s.disk.hasNode r = true)
    (hwalk : walkReachable c (cleaned now s) roots = (.ok (reachable, blobs), s₁))
    (h : collectListed c gc now listing s roots = (r, s')) :
    (∃ report, r = .ok report) ↔ ¬ (100 * 1024 * 1024 < s₁.totalBytes ∧
      90 ≤ ((listing.filter (· ∉ reachable)).map (fileSize s.disk.nodes)).sum * 100 / s₁.totalBytes) := by
  obtain ⟨hsame, -⟩ := walkReachable_ok (cleaned_coherent hcoh now) hwalk
  have hnodes : s.disk.nodes = s₁.disk.nodes := by rw [hsame.disk]; rfl
  rw [collectListed_eq hcoh hdry (.inr hlock) hne hroots hwalk] at h
  dsimp only [freesTooMuch] at h
  rw [hnodes]
  split at h
  · split at h
    · split at h <;> cases h <;> simp_all
    · cases h
      simp_all
  · rename_i hempty
    cases h
    have hnil : listing = [] := by simpa [hforce] using hempty
    simp [hnil]

/-- The sample store with `data` for the blob of one of its nodes. Nothing of it is mapped yet. -/
def storeWith (d : Digest) (data : Bytes) : MmapStore :=
  openOn { sampleStore.disk with blobs := Finmap.insert d data ∅ } none none

/-- The tree with the blob of the root in place of that of the garbage. -/
def keptTree : Dir :=
  let shard (d : Digest) (inner rest : Dir) : Dir :=
    .dir (d.asHex.take 2) (.dir ((d.asHex.drop 2).take 2) (.dir (d.asHex.drop 4) inner .nil) .nil) rest
  .dir opsDir (.file (OpLock.generateOpId 5) .nil) <|
    shard otherD (.file nodeRkyv .nil) <|
      shard leafD (.file blobRaw (.file nodeRkyv (.file nodeRefcount .nil))) .nil

def collectWith (t : Dir) (d : Digest) (data : Bytes) : Except GcError GcReport × MmapStore :=
  collect codec ⟨false, false⟩ (OpLock.staleAfter + 6) [['s']] t (storeWith d data) [leafD]

theorem filesSize_single (d : Digest) (data : Bytes) : filesSize (Finmap.insert d data ∅) = data.length := by
  have hkeys : (Finmap.insert d data (∅ : FileMap Bytes)).keys = {d} := by
    ext e
    rw [FileMap.mem_keys_iff, FileMap.lookup_insert_if, mem_singleton]
    by_cases he : e = d <;> simp [he]
  rw [filesSize, hkeys, sum_singleton, fileSize, Finmap.lookup_insert]
  rfl

theorem diskBytes_storeWith (d : Digest) (data : Bytes) :
    diskBytes (storeWith d data) = 48 + data.length := by
  have hnodes : filesSize sampleStore.disk.nodes = 48 := by decide +kernel
  rw [← hnodes, ← filesSize_single d data]
  rfl

end GarbageCollector

end Pullrun
