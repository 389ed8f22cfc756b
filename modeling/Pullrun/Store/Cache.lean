import Pullrun.Store.Disk

/-!
# The two caches

`pullrun-store/src/store.rs`. Node files and blob files are read through one cache each, with the
same bookkeeping: a map of mapped files, a queue that lists them from the least to the most
recently used, and the sum of their sizes. The source writes the functions out twice, once per
cache; here a cache is one type and each function takes the files it reads from.

A cache entry is a memory mapping, so it keeps the bytes it was loaded with: removing or replacing
the file on disk does not reach it. Whether it still agrees with the disk is therefore a property
of a cache and a set of files (`Cache.Coherent`), kept or not kept by whoever removes files.
-/

namespace Pullrun

/-- A file cache with its LRU queue (front = oldest) and byte total. `maxBytes` is
    `max_node_cache_bytes` or `max_blob_cache_bytes`. -/
structure Cache where
  entries : FileMap Bytes
  lru : List Digest
  totalBytes : ℕ
  maxBytes : Option ℕ

namespace Cache

def empty (maxBytes : Option ℕ) : Cache := ⟨∅, [], 0, maxBytes⟩

/-- The `while` loop of `evict_lru_locked`, over what is left of the queue. -/
def evictWhile (max : ℕ) : List Digest → FileMap Bytes → ℕ → FileMap Bytes × List Digest × ℕ
  | [], entries, total => (entries, [], total)
  | oldest :: lru, entries, total =>
    if max < total then
      match entries.lookup oldest with
      | some b => evictWhile max lru (entries.erase oldest) (total - b.length)
      | none => evictWhile max lru entries total
    else (entries, oldest :: lru, total)

/-- `evict_lru_locked`: no limit, and a limit of zero, never evict. -/
def evictLru (k : Cache) : Cache :=
  match k.maxBytes with
  | none => k
  | some max =>
    if max = 0 then k
    else
      let (entries, lru, total) := evictWhile max k.lru k.entries k.totalBytes
      { k with entries := entries, lru := lru, totalBytes := total }

/-- The cache-hit path of `get`: move the digest to the back of the queue. -/
def touch (k : Cache) (d : Digest) : Cache :=
  evictLru { k with lru := k.lru.erase d ++ [d] }

/-- `load_node_from_disk` / `load_blob_from_disk`, once the file is mapped. -/
def load (k : Cache) (d : Digest) (b : Bytes) : Cache :=
  let k := k.evictLru
  { k with
    entries := k.entries.insert d b
    lru := k.lru ++ [d]
    totalBytes := k.totalBytes + b.length }

def evictEntry (k : Cache) (d : Digest) : Cache :=
  match k.entries.lookup d with
  | none => k
  | some b =>
    { k with
      entries := k.entries.erase d
      lru := k.lru.filter (· ≠ d)
      totalBytes := k.totalBytes - b.length }

/-- `get` / `get_blob`: from the cache if the digest is in it, else from `files`. -/
def read (k : Cache) (files : FileMap Bytes) (d : Digest) : Option Bytes × Cache :=
  match k.entries.lookup d with
  | some b => (some b, k.touch d)
  | none =>
    match files.lookup d with
    | none => (none, k)
    | some b => (some b, k.load d b)

/-! ## Agreement with the files -/

def Coherent (k : Cache) (files : FileMap Bytes) : Prop :=
  ∀ d b, k.entries.lookup d = some b → files.lookup d = some b

theorem coherent_empty (m : Option ℕ) (files : FileMap Bytes) : (empty m).Coherent files := by
  intro d b h
  rw [empty, Finmap.lookup_empty] at h
  cases h

theorem evictWhile_subset (max : ℕ) (lru : List Digest) :
    ∀ (entries : FileMap Bytes) (total : ℕ) (d : Digest) (b : Bytes),
      (evictWhile max lru entries total).1.lookup d = some b → entries.lookup d = some b := by
  induction lru with
  | nil => intro entries total d b h; exact h
  | cons oldest lru ih =>
    intro entries total d b h
    rw [evictWhile] at h
    split at h
    · split at h
      · have := ih _ _ d b h
        rw [FileMap.lookup_erase_if] at this
        split at this
        · cases this
        · exact this
      · exact ih _ _ d b h
    · exact h

variable {k : Cache} {files : FileMap Bytes}

theorem evictLru_subset {d : Digest} {b : Bytes} (h : k.evictLru.entries.lookup d = some b) :
    k.entries.lookup d = some b := by
  unfold evictLru at h
  split at h
  · exact h
  · split at h
    · exact h
    · exact evictWhile_subset _ _ _ _ d b h

theorem Coherent.evictLru (h : k.Coherent files) : k.evictLru.Coherent files :=
  fun d b hb => h d b (evictLru_subset hb)

theorem Coherent.touch (h : k.Coherent files) (d : Digest) : (k.touch d).Coherent files :=
  Coherent.evictLru (k := { k with lru := k.lru.erase d ++ [d] }) h

theorem Coherent.load (h : k.Coherent files) {d : Digest} {b : Bytes}
    (hb : files.lookup d = some b) : (k.load d b).Coherent files := by
  intro e b' he
  change Finmap.lookup e (k.evictLru.entries.insert d b) = some b' at he
  rw [FileMap.lookup_insert_if] at he
  by_cases hed : e = d
  · rw [if_pos hed] at he
    rw [hed, hb]
    exact he
  · rw [if_neg hed] at he
    exact h.evictLru e b' he

theorem evictEntry_lookup (k : Cache) (d e : Digest) :
    (k.evictEntry d).entries.lookup e = if e = d then none else k.entries.lookup e := by
  unfold evictEntry
  split
  · rename_i hn
    by_cases h : e = d
    · rw [if_pos h, h, hn]
    · rw [if_neg h]
  · exact FileMap.lookup_erase_if _ _ _

theorem Coherent.evictEntry (h : k.Coherent files) (d : Digest) :
    (k.evictEntry d).Coherent (files.erase d) := by
  intro e b he
  rw [evictEntry_lookup] at he
  rw [FileMap.lookup_erase_if]
  by_cases hed : e = d
  · rw [if_pos hed] at he; cases he
  · rw [if_neg hed] at he ⊢
    exact h e b he

theorem Coherent.write (h : k.Coherent files) {d : Digest} (hd : files.lookup d = none)
    (b : Bytes) : k.Coherent (files.insert d b) := by
  intro e b' he
  have hf := h e b' he
  rw [FileMap.lookup_insert_if]
  by_cases hed : e = d
  · rw [hed, hd] at hf; cases hf
  · rw [if_neg hed]; exact hf

/-- **A coherent cache is invisible**: a read gives what is on disk, and leaves a coherent cache. -/
theorem Coherent.read (h : k.Coherent files) (d : Digest) :
    (k.read files d).1 = files.lookup d ∧ (k.read files d).2.Coherent files := by
  unfold Cache.read
  split
  · rename_i b hb
    exact ⟨(h d b hb).symm, h.touch d⟩
  · split
    · rename_i hf
      exact ⟨hf.symm, h⟩
    · rename_i b hf
      exact ⟨hf.symm, h.load hf⟩

end Cache

end Pullrun
