import Pullrun.Proof.Gc.Collect
import Pullrun.Proof.Oci.Imported
import Pullrun.Service.Session
import Pullrun.Store.Sample

/-!
# The books of the caches

A cache is kept in three places: the mapped files, the queue that says in which order they were used,
and the running byte total.

`Accounted` says that the three agree, and that everything but the file used last fits the limit.
-/

namespace Pullrun

open List
open MmapStore (fileSize)

namespace Cache

/-- The bytes mapped for the listed digests. -/
def mapped (entries : FileMap Bytes) (ds : List Digest) : ℕ := (ds.map (fileSize entries)).sum

/-- The queue lists the mapped files, each once, and the total is what they take. -/
structure Listed (entries : FileMap Bytes) (lru : List Digest) (total : ℕ) : Prop where
  nodup : lru.Nodup
  mem : ∀ d, d ∈ lru ↔ (entries.lookup d).isSome
  total : total = mapped entries lru

structure Accounted (k : Cache) : Prop extends Listed k.entries k.lru k.totalBytes where
  bounded : ∀ max, k.maxBytes = some max → 0 < max → mapped k.entries k.lru.dropLast ≤ max

variable {entries : FileMap Bytes} {lru ds : List Digest} {total : ℕ} {k : Cache} {d : Digest}
  {b : Bytes} {files : FileMap Bytes}

theorem fileSize_some (h : entries.lookup d = some b) : fileSize entries d = b.length := by
  simp [fileSize, h]

theorem mapped_congr {entries' : FileMap Bytes} (hd : d ∉ ds)
    (h : ∀ e, e ≠ d → entries'.lookup e = entries.lookup e) :
    mapped entries' ds = mapped entries ds := by
  unfold mapped
  congr 1
  refine map_congr_left fun e he => ?_
  rw [fileSize, fileSize, h e (ne_of_mem_of_not_mem he hd)]

theorem mapped_erase (hd : d ∉ ds) : mapped (entries.erase d) ds = mapped entries ds :=
  mapped_congr hd fun e he => by rw [FileMap.lookup_erase_if, if_neg he]

theorem mapped_insert (hd : d ∉ ds) : mapped (entries.insert d b) ds = mapped entries ds :=
  mapped_congr hd fun e he => by rw [FileMap.lookup_insert_if, if_neg he]

theorem mapped_append (es : List Digest) :
    mapped entries (ds ++ es) = mapped entries ds + mapped entries es := by
  simp [mapped]

theorem mapped_perm {es : List Digest} (h : ds ~ es) : mapped entries ds = mapped entries es :=
  (h.map _).sum_eq

theorem mapped_sublist {es : List Digest} (h : ds <+ es) : mapped entries ds ≤ mapped entries es :=
  (h.map _).sum_le_sum fun _ _ => Nat.zero_le _

theorem mapped_erase_le (ds : List Digest) : mapped (entries.erase d) ds ≤ mapped entries ds := by
  refine sum_le_sum fun e _ => ?_
  unfold fileSize
  rw [FileMap.lookup_erase_if]
  split
  · exact Nat.zero_le _
  · exact Nat.le_refl _

/-- One round of the eviction loop. -/
theorem Listed.pop (h : Listed entries (d :: lru) total) :
    ∃ b, entries.lookup d = some b ∧ Listed (entries.erase d) lru (total - b.length) := by
  obtain ⟨b, hb⟩ := Option.isSome_iff_exists.mp ((h.mem d).mp mem_cons_self)
  obtain ⟨hd, hnodup⟩ := nodup_cons.mp h.nodup
  refine ⟨b, hb, hnodup, fun e => ?_, ?_⟩
  · have he := h.mem e
    rw [FileMap.lookup_erase_if]
    by_cases hed : e = d
    · simp [hed, hd]
    · simpa [hed] using he
  · rw [h.total, mapped_erase hd]
    simp [mapped, fileSize_some hb]

theorem Listed.evictWhile (h : Listed entries lru total) (max : ℕ) :
    Listed (Cache.evictWhile max lru entries total).1 (Cache.evictWhile max lru entries total).2.1
        (Cache.evictWhile max lru entries total).2.2 ∧
      (Cache.evictWhile max lru entries total).2.2 ≤ max := by
  fun_induction Cache.evictWhile max lru entries total with
  | case1 entries total => exact ⟨h, by simp [h.total, mapped]⟩
  | case2 oldest lru entries total hlt b hb ih =>
    obtain ⟨b', hb', hpop⟩ := h.pop
    obtain rfl : b' = b := Option.some.inj (hb'.symm.trans hb)
    exact ih hpop
  | case3 oldest lru entries total hlt hb ih =>
    obtain ⟨b', hb', -⟩ := h.pop
    rw [hb] at hb'
    cases hb'
  | case4 oldest lru entries total hle => exact ⟨h, Nat.le_of_not_lt hle⟩

@[simp] theorem evictLru_maxBytes (k : Cache) : k.evictLru.maxBytes = k.maxBytes := by
  unfold evictLru
  split
  · rfl
  · split <;> rfl

/-- **Evicting keeps the books**, and leaves no more than the limit. -/
theorem Listed.evictLru (h : Listed k.entries k.lru k.totalBytes) :
    Listed k.evictLru.entries k.evictLru.lru k.evictLru.totalBytes ∧
      ∀ max, k.maxBytes = some max → 0 < max → k.evictLru.totalBytes ≤ max := by
  unfold Cache.evictLru
  split
  · rename_i hmax
    exact ⟨h, fun max hm => by rw [hmax] at hm; cases hm⟩
  · rename_i limit hmax
    split
    · rename_i hz
      refine ⟨h, fun max hm hpos => ?_⟩
      rw [hmax, hz] at hm
      injection hm with hm
      omega
    · obtain ⟨hl, hle⟩ := h.evictWhile limit
      refine ⟨hl, fun max hm _ => ?_⟩
      rw [hmax] at hm
      injection hm with hm
      exact hm ▸ hle

theorem Accounted.of_le (h : Listed k.entries k.lru k.totalBytes)
    (hle : ∀ max, k.maxBytes = some max → 0 < max → k.totalBytes ≤ max) : k.Accounted where
  toListed := h
  bounded max hm hpos :=
    calc mapped k.entries k.lru.dropLast
      _ ≤ mapped k.entries k.lru := mapped_sublist (dropLast_sublist _)
      _ = k.totalBytes := h.total.symm
      _ ≤ max := hle max hm hpos

theorem accounted_empty (m : Option ℕ) : (empty m).Accounted where
  nodup := nodup_nil
  mem d := by simp [empty]
  total := rfl
  bounded _ _ _ := Nat.zero_le _

theorem Accounted.touch (h : k.Accounted) (hd : (k.entries.lookup d).isSome) :
    (k.touch d).Accounted := by
  have hperm : k.lru.erase d ++ [d] ~ k.lru :=
    (perm_append_singleton _ _).trans (perm_cons_erase ((h.mem d).mpr hd)).symm
  have hl : Listed k.entries (k.lru.erase d ++ [d]) k.totalBytes :=
    ⟨hperm.nodup_iff.mpr h.nodup, fun e => hperm.mem_iff.trans (h.mem e),
      h.total.trans (mapped_perm hperm).symm⟩
  obtain ⟨hl', hle⟩ := Listed.evictLru (k := { k with lru := k.lru.erase d ++ [d] }) hl
  refine .of_le hl' fun max hm => hle max ?_
  rwa [Cache.touch, evictLru_maxBytes] at hm

theorem Accounted.load (h : k.Accounted) (hd : k.entries.lookup d = none) (b : Bytes) :
    (k.load d b).Accounted := by
  obtain ⟨hl, hle⟩ := h.toListed.evictLru
  have habsent : k.evictLru.entries.lookup d = none := by
    cases he : k.evictLru.entries.lookup d with
    | none => rfl
    | some b' => exact absurd (evictLru_subset he) (by simp [hd])
  have hd' : d ∉ k.evictLru.lru := by
    rw [hl.mem, habsent]
    simp
  refine ⟨⟨nodup_append.mpr ⟨hl.nodup, nodup_singleton d, ?_⟩, fun e => ?_, ?_⟩, ?_⟩
  · rintro e he _ (_ | ⟨_, ⟨⟩⟩) rfl
    exact hd' he
  · change e ∈ k.evictLru.lru ++ [d] ↔ (Finmap.lookup e (k.evictLru.entries.insert d b)).isSome
    rw [FileMap.lookup_insert_if, mem_append, mem_singleton, hl.mem]
    by_cases hed : e = d <;> simp [hed]
  · change k.evictLru.totalBytes + b.length =
      mapped (k.evictLru.entries.insert d b) (k.evictLru.lru ++ [d])
    rw [mapped_append, mapped_insert hd', ← hl.total]
    simp [mapped, fileSize]
  · intro max hm hpos
    change mapped (k.evictLru.entries.insert d b) (k.evictLru.lru ++ [d]).dropLast ≤ max
    rw [dropLast_concat, mapped_insert hd', ← hl.total]
    exact hle max ((evictLru_maxBytes k).symm.trans hm) hpos

/-- **A read keeps the books**, on a hit and on a miss. -/
theorem Accounted.read (h : k.Accounted) (files : FileMap Bytes) (d : Digest) :
    (k.read files d).2.Accounted := by
  unfold Cache.read
  split
  · rename_i b hb
    exact h.touch (by rw [hb]; rfl)
  · rename_i hb
    split
    · exact h
    · exact h.load hb _

theorem dropLast_filter_sublist {α : Type*} (p : α → Bool) (l : List α) :
    (l.filter p).dropLast <+ l.dropLast := by
  cases l using List.reverseRecOn with
  | nil => exact .slnil
  | append_singleton l a =>
    rw [filter_append, dropLast_concat]
    cases hp : p a with
    | false =>
      rw [filter_singleton, hp, cond_false, append_nil]
      exact (dropLast_sublist _).trans filter_sublist
    | true =>
      rw [filter_singleton, hp, cond_true, dropLast_concat]
      exact filter_sublist

theorem Accounted.evictEntry (h : k.Accounted) (d : Digest) : (k.evictEntry d).Accounted := by
  unfold Cache.evictEntry
  split
  · exact h
  rename_i b hb
  have hd : d ∈ k.lru := (h.mem d).mpr (by rw [hb]; rfl)
  have hne : d ∉ k.lru.filter (· ≠ d) := by simp
  refine ⟨⟨h.nodup.filter _, fun e => ?_, ?_⟩, fun max hm hpos => ?_⟩
  · change e ∈ k.lru.filter (· ≠ d) ↔ (Finmap.lookup e (k.entries.erase d)).isSome
    rw [FileMap.lookup_erase_if, mem_filter, h.mem]
    by_cases hed : e = d <;> simp [hed]
  · change k.totalBytes - b.length = mapped (k.entries.erase d) (k.lru.filter (· ≠ d))
    have hperm : k.lru ~ d :: k.lru.filter (· ≠ d) := by
      have hfilter : k.lru.erase d = k.lru.filter (· ≠ d) := by
        rw [h.nodup.erase_eq_filter d]
        refine filter_congr fun e _ => ?_
        by_cases hed : e = d <;> simp [hed]
      rw [← hfilter]
      exact perm_cons_erase hd
    rw [mapped_erase hne, h.total, mapped_perm hperm]
    simp [mapped, fileSize_some hb]
  · exact (mapped_erase_le _).trans
      ((mapped_sublist (dropLast_filter_sublist _ _)).trans (h.bounded max hm hpos))

end Cache

namespace MmapStore

variable {c : Codec} {s : MmapStore}

structure Accounted (s : MmapStore) : Prop where
  nodes : s.cache.Accounted
  blobs : s.blobCache.Accounted

theorem Accounted.withDisk (h : s.Accounted) (k : Disk) : { s with disk := k }.Accounted :=
  ⟨h.nodes, h.blobs⟩

theorem Accounted.evictCacheEntry (h : s.Accounted) (d : Digest) :
    (s.evictCacheEntry d).Accounted := ⟨h.nodes.evictEntry d, h.blobs⟩

theorem Accounted.get (h : s.Accounted) (d : Digest) : (s.get d).2.Accounted := by
  have hread := h.nodes.read s.disk.nodes d
  unfold MmapStore.get
  split <;> exact ⟨by simpa only [*] using hread, h.blobs⟩

theorem Accounted.getBlob (h : s.Accounted) (d : Digest) : (s.getBlob d).2.Accounted := by
  have hread := h.blobs.read s.disk.blobs d
  unfold MmapStore.getBlob
  split <;> exact ⟨h.nodes, by simpa only [*] using hread⟩

theorem Accounted.getArchived (h : s.Accounted) (d : Digest) : (s.getArchived c d).2.Accounted := by
  have hget := h.get d
  fun_cases MmapStore.getArchived c s d with
  | case1 e s' hs' | case2 b s' hs' | case3 b s' hs' => rwa [hs'] at hget

theorem Accounted.putBlocking (h : s.Accounted) (node : DagNode) :
    (s.putBlocking c node).2.Accounted := by
  fun_cases MmapStore.putBlocking c s node with
  | case1 | case2 => exact h
  | case3 => exact h.withDisk _

theorem Accounted.putBlobBlocking (h : s.Accounted) (d : Digest) (data : Bytes) :
    (s.putBlobBlocking d data).Accounted := by
  fun_cases MmapStore.putBlobBlocking s d data with
  | case1 => exact h
  | case2 => exact h.withDisk _

theorem Accounted.dropNode (h : s.Accounted) (node : Digest) (edges : List Digest) :
    (s.dropNode node edges).2.Accounted :=
  ((h.withDisk _).evictCacheEntry node).withDisk _

theorem Accounted.removeTagVisit (node : Digest) (st : MmapStore × ℕ) (h : st.1.Accounted) :
    (MmapStore.removeTagVisit c node st).2.1.Accounted := by
  have hget := h.getArchived (c := c) node
  fun_cases MmapStore.removeTagVisit c node st with
  | case1 s freed _ _ archived s' hs' next s'' hdrop =>
    rw [hs'] at hget
    have hleft := hget.dropNode node archived.edges
    rwa [hdrop] at hleft
  | case2 s freed _ _ d s' hs' next s'' hdrop =>
    rw [hs'] at hget
    have hleft := hget.dropNode node []
    rwa [hdrop] at hleft
  | case3 s freed _ _ e s' hs' => rwa [hs'] at hget
  | case4 => exact h

theorem Accounted.removeTag (h : s.Accounted) (root : Digest) :
    (s.removeTag c root).2.Accounted := by
  unfold MmapStore.removeTag
  dsimp only
  split
  · exact h.withDisk _
  · have hrun := Worklist.run_keeps .stalled (MmapStore.removeTagVisit c) (fun st => st.1.Accounted)
      Accounted.removeTagVisit (walkFuel c (s.disk.decrementRefcount root).2 1) [root] []
      ({ s with disk := (s.disk.decrementRefcount root).2 }, 0) (h.withDisk _)
    split <;> simpa only [*] using hrun

theorem Accounted.walkVisit (d : Digest) (st : MmapStore × (List Digest × List Digest))
    (h : st.1.Accounted) : (MmapStore.walkVisit c d st).2.1.Accounted := by
  have hget := h.getArchived (c := c) d
  fun_cases MmapStore.walkVisit c d st with
  | case1 _ _ _ _ _ _ _ _ hs' | case2 _ _ _ _ _ _ _ _ hs' | case3 _ _ _ _ _ _ _ _ _ hs'
  | case4 _ _ _ _ _ _ _ _ _ _ hs' => rwa [hs'] at hget
  | case5 => exact h

theorem Accounted.walkReachable (h : s.Accounted) (roots : List Digest) :
    (s.walkReachable c roots).2.Accounted := by
  have hrun := Worklist.run_keeps .stalled (MmapStore.walkVisit c) (fun st => st.1.Accounted)
    Accounted.walkVisit (walkFuel c s.disk roots.length) roots [] (s, ([], [])) h
  unfold MmapStore.walkReachable
  split <;> simpa only [*] using hrun

theorem Accounted.sweep (ds : List Digest) (st : MmapStore × GarbageCollector.Swept)
    (h : st.1.Accounted) : (ds.foldl GarbageCollector.sweepDigest st).1.Accounted := by
  induction ds generalizing st with
  | nil => exact h
  | cons d ds ih =>
    refine ih _ ?_
    rw [GarbageCollector.sweepDigest_eq]
    exact (h.evictCacheEntry d).withDisk _

theorem Accounted.collectListed (h : s.Accounted) (gc : GarbageCollector) (now : ℕ)
    (listing roots : List Digest) :
    (GarbageCollector.collectListed c gc now listing s roots).2.Accounted := by
  have hclean : (if gc.dryRun then s
      else { s with disk := (cleanStaleOpLocks now s.disk).2 }).Accounted := by
    split
    · exact h
    · exact h.withDisk _
  have hwalk := hclean.walkReachable (c := c) roots
  fun_cases GarbageCollector.collectListed c gc now listing s roots with
  | case1 => exact h
  | case2 | case3 => exact hclean
  | case4 _ s0 _ _ _ _ _ hr | case5 _ s0 _ _ _ _ _ hr | case6 _ s0 _ _ _ _ _ hr
  | case7 _ s0 _ _ _ _ _ hr => rwa [hr] at hwalk
  | case8 _ s0 _ _ reachable _ s1 hr _ _ _ _ _ _ _ hsweep =>
    rw [hr] at hwalk
    have hswept := Accounted.sweep (listing.filter (· ∉ reachable)) (s1, {}) hwalk
    rw [GarbageCollector.sweep] at hsweep
    rwa [hsweep] at hswept

end MmapStore

namespace Session

/-- The calls on a store: those of a session, and the reads and evictions between them. -/
inductive Call
  | op (op : Op)
  | get (d : Digest)
  | getBlob (d : Digest)
  | evict (d : Digest)

def call (c : Codec) (json : Json) (s : Session) : Call → Option Session
  | .op op => step c json s op
  | .get d => some { s with store := (s.store.get d).2 }
  | .getBlob d => some { s with store := (s.store.getBlob d).2 }
  | .evict d => some { s with store := s.store.evictCacheEntry d }

variable {c : Codec} {json : Json} {s s' : Session}

theorem step_accounted {op : Op} (h : s.store.Accounted) (hstep : step c json s op = some s') :
    s'.store.Accounted := by
  cases op with
  | put node => cases hstep; exact h.putBlocking node
  | putBlob d data => cases hstep; exact h.putBlobBlocking d data
  | tag d => cases hstep; exact h.withDisk _
  | removeTag d =>
    simp only [step, Option.ite_none_right_eq_some, Option.some.injEq] at hstep
    rw [← hstep.2]
    exact h.removeTag d
  | importImage archive =>
    cases hstep
    have himport : (DagTar.importDagFromTar c json s.store archive).2.Accounted := by
      refine (DagTar.importDagFromTar_writes c json s.store archive).keeps (fun _ _ hw hs => ?_) h
      cases hw with
      | node => exact hs.withDisk _
      | blob => exact hs.putBlobBlocking _ _
    unfold importImage
    split
    · rename_i heq; rwa [heq] at himport
    · rename_i heq
      rw [heq] at himport
      split
      · exact himport
      · exact himport.withDisk _
  | collect now force listing roots =>
    simp only [step, Option.ite_none_right_eq_some, Option.some.injEq] at hstep
    rw [← hstep.2]
    exact h.collectListed _ _ _ _

theorem call_accounted {a : Call} (h : s.store.Accounted) (hcall : call c json s a = some s') :
    s'.store.Accounted := by
  cases a with
  | op op => exact step_accounted h hcall
  | get d => cases hcall; exact h.get d
  | getBlob d => cases hcall; exact h.getBlob d
  | evict d => cases hcall; exact h.evictCacheEntry d

/-- **The caches account for what they map**, after any sequence of calls. -/
theorem caches_accounted (c : Codec) (json : Json) (maxNode maxBlob : Option ℕ) (calls : List Call)
    (hrun : Schedule.run (call c json) (start maxNode maxBlob) calls = some s) :
    s.store.Accounted :=
  Schedule.run_inv' (fun s => s.store.Accounted) (fun _ _ _ h hcall => call_accounted h hcall)
    ⟨Cache.accounted_empty _, Cache.accounted_empty _⟩ hrun

/-- Two blobs of two bytes in a cache of three: the third read drops the blob read last but one. -/
def smallCalls : List Call :=
  [.op (.putBlob (.ofNat 1) [1, 2]), .op (.putBlob (.ofNat 2) [3, 4]), .getBlob (.ofNat 1),
    .getBlob (.ofNat 2), .getBlob (.ofNat 1)]

theorem smallCalls_accounted : ∃ s,
    Schedule.run (call Sample.codec ⟨fun _ => .error "", fun _ => .error ""⟩) (start none (some 3))
      smallCalls = some s ∧ s.store.blobCache.lru = [.ofNat 1] ∧ s.store.Accounted := by
  refine ⟨_, rfl, by decide, ?_⟩
  exact caches_accounted Sample.codec ⟨fun _ => .error "", fun _ => .error ""⟩ none (some 3)
    smallCalls rfl

end Session

end Pullrun
