import Pullrun.Proof.Gc.Collect
import Pullrun.Store.Sample

/-!
# Collection is exact

The collector against its purpose: after a successful collection the stored nodes are those the
roots reach, nothing they reach was touched, the report counts what really went, and there is
nothing left for a second collection.
-/

namespace Pullrun

open Finset List

namespace GarbageCollector

open MmapStore

/-! ## Counting what is gone -/

section Counting

variable {c : Codec} {s s' : MmapStore} {roots swept : List Digest} {report : GcReport}

section

variable (h : Reclaimed c s roots swept report s')
include h

theorem Reclaimed.hasNode_iff (d : Digest) : s'.disk.hasNode d = true ↔
      s.disk.hasNode d = true ∧ (s.disk.graph c).ReachFrom roots d := by
  have hm := h.mem d
  unfold Disk.hasNode at hm ⊢
  rw [h.nodes d]
  by_cases hd : d ∈ swept
  · rw [if_pos hd]
    have := (hm.mp hd).2
    simp [this]
  · rw [if_neg hd]
    tauto

theorem Reclaimed.kept {d : Digest}
    (hd : (s.disk.graph c).ReachFrom roots d ∨ ¬ s.disk.hasNode d = true) :
    s'.disk.nodes.lookup d = s.disk.nodes.lookup d ∧
      s'.disk.blobs.lookup d = s.disk.blobs.lookup d := by
  have hns : d ∉ swept := fun hm => by
    have := (h.mem d).mp hm
    tauto
  rw [h.nodes d, h.blobs d, if_neg hns, if_neg hns]
  exact ⟨rfl, rfl⟩

theorem Reclaimed.nodes_sdiff : s.disk.nodes.keys \ s'.disk.nodes.keys = swept.toFinset := by
  ext d
  rw [mem_sdiff, FileMap.mem_keys_iff, FileMap.mem_keys_iff, mem_toFinset, h.nodes d]
  have hm := h.mem d
  unfold Disk.hasNode at hm
  by_cases hd : d ∈ swept
  · simp [hd, (hm.mp hd).1]
  · simp only [hd, if_false, and_not_self_iff]

theorem Reclaimed.blobs_sdiff :
    s.disk.blobs.keys \ s'.disk.blobs.keys = (swept.filter s.disk.hasBlob).toFinset := by
  ext d
  rw [mem_sdiff, FileMap.mem_keys_iff, FileMap.mem_keys_iff, mem_toFinset,
    mem_filter, h.blobs d, Disk.hasBlob]
  by_cases hd : d ∈ swept
  · simp [hd]
  · simp only [hd, if_false, and_not_self_iff, false_and]

end

theorem sum_fileSize_filter (k : Disk) (l : List Digest) :
    ((l.filter k.hasBlob).map (fileSize k.blobs)).sum = (l.map (fileSize k.blobs)).sum := by
  induction l with
  | nil => rfl
  | cons d l ih =>
    cases hb : k.hasBlob d with
    | true => simp [hb, ih]
    | false =>
      have hz : fileSize k.blobs d = 0 := fileSize_absent (by simpa [Disk.hasBlob] using hb)
      simp [hb, ih, hz]

theorem Reclaimed.report_real (h : Reclaimed c s roots swept report s') :
    report =
      { totalNodes := s.disk.nodes.keys.card
        reachableNodes := s'.disk.nodes.keys.card
        unreachableNodes := (s.disk.nodes.keys \ s'.disk.nodes.keys).card
        deletedNodes := (s.disk.nodes.keys \ s'.disk.nodes.keys).card
        deletedBlobs := (s.disk.blobs.keys \ s'.disk.blobs.keys).card
        bytesFreed := (∑ d ∈ s.disk.nodes.keys \ s'.disk.nodes.keys, fileSize s.disk.nodes d) +
          ∑ d ∈ s.disk.blobs.keys \ s'.disk.blobs.keys, fileSize s.disk.blobs d
        dryRun := false } := by
  have hcard : (s.disk.nodes.keys \ s'.disk.nodes.keys).card = swept.length := by
    rw [h.nodes_sdiff, toFinset_card_of_nodup h.nodup]
  have hbcard : (s.disk.blobs.keys \ s'.disk.blobs.keys).card
      = (swept.filter s.disk.hasBlob).length := by
    rw [h.blobs_sdiff, toFinset_card_of_nodup (h.nodup.filter _)]
  have hsub : s'.disk.nodes.keys ⊆ s.disk.nodes.keys := by
    intro d hd
    rw [FileMap.mem_keys_iff] at hd ⊢
    exact ((h.hasNode_iff d).mp hd).1
  have hstay : s'.disk.nodes.keys.card = s.disk.nodes.keys.card - swept.length := by
    rw [← hcard, card_sdiff_of_subset hsub]
    have := card_le_card hsub
    omega
  have hbytes : (swept.map fun d => fileSize s.disk.nodes d + fileSize s.disk.blobs d).sum
      = (∑ d ∈ s.disk.nodes.keys \ s'.disk.nodes.keys, fileSize s.disk.nodes d) +
        ∑ d ∈ s.disk.blobs.keys \ s'.disk.blobs.keys, fileSize s.disk.blobs d := by
    rw [h.nodes_sdiff, h.blobs_sdiff, sum_toFinset _ h.nodup,
      sum_toFinset _ (h.nodup.filter _), sum_fileSize_filter, sum_map_add]
  rw [h.report_eq, hcard, hbcard, hstay, hbytes]

end Counting

/-! ## The next collection -/

variable {roots listing : List Digest} {c : Codec} {gc : GarbageCollector} {now : ℕ}

theorem Reclaimed.reachFrom_iff {s s' : MmapStore} {swept : List Digest}
    {report : GcReport} (h : Reclaimed c s roots swept report s') (d : Digest) :
    (s'.disk.graph c).ReachFrom roots d ↔ (s.disk.graph c).ReachFrom roots d := by
  refine RefGraph.reachFrom_congr (fun p hp => ?_) d
  rw [Disk.graph_out, Disk.graph_out]
  unfold Disk.edgesOf
  rw [(h.kept (.inl hp)).1]

theorem collectListed_keeps {s s' : MmapStore} {r : Except GcError GcReport} (hcoh : s.Coherent)
    (hlist : Lists listing s)
    (hall : ∀ d, s.disk.hasNode d = true → (s.disk.graph c).ReachFrom roots d)
    (h : collectListed c gc now listing s roots = (r, s')) :
    KeepsFiles s s' := by
  rcases collectListed_inv hcoh h with ⟨hkeep, -⟩ | ⟨report, -, -, hcol⟩
  · exact hkeep
  · obtain ⟨swept, hrec⟩ := hcol.reclaimed hcoh hlist
    have hnone : ∀ d, d ∉ swept := fun d hd => ((hrec.mem d).mp hd).2 (hall d ((hrec.mem d).mp hd).1)
    refine ⟨Finmap.ext_lookup fun d => ?_, Finmap.ext_lookup fun d => ?_⟩
    · rw [hrec.nodes d, if_neg (hnone d)]
    · rw [hrec.blobs d, if_neg (hnone d)]

theorem collectListed_eq {s s1 : MmapStore} {reachable blobs : List Digest} (hcoh : s.Coherent)
    (hdry : gc.dryRun = false) (hlock : gc.force = true ∨ listFreshOpLocks now s.disk = [])
    (hne : roots ≠ []) (hroots : ∀ r ∈ roots, s.disk.hasNode r = true)
    (hwalk : walkReachable c (cleaned now s) roots = (.ok (reachable, blobs), s1)) :
    collectListed c gc now listing s roots =
      let unreachable := listing.filter (· ∉ reachable)
      let swept := sweep s1 unreachable
      (if gc.force = false ∧ 0 < listing.length then freesTooMuch s1 unreachable else none).elim
        (.ok ⟨listing.length, reachable.dedup.length, unreachable.length, swept.2.deletedNodes,
          swept.2.deletedBlobs, swept.2.bytesFreed, false⟩, swept.1)
        fun e => (.error e, s1) := by
  have hlock' : ¬ (listFreshOpLocks now s.disk ≠ [] ∧ gc.force = false) := by
    rintro ⟨hf, hforce⟩
    rcases hlock with hl | hl
    · rw [hl] at hforce; cases hforce
    · exact hf hl
  have hfind : (roots.find? fun root => !(cleaned now s).exists root) = none := by
    refine find?_eq_none.mpr fun r hr => ?_
    rw [exists_coherent (cleaned_coherent hcoh now),
      show (cleaned now s).disk.hasNode r = true from hroots r hr]
    simp
  unfold collectListed
  rw [if_neg hlock']
  simp only [hdry, Bool.false_eq_true, if_false, if_neg hne]
  rw [show { s with disk := (cleanStaleOpLocks now s.disk).2 } = cleaned now s from rfl, hfind]
  simp only [hwalk]
  split <;> rename_i hguard <;> rw [hguard] <;> rfl

theorem collectListed_succeeds {s : MmapStore} (hcoh : s.Coherent)
    (hlist : Lists listing s) (hdry : gc.dryRun = false)
    (hlock : gc.force = true ∨ listFreshOpLocks now s.disk = []) (hne : roots ≠ [])
    (hroots : ∀ r ∈ roots, s.disk.hasNode r = true)
    (hval : ∀ d, (s.disk.graph c).ReachFrom roots d → ¬ Invalid c s.disk d)
    (hall : ∀ d, s.disk.hasNode d = true → (s.disk.graph c).ReachFrom roots d) :
    ∃ report s', collectListed c gc now listing s roots = (.ok report, s') ∧
      report.deletedNodes = 0 ∧ report.deletedBlobs = 0 ∧ report.bytesFreed = 0 := by
  have hcoh0 : (cleaned now s).Coherent := cleaned_coherent hcoh now
  obtain ⟨reachable, blobs, s1, hwalk⟩ := walkReachable_succeeds (s := cleaned now s) hcoh0 hval
  obtain ⟨-, -, -, -, hmem⟩ := walkReachable_ok hcoh0 hwalk
  have hempty : listing.filter (· ∉ reachable) = [] := by
    refine filter_eq_nil_iff.mpr fun d hd => ?_
    have hs := (hlist.mem d).mp hd
    simpa using (hmem d).mpr ⟨hall d hs, hs⟩
  rw [collectListed_eq hcoh hdry hlock hne hroots hwalk, hempty]
  -- With nothing unreachable the percentage guard does not fire.
  have hguard : ∀ s, freesTooMuch s [] = none := by simp [freesTooMuch]
  dsimp only
  rw [hguard, ite_self]
  exact ⟨_, _, rfl, rfl, rfl, rfl⟩

/-! ## The theorem -/

/-- **A collection is exact, and one that does not sweep changes nothing.** -/
theorem collect_exact (c : Codec) (gc : GarbageCollector) (now : ℕ) (root : List Str) {t : Dir}
    {s s' : MmapStore} {roots : List Digest} {r : Except GcError GcReport} (hcoh : s.Coherent)
    (ht : t.Holds s.disk) (h : collect c gc now root t s roots = (r, s')) :
    (∀ report, r = .ok report → gc.dryRun = false →
      (∀ d, s'.disk.hasNode d = true ↔
        s.disk.hasNode d = true ∧ (s.disk.graph c).ReachFrom roots d) ∧
      (∀ d, (s.disk.graph c).ReachFrom roots d ∨ ¬ s.disk.hasNode d = true →
        s'.disk.nodes.lookup d = s.disk.nodes.lookup d ∧
          s'.disk.blobs.lookup d = s.disk.blobs.lookup d) ∧
      report =
        { totalNodes := s.disk.nodes.keys.card
          reachableNodes := s'.disk.nodes.keys.card
          unreachableNodes := (s.disk.nodes.keys \ s'.disk.nodes.keys).card
          deletedNodes := (s.disk.nodes.keys \ s'.disk.nodes.keys).card
          deletedBlobs := (s.disk.blobs.keys \ s'.disk.blobs.keys).card
          bytesFreed := (∑ d ∈ s.disk.nodes.keys \ s'.disk.nodes.keys, fileSize s.disk.nodes d) +
            ∑ d ∈ s.disk.blobs.keys \ s'.disk.blobs.keys, fileSize s.disk.blobs d
          dryRun := false } ∧
      ∀ (now' : ℕ) (t' : Dir), t'.Holds s'.disk →
        (∃ report' s'', collect c gc now' root t' s' roots = (.ok report', s'') ∧
          report'.deletedNodes = 0 ∧ report'.deletedBlobs = 0 ∧ report'.bytesFreed = 0) ∧
        ∀ (gc' : GarbageCollector) r' s'', collect c gc' now' root t' s' roots = (r', s'') →
          KeepsFiles s' s'') ∧
    (gc.dryRun = true ∨ (∃ e, r = .error e) → KeepsFiles s s') := by
  have hlist : Lists (walkStoreDir root t) s := walkStoreDir_holds ht root
  rcases collectListed_inv hcoh h with ⟨hkeep, -, -, hno⟩ | ⟨report, rfl, hdry, hcol⟩
  · refine ⟨fun report hr hdry => ?_, fun _ => hkeep⟩
    rcases hno with ⟨e, he⟩ | hd
    · rw [hr] at he; cases he
    · rw [hd] at hdry; cases hdry
  · obtain ⟨swept, hrec⟩ := hcol.reclaimed hcoh hlist
    refine ⟨fun report' hr _ => ?_, fun hor => ?_⟩
    · injection hr with hr
      subst hr
      refine ⟨hrec.hasNode_iff, fun d hd => hrec.kept hd, hrec.report_real, fun now' t' ht' => ?_⟩
      have hlist' : Lists (walkStoreDir root t') s' := walkStoreDir_holds ht' root
      have hall : ∀ d, s'.disk.hasNode d = true → (s'.disk.graph c).ReachFrom roots d :=
        fun d hd => (hrec.reachFrom_iff d).mpr ((hrec.hasNode_iff d).mp hd).2
      refine ⟨?_, fun gc' r' s'' h' => collectListed_keeps hrec.coherent hlist' hall h'⟩
      refine collectListed_succeeds hrec.coherent hlist' hdry ?_ hcol.roots_ne (fun r hr => ?_)
        (fun d hd hinv => ?_) hall
      · rcases hcol.unlocked with hf | hl
        · exact .inl hf
        · refine Or.inr ?_
          have hops : s'.disk.ops = [] := (hcol.ops hcoh hlist).trans (map_eq_nil_iff.mp hl)
          simp [listFreshOpLocks, hops]
      · exact (hrec.hasNode_iff r).mpr ⟨hcol.roots_stored r hr, .root hr⟩
      · have hd' := (hrec.reachFrom_iff d).mp hd
        obtain ⟨b, why, hb, hwhy⟩ := hinv
        rw [(hrec.kept (.inl hd')).1] at hb
        exact hrec.valid d hd' ⟨b, why, hb, hwhy⟩
    · rcases hor with hd | ⟨e, he⟩
      · rw [hd] at hdry; cases hdry
      · cases he

/-! ## A concrete collection -/

/-- A store with two files, the second of them garbage with a blob, and a stale lock. -/
def sampleStore : MmapStore :=
  openOn
    { nodes := (Finmap.insert Sample.otherD (Codec.archive Sample.other) ∅).insert Sample.leafD
        (Codec.archive Sample.leaf)
      blobs := Finmap.insert Sample.otherD [1, 2, 3] ∅
      refcounts := Finmap.insert Sample.leafD 1 ∅
      ops := [⟨OpLock.generateOpId 5, 5, []⟩] }
    none none

/-- The tree `read_dir` walks over that store. -/
def sampleTree : Dir :=
  let shard (d : Digest) (inner rest : Dir) : Dir :=
    .dir (d.asHex.take 2) (.dir ((d.asHex.drop 2).take 2) (.dir (d.asHex.drop 4) inner .nil) .nil) rest
  .dir opsDir (.file (OpLock.generateOpId 5) .nil) <|
    shard Sample.otherD (.file blobRaw (.file nodeRkyv .nil)) <|
      shard Sample.leafD (.file nodeRkyv (.file nodeRefcount .nil)) .nil

theorem collect_exact_sampleStore :
    ∃ s', sampleTree.Holds sampleStore.disk ∧
      collect Sample.codec ⟨false, false⟩ (OpLock.staleAfter + 6) [['s']] sampleTree sampleStore
        [Sample.leafD] = (.ok ⟨2, 1, 1, 1, 1, 27, false⟩, s') ∧
      ∀ d, s'.disk.hasNode d = true ↔ sampleStore.disk.hasNode d = true ∧
        (sampleStore.disk.graph Sample.codec).ReachFrom [Sample.leafD] d := by
  have hholds : sampleTree.Holds sampleStore.disk := by decide +kernel
  have hrun : (collect Sample.codec ⟨false, false⟩ (OpLock.staleAfter + 6) [['s']] sampleTree
      sampleStore [Sample.leafD]).1 = .ok ⟨2, 1, 1, 1, 1, 27, false⟩ := by decide +kernel
  refine ⟨_, hholds, Prod.ext hrun rfl, ?_⟩
  exact ((collect_exact Sample.codec ⟨false, false⟩ (OpLock.staleAfter + 6) [['s']]
    (coherent_openOn _ _ _) hholds (Prod.ext hrun rfl)).1 _ rfl rfl).1

end GarbageCollector

end Pullrun
