import Pullrun.Gc.Collect
import Pullrun.Proof.Store.Walk

/-!
# What a collection deletes

`collectListed_inv` says what a call can do: it returns an error or a dry report and has changed
no node or blob file, or it has swept the listed digests that the walk did not reach.
-/

namespace Pullrun

namespace GarbageCollector

open List MmapStore Disk

/-! ## The sweep -/

structure SweptTo (s₀ : MmapStore) (l : List Digest) (st : MmapStore × Swept) : Prop where
  coherent : st.1.Coherent
  nodes : ∀ d, st.1.disk.nodes.lookup d = if d ∈ l then none else s₀.disk.nodes.lookup d
  blobs : ∀ d, st.1.disk.blobs.lookup d = if d ∈ l then none else s₀.disk.blobs.lookup d
  refcounts : st.1.disk.refcounts = s₀.disk.refcounts
  ops : st.1.disk.ops = s₀.disk.ops
  blobCache : st.1.blobCache = s₀.blobCache
  deletedNodes : st.2.deletedNodes = (l.filter s₀.disk.hasNode).length
  deletedBlobs : st.2.deletedBlobs = (l.filter s₀.disk.hasBlob).length
  bytesFreed : st.2.bytesFreed =
    (l.map fun d => fileSize s₀.disk.nodes d + fileSize s₀.disk.blobs d).sum

variable {d : Digest}

theorem fileSize_absent {m : FileMap Bytes} (h : m.lookup d = none) :
    fileSize m d = 0 := by
  rw [fileSize, h]; rfl

theorem sweepDigest_eq (s : MmapStore) (n : Swept) (d : Digest) :
    sweepDigest (s, n) d =
      ({ s.evictCacheEntry d with disk := (s.disk.removeNode d).removeBlob d },
        { deletedNodes := n.deletedNodes + if s.disk.hasNode d then 1 else 0
          deletedBlobs := n.deletedBlobs + if s.disk.hasBlob d then 1 else 0
          bytesFreed := n.bytesFreed + (fileSize s.disk.nodes d + fileSize s.disk.blobs d) }) := by
  have hnode : ¬ s.disk.hasNode d = true → s.disk.removeNode d = s.disk ∧
      fileSize s.disk.nodes d = 0 := by
    intro h
    have habs : s.disk.nodes.lookup d = none := by simpa [hasNode] using h
    exact ⟨by rw [removeNode, FileMap.erase_absent habs], fileSize_absent habs⟩
  have hblob : ∀ k : Disk, k.blobs = s.disk.blobs → ¬ s.disk.hasBlob d = true →
      k.removeBlob d = k ∧ fileSize s.disk.blobs d = 0 := by
    intro k hk h
    have habs : s.disk.blobs.lookup d = none := by simpa [hasBlob] using h
    exact ⟨by rw [removeBlob, hk, FileMap.erase_absent habs, ← hk], fileSize_absent habs⟩
  have hhas : (s.disk.removeNode d).hasBlob d = s.disk.hasBlob d := rfl
  unfold sweepDigest
  by_cases hn : s.disk.hasNode d = true <;> by_cases hb : s.disk.hasBlob d = true
  · have hblobs : (s.disk.removeNode d).blobs = s.disk.blobs := rfl
    simp [evictCacheEntry, hn, hhas, hb, hblobs, Nat.add_assoc]
  · obtain ⟨hr, hz⟩ := hblob (s.disk.removeNode d) rfl hb
    simp [evictCacheEntry, hn, hhas, hb, hr, hz]
  · obtain ⟨hr, hz⟩ := hnode hn
    simp [evictCacheEntry, hn, hb, hr, hz]
  · obtain ⟨hr, hz⟩ := hnode hn
    obtain ⟨hr', hz'⟩ := hblob s.disk rfl hb
    simp [evictCacheEntry, hn, hb, hr, hz, hr', hz']

variable {s s' : MmapStore} {c : Codec} {gc : GarbageCollector} {now : ℕ}
  {listing roots : List Digest} {report : GcReport}

theorem sweep_spec (hcoh : s.Coherent) {l : List Digest} (hl : l.Nodup) :
    SweptTo s l (sweep s l) := by
  -- the loop runs from the left, so the last digest is peeled off
  induction l using reverseRecOn with
  | nil =>
    exact ⟨hcoh, fun d => by simp [sweep], fun d => by simp [sweep], rfl, rfl, rfl, rfl, rfl, rfl⟩
  | append_singleton l d ih =>
    obtain ⟨hnd, -, hdisj⟩ := nodup_append.mp hl
    have hd : d ∉ l := fun hm => hdisj d hm d (by simp) rfl
    have h := ih hnd
    have hstep : sweep s (l ++ [d]) = sweepDigest (sweep s l) d := by
      rw [sweep, foldl_append]; rfl
    rcases hs : sweep s l with ⟨s1, n⟩
    rw [hs] at h
    rw [hstep, hs, sweepDigest_eq]
    have hnode : s1.disk.nodes.lookup d = s.disk.nodes.lookup d := by rw [h.nodes d, if_neg hd]
    have hblob : s1.disk.blobs.lookup d = s.disk.blobs.lookup d := by rw [h.blobs d, if_neg hd]
    have hmem : ∀ e, e ∈ l ++ [d] ↔ e = d ∨ e ∈ l := fun e => by simp [or_comm]
    refine ⟨Cache.Coherent.evictEntry h.coherent d, fun e => ?_, fun e => ?_, h.refcounts, h.ops,
      h.blobCache, ?_, ?_, ?_⟩
    · change Finmap.lookup e (s1.disk.nodes.erase d) = _
      rw [FileMap.lookup_erase_if, h.nodes e]
      by_cases he : e = d <;> simp [hmem, he]
    · change Finmap.lookup e (s1.disk.blobs.erase d) = _
      rw [FileMap.lookup_erase_if, h.blobs e]
      by_cases he : e = d <;> simp [hmem, he]
    · have hsame : s1.disk.hasNode d = s.disk.hasNode d := by simp only [hasNode, hnode]
      dsimp only
      rw [h.deletedNodes, hsame, filter_append, length_append]
      cases hc : s.disk.hasNode d <;> simp [hc]
    · have hsame : s1.disk.hasBlob d = s.disk.hasBlob d := by simp only [hasBlob, hblob]
      dsimp only
      rw [h.deletedBlobs, hsame, filter_append, length_append]
      cases hc : s.disk.hasBlob d <;> simp [hc]
    · dsimp only
      rw [h.bytesFreed]
      simp only [fileSize, hnode, hblob, map_append, sum_append, map_cons,
        map_nil, sum_cons, sum_nil, Nat.add_zero]

/-! ## A whole call -/

/-- The node and blob files of `s'` are those of `s`. -/
def KeepsFiles (s s' : MmapStore) : Prop :=
  s'.disk.nodes = s.disk.nodes ∧ s'.disk.blobs = s.disk.blobs

def cleaned (now : ℕ) (s : MmapStore) : MmapStore :=
  { s with disk := (cleanStaleOpLocks now s.disk).2 }

/-- What a call that swept did: it had passed every check, and this is what it computed. -/
structure Collected (c : Codec) (gc : GarbageCollector) (now : ℕ) (listing : List Digest)
    (s : MmapStore) (roots : List Digest) (report : GcReport) (s' : MmapStore) : Prop where
  unlocked : gc.force = true ∨ listFreshOpLocks now s.disk = []
  roots_ne : roots ≠ []
  roots_stored : ∀ r ∈ roots, s.disk.hasNode r = true
  walked : ∃ reachable blobs s₁, walkReachable c (cleaned now s) roots = (.ok (reachable, blobs), s₁) ∧
    s' = (sweep s₁ (listing.filter (· ∉ reachable))).1 ∧
    report =
      { totalNodes := listing.length
        reachableNodes := reachable.dedup.length
        unreachableNodes := (listing.filter (· ∉ reachable)).length
        deletedNodes := (sweep s₁ (listing.filter (· ∉ reachable))).2.deletedNodes
        deletedBlobs := (sweep s₁ (listing.filter (· ∉ reachable))).2.deletedBlobs
        bytesFreed := (sweep s₁ (listing.filter (· ∉ reachable))).2.bytesFreed
        dryRun := false }

theorem cleaned_coherent (h : s.Coherent) (now : ℕ) : (cleaned now s).Coherent := h

theorem freesTooMuch_ne_rootDigestMissing {unreachable : List Digest} :
    freesTooMuch s unreachable ≠ some (.rootDigestMissing d) := by
  rw [freesTooMuch]
  split
  · dsimp only
    split
    · exact fun h => nomatch h
    · exact fun h => nomatch h
  · exact fun h => nomatch h

theorem collectListed_rootDigestMissing
    (h : (collectListed c gc now listing s roots).1 = .error (.rootDigestMissing d)) :
    d ∈ roots ∧ s.disk.hasNode d = false := by
  revert h
  fun_cases collectListed c gc now listing s roots with
  | case1 | case2 | case4 | case5 | case7 | case8 => rintro ⟨⟩
  | case3 _ s0 _ root hfind =>
    rintro ⟨⟩
    have habs := find?_some hfind
    rw [Bool.not_eq_true', MmapStore.exists, Bool.or_eq_false_iff] at habs
    have hdisk : s0.disk.hasNode d = s.disk.hasNode d := by
      simp only [s0]
      split <;> rfl
    exact ⟨mem_of_find?_eq_some hfind, hdisk ▸ habs.2⟩
  | case6 _ _ _ _ _ _ _ _ _ tooMuch _ htoo =>
    rintro ⟨⟩
    simp only [tooMuch] at htoo
    split at htoo
    · exact absurd htoo freesTooMuch_ne_rootDigestMissing
    · cases htoo

theorem collectListed_inv {r : Except GcError GcReport} (hcoh : s.Coherent)
    (h : collectListed c gc now listing s roots = (r, s')) :
    (KeepsFiles s s' ∧ s'.disk.refcounts = s.disk.refcounts ∧ s'.Coherent ∧
        ((∃ e, r = .error e) ∨ gc.dryRun = true)) ∨
      ∃ report, r = .ok report ∧ gc.dryRun = false ∧
        Collected c gc now listing s roots report s' := by
  -- the source works on the store with its stale locks cleaned, unless it is a dry run
  have hkeep : ∀ s0, s0 = (if gc.dryRun then s else cleaned now s) →
      KeepsFiles s s0 ∧ s0.disk.refcounts = s.disk.refcounts ∧ s0.Coherent := by
    rintro s0 rfl
    split <;> exact ⟨⟨rfl, rfl⟩, rfl, hcoh⟩
  have hleft : ∀ s0 out s1, s0 = (if gc.dryRun then s else cleaned now s) →
      walkReachable c s0 roots = (out, s1) →
      KeepsFiles s s1 ∧ s1.disk.refcounts = s.disk.refcounts ∧ s1.Coherent := by
    intro s0 out s1 hs0 hr
    obtain ⟨⟨hnodes, hblobs⟩, hrcs, hcoh0⟩ := hkeep s0 hs0
    have hwalk := walkReachable_ends c hcoh0 roots
    rw [hr] at hwalk
    have hsame : s1.disk = s0.disk ∧ s1.Coherent := by
      cases out <;> exact ⟨hwalk.1.disk, hwalk.1.coherent⟩
    rw [KeepsFiles, hsame.1]
    exact ⟨⟨hnodes, hblobs⟩, hrcs, hsame.2⟩
  revert h
  fun_cases collectListed c gc now listing s roots with
  | case1 =>
    rintro ⟨⟩
    exact .inl ⟨⟨rfl, rfl⟩, rfl, hcoh, .inl ⟨_, rfl⟩⟩
  | case2 _ s0 | case3 _ s0 =>
    intro h
    obtain ⟨rfl, rfl⟩ := Prod.mk.inj h
    obtain ⟨hfiles, hrcs, hcoh0⟩ := hkeep s0 rfl
    exact .inl ⟨hfiles, hrcs, hcoh0, .inl ⟨_, rfl⟩⟩
  | case4 _ s0 _ _ _ _ _ hr | case5 _ s0 _ _ _ _ _ hr | case6 _ s0 _ _ _ _ _ hr =>
    rintro ⟨⟩
    obtain ⟨hfiles, hrcs, hcoh1⟩ := hleft s0 _ _ rfl hr
    exact .inl ⟨hfiles, hrcs, hcoh1, .inl ⟨_, rfl⟩⟩
  | case7 _ s0 _ _ _ _ _ hr _ _ _ _ hdry =>
    rintro ⟨⟩
    obtain ⟨hfiles, hrcs, hcoh1⟩ := hleft s0 _ _ rfl hr
    exact .inl ⟨hfiles, hrcs, hcoh1, .inr hdry⟩
  | case8 hlock s0 hroots hfind reachable blobs s1 hr _ _ _ _ hdry _ _ hsweep =>
    rintro ⟨⟩
    have hs0 : s0 = cleaned now s := if_neg hdry
    refine .inr ⟨_, rfl, Bool.eq_false_iff.mpr hdry, ?_, hroots, fun r hr' => ?_, reachable, blobs, s1,
      ?_, ?_, ?_⟩
    · rw [not_and_or, not_not, Bool.not_eq_false] at hlock
      exact hlock.symm
    · have hex := find?_eq_none.mp hfind r hr'
      obtain ⟨⟨hnodes, -⟩, -, hcoh0⟩ := hkeep s0 rfl
      rw [exists_coherent hcoh0] at hex
      simpa only [hasNode, hnodes, Bool.not_eq_true', Bool.not_eq_false] using hex
    · rw [← hs0, hr]
    · rw [hsweep]
    · rw [hsweep]

/-! ## A listing of the stored nodes

From here on the listing is the one `walkStoreDir` makes of the store's own directory tree. -/

def Lists (listing : List Digest) (s : MmapStore) : Prop :=
  (listing : Multiset Digest) = s.disk.nodes.keys.val

theorem Lists.nodup (h : Lists listing s) : listing.Nodup := by
  rw [← Multiset.coe_nodup, h]
  exact s.disk.nodes.keys.nodup

theorem Lists.mem (h : Lists listing s) (d : Digest) : d ∈ listing ↔ s.disk.hasNode d = true := by
  rw [← Multiset.mem_coe, h, Finset.mem_val, FileMap.mem_keys_iff]
  rfl

theorem Lists.length (h : Lists listing s) : listing.length = s.disk.nodes.keys.card := by
  rw [← Multiset.coe_card, h]
  rfl

/-- What a sweeping call did to the files, in terms of reachability. -/
structure Reclaimed (c : Codec) (s : MmapStore) (roots swept : List Digest) (report : GcReport)
    (s' : MmapStore) : Prop where
  nodup : swept.Nodup
  mem : ∀ d, d ∈ swept ↔ s.disk.hasNode d = true ∧ ¬ (s.disk.graph c).ReachFrom roots d
  valid : ∀ d, (s.disk.graph c).ReachFrom roots d → ¬ Invalid c s.disk d
  coherent : s'.Coherent
  nodes : ∀ d, s'.disk.nodes.lookup d = if d ∈ swept then none else s.disk.nodes.lookup d
  blobs : ∀ d, s'.disk.blobs.lookup d = if d ∈ swept then none else s.disk.blobs.lookup d
  refcounts : s'.disk.refcounts = s.disk.refcounts
  blobCache : s'.blobCache = s.blobCache
  report_eq : report =
    { totalNodes := s.disk.nodes.keys.card
      reachableNodes := s.disk.nodes.keys.card - swept.length
      unreachableNodes := swept.length
      deletedNodes := swept.length
      deletedBlobs := (swept.filter s.disk.hasBlob).length
      bytesFreed := (swept.map fun d => fileSize s.disk.nodes d + fileSize s.disk.blobs d).sum
      dryRun := false }

theorem Collected.reclaimed (hcoh : s.Coherent) (hlist : Lists listing s)
    (h : Collected c gc now listing s roots report s') :
    ∃ swept, Reclaimed c s roots swept report s' := by
  obtain ⟨reachable, blobs, s1, hwalk, rfl, hrep⟩ := h.walked
  obtain ⟨hsame, hnd, -, hval, hmem⟩ := walkReachable_ok (cleaned_coherent hcoh now) hwalk
  have hgraph : (cleaned now s).disk.graph c = s.disk.graph c := rfl
  have hhas : ∀ d, (cleaned now s).disk.hasNode d = s.disk.hasNode d := fun _ => rfl
  simp only [hgraph, hhas] at hmem
  obtain ⟨swept, hswept⟩ : ∃ l, l = listing.filter (· ∉ reachable) := ⟨_, rfl⟩
  rw [← hswept] at hrep ⊢
  have hsnd : swept.Nodup := hswept ▸ hlist.nodup.filter _
  have hsmem : ∀ d, d ∈ swept ↔
      s.disk.hasNode d = true ∧ ¬ (s.disk.graph c).ReachFrom roots d := by
    intro d
    rw [hswept, mem_filter, hlist.mem d, decide_eq_true_eq, hmem d]
    tauto
  have hsw := sweep_spec hsame.coherent hsnd
  have hdisk : s1.disk.nodes = s.disk.nodes ∧ s1.disk.blobs = s.disk.blobs := by
    rw [hsame.disk]; exact ⟨rfl, rfl⟩
  have hnode₁ : s1.disk.hasNode = s.disk.hasNode := by
    funext d; simp only [hasNode, hdisk.1]
  have hblob₁ : s1.disk.hasBlob = s.disk.hasBlob := by
    funext d; simp only [hasBlob, hdisk.2]
  refine ⟨swept, hsnd, hsmem, fun d hreach hinv => ?_, hsw.coherent, fun d => ?_, fun d => ?_, ?_, ?_, ?_⟩
  · refine hval d ((hmem d).mpr ⟨hreach, ?_⟩) hinv
    obtain ⟨b, why, hb, -⟩ := hinv
    simp [hasNode, hb]
  · rw [hsw.nodes d, hdisk.1]
  · rw [hsw.blobs d, hdisk.2]
  · rw [hsw.refcounts, hsame.disk]; rfl
  · rw [hsw.blobCache, hsame.blobCache]; rfl
  · have hall : swept.filter s1.disk.hasNode = swept := by
      refine filter_eq_self.mpr fun d hd => ?_
      rw [hnode₁]
      exact ((hsmem d).mp hd).1
    have hcount : reachable.dedup.length = s.disk.nodes.keys.card - swept.length := by
      have hperm : (listing.filter (· ∈ reachable)).Perm reachable := by
        refine (perm_ext_iff_of_nodup (hlist.nodup.filter _) hnd).mpr fun d => ?_
        rw [mem_filter, hlist.mem d, decide_eq_true_eq, hmem d]
        tauto
      have hsplit := length_eq_length_filter_add (l := listing) (· ∈ reachable)
      have hneg : (listing.filter fun d => !decide (d ∈ reachable)) = swept := by
        rw [hswept]
        refine filter_congr fun d _ => ?_
        simp
      rw [Nodup.dedup hnd, ← hperm.length_eq, ← hlist.length]
      rw [hneg] at hsplit
      omega
    rw [hrep, hsw.deletedNodes, hsw.deletedBlobs, hsw.bytesFreed, hall, hblob₁, hdisk.1, hdisk.2,
      hlist.length, hcount]

theorem Collected.ops (hcoh : s.Coherent) (hlist : Lists listing s)
    (h : Collected c gc now listing s roots report s') :
    s'.disk.ops = (cleanStaleOpLocks now s.disk).2.ops := by
  obtain ⟨reachable, blobs, s1, hwalk, rfl, -⟩ := h.walked
  obtain ⟨hsame, -⟩ := walkReachable_ok (cleaned_coherent hcoh now) hwalk
  rw [(sweep_spec hsame.coherent (hlist.nodup.filter _)).ops, hsame.disk]
  rfl

end GarbageCollector

end Pullrun
