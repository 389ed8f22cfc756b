import Pullrun.Lib.Search
import Pullrun.Proof.Store.Refcount

/-!
# What `walk_reachable` returns

The walk reads nodes through the cache, so it changes the store object, but no file of it.
-/

namespace Pullrun

open List

namespace MmapStore

/-- The store object `s'` differs from `s` in its node cache, which still agrees with the disk. -/
structure SameFiles (s s' : MmapStore) : Prop where
  coherent : s'.Coherent
  disk : s'.disk = s.disk
  blobCache : s'.blobCache = s.blobCache

variable {s s' : MmapStore} {c : Codec} {seen nodes blobs roots : List Digest} {v : Digest}

theorem SameFiles.refl (h : s.Coherent) : SameFiles s s := ⟨h, rfl, rfl⟩

theorem SameFiles.trans {s1 s2 s3 : MmapStore} (h1 : SameFiles s1 s2) (h2 : SameFiles s2 s3) :
    SameFiles s1 s3 :=
  ⟨h2.coherent, h2.disk.trans h1.disk, h2.blobCache.trans h1.blobCache⟩

theorem getArchived_sameFiles (c : Codec) (h : s.Coherent) (d : Digest) :
    SameFiles s (s.getArchived c d).2 := by
  obtain ⟨hcoh, hdisk, -⟩ := getArchived_coherent c h d
  obtain ⟨cache, hframe⟩ := getArchived_frame c s d
  exact ⟨hcoh, hdisk, by rw [hframe]⟩

def Invalid (c : Codec) (k : Disk) (d : Digest) : Prop :=
  ∃ b why, k.nodes.lookup d = some b ∧ c.checkArchivedRoot b = .error why

/-- The result of a walk over the files `k`: the digests `seen` so far that are stored, and which
    of them have a blob. -/
structure Walked (c : Codec) (k : Disk) (seen nodes blobs : List Digest) : Prop where
  nodup : nodes.Nodup
  mem : ∀ d, d ∈ nodes ↔ d ∈ seen ∧ k.hasNode d = true
  blobs : blobs = nodes.filter k.hasBlob
  valid : ∀ d ∈ nodes, ¬ Invalid c k d

theorem Walked.absent {k : Disk} (h : Walked c k seen nodes blobs) (hv : ¬ k.hasNode v = true) :
    Walked c k (v :: seen) nodes blobs where
  nodup := h.nodup
  mem d := by
    rw [h.mem d, mem_cons]
    refine ⟨fun hd => ⟨.inr hd.1, hd.2⟩, fun hd => ⟨hd.1.resolve_left ?_, hd.2⟩⟩
    rintro rfl
    exact hv hd.2
  blobs := h.blobs
  valid := h.valid

theorem Walked.stored {k : Disk} (h : Walked c k seen nodes blobs)
    (hv : k.hasNode v = true) (hnew : v ∉ seen) (hval : ¬ Invalid c k v) :
    Walked c k (v :: seen) (nodes ++ [v]) (if k.hasBlob v then blobs ++ [v] else blobs) where
  nodup := by
    refine nodup_append.mpr ⟨h.nodup, nodup_singleton v, ?_⟩
    rintro d hd e he rfl
    rw [mem_singleton.mp he] at hd
    exact hnew ((h.mem v).mp hd).1
  mem d := by
    rw [mem_append, mem_singleton, h.mem d, mem_cons]
    constructor
    · rintro (hd | rfl)
      · exact ⟨.inr hd.1, hd.2⟩
      · exact ⟨.inl rfl, hv⟩
    · rintro ⟨rfl | hd, hs⟩
      · exact .inr rfl
      · exact .inl ⟨hd, hs⟩
  blobs := by
    rw [filter_append, h.blobs]
    split <;> rename_i hb <;> simp [hb]
  valid d hd := by
    rcases mem_append.mp hd with hd | hd
    · exact h.valid d hd
    · rw [mem_singleton.mp hd]
      exact hval

/-- The loop invariant of `walk_reachable`. -/
def Walks (c : Codec) (s₀ : MmapStore) (roots queue seen : List Digest)
    (st : MmapStore × (List Digest × List Digest)) : Prop :=
  SameFiles s₀ st.1 ∧ RefGraph.Searching (s₀.disk.graph c) roots queue seen ∧
    Walked c s₀.disk seen st.2.1 st.2.2

def WalkFails (c : Codec) (s₀ : MmapStore) (roots : List Digest) (e : StoreError)
    (st : MmapStore × (List Digest × List Digest)) : Prop :=
  SameFiles s₀ st.1 ∧ ∃ d, e = .corrupted d corruptedDuringWalk ∧
    (s₀.disk.graph c).ReachFrom roots d ∧ Invalid c s₀.disk d

theorem Walks.visit {s0 : MmapStore} {queue : List Digest}
    {st : MmapStore × (List Digest × List Digest)} (hnew : v ∉ seen)
    (h : Walks c s0 roots (v :: queue) seen st) :
    Worklist.Visits (Walks c s0 roots) (WalkFails c s0 roots)
      (fun seen _ => (s0.disk.graph c).unseenEdges seen) v queue seen st (walkVisit c v st) := by
  obtain ⟨s, nodes, blobs⟩ := st
  obtain ⟨hsame, hsearch, hwalked⟩ := h
  dsimp only at hsame hwalked
  have hsearch' := hsearch.visit
  have hpot := RefGraph.unseenEdges_visit (G := s0.disk.graph c) hnew
  rw [Disk.graph_out] at hsearch' hpot
  unfold walkVisit
  dsimp only
  rw [exists_coherent hsame.coherent, hsame.disk]
  by_cases hv : s0.disk.hasNode v = true
  · rw [if_pos hv]
    have hread := getArchived_sameFiles c hsame.coherent v
    obtain ⟨-, -, hres⟩ := getArchived_coherent c hsame.coherent v
    rw [hsame.disk] at hres
    obtain ⟨b, hb⟩ := Option.isSome_iff_exists.mp hv
    rcases hr : s.getArchived c v with ⟨r, s'⟩
    rw [hr] at hread hres
    cases hc : c.checkArchivedRoot b with
    | ok n =>
      simp only [hb, hc] at hres
      subst hres
      rw [Disk.edgesOf_ok hb hc] at hsearch' hpot
      refine ⟨⟨hsame.trans hread, hsearch', hwalked.stored hv hnew ?_⟩, hpot⟩
      rintro ⟨b', why, hb', hwhy⟩
      rw [hb] at hb'
      injection hb' with hb'
      rw [← hb', hc] at hwhy
      cases hwhy
    | error why =>
      simp only [hb, hc] at hres
      subst hres
      exact ⟨hsame.trans hread, v, rfl, hsearch.reached v (.inr mem_cons_self), b, why, hb, hc⟩
  · rw [if_neg hv]
    have hout : s0.disk.edgesOf c v = [] :=
      (s0.disk.graph c).out_absent v fun hm => hv (Disk.mem_graph_stored.mp hm)
    rw [hout] at hsearch' hpot
    exact ⟨⟨hsame, hsearch', hwalked.absent hv⟩, hpot⟩

theorem walkReachable_ends (c : Codec) (hcoh : s.Coherent) (roots : List Digest) :
    match walkReachable c s roots with
    | (.ok (nodes, blobs), s') => SameFiles s s' ∧ ∃ seen,
        RefGraph.Searching (s.disk.graph c) roots [] seen ∧ Walked c s.disk seen nodes blobs
    | (.error e, s') => SameFiles s s' ∧ ∃ d, e = .corrupted d corruptedDuringWalk ∧
        (s.disk.graph c).ReachFrom roots d ∧ Invalid c s.disk d := by
  have hstart : Walks c s roots roots [] (s, ([], [])) :=
    ⟨.refl hcoh, .start _ _, nodup_nil, by simp, by simp, by simp⟩
  have hends := Worklist.run_rule .stalled (walkVisit c) (Walks c s roots)
    (fun _ _ _ _ hs hi => ⟨hi.1, hi.2.1.skip hs, hi.2.2⟩)
    (fun _ _ _ _ hs hi => hi.visit hs) (walkFuel c s.disk roots.length) roots [] _ hstart
    (by
      rw [RefGraph.unseenEdges_nil]
      change roots.length + (s.disk.graph c).edgeCount
        < roots.length + (s.disk.graph c).edgeCount + 1
      omega)
  unfold walkReachable
  rcases hrun : Worklist.run StoreError.stalled (walkVisit c) (walkFuel c s.disk roots.length) roots [] (s, ([], []))
    with ⟨e | seen, s', nodes, blobs⟩
  · rw [hrun] at hends
    exact hends
  · rw [hrun] at hends
    exact ⟨hends.1, seen, hends.2⟩

theorem walkReachable_ok (hcoh : s.Coherent) (h : walkReachable c s roots = (.ok (nodes, blobs), s')) :
    SameFiles s s' ∧ nodes.Nodup ∧ blobs = nodes.filter s.disk.hasBlob ∧
      (∀ d ∈ nodes, ¬ Invalid c s.disk d) ∧
      ∀ d, d ∈ nodes ↔ (s.disk.graph c).ReachFrom roots d ∧ s.disk.hasNode d = true := by
  have hends := walkReachable_ends c hcoh roots
  rw [h] at hends
  obtain ⟨hsame, seen, hsearch, hwalked⟩ := hends
  refine ⟨hsame, hwalked.nodup, hwalked.blobs, hwalked.valid, fun d => ?_⟩
  rw [hwalked.mem d, hsearch.mem_seen_iff]

theorem walkReachable_succeeds (hcoh : s.Coherent)
    (hval : ∀ d, (s.disk.graph c).ReachFrom roots d → ¬ Invalid c s.disk d) :
    ∃ nodes blobs s', walkReachable c s roots = (.ok (nodes, blobs), s') := by
  rcases h : walkReachable c s roots with ⟨e | ⟨nodes, blobs⟩, s'⟩
  · have hends := walkReachable_ends c hcoh roots
    rw [h] at hends
    obtain ⟨-, d, -, hreach, hinv⟩ := hends
    exact absurd hinv (hval d hreach)
  · exact ⟨nodes, blobs, s', rfl⟩

end MmapStore

end Pullrun
