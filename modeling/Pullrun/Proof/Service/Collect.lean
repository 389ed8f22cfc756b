import Pullrun.Proof.Gc.Exact
import Pullrun.Proof.Service.Refcounts

/-!
# Collections and the counts

The collector deletes the node file and the blob file of what the roots do not reach.
-/

namespace Pullrun

open Option Disk

namespace Session

open MmapStore GarbageCollector Sample Schedule

def Op.IsLocal : Op → Prop
  | .putBlob _ _ | .collect _ _ _ _ => True
  | op => op.IsCounted

/-- The condition on a collection: no unreachable node has an edge, and no unreachable blob is
    without a node. -/
def CollectsCounted (c : Codec) (s : Session) : Op → Prop
  | .collect _ _ _ roots =>
    (∀ p, s.store.disk.hasNode p = true → ¬ (s.graph c).ReachFrom roots p →
      s.store.disk.edgesOf c p = []) ∧
    ∀ d, s.store.disk.hasBlob d = true → ¬ (s.graph c).ReachFrom roots d →
      s.store.disk.hasNode d = true
  | _ => True

/-! ## One collection -/

section Reclaimed

variable {c : Codec} {s : Session} {roots swept : List Digest} {report : GcReport}
  {store : MmapStore}

theorem reclaimed_edges (h : Reclaimed c s.store roots swept report store) {p q : Digest}
    (he : (store.disk.graph c).Edge p q) : (s.graph c).Edge p q := by
  have hp : store.disk.hasNode p = true := mem_graph_stored.mp he.mem_stored
  obtain ⟨-, hreach⟩ := (h.hasNode_iff p).mp hp
  change q ∈ s.store.disk.edgesOf c p
  change q ∈ store.disk.edgesOf c p at he
  unfold edgesOf at he ⊢
  rw [(h.kept (.inl hreach)).1] at he
  exact he

theorem Sound.reclaimed (hs : Sound c s) (h : Reclaimed c s.store roots swept report store)
    (hedges : ∀ p, s.store.disk.hasNode p = true → ¬ (s.graph c).ReachFrom roots p →
      s.store.disk.edgesOf c p = []) : Sound c { s with store := store } where
  coherent := h.coherent
  valid := by
    intro d b hb
    have hd : d ∉ swept := by
      intro hm
      rw [h.nodes d, if_pos hm] at hb
      cases hb
    rw [h.nodes d, if_neg hd] at hb
    exact hs.valid d b hb
  positive := hs.positive.of_eq h.refcounts
  balanced := by
    intro d
    have hrc : store.disk.getRefcount d = s.store.disk.getRefcount d := by
      rw [getRefcount, getRefcount, h.refcounts]
    have hin : (store.disk.graph c).inDeg d = (s.graph c).inDeg d := by
      refine RefGraph.inDeg_of_sub ?_ ?_ ?_ d
      · intro p hp
        rw [mem_graph_stored] at hp ⊢
        exact ((h.hasNode_iff p).mp hp).1
      · intro p hp
        obtain ⟨-, hreach⟩ := (h.hasNode_iff p).mp (mem_graph_stored.mp hp)
        rw [graph_out, graph_out, edgesOf, edgesOf, (h.kept (.inl hreach)).1]
      · intro p hp hn
        rw [mem_graph_stored] at hp hn
        refine hedges p hp ?_
        intro hreach
        exact hn ((h.hasNode_iff p).mpr ⟨hp, hreach⟩)
    change store.disk.getRefcount d = s.tags.count d + (store.disk.graph c).inDeg d
    rw [hrc, hin]
    exact hs.balanced d

theorem reclaimed_clean (hs : Sound c s) (h : Reclaimed c s.store roots swept report store)
    (hroots : ∀ d ∈ s.tags, d ∈ roots)
    (hedges : ∀ p, s.store.disk.hasNode p = true → ¬ (s.graph c).ReachFrom roots p →
      s.store.disk.edgesOf c p = [])
    (hblobs : ∀ d, s.store.disk.hasBlob d = true → ¬ (s.graph c).ReachFrom roots d →
      s.store.disk.hasNode d = true) {d : Digest} (hd : ¬ (s.graph c).ReachFrom roots d) :
    store.disk.nodes.lookup d = none ∧ store.disk.blobs.lookup d = none ∧
      store.disk.refcounts.lookup d = none := by
  have hnone : ∀ {α : Type} (o : Option α), ¬ o.isSome = true → o = none := by
    intro α o ho
    cases o with
    | none => rfl
    | some a => exact absurd rfl ho
  refine ⟨?_, ?_, ?_⟩
  · refine hnone _ ?_
    intro hn
    exact hd ((h.hasNode_iff d).mp hn).2
  · by_cases hb : s.store.disk.hasBlob d = true
    · rw [h.blobs d, if_pos ((h.mem d).mpr ⟨hblobs d hb hd, hd⟩)]
    · rw [h.blobs d]
      split
      · rfl
      · exact hnone _ hb
  · -- nothing unreachable is tagged, and what points to it would have to be unreachable too
    have hz : s.store.disk.getRefcount d = 0 := by
      refine hs.balanced.zero_iff.mpr ⟨?_, ?_⟩
      · refine Multiset.count_eq_zero_of_notMem ?_
        intro ht
        exact hd (.root (hroots d ht))
      · intro p he
        have hp : ¬ (s.graph c).ReachFrom roots p := fun hr => hd (hr.tail he)
        have hnil := hedges p (mem_graph_stored.mp he.mem_stored) hp
        change d ∈ s.store.disk.edgesOf c p at he
        rw [hnil] at he
        exact absurd he (by simp)
    rw [h.refcounts]
    refine hnone _ ?_
    rw [hs.positive.isSome_iff d, hz]
    exact Nat.lt_irrefl 0

end Reclaimed

variable {c : Codec} {s t : Session} {json : Json}

theorem collect_step {now : ℕ} {force : Bool} {listing roots : List Digest} (hs : Sound c s)
    (hstep : step c json s (.collect now force listing roots) = some t) :
    roots.toFinset = s.tags.toFinset ∧ ∃ store, t = { s with store := store } ∧
      ((KeepsFiles s.store store ∧ store.disk.refcounts = s.store.disk.refcounts ∧
          store.Coherent ∧
          ∃ e, (collectListed c ⟨false, force⟩ now listing s.store roots).1 = .error e) ∨
        ∃ swept report, Reclaimed c s.store roots swept report store) := by
  rw [step] at hstep
  split at hstep
  · rename_i hcol
    injection hstep with hstep
    subst hstep
    refine ⟨hcol.2, _, rfl, ?_⟩
    cases hr : collectListed c ⟨false, force⟩ now listing s.store roots with
    | mk r store =>
      rcases collectListed_inv hs.coherent hr with ⟨hkeep, hrc, hcoh, herr⟩ | ⟨report, -, -, hc⟩
      · refine Or.inl ⟨hkeep, hrc, hcoh, ?_⟩
        cases herr with
        | inl he => exact he
        | inr hdry => cases hdry
      · obtain ⟨swept, hrec⟩ := hc.reclaimed hs.coherent hcol.1
        exact .inr ⟨swept, report, hrec⟩
  · cases hstep

/-! ## Whole sessions -/

theorem Sound.local {ns : List DagNode} (hf : c.FaithfulOn ns) {op : Op}
    (h : Sound c s ∧ EdgesIn c ns s) (hop : op.IsLocal) (hput : ∀ n, op = .put n → n ∈ ns)
    (hok : CollectsCounted c s op) (hstep : step c json s op = some t)  :
    Sound c t ∧ EdgesIn c ns t := by
  cases op with
  | put n => exact Sound.counted hf h (show (Op.put n).IsCounted from trivial) hput hstep
  | tag d => exact Sound.counted hf h (show (Op.tag d).IsCounted from trivial) hput hstep
  | removeTag d => exact Sound.counted hf h (show (Op.removeTag d).IsCounted from trivial) hput hstep
  | importImage archive => exact hop.elim
  | putBlob d data =>
    injection hstep with hstep
    subst hstep
    refine ⟨h.1.putBlob d data, h.2.of_edges ?_⟩
    intro p q he
    obtain ⟨hn, hr, -⟩ := putBlob_frame s.store d data
    change ((s.store.putBlob d data).disk.graph c).Edge p q at he
    rw [graph_congr hn hr] at he
    exact he
  | collect now force listing roots =>
    obtain ⟨-, store, rfl, hkeep | ⟨swept, report, hrec⟩⟩ := collect_step h.1 hstep
    · obtain ⟨⟨hnodes, -⟩, hrc, hcoh, -⟩ := hkeep
      have hgraph : store.disk.graph c = s.graph c := graph_congr hnodes hrc
      refine ⟨⟨hcoh, h.1.valid.of_nodes_eq hnodes, h.1.positive.of_eq hrc, ?_⟩, ?_⟩
      · change (store.disk.graph c).Balanced _
        rw [hgraph]
        exact h.1.balanced
      · intro p q he
        change (store.disk.graph c).Edge p q at he
        rw [hgraph] at he
        exact h.2 p q he
    · exact ⟨h.1.reclaimed hrec hok.1, h.2.of_edges fun p q he => reclaimed_edges hrec he⟩

def AllHeld (s : Session) : Prop :=
  ∀ d, s.store.disk.hasNode d = true → 0 < s.store.disk.getRefcount d

theorem AllHeld.removeTag {d : Digest} (hs : Sound c s) (h : AllHeld s)
    (hstep : step c json s (.removeTag d) = some t) : AllHeld t := by
  obtain ⟨-, -, -, hsurv, hrel⟩ := hs.removeTag hstep
  intro v hv
  by_contra hz
  obtain ⟨hzero, hne⟩ := hrel.fresh v (mem_graph_stored.mpr hv) (Nat.eq_zero_of_not_pos hz)
  rw [RefGraph.setRc_rc, if_neg hne] at hzero
  exact absurd (h v (hsurv.shrinks v hv)) (by rw [show s.store.disk.getRefcount v = 0 from hzero]; simp)

theorem AllHeld.empty (h : AllHeld s) (hs : Sound c s) (hac : (s.graph c).Acyclic)
    (htags : s.tags = 0) (d : Digest) : ¬ s.store.disk.hasNode d = true := by
  intro hd
  obtain ⟨r, hr, -⟩ := hs.balanced.reach_of_weight hac
    (fun v hv => h v (mem_graph_stored.mp hv)) (mem_graph_stored.mpr hd)
  rw [htags, Multiset.count_zero] at hr
  exact Nat.lt_irrefl 0 hr

theorem reclaimed_allHeld {roots swept : List Digest} {report : GcReport} {store : MmapStore}
    (h : Reclaimed c s.store roots swept report store) (ht : Sound c { s with store := store })
    (hroots : ∀ d ∈ roots, d ∈ s.tags) : AllHeld { s with store := store } := by
  intro d hd
  obtain ⟨r, hr, hreach⟩ := (h.reachFrom_iff d).mpr ((h.hasNode_iff d).mp hd).2
  have hb := ht.balanced d
  change store.disk.getRefcount d = s.tags.count d + (store.disk.graph c).inDeg d at hb
  change 0 < store.disk.getRefcount d
  by_cases hdr : d = r
  · have := Multiset.count_pos.mpr (hroots r hr)
    rw [hdr] at hb ⊢
    omega
  · obtain ⟨p, -, he⟩ := hreach.exists_parent hdr
    have := RefGraph.inDeg_pos_iff.mpr ⟨p, he⟩
    omega

/-- **After a successful collection the two schemes agree**, in every session whose collections forget no
edge and overlook no blob. -/
theorem collect_agrees {c : Codec} {json : Json} {ops : List Op} {m₁ m₂ : Option ℕ} {s t : Session}
    {now : ℕ} {force : Bool} {listing roots : List Digest} {report : GcReport}
    (hops : ∀ op ∈ ops, op.IsLocal) (hf : c.FaithfulOn (putNodes ops))
    (hac : c.Acyclic (putNodes ops))
    (hok : Schedule.Meets (step c json) (CollectsCounted c) (start m₁ m₂)
      (ops ++ [.collect now force listing roots]))
    (hrun : Schedule.run (step c json) (start m₁ m₂) ops = some s)
    (hstep : step c json s (.collect now force listing roots) = some t)
    (hsucc : (collectListed c ⟨false, force⟩ now listing s.store roots).1 = .ok report) :
    (∀ d, ¬ (t.graph c).ReachFrom roots d → t.store.disk.nodes.lookup d = none ∧
      t.store.disk.blobs.lookup d = none ∧ t.store.disk.refcounts.lookup d = none) ∧
    (∀ d, t.store.disk.getRefcount d = t.tags.count d + (t.graph c).inDeg d) ∧
    ∀ removals t', (∀ op ∈ removals, ∃ d, op = .removeTag d) →
      Schedule.run (step c json) t removals = some t' → t'.tags = 0 →
      ∀ d, ¬ t'.store.disk.hasNode d = true := by
  obtain ⟨hok₁, hok₂⟩ := (meets_append hrun).mp hok
  have hs : Sound c s ∧ EdgesIn c (putNodes ops) s := by
    refine run_inv (fun s => Sound c s ∧ EdgesIn c (putNodes ops) s)
      (fun s op => CollectsCounted c s op ∧ op ∈ ops) ?_
      ⟨sound_start c m₁ m₂, edgesIn_start c _ m₁ m₂⟩ hok₁.mem hrun
    intro s op t hs hcond hst
    refine Sound.local hf hs (hops op hcond.2) ?_ hcond.1 hst
    intro n hn
    subst hn
    exact mem_putNodes hcond.2
  obtain ⟨hedges, hblobs⟩ := hok₂.1
  have ht : Sound c t ∧ EdgesIn c (putNodes ops) t :=
    Sound.local hf hs (show (Op.collect now force listing roots).IsLocal from trivial)
      (by intro n hn; cases hn) hok₂.1 hstep
  obtain ⟨hroots, store, rfl, ⟨-, -, -, e, he⟩ | ⟨swept, report', hrec⟩⟩ := collect_step hs.1 hstep
  · rw [hsucc] at he
    cases he
  · have hmem : ∀ d, d ∈ roots ↔ d ∈ s.tags := by
      intro d
      rw [← List.mem_toFinset, hroots, Multiset.mem_toFinset]
    refine ⟨?_, ht.1.balanced, ?_⟩
    · intro d hd
      refine reclaimed_clean hs.1 hrec (fun d hd => (hmem d).mpr hd) hedges hblobs ?_
      intro hreach
      exact hd ((hrec.reachFrom_iff d).mpr hreach)
    · intro removals t' hrem hrun' htags
      have hinv : (Sound c t' ∧ EdgesIn c (putNodes ops) t') ∧ AllHeld t' := by
        refine run_inv
          (fun t => (Sound c t ∧ EdgesIn c (putNodes ops) t) ∧ AllHeld t)
          (fun _ op => True ∧ op ∈ removals) ?_
          ⟨ht, reclaimed_allHeld hrec ht.1 fun d hd => (hmem d).mp hd⟩ meets_true.mem hrun'
        intro s₁ op s₂ hs₁ hop hst
        obtain ⟨d, rfl⟩ := hrem op hop.2
        exact ⟨Sound.counted hf hs₁.1 (show (Op.removeTag d).IsCounted from trivial)
          (by intro n hn; cases hn) hst, hs₁.2.removeTag hs₁.1.1 hst⟩
      exact hinv.2.empty hinv.1.1 (hinv.1.2.acyclic hac) htags

/-! ## Two sessions -/

def twoImages : List Op :=
  [.put Sample.leaf, .put Sample.imageA, .put Sample.imageB, .tag Sample.imageAD]

def collectTwo : Op :=
  .collect 0 false [Sample.imageBD, Sample.leafD, Sample.imageAD] [Sample.imageAD]

theorem collect_overcounts :
    ∃ s t t', Schedule.run (step Sample.codec noJson) (start none none) twoImages = some s ∧
      step Sample.codec noJson s collectTwo = some t ∧
      (∃ report, (collectListed Sample.codec ⟨false, false⟩ 0
        [Sample.imageBD, Sample.leafD, Sample.imageAD] s.store [Sample.imageAD]).1 = .ok report) ∧
      t.store.disk.hasNode Sample.leafD = true ∧
      t.store.disk.getRefcount Sample.leafD
        ≠ t.tags.count Sample.leafD + (t.graph Sample.codec).inDeg Sample.leafD ∧
      step Sample.codec noJson t (.removeTag Sample.imageAD) = some t' ∧ t'.tags = 0 ∧
      t'.store.disk.hasNode Sample.leafD = true := by
  obtain ⟨s, hrun, hreport, t, hcollect, hleaf, hcount, t', hremove, hzero, hleft⟩ :
      ∃ s, run (step codec noJson) (start none none) twoImages = some s ∧
      (collectListed codec ⟨false, false⟩ 0 [imageBD, leafD, imageAD] s.store [imageAD]).1
        = .ok ⟨3, 2, 1, 1, 0, 56, false⟩ ∧
      ∃ t, step codec noJson s collectTwo = some t ∧ t.store.disk.hasNode leafD = true ∧
        t.store.disk.getRefcount leafD ≠ t.tags.count leafD + (t.graph codec).inDeg leafD ∧
      ∃ t', step codec noJson t (.removeTag imageAD) = some t' ∧ t'.tags = 0 ∧
        t'.store.disk.hasNode leafD = true := by decide +kernel
  exact ⟨s, t, t', hrun, hcollect, ⟨_, hreport⟩, hleaf, hcount, hremove, hzero, hleft⟩

def strayFile : List Op :=
  [.put Sample.leaf, .put Sample.other, .putBlob Sample.otherD [1], .put Sample.imageA,
    .tag Sample.imageAD]

theorem collect_agrees_strayFile :
    ∃ s t, Schedule.run (step Sample.codec noJson) (start none none) strayFile = some s ∧
      step Sample.codec noJson s (.collect 0 false [Sample.otherD, Sample.imageAD, Sample.leafD]
        [Sample.imageAD]) = some t ∧
      ¬ t.store.disk.hasNode Sample.otherD = true ∧
      (∀ d, t.store.disk.getRefcount d = t.tags.count d + (t.graph Sample.codec).inDeg d) ∧
      ∀ removals t', (∀ op ∈ removals, ∃ d, op = .removeTag d) →
        Schedule.run (step Sample.codec noJson) t removals = some t' → t'.tags = 0 →
        ∀ d, ¬ t'.store.disk.hasNode d = true := by
  obtain ⟨s, hrun, hsucc, hedges, hblobs, t, hcollect, hgone⟩ :
      ∃ s, run (step codec noJson) (start none none) strayFile = some s ∧
      (collectListed codec ⟨false, false⟩ 0 [otherD, imageAD, leafD] s.store [imageAD]).1
        = .ok ⟨3, 2, 1, 1, 1, 25, false⟩ ∧
      (∀ p ∈ s.store.disk.nodes.keys, s.store.disk.edgesOf codec p = [] ∨ p = imageAD) ∧
      (∀ d ∈ s.store.disk.blobs.keys, s.store.disk.hasNode d = true) ∧
      ∃ t, step codec noJson s (.collect 0 false [otherD, imageAD, leafD] [imageAD]) = some t ∧
        ¬ t.store.disk.hasNode otherD = true := by decide +kernel
  have hok : Meets (step codec noJson) (CollectsCounted codec)
      (start none none) (strayFile ++ [.collect 0 false
        [otherD, imageAD, leafD] [imageAD]]) := by
    refine (meets_append hrun).mpr ⟨?_, ⟨?_, ?_⟩, fun _ _ => trivial⟩
    · refine meets_of_forall ?_
      intro s op hop
      simp only [strayFile, List.mem_cons, List.not_mem_nil, or_false] at hop
      rcases hop with rfl | rfl | rfl | rfl | rfl <;> trivial
    · intro p hp hn
      refine (hedges p (FileMap.mem_keys_iff.mpr hp)).resolve_right ?_
      intro he
      exact hn (.root (List.mem_singleton.mpr he))
    · intro d hd _
      exact hblobs d (FileMap.mem_keys_iff.mpr hd)
  have hsub : putNodes strayFile ⊆ nodes := by decide
  have hops : ∀ op ∈ strayFile, op.IsLocal := by simp [strayFile, Op.IsLocal, Op.IsCounted]
  have hmain := collect_agrees hops (codec_faithfulOn.mono hsub)
    (codec_acyclic.mono hsub) hok hrun hcollect hsucc
  exact ⟨s, t, hrun, hcollect, hgone, hmain.2⟩

end Session

end Pullrun
