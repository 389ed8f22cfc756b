import Pullrun.Proof.Service.Session
import Pullrun.Store.Sample

/-!
# Reference counting, over whole sessions

As long as nodes enter the store through `put` and leave it through `remove_tag`, reference
counting is exact: after any sequence of operations every count is what it is supposed to be, and
removing the last tag of a root deletes what nothing else holds on to — no more and no less.
-/

namespace Pullrun

open Sample Schedule

namespace Session

def Op.IsCounted : Op → Prop
  | .put _ | .tag _ | .removeTag _ => True
  | _ => False

theorem Sound.counted {c : Codec} {json : Json} {ns : List DagNode} (hf : c.FaithfulOn ns)
    {s t : Session} {op : Op} (h : Sound c s ∧ EdgesIn c ns s) (hop : op.IsCounted)
    (hput : ∀ n, op = .put n → n ∈ ns) (hstep : step c json s op = some t) :
    Sound c t ∧ EdgesIn c ns t := by
  obtain ⟨hs, he⟩ := h
  cases op with
  | put n =>
    obtain ⟨b, hb⟩ := hf n (hput n rfl)
    injection hstep with hstep
    subst hstep
    exact ⟨hs.put hb, he.put (hput n rfl) hb⟩
  | tag d =>
    injection hstep with hstep
    subst hstep
    refine ⟨hs.addTag d, he.of_edges fun p q hedge => ?_⟩
    rw [graph_addTag] at hedge
    exact hedge
  | removeTag d =>
    obtain ⟨-, -, ht, -, hrel⟩ := hs.removeTag hstep
    exact ⟨ht, he.removeTag hrel⟩
  | putBlob d data | importImage archive | collect now force listing roots => exact hop.elim

theorem sound_of_counted_run {c : Codec} {json : Json} {ops : List Op} {m1 m2 : Option ℕ}
    {t : Session} (hops : ∀ op ∈ ops, op.IsCounted) (hf : c.FaithfulOn (putNodes ops))
    (hrun : run (step c json) (start m1 m2) ops = some t) :
    Sound c t ∧ EdgesIn c (putNodes ops) t := by
  refine run_inv (fun s => Sound c s ∧ EdgesIn c (putNodes ops) s)
    (fun _ op => True ∧ op ∈ ops) (fun s op t hs hok hstep => ?_)
    ⟨sound_start c m1 m2, edgesIn_start c _ m1 m2⟩ meets_true.mem hrun
  refine Sound.counted hf hs (hops op hok.2) (fun n hn => ?_) hstep
  subst hn
  exact mem_putNodes hok.2

/-- **Counts are exact after every counted operation, and a last tag takes with it exactly what
    nothing else reaches.** -/
theorem refcounts_exact {c : Codec} {json : Json} {ops : List Op} {m₁ m₂ : Option ℕ} {t : Session}
    (hops : ∀ op ∈ ops, op.IsCounted) (hf : c.FaithfulOn (putNodes ops))
    (hac : c.Acyclic (putNodes ops))
    (hrun : Schedule.run (step c json) (start m₁ m₂) ops = some t) :
    (∀ d, t.store.disk.getRefcount d = t.tags.count d + (t.graph c).inDeg d) ∧
      ∀ d t', t.tags.count d = 1 → step c json t (.removeTag d) = some t' →
        (∀ v, t'.store.disk.hasNode v = true → t.store.disk.hasNode v = true) ∧
        ∀ v, t.store.disk.hasNode v = true → (¬ t'.store.disk.hasNode v = true ↔
          (t.graph c).Reach d v ∧ (¬ ∃ r ∈ t'.tags, (t.graph c).Reach r v) ∧
            ¬ ∃ p, t.store.disk.hasNode p = true ∧ ¬ (t.graph c).Reach d p ∧
              (t.graph c).Reach p v) := by
  obtain ⟨hs, he⟩ := sound_of_counted_run hops hf hrun
  refine ⟨hs.balanced, fun d t' _ hstep => ?_⟩
  obtain ⟨-, -, -, hsurv, hrel⟩ := hs.removeTag hstep
  refine ⟨hsurv.shrinks, fun v hv => ?_⟩
  have hmem : v ∈ (t.graph c).stored := Disk.mem_graph_stored.mpr hv
  have hexact := hrel.dropped_iff (he.acyclic hac) v hmem
  simp only [RefGraph.setRc_reach, RefGraph.setRc_stored, Disk.mem_graph_stored,
    Multiset.count_pos] at hexact
  exact hexact

def sampleOps : List Op :=
  [.put Sample.leaf, .put Sample.imageA, .tag Sample.imageAD, .put Sample.imageB,
    .put Sample.imageB, .tag Sample.imageBD]

def noJson : Json := ⟨fun _ => .error "", fun _ => .error ""⟩

theorem refcounts_exact_sampleOps :
    ∃ t t', Schedule.run (step Sample.codec noJson) (start none none) sampleOps = some t ∧
      step Sample.codec noJson t (.removeTag Sample.imageAD) = some t' ∧
      ¬ t'.store.disk.hasNode Sample.imageAD = true ∧ t'.store.disk.hasNode Sample.leafD = true ∧
      (∀ d, t.store.disk.getRefcount d = t.tags.count d + (t.graph Sample.codec).inDeg d) ∧
      ∀ v, t.store.disk.hasNode v = true → (¬ t'.store.disk.hasNode v = true ↔
        (t.graph Sample.codec).Reach Sample.imageAD v ∧
          (¬ ∃ r ∈ t'.tags, (t.graph Sample.codec).Reach r v) ∧
          ¬ ∃ p, t.store.disk.hasNode p = true ∧ ¬ (t.graph Sample.codec).Reach Sample.imageAD p ∧
            (t.graph Sample.codec).Reach p v) := by
  obtain ⟨t, hrun, htag, t', hstep, hA, hleaf⟩ :
      ∃ t, run (step codec noJson) (start none none) sampleOps = some t ∧ t.tags.count imageAD = 1 ∧
        ∃ t', step codec noJson t (.removeTag imageAD) = some t' ∧
          ¬ t'.store.disk.hasNode imageAD = true ∧ t'.store.disk.hasNode leafD = true := by
    decide +kernel
  have hsub : putNodes sampleOps ⊆ nodes := by decide
  have hcounted : ∀ op ∈ sampleOps, op.IsCounted := by
    simp [sampleOps, Op.IsCounted]
  have hmain := refcounts_exact hcounted (codec_faithfulOn.mono hsub)
    (codec_acyclic.mono hsub) hrun
  exact ⟨t, t', hrun, hstep, hA, hleaf, hmain.1, (hmain.2 _ _ htag hstep).2⟩

end Session

end Pullrun
