import Pullrun.Proof.Service.Pull
import Pullrun.Service.Remove

/-!
# What a removal relies on, and what it has taken ahead of time

A removal lowers counts before what they count is gone: the root's before its tag leaves the table,
the edges' before the node's file is deleted.
-/

namespace Pullrun

open MmapStore List Disk

namespace Visit

def node : Visit → Option Digest
  | .pop => none
  | .read v | .edges v _ _ | .removeNode v _ | .removeBlob v | .removeRefcount v => some v

def taken : Visit → List Digest
  | .edges _ before _ => before
  | .removeNode _ all => all
  | _ => []

def Holds (c : Codec) (k : Disk) : Visit → Prop
  | .pop => True
  | .read v => k.hasNode v = true
  | .edges v before left => k.hasNode v = true ∧ k.edgesOf c v = before ++ left
  | .removeNode v all => k.hasNode v = true ∧ k.edgesOf c v = all
  | .removeBlob v | .removeRefcount v => k.hasNode v = false

theorem Holds.of_lookup {c : Codec} {k k' : Disk} {visit : Visit} (h : visit.Holds c k)
    (he : ∀ v, visit.node = some v → k'.nodes.lookup v = k.nodes.lookup v) : visit.Holds c k' := by
  have hhas : ∀ v, visit.node = some v → k'.hasNode v = k.hasNode v := by
    intro v hv
    rw [hasNode, hasNode, he v hv]
  have hout : ∀ v, visit.node = some v → k'.edgesOf c v = k.edgesOf c v := by
    intro v hv
    rw [edgesOf, edgesOf, he v hv]
  cases visit with
  | pop => trivial
  | read v | removeBlob v | removeRefcount v => exact (hhas v rfl).trans h
  | edges v before left | removeNode v edges => exact ⟨(hhas v rfl).trans h.1, (hout v rfl).trans h.2⟩

end Visit

namespace Remove

variable {c : Codec} {workloads : List Digest}

def credit (r : Remove) (d : Digest) : ℕ :=
  match r.stage with
  | .cascade _ _ visit => [r.root].count d + visit.taken.count d
  | .untag => [r.root].count d
  | _ => 0

def visiting (k : Disk) (r : Remove) : Option Digest :=
  match r.stage with
  | .cascade (v :: _) deleted .pop => if v ∉ deleted ∧ k.hasNode v = true then some v else none
  | _ => none

def busy (r : Remove) : Option Digest :=
  match r.stage with
  | .cascade _ _ visit => visit.node
  | _ => none

/-- What holds in the cascade, when the digests of `P` are counted on by somebody else. -/
structure Sweeping (c : Codec) (P : Digest → Prop) (k : Disk) (queue deleted : List Digest)
    (visit : Visit) : Prop where
  queued : ∀ v ∈ queue, v ∉ deleted → k.getRefcount v = 0 ∨ P v
  busy : ∀ v, visit.node = some v → ¬ P v ∧ k.getRefcount v = 0
  holds : visit.Holds c k

def Inv (c : Codec) (P : Digest → Prop) (f : Files) (r : Remove) : Prop :=
  match r.stage with
  | .root | .untag => r.root ∈ f.imageTags
  | .cascade queue deleted visit =>
    r.root ∈ f.imageTags ∧ Sweeping c P f.disk queue deleted visit
  | _ => True

/-! ## One step -/

theorem getRefcount_decrement_le (k : Disk) (child v : Digest) :
    (k.decrementRefcount child).2.getRefcount v ≤ k.getRefcount v := by
  change (k.setRefcount child (k.getRefcount child - 1)).getRefcount v ≤ _
  rw [getRefcount_setRefcount]
  split
  · rename_i hv
    subst hv
    omega
  · exact Nat.le_refl _

theorem decrementRefcount_nodes (k : Disk) (child : Digest) :
    (k.decrementRefcount child).2.nodes = k.nodes := setRefcount_nodes _ _ _

variable {P : Digest → Prop} {queue deleted : List Digest} {f f' : Files} {r r' : Remove}
  {d v : Digest} {k : Disk}

theorem Sweeping.decrement {before left : List Digest} {child : Digest}
    (h : Sweeping c P k queue deleted (.edges v before (child :: left))) :
    Sweeping c P (k.decrementRefcount child).2 (enqueue queue child (k.getRefcount child - 1)) deleted
      (.edges v (before ++ [child]) left) := by
  have hle := getRefcount_decrement_le k child
  refine ⟨fun x hx hd => ?_, fun x hx => ?_, ?_⟩
  · have hold : x ∈ queue → (k.decrementRefcount child).2.getRefcount x = 0 ∨ P x := by
      intro hq
      refine (h.queued x hq hd).imp_left fun hz => ?_
      have := hle x
      omega
    rw [enqueue] at hx
    split at hx
    · rename_i hz
      rcases mem_append.mp hx with hq | hq
      · exact hold hq
      · -- queued just now, at zero
        rw [mem_singleton.mp hq]
        refine Or.inl ?_
        change (k.setRefcount child (k.getRefcount child - 1)).getRefcount child = 0
        rw [getRefcount_setRefcount, if_pos rfl]
        exact hz
    · exact hold hx
  · obtain ⟨hP, hz⟩ := h.busy x hx
    have := hle x
    exact ⟨hP, by omega⟩
  · obtain ⟨hhas, hout⟩ := h.holds
    refine ⟨?_, ?_⟩
    · rw [hasNode, decrementRefcount_nodes]
      exact hhas
    · rw [edgesOf_congr (decrementRefcount_nodes k child), hout, append_assoc]
      rfl

theorem Sweeping.removeNode {edges : List Digest}
    (h : Sweeping c P k queue deleted (.removeNode v edges)) :
    Sweeping c P (k.removeNode v) queue deleted (.removeBlob v) where
  queued := h.queued
  busy := h.busy
  holds := by
    change (k.removeNode v).hasNode v = false
    rw [Disk.hasNode, Disk.removeNode, FileMap.lookup_erase_if, if_pos rfl]
    rfl

theorem Sweeping.removeRefcount (h : Sweeping c P k queue deleted (.removeRefcount v)) :
    Sweeping c P (k.removeRefcount v) queue deleted .pop where
  queued x hx hd := by
    rw [getRefcount_removeRefcount]
    split
    · exact .inl rfl
    · exact h.queued x hx hd
  busy _ hx := by cases hx
  holds := trivial

theorem Inv.steps (h : Inv c P f r) (hval : f.disk.Valid c) (hst : Steps c workloads f r r' f')
    (hvisit : ∀ v, r.visiting f.disk = some v → ¬ P v) : Inv c P f' r' := by
  cases hst with
  | check hs ht hw => exact ht
  | refuse hs => trivial
  | shared hs hpos =>
    rw [Inv, hs] at h
    exact h
  | last hs hzero =>
    rw [Inv, hs] at h
    refine ⟨h, fun v hv _ => ?_, fun _ hv => (by cases hv), trivial⟩
    rw [mem_singleton.mp hv]
    refine Or.inl ?_
    change (f.disk.setRefcount r.root _).getRefcount r.root = 0
    rw [getRefcount_setRefcount, if_pos rfl]
    exact hzero
  | finish deleted hs =>
    rw [Inv, hs] at h
    exact h.1
  | skip v queue deleted deleted' hs hd =>
    rw [Inv, hs] at h
    refine ⟨h.1, fun x hx hn => ?_, fun _ hx => (by cases hx), trivial⟩
    refine h.2.queued x (mem_cons_of_mem _ hx) fun hm => hn ?_
    rcases hd with ⟨-, rfl⟩ | ⟨-, rfl⟩
    · exact hm
    · exact mem_cons_of_mem _ hm
  | visit v queue deleted hs hd hk =>
    have hnot : ¬ P v := by
      apply hvisit
      rw [visiting, hs]
      exact if_pos ⟨hd, hk⟩
    rw [Inv, hs] at h
    refine ⟨h.1, fun x hx hn => ?_, fun x hx => ?_, hk⟩
    · exact h.2.queued x (mem_cons_of_mem _ hx) fun hm => hn (mem_cons_of_mem _ hm)
    · cases hx
      exact ⟨hnot, (h.2.queued v mem_cons_self hd).resolve_right hnot⟩
  | read v queue deleted hs =>
    rw [Inv, hs] at h
    exact ⟨h.1, h.2.queued, h.2.busy, h.2.holds, rfl⟩
  | abort v queue deleted bytes why hs hb hc =>
    obtain ⟨n, hn⟩ := hval v bytes hb
    rw [hc] at hn
    cases hn
  | decrement v child before left queue deleted hs =>
    rw [Inv, hs] at h
    exact ⟨h.1, h.2.decrement⟩
  | counted v before queue deleted hs =>
    rw [Inv, hs] at h
    refine ⟨h.1, h.2.queued, h.2.busy, h.2.holds.1, ?_⟩
    rw [h.2.holds.2, append_nil]
  | removeNode v edges queue deleted hs =>
    rw [Inv, hs] at h
    exact ⟨h.1, h.2.removeNode⟩
  | removeBlob v queue deleted hs =>
    rw [Inv, hs] at h
    exact ⟨h.1, h.2.queued, h.2.busy, h.2.holds⟩
  | removeRefcount v queue deleted hs =>
    rw [Inv, hs] at h
    exact ⟨h.1, h.2.removeRefcount⟩
  | untag hs => trivial

theorem Steps.valid (hst : Steps c workloads f r r' f') (hval : f.disk.Valid c) :
    f'.disk.Valid c := by
  cases hst with
  | shared hs hpos | last hs hzero | decrement => exact hval.of_nodes_eq (decrementRefcount_nodes _ _)
  | removeNode => exact hval.erase rfl
  | _ => exact hval

/-- **A removal keeps surplus and credit in step with the tags**, if no count is zero when it is
    lowered. -/
theorem Inv.account (h : Inv c P f r) (hst : Steps c workloads f r r' f')
    (hpos : ∀ v, r.decrements = some v → 1 ≤ f.disk.getRefcount v) (d : Digest) :
    (f'.disk.graph c).surplus d + r'.credit d - tagCount f'.imageTags d
      = (f.disk.graph c).surplus d + r.credit d - tagCount f.imageTags d := by
  have hcascade : ∀ queue deleted visit, r.stage = .cascade queue deleted visit →
      r.credit d = [r.root].count d + visit.taken.count d := by
    intro queue deleted visit hs
    rw [credit, hs]
  cases hst with
  | check hs ht hw | refuse hs => rw [credit, credit, hs]
  | shared hs hgt =>
    have hdec : 1 ≤ f.disk.getRefcount r.root := hpos _ (by rw [decrements, hs])
    have hcredit : r.credit d = 0 := by rw [credit, hs]
    change ((f.disk.decrementRefcount r.root).2.graph c).surplus d + (([r.root].count d : ℕ) : ℤ)
      - tagCount f.imageTags d = _
    rw [surplus_decrementRefcount c hdec, hcredit]
    omega
  | last hs hzero =>
    have hdec : 1 ≤ f.disk.getRefcount r.root := hpos _ (by rw [decrements, hs])
    have hcredit : r.credit d = 0 := by rw [credit, hs]
    change ((f.disk.decrementRefcount r.root).2.graph c).surplus d
      + (([r.root].count d + ([] : List Digest).count d : ℕ) : ℤ) - tagCount f.imageTags d = _
    rw [surplus_decrementRefcount c hdec, hcredit, count_nil]
    omega
  | finish deleted hs | skip v queue deleted deleted' hs hd | visit v queue deleted hs hd hk
  | read v queue deleted hs | abort v queue deleted bytes why hs hb hc
  | counted v before queue deleted hs => rw [hcascade _ _ _ hs]; rfl
  | decrement v child before left queue deleted hs =>
    have hdec : 1 ≤ f.disk.getRefcount child := hpos _ (by rw [decrements, hs])
    rw [hcascade _ _ _ hs]
    change ((f.disk.decrementRefcount child).2.graph c).surplus d
      + (([r.root].count d + (before ++ [child]).count d : ℕ) : ℤ) - tagCount f.imageTags d
      = (f.disk.graph c).surplus d + (([r.root].count d + before.count d : ℕ) : ℤ)
      - tagCount f.imageTags d
    rw [surplus_decrementRefcount c hdec, count_append]
    omega
  | removeNode v edges queue deleted hs =>
    rw [Inv, hs] at h
    rw [hcascade _ _ _ hs]
    change ((f.disk.removeNode v).graph c).surplus d
      + (([r.root].count d + ([] : List Digest).count d : ℕ) : ℤ) - tagCount f.imageTags d
      = (f.disk.graph c).surplus d + (([r.root].count d + edges.count d : ℕ) : ℤ)
      - tagCount f.imageTags d
    rw [surplus_removeNode, h.2.holds.2, count_nil]
    omega
  | removeBlob v queue deleted hs =>
    rw [hcascade _ _ _ hs]
    exact congrArg (· + _ - _) (surplus_congr rfl rfl d)
  | removeRefcount v queue deleted hs =>
    rw [Inv, hs] at h
    rw [hcascade _ _ _ hs]
    exact congrArg (· + _ - _) (surplus_removeRefcount c (h.2.busy v rfl).2 d)
  | untag hs =>
    rw [Inv, hs] at h
    have hcredit : r.credit d = [r.root].count d := by rw [credit, hs]
    have htags := tagCount_erase h d
    change (f.disk.graph c).surplus d + ((0 : ℕ) : ℤ) - tagCount (f.imageTags.erase r.root) d = _
    rw [hcredit]
    omega

/-- What somebody else has yet to count: edges of a node of theirs, or a tag of theirs. -/
def Covered (c : Codec) (P : Digest → Prop) (f : Files) (root : Digest) (debt : Digest → ℕ) : Prop :=
  ∀ d, debt d = 0 ∨ (∃ v, P v ∧ debt d ≤ (f.disk.edgesOf c v).count d) ∨
    ∃ tag ∈ f.imageTags, tag ≠ root ∧ debt d = [tag].count d

/-- **No count is zero when the removal lowers it.** The tag of the root is still there, and so are
    the edges of the node at hand; what others have yet to count comes from other tags and other
    nodes. -/
theorem Inv.positive (debt extra : Digest → ℕ) (h : Inv c P f r) (hcov : Covered c P f r.root debt)
    (hacc : ∀ d, (f.disk.graph c).surplus d + debt d + r.credit d =
      (tagCount f.imageTags d + extra d : ℕ))
    (hd : r.decrements = some d) : 1 ≤ f.disk.getRefcount d := by
  have hsum := hacc d
  have hrc : (f.disk.graph c).surplus d
      = (f.disk.getRefcount d : ℤ) - (f.disk.graph c).inDeg d := rfl
  unfold decrements at hd
  unfold Inv at h
  unfold credit at hsum
  cases hs : r.stage with
  | root =>
    rw [hs] at hd h hsum
    dsimp only at h hsum
    cases hd
    have hself : [r.root].count r.root = 1 := by simp
    have := count_le_tagCount h r.root
    rcases hcov r.root with hz | ⟨v, -, hv⟩ | ⟨t, ht, hne, htd⟩
    · omega
    · have := RefGraph.count_le_inDeg (G := f.disk.graph c) (p := v) (v := r.root)
      simp only [graph_out] at this
      omega
    · have := count_add_count_le_tagCount ht h hne r.root
      omega
  | cascade queue deleted visit =>
    rw [hs] at hd h hsum
    cases visit with
    | edges v before left =>
      cases left with
      | nil => cases hd
      | cons child left =>
        cases hd
        obtain ⟨hroot, hsweep⟩ := h
        have hv := hsweep.holds.2
        have hcount : before.count d + 1 ≤ (f.disk.edgesOf c v).count d := by
          rw [hv, count_append, count_cons_self]
          omega
        have htaken : (Visit.edges v before (d :: left)).taken = before := rfl
        simp only [htaken] at hsum
        have := count_le_tagCount hroot d
        have hin := RefGraph.count_le_inDeg (G := f.disk.graph c) (p := v) (v := d)
        simp only [graph_out] at hin
        rcases hcov d with hz | ⟨u, hu, hud⟩ | ⟨t, ht, hne, htd⟩
        · omega
        · -- the node at hand is nobody else's
          have hvu : v ≠ u := by
            rintro rfl
            exact (hsweep.busy v rfl).1 hu
          have hin := RefGraph.count_add_count_le_inDeg (G := f.disk.graph c) (v := d) hvu
          simp only [graph_out] at hin
          omega
        · have := count_add_count_le_tagCount ht hroot hne d
          omega
    | pop | read | removeNode | removeBlob | removeRefcount => cases hd
  | check | untag | done | refused => rw [hs] at hd; cases hd

/-! ## What the others see of a step -/

theorem Steps.lookup (hst : Steps c workloads f r r' f') (hd : r.busy ≠ some d) :
    f'.disk.nodes.lookup d = f.disk.nodes.lookup d := by
  cases hst with
  | shared hs hpos | last hs hzero | decrement => exact congrArg _ (decrementRefcount_nodes _ _)
  | removeNode v edges queue deleted hs =>
    change Finmap.lookup d (f.disk.nodes.erase v) = _
    rw [FileMap.lookup_erase_if, if_neg]
    rintro rfl
    apply hd
    rw [busy, hs]
    rfl
  | _ => rfl

theorem Steps.absent (hst : Steps c workloads f r r' f') (hd : f.disk.hasNode d = false) :
    f'.disk.hasNode d = false := by
  cases hst with
  | shared hs hpos | last hs hzero | decrement => exact (hasNode_setRefcount _ _ _ _).trans hd
  | removeNode v edges queue deleted hs =>
    rw [Bool.eq_false_iff, ne_eq, hasNode_removeNode]
    rintro ⟨-, hk⟩
    rw [hd] at hk
    cases hk
  | _ => exact hd

theorem Steps.mem_imageTags (hst : Steps c workloads f r r' f') (hne : d ≠ r.root)
    (hd : d ∈ f.imageTags) : d ∈ f'.imageTags := by
  cases hst with
  | untag hs => exact Finset.mem_erase.mpr ⟨hne, hd⟩
  | _ => exact hd

end Remove

end Pullrun
