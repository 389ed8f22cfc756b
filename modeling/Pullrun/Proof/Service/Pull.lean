import Pullrun.Proof.Store.Refcount
import Pullrun.Service.Pull

/-!
# What a pull relies on, and what it owes

Between the rename of a node and the last increment of its edges the counts are behind the graph,
and between the tag and the increment of the root they are behind the table.
-/

namespace Pullrun

open MmapStore List Disk

def tagCount (tags : Finset Digest) (d : Digest) : ℕ := if d ∈ tags then 1 else 0

variable {tags : Finset Digest} {root t : Digest}

theorem tagCount_insert (h : root ∉ tags) (d : Digest) :
    tagCount (insert root tags) d = tagCount tags d + [root].count d := by
  simp only [tagCount, count_singleton, Finset.mem_insert]
  by_cases hd : d = root
  · subst hd
    simp [h]
  · have hd' : ¬ (root == d) = true := by simpa using Ne.symm hd
    simp [hd, hd']

theorem tagCount_erase (h : root ∈ tags) (d : Digest) :
    tagCount (tags.erase root) d + [root].count d = tagCount tags d := by
  rw [← tagCount_insert (Finset.notMem_erase root tags), Finset.insert_erase h]

theorem count_le_tagCount (ht : t ∈ tags) (d : Digest) :
    [t].count d ≤ tagCount tags d := by
  have := tagCount_erase ht d
  omega

theorem count_add_count_le_tagCount {u : Digest} (ht : t ∈ tags) (hu : u ∈ tags) (hne : t ≠ u)
    (d : Digest) : [t].count d + [u].count d ≤ tagCount tags d := by
  have herase := tagCount_erase hu d
  have := count_le_tagCount (Finset.mem_erase.mpr ⟨hne, ht⟩) d
  omega

namespace Pull

variable {c : Codec}

def Passed (p : Pull c) (d : Digest) : Prop :=
  match p.stage with
  | .lock => False
  | .put stored call _ => d ∈ stored ∨ (call.stage ≠ .test ∧ call.digest c = d)
  | _ => d ∈ p.image.digests

instance (p : Pull c) (d : Digest) : Decidable (p.Passed d) := by
  unfold Passed
  split <;> infer_instance

def Writing (p : Pull c) (d : Digest) : Prop :=
  match p.stage with
  | .put _ call _ => call.stage = .write ∧ call.digest c = d
  | _ => False

def testing (p : Pull c) : Option Digest :=
  match p.stage with
  | .put _ call _ => if call.stage = .test then some (call.digest c) else none
  | _ => none

def debt (p : Pull c) (d : Digest) : ℕ :=
  match p.stage with
  | .put _ call _ => call.uncounted.count d
  | .count => [p.image.root].count d
  | _ => 0

structure Storing (f : Files) (image : Image c) (stored : List Digest) (call : PutCall)
    (rest : List (DagNode × Bytes)) : Prop where
  encodes : ∀ q ∈ (call.node, call.bytes) :: rest, c.Encodes q.1 q.2
  first : ChildrenFirst c stored ((call.node, call.bytes) :: rest)
  cover : image.digests = stored.reverse ++ call.digest c :: rest.map fun q => c.sha256 q.2
  absent : call.stage = .write → f.disk.hasNode (call.digest c) = false
  fresh : call.stage = .write → call.digest c ∉ stored
  written : ∀ edges, edges ≠ [] → call.stage = .count edges →
    f.disk.hasNode (call.digest c) = true ∧
    ∃ before, f.disk.edgesOf c (call.digest c) = before ++ edges ∧ call.node.edges = before ++ edges

structure Inv (f : Files) (p : Pull c) : Prop where
  stored : ∀ d, p.Passed d → f.disk.hasNode d = true ∨ p.Writing d
  storing : ∀ stored call rest, p.stage = .put stored call rest →
    Storing f p.image stored call rest
  tagged : p.stage = .count → p.image.root ∈ f.imageTags

theorem inv_new (f : Files) (image : Image c) : Inv f (new image) where
  stored _ hd := absurd hd id
  storing _ _ _ hs := by cases hs
  tagged hs := by cases hs

/-! ## The stage after a call -/

theorem debt_next (p : Pull c) (stored : List Digest) (rest : List (DagNode × Bytes)) (d : Digest) :
    debt { p with stage := next stored rest } d = 0 := by
  cases rest <;> rfl

variable {p p' : Pull c} {stored : List Digest} {rest : List (DagNode × Bytes)} {call : PutCall}
  {f f' : Files} {d : Digest}

theorem passed_next (hcover : p.image.digests = stored.reverse ++ rest.map fun q => c.sha256 q.2)
    (d : Digest) : Passed { p with stage := next stored rest } d ↔ d ∈ stored := by
  cases rest with
  | nil =>
    change d ∈ p.image.digests ↔ _
    rw [hcover, map_nil, append_nil, mem_reverse]
  | cons q rest => exact ⟨fun h => h.resolve_right fun h' => h'.1 rfl, .inl⟩

theorem passed_advance
    (hcover : p.image.digests = stored.reverse ++ call.digest c :: rest.map fun q => c.sha256 q.2)
    (d : Digest) : Passed { p with stage := advance c stored call rest } d ↔
      d ∈ stored ∨ (call.stage ≠ .test ∧ call.digest c = d) := by
  unfold advance
  split
  · rename_i hs
    rw [passed_next (by rw [hcover, reverse_cons, append_assoc]; rfl), mem_cons, hs,
      eq_comm (a := d)]
    simp [or_comm]
  · rfl

theorem Inv.next (hstored : ∀ d ∈ stored, f.disk.hasNode d = true)
    (henc : ∀ q ∈ rest, c.Encodes q.1 q.2) (hfirst : ChildrenFirst c stored rest)
    (hcover : p.image.digests = stored.reverse ++ rest.map fun q => c.sha256 q.2) :
    Inv f { p with stage := next stored rest } where
  stored d hd := Or.inl (hstored d ((passed_next hcover d).mp hd))
  storing stored' call rest' hs := by
    cases rest with
    | nil => cases hs
    | cons q rest =>
      cases hs
      exact ⟨henc, hfirst, hcover, fun h => (by cases h), fun h => (by cases h),
        fun _ _ h => by cases h⟩
  tagged hs := by cases rest <;> cases hs

theorem Inv.advance (hstored : ∀ d ∈ stored, f.disk.hasNode d = true)
    (hcall : call.stage = .test ∨ call.stage = .write ∨ f.disk.hasNode (call.digest c) = true)
    (hs : Storing f p.image stored call rest) :
    Inv f { p with stage := advance c stored call rest } := by
  unfold Pull.advance
  split
  · rename_i hdone
    refine Inv.next (fun d hd => ?_) (fun q hq => hs.encodes q (mem_cons_of_mem _ hq))
      hs.first.2 ?_
    · rcases mem_cons.mp hd with rfl | hd
      · rw [hdone] at hcall
        exact (hcall.resolve_left (by simp)).resolve_left (by simp)
      · exact hstored d hd
    · rw [hs.cover, reverse_cons, append_assoc]
      rfl
  · refine ⟨fun d hd => ?_, fun _ _ _ he => ?_, fun h => by cases h⟩
    · rcases hd with hd | ⟨hne, rfl⟩
      · exact .inl (hstored d hd)
      · rcases hcall with h | h | h
        · exact absurd h hne
        · exact .inr ⟨h, rfl⟩
        · exact .inl h
    · cases he
      exact hs

/-! ## One step -/

section

variable (h : Inv f p)
include h

theorem Inv.stored_of_not_writing (hs : p.stage = .put stored call rest)
    (hw : call.stage ≠ .write) (hd : d ∈ stored) : f.disk.hasNode d = true := by
  refine (h.stored d ?_).resolve_right ?_
  · rw [Passed, hs]
    exact .inl hd
  · rw [Writing, hs]
    exact fun h' => hw h'.1

theorem Inv.stored_writing (hs : p.stage = .put stored call rest) (hd : d ∈ stored) :
    (f.disk.writeNode (call.digest c) call.bytes).hasNode d = true := by
  rw [hasNode_writeNode]
  have hp : p.Passed d := by
    rw [Passed, hs]
    exact .inl hd
  rcases h.stored d hp with hk | hw
  · exact .inr hk
  · rw [Writing, hs] at hw
    exact .inl hw.2.symm

theorem Inv.steps (hst : Steps f p p' f') : Inv f' p' := by
  cases hst with
  | lock opId ops hs =>
    exact Inv.next (p := { p with opId }) (by simp) p.image.encodes p.image.childrenFirst rfl
  | put stored call call' rest k hs hcall =>
    have hstoring := h.storing stored call rest hs
    cases hcall with
    | found ht hk =>
      refine Inv.advance (fun d hd => ?_) (.inr (.inr hk))
        ⟨hstoring.encodes, hstoring.first, hstoring.cover, fun hw => (by cases hw),
          fun hw => (by cases hw), fun edges hne hc => ?_⟩
      · exact h.stored_of_not_writing hs (by rw [ht]; simp) hd
      · cases hc
        exact absurd rfl hne
    | absent ht hk =>
      have hstored : ∀ d ∈ stored, f.disk.hasNode d = true :=
        fun d hd => h.stored_of_not_writing hs (by rw [ht]; simp) hd
      refine Inv.advance hstored (.inr (.inl rfl))
        ⟨hstoring.encodes, hstoring.first, hstoring.cover, fun _ => hk, fun _ hd => ?_,
          fun _ _ hc => by cases hc⟩
      rw [show f.disk.hasNode (call.digest c) = true from hstored _ hd] at hk
      cases hk
    | write hw =>
      have hhas : (f.disk.writeNode (call.digest c) call.bytes).hasNode (call.digest c) = true :=
        (hasNode_writeNode _ _ _ _).mpr (.inl rfl)
      have he : c.Encodes call.node call.bytes := hstoring.encodes _ mem_cons_self
      refine Inv.advance (fun d hd => h.stored_writing hs hd) (.inr (.inr hhas))
        ⟨hstoring.encodes, hstoring.first, hstoring.cover, fun hc => (by cases hc),
          fun hc => (by cases hc), fun edges _ hc => ⟨hhas, [], ?_⟩⟩
      injection hc with hc
      subst hc
      refine ⟨?_, rfl⟩
      change (f.disk.writeNode (call.digest c) call.bytes).edgesOf c (call.digest c) = _
      rw [edgesOf_writeNode c _ _ _ _ he.2, if_pos rfl]
      rfl
    | count edge edges hc =>
      obtain ⟨hhas, before, hout, hedges⟩ := hstoring.written _ (by simp) hc
      have hn : (f.disk.incrementRefcount edge).2.nodes = f.disk.nodes := setRefcount_nodes _ _ _
      have hhas' := (hasNode_incrementRefcount f.disk edge (call.digest c)).trans hhas
      refine Inv.advance (fun d hd => ?_) (.inr (.inr hhas'))
        ⟨hstoring.encodes, hstoring.first, hstoring.cover, fun hw => (by cases hw),
          fun hw => (by cases hw), fun edges' _ hc' => ⟨hhas', before ++ [edge], ?_⟩⟩
      · exact (hasNode_incrementRefcount _ _ _).trans
          (h.stored_of_not_writing hs (by rw [hc]; simp) hd)
      · injection hc' with hc'
        subst hc'
        change edgesOf c (f.disk.incrementRefcount edge).2 (call.digest c) = _ ∧ _
        rw [edgesOf_congr hn, hout, append_assoc]
        exact ⟨rfl, hedges⟩
  | tag hs =>
    have hstored := h.stored
    simp only [Passed, Writing, hs, or_false] at hstored
    exact ⟨fun d hd => .inl (hstored d hd), fun _ _ _ he => (by cases he),
      fun _ => Finset.mem_insert_self _ _⟩
  | count hs =>
    have hstored := h.stored
    simp only [Passed, Writing, hs, or_false] at hstored
    exact ⟨fun d hd => .inl ((hasNode_incrementRefcount _ _ _).trans (hstored d hd)),
      fun _ _ _ he => (by cases he), fun he => by cases he⟩
  | unlock ops hs =>
    have hstored := h.stored
    simp only [Passed, Writing, hs, or_false] at hstored
    exact ⟨fun d hd => .inl (hstored d hd), fun _ _ _ he => (by cases he), fun he => by cases he⟩

/-- **A pull keeps surplus and debt in step with the tags**, if its root is not tagged when it
    comes to tag it: the table has a key once, and the count is raised all the same. -/
theorem Inv.account (hst : Steps f p p' f')
    (htag : p.stage = .tag → p.image.root ∉ f.imageTags) (d : Digest) :
    (f'.disk.graph c).surplus d + p'.debt d - tagCount f'.imageTags d
      = (f.disk.graph c).surplus d + p.debt d - tagCount f.imageTags d := by
  cases hst with
  | lock opId ops hs =>
    rw [debt_next { p with opId }, debt, hs]
    exact congrArg (· + _ - _) (surplus_congr rfl rfl d)
  | put stored call call' rest k hs hcall =>
    have hstoring := h.storing stored call rest hs
    have hdebt : p.debt d = call.uncounted.count d := by rw [debt, hs]
    have hnext : debt { p with stage := Pull.advance c stored call' rest } d = call'.uncounted.count d := by
      unfold Pull.advance
      split
      · rename_i hs
        rw [debt_next, PutCall.uncounted, hs]
        rfl
      · rfl
    rw [hnext, hdebt]
    cases hcall with
    | found ht hk | absent ht hk => simp only [PutCall.uncounted, ht]
    | write hw =>
      have he : c.Encodes call.node call.bytes := hstoring.encodes _ mem_cons_self
      simp only [PutCall.uncounted, hw, count_nil,
        surplus_writeNode he.2 (hstoring.absent hw)]
      omega
    | count edge edges hc =>
      have hcons : (edge :: edges).count d = edges.count d + [edge].count d := by
        rw [count_cons, count_singleton]
      simp only [PutCall.uncounted, hc, surplus_incrementRefcount, hcons]
      omega
  | tag hs =>
    have hdebt : p.debt d = 0 := by rw [debt, hs]
    change (f.disk.graph c).surplus d + (([p.image.root].count d : ℕ) : ℤ)
      - tagCount (insert p.image.root f.imageTags) d = _
    rw [hdebt, tagCount_insert (htag hs)]
    omega
  | count hs =>
    have hdebt : p.debt d = [p.image.root].count d := by rw [debt, hs]
    change ((f.disk.incrementRefcount p.image.root).2.graph c).surplus d + ((0 : ℕ) : ℤ)
      - tagCount f.imageTags d = _
    rw [surplus_incrementRefcount, hdebt]
    omega
  | unlock ops hs =>
    have hdebt : p.debt d = 0 := by rw [debt, hs]
    rw [hdebt]
    exact congrArg (· + _ - _) (surplus_congr rfl rfl d)

theorem Inv.valid (hst : Steps f p p' f') (hval : f.disk.Valid c) : f'.disk.Valid c := by
  cases hst with
  | put stored call call' rest k hs hcall =>
    cases hcall with
    | found => exact hval
    | absent => exact hval
    | write =>
      have he := (h.storing stored call rest hs).encodes _ mem_cons_self
      exact hval.writeNode _ he.2
    | count => exact hval.of_nodes_eq (setRefcount_nodes _ _ _)
  | count hs => exact hval.of_nodes_eq (setRefcount_nodes _ _ _)
  | _ => exact hval

theorem Inv.debt_covered (d : Digest) :
    p.debt d = 0 ∨ (∃ v, p.Passed v ∧ p.debt d ≤ (f.disk.edgesOf c v).count d) ∨
      (p.image.root ∈ f.imageTags ∧ p.debt d = [p.image.root].count d) := by
  unfold debt
  cases hs : p.stage with
  | put stored call rest =>
    dsimp only
    cases hc : call.stage with
    | count edges =>
      rw [PutCall.uncounted, hc]
      by_cases hne : edges = []
      · exact .inl (by rw [hne]; rfl)
      · obtain ⟨-, before, hout, -⟩ := (h.storing stored call rest hs).written edges hne hc
        refine Or.inr (.inl ⟨call.digest c, ?_, ?_⟩)
        · rw [Passed, hs]
          exact .inr ⟨by rw [hc]; simp, rfl⟩
        · rw [hout, count_append]
          exact Nat.le_add_left _ _
    | test | write => rw [PutCall.uncounted, hc]; exact .inl rfl
  | count => exact .inr (.inr ⟨h.tagged hs, rfl⟩)
  | lock | tag | unlock | done => exact .inl rfl

/-! ## What the others see of a step -/

theorem Inv.passed_steps (hst : Steps f p p' f') (d : Digest) :
    p'.Passed d ↔ p.Passed d ∨ p.testing = some d := by
  cases hst with
  | lock opId ops hs =>
    refine Iff.trans (passed_next (p := { p with opId }) rfl d) ?_
    rw [Passed, testing, hs]
    simp
  | put stored call call' rest k hs hcall =>
    have hcover := (h.storing stored call rest hs).cover
    have hbefore : p.Passed d ∨ p.testing = some d ↔ (d ∈ stored ∨ (call.stage ≠ .test ∧
        call.digest c = d)) ∨ (call.stage = .test ∧ call.digest c = d) := by
      rw [Passed, testing, hs]
      simp
    rw [hbefore]
    cases hcall with
    | found ht hk | absent ht hk =>
      refine Iff.trans (passed_advance ?_ d) ?_
      · exact hcover
      · simp [ht, PutCall.digest]
    | write hw | count edge edges hw =>
      refine Iff.trans (passed_advance ?_ d) ?_
      · exact hcover
      · simp [hw, PutCall.digest]
  | tag hs | count hs | unlock ops hs =>
    rw [Passed, Passed, testing, hs]
    simp

theorem Inv.passed_of_increments (hd : p.increments = some d) : p.Passed d := by
  unfold increments at hd
  unfold Passed
  cases hs : p.stage with
  | put stored call rest =>
    rw [hs] at hd
    dsimp only at hd ⊢
    have hstoring := h.storing stored call rest hs
    cases hc : call.stage with
    | count edges =>
      rw [PutCall.uncounted, hc] at hd
      have hne : edges ≠ [] := by
        rintro rfl
        cases hd
      obtain ⟨-, before, -, hedges⟩ := hstoring.written edges hne hc
      refine Or.inl (hstoring.first.1 d ?_)
      rw [hedges]
      exact mem_append_right _ (mem_of_head? hd)
    | test | write => rw [PutCall.uncounted, hc] at hd; cases hd
  | count =>
    rw [hs] at hd
    cases hd
    exact p.image.root_mem_digests
  | lock | tag | unlock | done => rw [hs] at hd; cases hd

end

theorem passed_of_writing (hd : p.Writing d) : p.Passed d := by
  unfold Writing at hd
  unfold Passed
  cases hs : p.stage with
  | put stored call rest =>
    rw [hs] at hd
    exact .inr ⟨by rw [hd.1]; simp, hd.2⟩
  | lock | tag | count | unlock | done => rw [hs] at hd; exact absurd hd id

theorem Steps.lookup (hst : Steps f p p' f') (hd : ¬ p.Writing d) :
    f'.disk.nodes.lookup d = f.disk.nodes.lookup d := by
  cases hst with
  | put stored call call' rest k hs hcall =>
    cases hcall with
    | found | absent => rfl
    | write hw =>
      change Finmap.lookup d (f.disk.nodes.insert (call.digest c) call.bytes) = _
      rw [FileMap.lookup_insert_if, if_neg]
      rintro rfl
      apply hd
      rw [Writing, hs]
      exact ⟨hw, rfl⟩
    | count edge edges hc =>
      exact congrArg _ (setRefcount_nodes _ _ _)
  | count hs => exact congrArg _ (setRefcount_nodes _ _ _)
  | lock | tag | unlock => rfl

theorem Steps.getRefcount (hst : Steps f p p' f') (hd : p.increments ≠ some d) :
    f'.disk.getRefcount d = f.disk.getRefcount d := by
  have hother : ∀ edge, edge ≠ d → (f.disk.incrementRefcount edge).2.getRefcount d
      = f.disk.getRefcount d := by
    intro edge hne
    refine (getRefcount_setRefcount _ _ _ _).trans (if_neg (Ne.symm hne))
  cases hst with
  | put stored call call' rest k hs hcall =>
    cases hcall with
    | found | absent | write => rfl
    | count edge edges hc =>
      refine hother edge ?_
      rintro rfl
      apply hd
      rw [increments, hs]
      dsimp only
      rw [PutCall.uncounted, hc]
      rfl
  | count hs =>
    refine hother _ ?_
    rintro rfl
    apply hd
    rw [increments, hs]
  | lock | tag | unlock => rfl

theorem Steps.mem_imageTags (hst : Steps f p p' f') (hd : d ∈ f.imageTags) : d ∈ f'.imageTags := by
  cases hst with
  | tag hs => exact Finset.mem_insert_of_mem hd
  | _ => exact hd

end Pull

end Pullrun
