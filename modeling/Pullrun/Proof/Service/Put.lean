import Pullrun.Proof.Store.Refcount
import Pullrun.Service.Put

/-!
# Concurrent calls of `put`

Two calls for one node can both find its file missing.
-/

namespace Pullrun

open MmapStore Sample List Option Schedule Disk

variable {c : Codec}

/-! ## What is stored

The node files are the same whatever the order of the calls: those that were there, and one for
each call. -/

structure Holds (c : Codec) (k₀ : Disk) (nodes : List (DagNode × Bytes)) (k : Disk) : Prop where
  kept : ∀ d b, k₀.nodes.lookup d = some b → k.nodes.lookup d = some b
  origin : ∀ d b, k.nodes.lookup d = some b →
    k₀.nodes.lookup d = some b ∨ ∃ p ∈ nodes, p.2 = b ∧ c.sha256 b = d
  stored : ∀ p ∈ nodes, k.hasNode (c.sha256 p.2) = true

variable {nodes : List (DagNode × Bytes)} {p : DagNode × Bytes}

theorem eq_of_sha256_eq (henc : ∀ p ∈ nodes, c.Encodes p.1 p.2)
    (hfree : c.CollisionFreeOn (nodes.map Prod.fst)) {q : DagNode × Bytes} (hp : p ∈ nodes)
    (hq : q ∈ nodes) (h : c.sha256 p.2 = c.sha256 q.2) : p = q := by
  have hnode : p.1 = q.1 := by
    apply hfree _ (mem_map_of_mem hp) _ (mem_map_of_mem hq)
    rw [(henc p hp).digest?, (henc q hq).digest?, h]
  have hbytes := (henc p hp).1
  rw [hnode, (henc q hq).1] at hbytes
  exact Prod.ext hnode (Except.ok.inj hbytes).symm

theorem Holds.nodes_eq {k₀ k k' : Disk} (henc : ∀ p ∈ nodes, c.Encodes p.1 p.2)
    (hfree : c.CollisionFreeOn (nodes.map Prod.fst)) (h : Holds c k₀ nodes k)
    (h' : Holds c k₀ nodes k') : k.nodes = k'.nodes := by
  have hsub : ∀ k k', Holds c k₀ nodes k → Holds c k₀ nodes k' → ∀ d b,
      k.nodes.lookup d = some b → k'.nodes.lookup d = some b := by
    intro k k' h h' d b hb
    rcases h.origin d b hb with h0 | ⟨p, hp, rfl, hd⟩
    · exact h'.kept d b h0
    · have hs := h'.stored p hp
      rw [hd] at hs
      obtain ⟨b', hb'⟩ := isSome_iff_exists.mp hs
      rcases h'.origin d b' hb' with h0 | ⟨q, hq, rfl, hd'⟩
      · rw [h.kept d b' h0] at hb
        rw [hb', hb]
      · rw [hb', eq_of_sha256_eq henc hfree hp hq (hd.trans hd'.symm)]
  refine Finmap.ext_lookup fun d => ext fun b => ?_
  exact ⟨hsub k k' h h' d b, hsub k' k h' h d b⟩

theorem Holds.perm {k₀ k : Disk} {nodes' : List (DagNode × Bytes)} (h : Holds c k₀ nodes k)
    (hperm : nodes.Perm nodes') : Holds c k₀ nodes' k where
  kept := h.kept
  origin d b hb := by
    simp only [← hperm.mem_iff]
    exact h.origin d b hb
  stored p hp := h.stored p (hperm.mem_iff.mpr hp)

theorem put_holds {s : MmapStore} (he : c.Encodes p.1 p.2) :
    Holds c s.disk [p] (s.put c p.1).2.disk := by
  rw [put, putBlocking_disk he.1]
  dsimp only
  by_cases hs : s.disk.hasNode (c.sha256 p.2) = true
  · rw [if_pos hs]
    refine ⟨fun _ _ h => h, fun _ _ h => .inl h, ?_⟩
    intro q hq
    rw [mem_singleton.mp hq]
    exact hs
  · rw [if_neg hs]
    have hnone : s.disk.nodes.lookup (c.sha256 p.2) = none := not_isSome_iff_eq_none.mp hs
    have hlookup : ∀ d, (incrementEdges (s.disk.writeNode (c.sha256 p.2) p.2) p.1.edges).nodes.lookup d
        = if d = c.sha256 p.2 then some p.2 else s.disk.nodes.lookup d := by
      intro d
      rw [incrementEdges_nodes]
      exact FileMap.lookup_insert_if _ _ _ _
    refine ⟨fun d b hb => ?_, fun d b hb => ?_, fun q hq => ?_⟩
    · rw [hlookup, if_neg]
      · exact hb
      · intro hd
        rw [hd, hnone] at hb
        cases hb
    · rw [hlookup] at hb
      split at hb
      · rename_i hd
        injection hb with hb
        exact .inr ⟨p, mem_singleton_self p, hb, by rw [← hb, hd]⟩
      · exact .inl hb
    · rw [mem_singleton.mp hq]
      change (Finmap.lookup _ _).isSome = true
      rw [hlookup, if_pos rfl]
      rfl

theorem Holds.trans {k₀ k1 k2 : Disk} (h1 : Holds c k₀ [p] k1) (h2 : Holds c k1 nodes k2) :
    Holds c k₀ (p :: nodes) k2 where
  kept d b hb := h2.kept d b (h1.kept d b hb)
  origin d b hb := by
    rcases h2.origin d b hb with hb1 | ⟨q, hq, hqb, hd⟩
    · rcases h1.origin d b hb1 with hb0 | ⟨q, hq, hqb, hd⟩
      · exact .inl hb0
      · exact .inr ⟨q, mem_cons.mpr (.inl (mem_singleton.mp hq)), hqb, hd⟩
    · exact .inr ⟨q, mem_cons_of_mem _ hq, hqb, hd⟩
  stored q hq := by
    rcases mem_cons.mp hq with rfl | hq
    · obtain ⟨b, hb⟩ := isSome_iff_exists.mp (h1.stored q (mem_singleton_self q))
      exact isSome_iff_exists.mpr ⟨b, h2.kept _ b hb⟩
    · exact h2.stored q hq

theorem convert_nodes_spec (s : MmapStore) (henc : ∀ p ∈ nodes, c.Encodes p.1 p.2) :
    Holds c s.disk nodes (s.convert c nodes).disk ∧
      ∀ d, ((s.convert c nodes).disk.graph c).surplus d = (s.disk.graph c).surplus d := by
  induction nodes generalizing s with
  | nil => exact ⟨⟨fun _ _ h => h, fun _ _ h => .inl h, by simp⟩, fun _ => rfl⟩
  | cons p nodes ih =>
    have he : c.Encodes p.1 p.2 := henc p mem_cons_self
    obtain ⟨hholds, hsurplus⟩ := ih (s.put c p.1).2 fun q hq => henc q (mem_cons_of_mem _ hq)
    refine ⟨(put_holds he).trans hholds, fun d => (hsurplus d).trans ?_⟩
    rw [put, putBlocking_disk he.1]
    dsimp only
    split
    · rfl
    · rename_i hs
      rw [graph_writeNode_incrementEdges he.2]
      exact RefGraph.surplus_add (fun hm => hs (mem_graph_stored.mp hm)) d

namespace Puts

/-! ## What holds between two steps -/

structure Running (c : Codec) (k₀ : Disk) (nodes : List (DagNode × Bytes)) (w : Puts) : Prop where
  calls : w.calls.map (fun call => (call.node, call.bytes)) = nodes
  kept : ∀ d b, k₀.nodes.lookup d = some b → w.disk.nodes.lookup d = some b
  origin : ∀ d b, w.disk.nodes.lookup d = some b →
    k₀.nodes.lookup d = some b ∨ ∃ p ∈ nodes, p.2 = b ∧ c.sha256 b = d
  tested : ∀ call ∈ w.calls, call.stage = .write → k₀.nodes.lookup (call.digest c) = none
  passed : ∀ call ∈ w.calls, ∀ edges, call.stage = .count edges →
    w.disk.hasNode (call.digest c) = true

theorem running_start (c : Codec) (k : Disk) (nodes : List (DagNode × Bytes)) :
    Running c k nodes (start k nodes) := by
  have hnew : ∀ call ∈ (start k nodes).calls, call.stage = .test := by
    intro call hcall
    obtain ⟨p, -, rfl⟩ := mem_map.mp hcall
    rfl
  refine ⟨?_, fun _ _ h => h, fun _ _ h => .inl h, fun call hcall hs => ?_,
    fun call hcall es hs => ?_⟩
  · simp [start, PutCall.new, Function.comp_def]
  · rw [hnew call hcall] at hs
    cases hs
  · rw [hnew call hcall] at hs
    cases hs

variable {k₀ k : Disk} {nodes : List (DagNode × Bytes)} {w w' : Puts} {call : PutCall}
  {calls : List PutCall} {i : ℕ}

theorem Running.mem (h : Running c k₀ nodes w) (hc : call ∈ w.calls) :
    (call.node, call.bytes) ∈ nodes := by
  rw [← h.calls]
  exact mem_map_of_mem (f := fun call : PutCall => (call.node, call.bytes)) hc

theorem map_set (h : calls[i]? = some call) (stage : PutStage) :
    (calls.set i { call with stage }).map (fun call => (call.node, call.bytes))
      = calls.map (fun call => (call.node, call.bytes)) := by
  obtain ⟨hi, rfl⟩ := List.getElem?_eq_some_iff.mp h
  have hi' : i < (calls.map fun call => (call.node, call.bytes)).length := by
    rwa [length_map]
  have hsame : (calls[i].node, calls[i].bytes)
      = (calls.map fun call => (call.node, call.bytes))[i] := by rw [getElem_map]
  rw [map_set]
  change (calls.map fun call => (call.node, call.bytes)).set i (calls[i].node, calls[i].bytes) = _
  rw [hsame, set_getElem_self hi']

theorem forall_mem_set {P : PutCall → Prop} {stage : PutStage} (hall : ∀ other ∈ calls, P other)
    (hnew : P { call with stage }) : ∀ other ∈ calls.set i { call with stage }, P other := by
  intro other hother
  rcases mem_or_eq_of_mem_set hother with hother | rfl
  · exact hall other hother
  · exact hnew

theorem Running.step (h : Running c k₀ nodes w) (hstep : Puts.step c w i = some w') :
    Running c k₀ nodes w' := by
  obtain ⟨call, call', hcall, hcalls, hsteps⟩ := step_eq_some hstep
  have hmem : call ∈ w.calls := mem_of_getElem? hcall
  cases w' with
  | mk k' calls' =>
  dsimp only at hcalls hsteps
  subst hcalls
  cases hsteps with
  | found hs hk =>
    exact ⟨(map_set hcall _).trans h.calls, h.kept, h.origin,
      forall_mem_set h.tested (fun hw => by cases hw), forall_mem_set h.passed fun _ _ => hk⟩
  | absent hs hk =>
    refine ⟨(map_set hcall _).trans h.calls, h.kept, h.origin, forall_mem_set h.tested fun _ => ?_,
      forall_mem_set h.passed (fun _ hc => by cases hc)⟩
    -- what was there at the start is there now
    cases hk0 : k₀.nodes.lookup (call.digest c) with
    | none => exact hk0
    | some b =>
      rw [hasNode, h.kept _ b hk0] at hk
      cases hk
  | write hs =>
    have hlookup : ∀ d, (w.disk.writeNode (call.digest c) call.bytes).nodes.lookup d
        = if d = call.digest c then some call.bytes else w.disk.nodes.lookup d :=
      fun d => FileMap.lookup_insert_if _ _ _ _
    refine ⟨(map_set hcall _).trans h.calls, ?_, ?_,
      forall_mem_set h.tested (fun hw => by cases hw), ?_⟩
    · intro d b hb
      rw [hlookup, if_neg]
      · exact h.kept d b hb
      · intro hd
        rw [hd, h.tested call hmem hs] at hb
        cases hb
    · intro d b hb
      rw [hlookup] at hb
      split at hb
      · rename_i hd
        injection hb with hb
        exact .inr ⟨_, h.mem hmem, hb, by rw [← hb, hd]; rfl⟩
      · exact h.origin d b hb
    · simp only [hasNode_writeNode]
      exact forall_mem_set (fun other hother edges hc => .inr (h.passed other hother edges hc))
        fun _ _ => .inl rfl
  | count edge edges hs =>
    have hn : (w.disk.incrementRefcount edge).2.nodes = w.disk.nodes := setRefcount_nodes _ _ _
    refine ⟨(map_set hcall _).trans h.calls, ?_, ?_,
      forall_mem_set h.tested (fun hw => by cases hw), ?_⟩
    · rw [hn]
      exact h.kept
    · rw [hn]
      exact h.origin
    · simp only [hasNode, hn]
      exact forall_mem_set h.passed fun _ _ => h.passed call hmem _ hs

/-! ## The gauge -/

def uncounted (calls : List PutCall) (d : Digest) : ℤ :=
  (calls.map fun call => (call.uncounted.count d : ℤ)).sum

theorem uncounted_set (h : calls[i]? = some call) (call' : PutCall) (d : Digest) :
    uncounted (calls.set i call') d
      = uncounted calls d - call.uncounted.count d + call'.uncounted.count d := by
  obtain ⟨hi, rfl⟩ := List.getElem?_eq_some_iff.mp h
  have hi' : i < (calls.map fun call => (call.uncounted.count d : ℤ)).length := by
    rwa [length_map]
  rw [uncounted, List.map_set, sum_set', dif_pos hi', getElem_map]
  change uncounted calls d + _ = _
  omega

/-- What the counts hold, or are about to hold, beyond the in-degrees. -/
def gauge (c : Codec) (w : Puts) (d : Digest) : ℤ :=
  (w.disk.graph c).surplus d + uncounted w.calls d

/-- The edges of the node whose file the `i`-th call is about to rename over another. -/
def overwritten (c : Codec) (w : Puts) (i : ℕ) : List Digest :=
  match w.calls[i]? with
  | none => []
  | some call =>
    if call.stage = .write ∧ w.disk.hasNode (call.digest c) = true then call.node.edges else []

def WritesNew (c : Codec) (w : Puts) (i : ℕ) : Prop := w.overwritten c i = []

instance (c : Codec) (w : Puts) (i : ℕ) : Decidable (WritesNew c w i) :=
  inferInstanceAs (Decidable (_ = []))

theorem writeNode_same {d : Digest} {b : Bytes} (h : k.nodes.lookup d = some b) :
    k.writeNode d b = k := by
  have hn : k.nodes.insert d b = k.nodes := by
    refine Finmap.ext_lookup fun e => ?_
    rw [FileMap.lookup_insert_if]
    split
    · rename_i he
      rw [he, h]
    · rfl
  rw [writeNode, hn]

theorem gauge_step (henc : ∀ p ∈ nodes, c.Encodes p.1 p.2)
    (hfree : c.CollisionFreeOn (nodes.map Prod.fst)) (h : Running c k₀ nodes w)
    (hstep : step c w i = some w') (d : Digest) :
    gauge c w' d = gauge c w d + (w.overwritten c i).count d := by
  obtain ⟨call, call', hcall, hcalls, hsteps⟩ := step_eq_some hstep
  have hmem : call ∈ w.calls := mem_of_getElem? hcall
  cases w' with
  | mk k' calls' =>
  dsimp only at hcalls hsteps
  subst hcalls
  simp only [gauge, uncounted_set hcall, overwritten, hcall]
  cases hsteps with
  | found hs hk | absent hs hk =>
    simp only [PutCall.uncounted, hs, reduceCtorEq, false_and, if_false, count_nil]
    omega
  | write hs =>
    have he : c.Encodes call.node call.bytes := henc _ (h.mem hmem)
    simp only [PutCall.uncounted, hs, true_and, count_nil]
    cases hk : w.disk.hasNode (call.digest c) with
    | false =>
      rw [surplus_writeNode he.2 hk, if_neg Bool.false_ne_true, count_nil]
      omega
    | true =>
      -- the file that is there is the work of another call for the same node
      obtain ⟨b, hb⟩ := isSome_iff_exists.mp hk
      have hsame : b = call.bytes := by
        rcases h.origin _ b hb with h0 | ⟨p, hp, rfl, hd⟩
        · rw [h.tested call hmem hs] at h0
          cases h0
        · exact congrArg Prod.snd (eq_of_sha256_eq henc hfree hp (h.mem hmem) hd)
      rw [hsame] at hb
      rw [writeNode_same hb, if_pos rfl]
      omega
  | count edge edges hs =>
    have hcons : (edge :: edges).count d = edges.count d + [edge].count d := by
      rw [count_cons, count_singleton]
    simp only [PutCall.uncounted, hs, reduceCtorEq, false_and, if_false, count_nil,
      surplus_incrementRefcount, hcons]
    omega

theorem meets_iff_gauge_eq {schedule : List ℕ} (henc : ∀ p ∈ nodes, c.Encodes p.1 p.2)
    (hfree : c.CollisionFreeOn (nodes.map Prod.fst))
    (hrun : run (step c) (start k nodes) schedule = some w) :
    Meets (step c) (WritesNew c) (start k nodes) schedule
      ↔ gauge c w = gauge c (start k nodes) := by
  refine meets_iff_gauge (Running c k nodes) (WritesNew c) (gauge c)
    (fun _ _ _ h hst => h.step hst) ?_ ?_ (running_start c k nodes) hrun
  · intro w i w' h hok hst
    funext d
    rw [gauge_step henc hfree h hst d, hok, count_nil, Nat.cast_zero, add_zero]
  · intro w i w' h hbad hst
    obtain ⟨e, he⟩ := exists_mem_of_ne_nil _ hbad
    refine Pi.lt_def.mpr ⟨fun d => ?_, e, ?_⟩
    · show gauge c w d ≤ gauge c w' d
      rw [gauge_step henc hfree h hst d]
      omega
    · have := count_pos_iff.mpr he
      rw [gauge_step henc hfree h hst e]
      omega

def Finished (w : Puts) : Prop := ∀ call ∈ w.calls, call.stage = .count []

instance (w : Puts) : Decidable w.Finished := inferInstanceAs (Decidable (∀ call ∈ w.calls, _))

theorem Running.holds (h : Running c k₀ nodes w) (hdone : w.Finished) :
    Holds c k₀ nodes w.disk where
  kept := h.kept
  origin := h.origin
  stored p hp := by
    rw [← h.calls] at hp
    obtain ⟨call, hcall, rfl⟩ := mem_map.mp hp
    exact h.passed call hcall [] (hdone call hcall)

theorem gauge_finished (hdone : w.Finished) (d : Digest) :
    gauge c w d = (w.disk.graph c).surplus d := by
  have hzero : uncounted w.calls d = 0 := by
    refine sum_eq_zero fun x hx => ?_
    obtain ⟨call, hcall, rfl⟩ := mem_map.mp hx
    rw [PutCall.uncounted, hdone call hcall]
    rfl
  rw [gauge, hzero, add_zero]

theorem gauge_start (k : Disk) (nodes : List (DagNode × Bytes)) (d : Digest) :
    gauge c (start k nodes) d = (k.graph c).surplus d := by
  have hzero : uncounted (start k nodes).calls d = 0 := by
    refine sum_eq_zero fun x hx => ?_
    obtain ⟨call, hcall, rfl⟩ := mem_map.mp hx
    obtain ⟨p, -, rfl⟩ := mem_map.mp hcall
    rfl
  rw [gauge, hzero, add_zero]
  rfl

/-- **Concurrent calls of `put` count like calls one after the other exactly if every rename of a node
with edges finds no file.** -/
theorem puts_sequential_iff {c : Codec} {k : Disk} {nodes : List (DagNode × Bytes)}
    {schedule : List ℕ} {w : Puts} (m₁ m₂ : Option ℕ) (henc : ∀ p ∈ nodes, c.Encodes p.1 p.2)
    (hfree : c.CollisionFreeOn (nodes.map Prod.fst))
    (hrun : Schedule.run (step c) (start k nodes) schedule = some w) (hdone : w.Finished) :
    ((∃ order, order.Perm nodes ∧ ∀ d, w.disk.getRefcount d
        = ((MmapStore.openOn k m₁ m₂).convert c order).disk.getRefcount d)
      ↔ Schedule.Meets (step c) (WritesNew c) (start k nodes) schedule) ∧
    ∀ weight, (k.graph c).Balanced weight → ((w.disk.graph c).Balanced weight
      ↔ Schedule.Meets (step c) (WritesNew c) (start k nodes) schedule) := by
  have hrunning : Running c k nodes w :=
    run_inv' (Running c k nodes) (fun _ _ _ h hst => h.step hst)
      (running_start c k nodes) hrun
  have hmeets : Meets (step c) (WritesNew c) (start k nodes) schedule
      ↔ ∀ d, (w.disk.graph c).surplus d = (k.graph c).surplus d := by
    rw [meets_iff_gauge_eq henc hfree hrun, funext_iff]
    simp only [gauge_finished hdone, gauge_start]
  -- whatever their order, calls one after the other store the same files
  have horder : ∀ order, order.Perm nodes →
      ((∀ d, w.disk.getRefcount d
        = ((openOn k m₁ m₂).convert c order).disk.getRefcount d)
      ↔ ∀ d, (w.disk.graph c).surplus d = (k.graph c).surplus d) := by
    intro order hperm
    have henc' : ∀ p ∈ order, c.Encodes p.1 p.2 := fun p hp => henc p (hperm.mem_iff.mp hp)
    obtain ⟨hholds, hsurplus⟩ := convert_nodes_spec (openOn k m₁ m₂) henc'
    have hn := (hrunning.holds hdone).nodes_eq henc hfree (hholds.perm hperm)
    refine forall_congr' fun d => ?_
    rw [← show _ = (k.graph c).surplus d from hsurplus d, RefGraph.surplus, RefGraph.surplus,
      inDeg_congr hn, graph_rc, graph_rc]
    omega
  refine ⟨⟨?_, fun hm => ⟨nodes, Perm.refl _, (horder nodes (Perm.refl _)).mpr ?_⟩⟩, ?_⟩
  · rintro ⟨order, hperm, hcounts⟩
    exact hmeets.mpr ((horder order hperm).mp hcounts)
  · exact hmeets.mp hm
  · intro weight hb
    rw [RefGraph.balanced_iff_surplus] at hb ⊢
    rw [hmeets]
    simp only [hb]

def twice : List (DagNode × Bytes) :=
  [(Sample.imageA, Codec.archive Sample.imageA), (Sample.imageA, Codec.archive Sample.imageA)]

theorem overlapping_puts_overcount :
    ∃ w, Schedule.run (step Sample.codec) (start .empty twice) [0, 1, 0, 1, 0, 1] = some w ∧
      w.Finished ∧ w.disk.getRefcount Sample.leafD = 2 ∧
      ∀ order, order.Perm twice → ((MmapStore.openOn .empty none none).convert Sample.codec
        order).disk.getRefcount Sample.leafD = 1 := by
  obtain ⟨w, hrun, hdone, hcount⟩ : ∃ w, run (step codec) (start .empty twice)
      [0, 1, 0, 1, 0, 1] = some w ∧ w.Finished ∧ w.disk.getRefcount leafD = 2 := by decide +kernel
  have hone : ((openOn .empty none none).convert codec
      twice).disk.getRefcount leafD = 1 := by decide +kernel
  refine ⟨w, hrun, hdone, hcount, fun order hperm => ?_⟩
  -- two equal elements have one order
  have htwice : twice = replicate 2 (imageA, Codec.archive imageA) := rfl
  rw [htwice] at hperm hone
  rw [perm_replicate.mp hperm]
  exact hone

theorem puts_sequential_iff_twice :
    ∃ w, Schedule.run (step Sample.codec) (start .empty twice) [0, 0, 1, 0] = some w ∧
      w.Finished ∧ Schedule.Meets (step Sample.codec) (WritesNew Sample.codec) (start .empty twice)
        [0, 0, 1, 0] ∧
      ∃ order, order.Perm twice ∧ ∀ d, w.disk.getRefcount d
        = ((MmapStore.openOn .empty none none).convert Sample.codec order).disk.getRefcount d := by
  obtain ⟨w, hrun, hdone⟩ : ∃ w, run (step codec) (start .empty twice) [0, 0, 1, 0] = some w ∧
      w.Finished := by decide +kernel
  have hnew : Meets (step codec) (WritesNew codec) (start .empty twice)
      [0, 0, 1, 0] := by decide +kernel
  have henc : ∀ p ∈ twice, codec.Encodes p.1 p.2 := by decide +kernel
  have hfree : codec.CollisionFreeOn (twice.map Prod.fst) := by
    unfold Codec.CollisionFreeOn
    decide +kernel
  have hmain := puts_sequential_iff none none henc hfree hrun hdone
  exact ⟨w, hrun, hdone, hnew, hmain.1.mpr hnew⟩

end Puts

end Pullrun
