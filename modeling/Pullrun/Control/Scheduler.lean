import Pullrun.Store.Digest

/-!
# Where a workload is placed

`scheduleWorkload` of `control-plane/api/cmd/store.go`. The nodes are gone through in the order of a Go
map, that is in any order; the score of a node is kept in 64 bits, and the count that a node reports with
its heartbeat is any unsigned number of 64 bits.
-/

namespace Pullrun.Control

structure NodeRecord where
  id : Str
  /-- Ids are matched against `^[a-zA-Z0-9._-]{1,128}$` when a node registers. -/
  id_ne : id ≠ []
  availableBackends : List Str
  lastHeartbeat : ℤ
  runningCount : BitVec 64

structure WorkloadRecord where
  nodeID : Str
  imageRef : Str
  backend : Str

inductive Code
  | unavailable
  | failedPrecondition
deriving DecidableEq

section

variable (now : ℤ) (workloads : List WorkloadRecord) (rec : WorkloadRecord)

/-- A heartbeat of the last 30 seconds, counted in nanoseconds, and the backend. -/
def Eligible (n : NodeRecord) : Prop :=
  now - n.lastHeartbeat ≤ 30000000000 ∧ rec.backend ∈ n.availableBackends

instance (n : NodeRecord) : Decidable (Eligible now rec n) := inferInstanceAs (Decidable (_ ∧ _))

def score (n : NodeRecord) : BitVec 64 :=
  workloads.foldl (fun score other =>
    if other.nodeID ≠ n.id then score else if other.imageRef = rec.imageRef then score + 100 else score) 0 -
    n.runningCount * 5

/-- One round of the loop, on `bestNode` and `bestScore`. -/
def consider (best : Str × BitVec 64) (n : NodeRecord) : Str × BitVec 64 :=
  if Eligible now rec n ∧ (best.1 = [] ∨ best.2.toInt < (score workloads rec n).toInt) then
    (n.id, score workloads rec n)
  else best

/-- `nodes` has the nodes in the order in which the map is gone through. -/
def scheduleWorkload (nodes : List NodeRecord) : Except Code Str :=
  if nodes = [] then .error .unavailable
  else
    let (bestNode, _) := nodes.foldl (consider now workloads rec) ([], -1)
    if bestNode = [] then .error .failedPrecondition else .ok bestNode

/-- The score as an integer: 100 for each workload of the node with the image, less 5 for each that it
says is running. -/
def exact (n : NodeRecord) : ℤ :=
  100 * (workloads.countP fun other => other.nodeID = n.id ∧ other.imageRef = rec.imageRef) -
    5 * n.runningCount.toNat

/-- No eligible node is ranked higher. -/
def Highest (rank : NodeRecord → ℤ) (nodes : List NodeRecord) (n : NodeRecord) : Prop :=
  n ∈ nodes ∧ Eligible now rec n ∧ ∀ m ∈ nodes, Eligible now rec m → rank m ≤ rank n

variable {now workloads rec} {nodes : List NodeRecord} {n : NodeRecord} {id : Str}

/-- The loop over the workloads counts in 64 bits, from whatever it starts with. -/
theorem foldl_score (workloads : List WorkloadRecord) (acc : BitVec 64) :
    workloads.foldl (fun score other => if other.nodeID ≠ n.id then score else
      if other.imageRef = rec.imageRef then score + 100 else score) acc =
      acc + .ofInt 64 (100 * workloads.countP fun other =>
        other.nodeID = n.id ∧ other.imageRef = rec.imageRef) := by
  induction workloads generalizing acc with
  | nil => simp
  | cons other workloads ih =>
    rw [List.foldl_cons, ih, List.countP_cons]
    by_cases hnode : other.nodeID = n.id
    · by_cases himage : other.imageRef = rec.imageRef
      · simp [hnode, himage, mul_add, BitVec.ofInt_add, add_comm, BitVec.add_assoc]
      · simp [hnode, himage]
    · simp [hnode]

/-- **The score is the exact one modulo 2⁶⁴**, in the signed range. -/
theorem score_toInt : (score workloads rec n).toInt = (exact workloads rec n).bmod (2 ^ 64) := by
  have hscore : score workloads rec n = .ofInt 64 (exact workloads rec n) := by
    rw [score, foldl_score, exact, sub_eq_add_neg (_ : ℤ), BitVec.ofInt_add]
    simp [sub_eq_add_neg, BitVec.ofInt_neg, BitVec.ofInt_mul, mul_comm]
  rw [hscore, BitVec.toInt_ofInt]

theorem foldl_consider_of_le
    (h : ∀ m ∈ nodes, Eligible now rec m → (score workloads rec m).toInt ≤ (score workloads rec n).toInt) :
    nodes.foldl (consider now workloads rec) (n.id, score workloads rec n) =
      (n.id, score workloads rec n) := by
  induction nodes with
  | nil => rfl
  | cons m nodes ih =>
    rw [List.forall_mem_cons] at h
    have hkeep : ¬ (Eligible now rec m ∧
        (n.id = [] ∨ (score workloads rec n).toInt < (score workloads rec m).toInt)) := by
      rintro ⟨he, hid | hlt⟩
      · exact n.id_ne hid
      · exact absurd (h.1 he) (not_le.mpr hlt)
    rw [List.foldl_cons, consider, if_neg hkeep, ih h.2]

theorem foldl_consider (nodes : List NodeRecord) :
    (nodes.foldl (consider now workloads rec) ([], -1) = ([], -1) ∧ ∀ m ∈ nodes, ¬ Eligible now rec m) ∨
    ∃ n, nodes.foldl (consider now workloads rec) ([], -1) = (n.id, score workloads rec n) ∧
      Highest now rec (fun m => (score workloads rec m).toInt) nodes n := by
  induction nodes using List.reverseRecOn with
  | nil => exact .inl ⟨rfl, by simp⟩
  | append_singleton nodes m ih =>
    rw [List.foldl_concat]
    obtain ⟨heq, hnone⟩ | ⟨n, heq, hmem, hn, hhigh⟩ := ih
    · rw [heq, consider]
      by_cases hm : Eligible now rec m
      · rw [if_pos ⟨hm, .inl rfl⟩]
        exact .inr ⟨m, rfl, by simp, hm, by simp +contextual [or_imp, hnone]⟩
      · rw [if_neg fun h => hm h.1]
        exact .inl ⟨rfl, by simpa [or_imp, forall_and, hm] using hnone⟩
    · rw [heq, consider]
      by_cases hm : Eligible now rec m ∧ (score workloads rec n).toInt < (score workloads rec m).toInt
      · rw [if_pos ⟨hm.1, .inr hm.2⟩]
        refine .inr ⟨m, rfl, by simp, hm.1, ?_⟩
        simp only [List.mem_append, List.mem_singleton, or_imp, forall_and, forall_eq]
        exact ⟨fun k hk he => (hhigh k hk he).trans hm.2.le, fun _ => le_rfl⟩
      · rw [if_neg fun h => hm ⟨h.1, h.2.resolve_left n.id_ne⟩]
        refine .inr ⟨n, rfl, by simp [hmem], hn, ?_⟩
        simp only [List.mem_append, List.mem_singleton, or_imp, forall_and, forall_eq]
        exact ⟨hhigh, fun he => not_lt.mp fun hlt => hm ⟨he, hlt⟩⟩

theorem scheduleWorkload_cases (nodes : List NodeRecord) :
    ((∃ e, scheduleWorkload now workloads rec nodes = .error e) ∧ ∀ m ∈ nodes, ¬ Eligible now rec m) ∨
    ∃ n, scheduleWorkload now workloads rec nodes = .ok n.id ∧
      Highest now rec (fun m => (score workloads rec m).toInt) nodes n := by
  unfold scheduleWorkload
  obtain ⟨heq, hnone⟩ | ⟨n, heq, hn⟩ := @foldl_consider now workloads rec nodes
  · rw [heq]
    refine .inl ⟨?_, hnone⟩
    split
    · exact ⟨_, rfl⟩
    · exact ⟨_, if_pos rfl⟩
  · rw [heq, if_neg (List.ne_nil_of_mem hn.1)]
    exact .inr ⟨n, if_neg n.id_ne, hn⟩

theorem scheduleWorkload_of_first
    (h : Highest now rec (fun m => (score workloads rec m).toInt) (n :: nodes) n) :
    scheduleWorkload now workloads rec (n :: nodes) = .ok n.id := by
  rw [scheduleWorkload, if_neg (List.cons_ne_nil _ _), List.foldl_cons, consider,
    if_pos ⟨h.2.1, .inl rfl⟩, foldl_consider_of_le fun m hm => h.2.2 m (.tail _ hm)]
  exact if_neg n.id_ne

theorem Highest.of_perm {rank : NodeRecord → ℤ} {order : List NodeRecord} (hp : order.Perm nodes)
    (h : Highest now rec rank order n) : Highest now rec rank nodes n :=
  ⟨hp.mem_iff.mp h.1, h.2.1, fun m hm => h.2.2 m (hp.mem_iff.mpr hm)⟩

/-- **In whatever order the nodes come, a placement fails only if no node is eligible and takes a node
with the highest exact score, if and only if no other node has the highest exact score modulo 2⁶⁴.** -/
theorem scheduleWorkload_exact_iff (now : ℤ) (workloads : List WorkloadRecord) (rec : WorkloadRecord)
    {nodes : List NodeRecord} (hids : (nodes.map NodeRecord.id).Nodup) :
    (∀ order, order.Perm nodes →
      ((∃ e, scheduleWorkload now workloads rec order = .error e) → ∀ n ∈ nodes, ¬ Eligible now rec n) ∧
      ∀ id, scheduleWorkload now workloads rec order = .ok id →
        ∃ n, n.id = id ∧ Highest now rec (exact workloads rec) nodes n) ↔
    ∀ n, Highest now rec (fun m => (exact workloads rec m).bmod (2 ^ 64)) nodes n →
      Highest now rec (exact workloads rec) nodes n := by
  simp only [← score_toInt]
  constructor
  · intro h n hn
    -- the map may well come to this node first
    obtain ⟨before, after, rfl⟩ := List.append_of_mem hn.1
    have hp : (n :: (before ++ after)).Perm (before ++ n :: after) := List.perm_middle.symm
    obtain ⟨m, hid, hm⟩ := (h _ hp).2 _ (scheduleWorkload_of_first (hn.of_perm hp.symm))
    rwa [List.inj_on_of_nodup_map hids hm.1 hn.1 hid] at hm
  · intro h order hp
    obtain ⟨_, hnone⟩ | ⟨n, hok, hn⟩ := @scheduleWorkload_cases now workloads rec order
    · refine ⟨fun _ m hm => hnone m (hp.mem_iff.mpr hm), ?_⟩
      intro id hid
      simp_all
    · rw [hok]
      constructor
      · rintro ⟨e, ⟨⟩⟩
      · rintro id ⟨⟩
        exact ⟨n, rfl, h n (hn.of_perm hp)⟩

/-- A node that reports `running` workloads. -/
def reporting (c : Char) (running : BitVec 64) : NodeRecord := ⟨[c], by simp, [['c']], 0, running⟩

/-- The workload asks for the image `i`, which node `b` runs already. -/
def warm : List WorkloadRecord := [⟨['b'], ['i'], ['c']⟩]

theorem scheduleWorkload_exact_warm :
    ([reporting 'a' 1, reporting 'b' 3].map NodeRecord.id).Nodup ∧
      ∃ n, n.id = ['b'] ∧ Highest 0 ⟨[], ['i'], ['c']⟩ (exact warm ⟨[], ['i'], ['c']⟩)
        [reporting 'a' 1, reporting 'b' 3] n := by
  refine ⟨by decide, ((scheduleWorkload_exact_iff 0 warm ⟨[], ['i'], ['c']⟩ (by decide)).mpr ?_ _
    (.refl _)).2 ['b'] (by decide)⟩
  rintro n ⟨hmem, he, hhigh⟩
  have ha : exact warm ⟨[], ['i'], ['c']⟩ (reporting 'a' 1) = -5 := by decide
  have hb : exact warm ⟨[], ['i'], ['c']⟩ (reporting 'b' 3) = 85 := by decide
  obtain rfl | rfl : n = reporting 'a' 1 ∨ n = reporting 'b' 3 := by simpa using hmem
  · have := hhigh (reporting 'b' 3) (by simp) (by decide)
    dsimp only at this
    rw [ha, hb] at this
    exact absurd this (by decide)
  · refine ⟨hmem, he, fun m hm _ => ?_⟩
    obtain rfl | rfl : m = reporting 'a' 1 ∨ m = reporting 'b' 3 := by simpa using hm
    · rw [ha, hb]
      decide
    · exact le_rfl

theorem overloaded_node_wins :
    scheduleWorkload 0 [] ⟨[], [], ['c']⟩ [reporting 'a' 1, reporting 'b' 3689348814741910324] = .ok ['b'] ∧
      Eligible 0 ⟨[], [], ['c']⟩ (reporting 'a' 1) ∧
      exact [] ⟨[], [], ['c']⟩ (reporting 'b' 3689348814741910324) <
        exact [] ⟨[], [], ['c']⟩ (reporting 'a' 1) := by
  decide

end

end Pullrun.Control
