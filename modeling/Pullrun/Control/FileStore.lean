import Pullrun.Control.Scheduler
import Pullrun.Lib.RecordDir
import Pullrun.Lib.Schedule

/-!
# The store of the control plane

`fileStore` of `control-plane/api/cmd/store.go`: the workloads and the nodes, in two maps and two
directories of JSON files, with the requests that change them. A restart loses the maps and reads the
directories.

File operations succeed, JSON is lossless, and a restart falls between file operations. The source logs a
failed `WriteFile` and ignores a failed `Remove`, so that after one the files lag behind the maps, and a kill
within `WriteFile` can leave a file that `loadAll` skips; neither happens here. A submission and a restart come with the orders in which
they find maps and directories.
-/

namespace Pullrun.Control

open List RecordDir
open scoped Schedule

deriving instance DecidableEq for WorkloadRecord, NodeRecord

inductive Status
  | submitted
  | scheduled
deriving DecidableEq

/-- `WorkloadRecord`, with the fields that scheduling does not look at. -/
structure StoredWorkload extends WorkloadRecord where
  id : Str
  name : Str
  cpuMillis : UInt64
  memoryB : UInt64
  labels : List (Str × Str)
  createdAt : ℤ
  status : Status
deriving DecidableEq

structure StoredNode extends NodeRecord where
  address : Str
  cpuCores : UInt64
  memoryBytes : UInt64
deriving DecidableEq

structure FileStore where
  workloads : Dir StoredWorkload
  nodes : Dir StoredNode

/-- `^[a-zA-Z0-9._-]{1,128}$` -/
def idRegexp (id : Str) : Bool :=
  id ≠ [] && decide (id.length ≤ 128) &&
    id.all fun c => ('a' ≤ c && c ≤ 'z') || ('A' ≤ c && c ≤ 'Z') || ('0' ≤ c && c ≤ '9') ||
      c == '.' || c == '_' || c == '-'

structure WorkloadSpec where
  name : Str
  imageRef : Str
  backend : Str
  cpuMillicores : UInt64
  memoryBytes : UInt64
  labels : List (Str × Str)

inductive Request
  | submit (req : WorkloadSpec) (nano : ℕ) (now : ℤ) (workloads : List StoredWorkload)
      (nodes : List StoredNode)
  | record (w : StoredWorkload)
  | deleteWorkload (id : Str)
  | registerNode (id address : Str) (cpuCores memoryBytes : UInt64) (backends : List Str) (now : ℤ)
  | heartbeat (id : Str) (runningWorkloads : BitVec 64) (now : ℤ)
  | restart (workloads : Entries StoredWorkload) (nodes : Entries StoredNode)

def Request.isRestart : Request → Bool
  | .restart _ _ => true
  | _ => false

namespace FileStore

/-- `SubmitWorkload` up to the place where it has a node and asks for the lock -/
def submit (req : WorkloadSpec) (nano : ℕ) (now : ℤ) (workloads : List StoredWorkload)
    (nodes : List StoredNode) : Option StoredWorkload :=
  if req.backend = [] then none
  else
    let rec' : StoredWorkload :=
      { id := "wl-".toList ++ Nat.toDigits 10 nano, name := req.name, imageRef := req.imageRef
        backend := req.backend, cpuMillis := req.cpuMillicores, memoryB := req.memoryBytes
        labels := req.labels, createdAt := now, nodeID := [], status := .submitted }
    match scheduleWorkload now (workloads.map (·.toWorkloadRecord)) rec'.toWorkloadRecord
      (nodes.map (·.toNodeRecord)) with
    | .error _ => none
    | .ok nodeID => some { rec' with nodeID, status := .scheduled }

/-- The rest of `SubmitWorkload` -/
def record (s : FileStore) (w : StoredWorkload) : FileStore :=
  { s with workloads := put (·.id) s.workloads w }

/-- `DeleteWorkload` -/
def deleteWorkload (s : FileStore) (id : Str) : FileStore :=
  if idRegexp id then { s with workloads := remove s.workloads id } else s

/-- `RegisterNode`: a node that is known starts over. -/
def registerNode (s : FileStore) (id address : Str) (cpuCores memoryBytes : UInt64)
    (backends : List Str) (now : ℤ) : FileStore :=
  if h : idRegexp id then
    { s with
      nodes := put (·.id) s.nodes
        { id, id_ne := by rintro rfl; simp [idRegexp] at h, availableBackends := backends
          lastHeartbeat := now, runningCount := 0, address, cpuCores, memoryBytes } }
  else s

/-- `Heartbeat` -/
def heartbeat (s : FileStore) (id : Str) (running : BitVec 64) (now : ℤ) : FileStore :=
  match s.nodes.mem.lookup id with
  | none => s
  | some n =>
    { s with nodes := put (·.id) s.nodes { n with lastHeartbeat := now, runningCount := running } }

/-- `loadAll`, in a new process -/
def loadAll (s : FileStore) (workloads : Entries StoredWorkload)
    (nodes : Entries StoredNode) : FileStore :=
  ⟨⟨load (·.id) workloads, s.workloads.files⟩, ⟨load (·.id) nodes, s.nodes.files⟩⟩

end FileStore

/-- The store, and the submissions that wait for its lock. -/
structure Server where
  store : FileStore
  submitted : List StoredWorkload

namespace Server

def start : Server := ⟨⟨⟨∅, ∅⟩, ⟨∅, ∅⟩⟩, []⟩

/-- What happens at once, if the orders are orders of what is there. -/
def step (s : Server) : Request → Option Server
  | .submit req nano now workloads nodes =>
    if listed (·.id) workloads = s.store.workloads.mem.entries ∧
        listed (·.id) nodes = s.store.nodes.mem.entries then
      some { s with
        submitted := (FileStore.submit req nano now workloads nodes).toList ++ s.submitted }
    else none
  | .record w =>
    if w ∈ s.submitted then some ⟨s.store.record w, s.submitted.erase w⟩ else none
  | .deleteWorkload id => some { s with store := s.store.deleteWorkload id }
  | .registerNode id address cpu memory backends now =>
    some { s with store := s.store.registerNode id address cpu memory backends now }
  | .heartbeat id running now => some { s with store := s.store.heartbeat id running now }
  | .restart workloads nodes =>
    if workloads = s.store.workloads.files.entries ∧ nodes = s.store.nodes.files.entries then
      some ⟨s.store.loadAll workloads nodes, []⟩
    else none

/-! ## What a step does -/

/-- The workload is scheduled, on a node that is registered. -/
def Placed (nodes : Dir StoredNode) (w : StoredWorkload) : Prop :=
  w.status = .scheduled ∧ (nodes.mem.lookup w.nodeID).isSome

theorem submit_placed {req : WorkloadSpec} {nano : ℕ} {now : ℤ} {workloads : List StoredWorkload}
    {nodes : List StoredNode} {d : Dir StoredNode} {w : StoredWorkload}
    (hnodes : listed (·.id) nodes = d.mem.entries)
    (h : FileStore.submit req nano now workloads nodes = some w) : Placed d w := by
  revert h
  fun_cases FileStore.submit req nano now workloads nodes with
  | case1 | case2 =>
    intro h
    cases h
  | case3 _ _ nodeID hok =>
    rintro ⟨⟩
    refine ⟨rfl, ?_⟩
    obtain ⟨⟨e, herr⟩, -⟩ | ⟨n, hn, hmem, -⟩ := scheduleWorkload_cases (nodes.map (·.toNodeRecord))
    · rw [herr] at hok
      cases hok
    · cases hn.symm.trans hok
      obtain ⟨m, hm, rfl⟩ := mem_map.mp hmem
      have hentry : (⟨m.id, m⟩ : Σ _ : Str, StoredNode) ∈ d.mem.entries := by
        rw [← hnodes, Multiset.mem_coe]
        exact mem_map_of_mem hm
      exact Option.isSome_iff_exists.mpr ⟨m, Finmap.mem_lookup_iff.mpr hentry⟩

inductive Move (s : Server) : Server → Prop
  | idle : Move s s
  | submit (w : StoredWorkload) (hw : Placed s.store.nodes w) :
      Move s { s with submitted := w :: s.submitted }
  | record (w : StoredWorkload) (hw : w ∈ s.submitted) :
      Move s ⟨s.store.record w, s.submitted.erase w⟩
  | delete (id : Str) :
      Move s { s with store := { s.store with workloads := remove s.store.workloads id } }
  | node (n : StoredNode) :
      Move s { s with store := { s.store with nodes := put (·.id) s.store.nodes n } }
  | restart (workloads : Entries StoredWorkload) (nodes : Entries StoredNode)
      (hw : workloads = s.store.workloads.files.entries) (hn : nodes = s.store.nodes.files.entries) :
      Move s ⟨s.store.loadAll workloads nodes, []⟩

variable {s s' : Server} {r : Request} {acts : List Request}

theorem step_move (hstep : s.step r = some s') : Move s s' := by
  cases r with
  | submit req nano now workloads nodes =>
    obtain ⟨⟨-, hnodes⟩, ⟨⟩⟩ := Option.ite_none_right_eq_some.mp hstep
    cases hw : FileStore.submit req nano now workloads nodes with
    | none => exact .idle
    | some w => exact .submit w (submit_placed hnodes hw)
  | record w =>
    obtain ⟨hw, ⟨⟩⟩ := Option.ite_none_right_eq_some.mp hstep
    exact .record w hw
  | deleteWorkload id =>
    cases hstep
    fun_cases FileStore.deleteWorkload s.store id with
    | case1 => exact .delete id
    | case2 => exact .idle
  | registerNode id address cpu memory backends now =>
    cases hstep
    fun_cases FileStore.registerNode s.store id address cpu memory backends now with
    | case1 => exact .node _
    | case2 => exact .idle
  | heartbeat id running now =>
    cases hstep
    fun_cases FileStore.heartbeat s.store id running now with
    | case1 => exact .idle
    | case2 => exact .node _
  | restart workloads nodes =>
    obtain ⟨⟨hw, hn⟩, ⟨⟩⟩ := Option.ite_none_right_eq_some.mp hstep
    exact .restart workloads nodes hw hn

/-! ## Restarts -/

structure InStep (s : FileStore) : Prop where
  workloads : RecordDir.InStep (·.id) s.workloads
  nodes : RecordDir.InStep (·.id) s.nodes

theorem inStep_start : InStep start.store := ⟨inStep_empty, inStep_empty⟩

theorem InStep.loadAll {s : FileStore} {workloads : Entries StoredWorkload}
    {nodes : Entries StoredNode} (h : InStep s) (hw : workloads = s.workloads.files.entries)
    (hn : nodes = s.nodes.files.entries) : s.loadAll workloads nodes = s := by
  rw [FileStore.loadAll, h.workloads.load hw, h.nodes.load hn]

theorem Move.inStep (hmove : Move s s') (h : InStep s.store) : InStep s'.store := by
  cases hmove with
  | idle | submit => exact h
  | record w => exact ⟨h.workloads.put w, h.nodes⟩
  | delete id => exact ⟨h.workloads.remove id, h.nodes⟩
  | node n => exact ⟨h.workloads, h.nodes.put n⟩
  | restart workloads nodes hw hn => exact (h.loadAll hw hn).symm ▸ h

/-- A server on which more submissions wait can do the same. -/
theorem step_of_subperm {waiting : List StoredWorkload} (hr : r.isRestart = false)
    (hsub : s.submitted.Subperm waiting) (hstep : s.step r = some s') :
    ∃ waiting', step ⟨s.store, waiting⟩ r = some ⟨s'.store, waiting'⟩ ∧
      s'.submitted.Subperm waiting' := by
  cases r with
  | submit req nano now workloads nodes =>
    obtain ⟨horders, ⟨⟩⟩ := Option.ite_none_right_eq_some.mp hstep
    exact ⟨_, if_pos horders, (subperm_append_left _).mpr hsub⟩
  | record w =>
    obtain ⟨hw, ⟨⟩⟩ := Option.ite_none_right_eq_some.mp hstep
    exact ⟨_, if_pos (hsub.subset hw), hsub.erase w⟩
  | deleteWorkload id | registerNode id address cpu memory backends now | heartbeat id running now =>
    cases hstep
    exact ⟨waiting, rfl, hsub⟩
  | restart workloads nodes => cases hr

/-- **Restarts do not show.** What a run with restarts leaves in the store, the same requests leave
there without them; submissions that a restart loses stay unrecorded. -/
theorem restarts_struck (hrun : Schedule.run step start acts = some s) :
    ∃ t, Schedule.run step start (acts.filter fun r => !r.isRestart) = some t ∧ t.store = s.store := by
  let Sim (s t : Server) := InStep s.store ∧ t.store = s.store ∧ s.submitted.Subperm t.submitted
  have hkeep : ∀ s t r s', Sim s t → (!r.isRestart) = true → s.step r = some s' →
      ∃ t', t.step r = some t' ∧ Sim s' t' := by
    rintro s ⟨_, waiting⟩ r s' ⟨h, rfl, hsub⟩ hr hstep
    obtain ⟨waiting', hstep', hsub'⟩ := step_of_subperm (by simpa using hr) hsub hstep
    exact ⟨_, hstep', (step_move hstep).inStep h, rfl, hsub'⟩
  have hstrike : ∀ s t r s', Sim s t → (!r.isRestart) = false → s.step r = some s' → Sim s' t := by
    rintro s t r s' ⟨h, heq, -⟩ hr hstep
    cases r with
    | restart workloads nodes =>
      obtain ⟨⟨hw, hn⟩, ⟨⟩⟩ := Option.ite_none_right_eq_some.mp hstep
      rw [h.loadAll hw hn]
      exact ⟨h, heq, nil_subperm⟩
    | _ => cases hr
  obtain ⟨t, ht, -, heq, -⟩ := Schedule.run_struck Sim _ hkeep hstrike ⟨inStep_start, rfl, .refl _⟩ hrun
  exact ⟨t, ht, heq⟩

/-- A node is registered and a workload submitted to it; the server is restarted before the next
submission is recorded, and the node goes on. -/
def restarted : List Request :=
  [.registerNode ['n'] [] 1 1 [['c']] 0, .submit ⟨[], [], ['c'], 0, 0, []⟩ 7 0 [] [node],
    .record (workload '7'), .submit ⟨[], [], ['c'], 0, 0, []⟩ 8 0 [workload '7'] [node],
    .restart [⟨"wl-7.json".toList, workload '7'⟩] [⟨"n.json".toList, node⟩], .heartbeat ['n'] 1 5]
where
  node : StoredNode := ⟨⟨['n'], by simp, [['c']], 0, 0⟩, [], 1, 1⟩
  workload (c : Char) : StoredWorkload :=
    ⟨⟨['n'], [], ['c']⟩, "wl-".toList ++ [c], [], 0, 0, [], 0, .scheduled⟩

theorem restarted_struck : ∃ s t, Schedule.run step start restarted = some s ∧
    Schedule.run step start (restarted.filter fun r => !r.isRestart) = some t ∧ t.store = s.store := by
  obtain ⟨s, hs⟩ : ∃ s, Schedule.run step start restarted = some s :=
    Option.isSome_iff_exists.mp (by decide)
  obtain ⟨t, ht⟩ := restarts_struck hs
  exact ⟨s, t, hs, ht⟩

/-! ## Placements -/

structure AllPlaced (s : Server) : Prop where
  inStep : InStep s.store
  recorded : ∀ id w, s.store.workloads.mem.lookup id = some w → Placed s.store.nodes w
  waiting : ∀ w ∈ s.submitted, Placed s.store.nodes w

theorem Placed.put {d : Dir StoredNode} {w : StoredWorkload} (h : Placed d w) (n : StoredNode) :
    Placed (put (·.id) d n) w := by
  refine ⟨h.1, ?_⟩
  by_cases hid : w.nodeID = n.id
  · rw [hid, RecordDir.put, Finmap.lookup_insert]
    rfl
  · rw [RecordDir.put, Finmap.lookup_insert_of_ne _ hid]
    exact h.2

theorem Move.allPlaced (hmove : Move s s') (h : s.AllPlaced) : s'.AllPlaced := by
  have hin := hmove.inStep h.inStep
  cases hmove with
  | idle => exact h
  | submit w hw => exact ⟨hin, h.recorded, forall_mem_cons.mpr ⟨hw, h.waiting⟩⟩
  | record w hw =>
    refine ⟨hin, fun id w' hw' => ?_, fun w' hw' => h.waiting w' (mem_of_mem_erase hw')⟩
    by_cases hid : id = w.id
    · rw [FileStore.record, RecordDir.put, hid, Finmap.lookup_insert, Option.some.injEq] at hw'
      exact hw' ▸ h.waiting w hw
    · rw [FileStore.record, RecordDir.put, Finmap.lookup_insert_of_ne _ hid] at hw'
      exact h.recorded id w' hw'
  | delete id => exact ⟨hin, fun id' w hw => h.recorded id' w (lookup_erase_some hw), h.waiting⟩
  | node n => exact ⟨hin, fun id w hw => (h.recorded id w hw).put n, fun w hw => (h.waiting w hw).put n⟩
  | restart workloads nodes hw hn =>
    rw [h.inStep.loadAll hw hn]
    exact ⟨h.inStep, h.recorded, forall_mem_nil _⟩

/-- **Every workload on record is scheduled on a registered node**, and is in the file of its id. -/
theorem recorded_placed (hrun : Schedule.run step start acts = some s) {id : Str} {w : StoredWorkload}
    (hw : s.store.workloads.mem.lookup id = some w) :
    w.id = id ∧ s.store.workloads.files.lookup (fileName id) = some w ∧ w.status = .scheduled ∧
      (s.store.nodes.mem.lookup w.nodeID).isSome := by
  have h : s.AllPlaced := Schedule.run_inv' AllPlaced (fun _ _ _ h hstep => (step_move hstep).allPlaced h)
    ⟨inStep_start, fun _ _ h => by simp [start] at h, forall_mem_nil _⟩ hrun
  exact ⟨h.inStep.workloads.keyed id w hw, (h.inStep.workloads.same id).trans hw, h.recorded id w hw⟩

theorem restarted_placed : ∃ s, Schedule.run step start restarted = some s ∧
    s.store.workloads.mem.lookup "wl-7".toList = some (restarted.workload '7') ∧
      (s.store.nodes.mem.lookup ['n']).isSome := by
  obtain ⟨s, hs, hw⟩ : ∃ s, Schedule.run step start restarted = some s ∧
      s.store.workloads.mem.lookup "wl-7".toList = some (restarted.workload '7') := by
    decide
  exact ⟨s, hs, hw, (recorded_placed hs hw).2.2.2⟩

end Server

end Pullrun.Control
