import Pullrun.Workload.Tasks

/-!
# Checkpoints of the workload table

`write_workload_checkpoint`, `load_workload_checkpoints`, `validate_workload_id` and the recovery at
startup of `pullrun-runtime/src/service.rs`, with the requests and watchers that change the table, one
after the other. Every change that is meant to survive a restart is written to
`checkpoints/<id>.json`; the table is read back from the names and contents of that directory.

The text of a checkpoint is of an arbitrary type with a lossless codec. File writes succeed.
-/

namespace Pullrun

/-! ## Ids and file names -/

def isIdChar (c : Char) : Bool :=
  ('a' ≤ c && c ≤ 'z') || ('A' ≤ c && c ≤ 'Z') || ('0' ≤ c && c ≤ '9') || c = '-' || c = '_' ||
    c = '.'

inductive IdError
  /-- `workload id must not be empty` -/
  | empty
  /-- `workload id too long (max 128 characters)` -/
  | tooLong
  /-- `workload id may only contain alphanumerics, '-', '_', or '.'` -/
  | charset
deriving DecidableEq

/-- The length is in bytes; an id with a character of more than one byte fails either way. -/
def validateWorkloadId (id : Str) : Except IdError Unit :=
  if id = [] then .error .empty
  else if 128 < (id.map Char.utf8Size).sum then .error .tooLong
  else if id.all isIdChar then .ok ()
  else .error .charset

def checkpointName (id : Str) : Str := id ++ ".json".toList

/-- `Path::file_stem` and `Path::extension` of a file name: split at the last dot, unless there is
    none or nothing before it. -/
def splitExtension (name : Str) : Str × Option Str :=
  let after := (name.reverse.takeWhile (· ≠ '.')).reverse
  match name.reverse.dropWhile (· ≠ '.') with
  | [] => (name, none)
  | _ :: before =>
    if before = [] ∨ name = "..".toList then (name, none) else (before.reverse, some after)

/-! ## The directory -/

structure StateCodec (σ κ : Type) where
  encode : WorkloadState σ → κ
  decode : κ → Option (WorkloadState σ)
  decode_encode : ∀ st, decode (encode st) = some st

/-- The state itself as the contents of its file. -/
def StateCodec.plain (σ : Type) : StateCodec σ (WorkloadState σ) := ⟨id, some, fun _ => rfl⟩

abbrev CheckpointDir (κ : Type) := Finmap fun _ : Str => κ

section Load

variable {σ κ : Type} (codec : StateCodec σ κ)

/-- One file of the directory: a name that does not end in `.json` and a content that cannot be
    parsed are skipped. -/
def loadEntry (table : WorkloadTable σ) (entry : Σ _ : Str, κ) : WorkloadTable σ :=
  let split := splitExtension entry.1
  if split.2 = some "json".toList then
    match codec.decode entry.2 with
    | some st => table.set split.1 st
    | none => table
  else table

def loadWorkloadCheckpoints (entries : List (Σ _ : Str, κ)) : WorkloadTable σ :=
  entries.foldl (loadEntry codec) ∅

end Load

namespace WorkloadTable

variable {σ : Type}

def recovered (t : WorkloadTable σ) (now : ℤ) : WorkloadTable σ where
  entries := t.entries.map fun entry => ⟨entry.1, entry.2.recovered now⟩
  nodupKeys := by
    obtain ⟨entries, hnodup⟩ := t
    induction entries using Quotient.inductionOn with
    | h l =>
      have hkeys : (l.map fun entry => (⟨entry.1, entry.2.recovered now⟩ :
          Σ _ : Str, WorkloadState σ)).keys = l.keys := by
        simp [List.keys, Function.comp_def]
      have hl : l.keys.Nodup := hnodup
      exact (hkeys ▸ hl : List.Nodup _)

theorem lookup_recovered (t : WorkloadTable σ) (now : ℤ) (id : Str) :
    (t.recovered now).lookup id = (t.lookup id).map (·.recovered now) := by
  ext st
  rw [← Option.mem_def, Finmap.mem_lookup_iff, Option.map_eq_some_iff]
  constructor
  · intro h
    obtain ⟨⟨id', st'⟩, hmem, heq⟩ := Multiset.mem_map.mp h
    cases heq
    exact ⟨st', Finmap.mem_lookup_iff.mpr hmem, rfl⟩
  · rintro ⟨st', hmem, rfl⟩
    exact Multiset.mem_map.mpr ⟨⟨id, st'⟩, Finmap.mem_lookup_iff.mp hmem, rfl⟩

def exitedIds (t : WorkloadTable σ) : Finset Str :=
  t.keys.filter fun id => ((t.lookup id).any fun st => st.status = .exited) = true

theorem mem_exitedIds {t : WorkloadTable σ} {id : Str} :
    id ∈ t.exitedIds ↔ ∃ st, t.lookup id = some st ∧ st.status = .exited := by
  rw [exitedIds, Finset.mem_filter, Finmap.mem_keys, ← Finmap.lookup_isSome]
  cases h : t.lookup id with
  | none => simp
  | some st => simp

end WorkloadTable

/-! ## The requests and the watchers, one after the other -/

structure Checkpointed (σ κ : Type) where
  table : WorkloadTable σ
  files : CheckpointDir κ
  unsaved : Finset Str
  forgotten : Finset Str

namespace Checkpointed

variable {σ κ : Type}

def init : Checkpointed σ κ := ⟨∅, ∅, ∅, ∅⟩

inductive Op (σ : Type)
  /-- `run_workload`, if nothing goes wrong after its checks. -/
  | run (id : Str) (restartPolicy : RestartPolicy) (spec : σ) (handle : Handle) (now : ℤ)
  /-- `stop_workload`; `killed` is whether the executor succeeds. -/
  | stop (id : Str) (killed : Bool) (now : ℤ)
  /-- The watcher finds the workload ended or `lost`, and, if the policy asks for it, restarts it;
      `restart` is what comes of that. -/
  | exit (id : Str) (exitCode : Option ℕ) (lost : Bool) (restart : Option Handle) (now later : ℤ)
  | probe (id : Str) (healthy : Bool) (retries : ℕ) (now : ℤ)
  | prune

variable (codec : StateCodec σ κ)

/-- A state is put into the table and written to its file. -/
def save (d : Checkpointed σ κ) (id : Str) (st : WorkloadState σ) : Checkpointed σ κ :=
  { d with
    table := d.table.set id st
    files := Finmap.insert (checkpointName id) (codec.encode st) d.files
    unsaved := d.unsaved.erase id }

def runWorkload (d : Checkpointed σ κ) (id : Str) (restartPolicy : RestartPolicy) (spec : σ)
    (handle : Handle) (now : ℤ) : Checkpointed σ κ :=
  match validateWorkloadId id with
  | .error _ => d
  | .ok _ =>
    let d := d.save codec id (.launched spec restartPolicy handle now)
    { d with forgotten := d.forgotten.erase id }

/-- A failure of the executor is passed over for a VM. -/
def stopWorkload (d : Checkpointed σ κ) (id : Str) (killed : Bool) (now : ℤ) : Checkpointed σ κ :=
  match validateWorkloadId id, d.table.lookup id with
  | .ok _, some st =>
    if st.status = .running ∧ (killed ∨ st.backend = .vm) then d.save codec id (st.stopped now)
    else d
  | _, _ => d

/-- `attempt_restart`, right after the exit. -/
def attemptRestart (d : Checkpointed σ κ) (id : Str) (st : WorkloadState σ)
    (restart : Option Handle) (now : ℤ) : Checkpointed σ κ :=
  match restart with
  | none => d
  | some handle => d.save codec id (st.restarted handle now)

def watchExit (d : Checkpointed σ κ) (id : Str) (exitCode : Option ℕ) (lost : Bool)
    (restart : Option Handle) (now later : ℤ) : Checkpointed σ κ :=
  match d.table.lookup id with
  | none => d
  | some st =>
    if st.status = .running then
      let ended := st.exited now exitCode
      let d := d.save codec id ended
      if Workloads.wantsRestart st exitCode lost then d.attemptRestart codec id ended restart later
      else d
    else d

/-- The health watcher does not write a checkpoint. -/
def probe (d : Checkpointed σ κ) (id : Str) (healthy : Bool) (retries : ℕ) (now : ℤ) :
    Checkpointed σ κ :=
  match d.table.lookup id with
  | none => d
  | some st =>
    if st.status = .running then
      { d with
        table := d.table.set id (st.probed healthy (max retries 1) now)
        unsaved := insert id d.unsaved }
    else d

def prune (d : Checkpointed σ κ) : Checkpointed σ κ :=
  { d with table := d.table.pruned, forgotten := d.forgotten ∪ d.table.exitedIds }

def step (d : Checkpointed σ κ) : Op σ → Checkpointed σ κ
  | .run id restartPolicy spec handle now => d.runWorkload codec id restartPolicy spec handle now
  | .stop id killed now => d.stopWorkload codec id killed now
  | .exit id exitCode lost restart now later => d.watchExit codec id exitCode lost restart now later
  | .probe id healthy retries now => d.probe id healthy retries now
  | .prune => d.prune

def run (d : Checkpointed σ κ) (ops : List (Op σ)) : Checkpointed σ κ := ops.foldl (step codec) d

/-- The table after a restart of the daemon with every container dead. -/
def restarted (entries : List (Σ _ : Str, κ)) (now : ℤ) : WorkloadTable σ :=
  (loadWorkloadCheckpoints codec entries).recovered now

end Checkpointed

end Pullrun
