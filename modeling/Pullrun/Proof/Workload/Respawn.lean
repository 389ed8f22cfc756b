import Pullrun.Proof.Workload.Accepted
import Pullrun.Proof.Workload.Checkpoint
import Pullrun.Workload.Sample
import Pullrun.Workload.Spec

/-!
# The spec of a restarted workload

Nothing between a run and a restart touches what the run recorded: not the exits, the health checks and
the earlier restarts, and not a restart of the daemon, which reads the record back from its file.
-/

namespace Pullrun

/-! ## The network mode as text -/

theorem parseNetworkMode_networkModeStr {mode : NetworkMode} {ports : Bool}
    (h : mode ≠ .loopback ∨ ports = false) : parseNetworkMode (networkModeStr mode) ports = mode := by
  cases mode with
  | container target =>
    change parseNetworkMode ("container:".toList ++ target) ports = .container target
    unfold parseNetworkMode
    simp only [Digest.stripPrefix_append]
  | bridge | host | slirp => cases ports <;> decide +kernel
  | loopback =>
    obtain hports : ports = false := h.resolve_left fun hne => hne rfl
    rw [hports]
    decide +kernel

theorem networkModeStr_ne_nil (mode : NetworkMode) : networkModeStr mode ≠ [] := by
  cases mode with
  | container target => exact List.append_ne_nil_of_left_ne_nil (by decide +kernel) target
  | bridge | host | slirp | loopback => decide +kernel

theorem fromStr_asStr (b : Backend) : Backend.fromStr (b.asStr.map Char.toLower) = some b := by
  cases b <;> decide +kernel

/-! ## What happens to the record -/

namespace Checkpointed

variable {σ κ : Type} {codec : StateCodec σ κ} {d d' : Checkpointed σ κ} {id : Str} {saved : σ}
  {backend : Backend}

/-- The daemon goes on: requests and watchers that do not run the id again, and restarts of the daemon,
    at which the table is read back from the files in any order. -/
inductive Later (codec : StateCodec σ κ) (id : Str) : Checkpointed σ κ → Checkpointed σ κ → Prop
  | refl (d : Checkpointed σ κ) : Later codec id d d
  | step {d d' : Checkpointed σ κ} (h : Later codec id d d') (op : Op σ)
      (hop : ∀ policy spec handle now, op ≠ .run id policy spec handle now) :
      Later codec id d (d'.step codec op)
  | reload {d d' : Checkpointed σ κ} (h : Later codec id d d') (entries : List (Σ _ : Str, κ))
      (hentries : (entries : Multiset (Σ _ : Str, κ)) = d'.files.entries) (now : ℤ) :
      Later codec id d { d' with table := restarted codec entries now, unsaved := ∅ }

def Recorded (saved : σ) (backend : Backend) (st : WorkloadState σ) : Prop :=
  st.spec = saved ∧ st.backend = backend

structure Holds (codec : StateCodec σ κ) (id : Str) (saved : σ) (backend : Backend)
    (d : Checkpointed σ κ) : Prop where
  row : ∀ st, d.table.lookup id = some st → Recorded saved backend st
  file : ∀ content st, d.files.lookup (checkpointName id) = some content →
    codec.decode content = some st → Recorded saved backend st

section

variable (h : Holds codec id saved backend d)
include h

theorem Holds.save {id' : Str} {st : WorkloadState σ}
    (hst : id' = id → Recorded saved backend st) : Holds codec id saved backend (d.save codec id' st) := by
  constructor
  · intro st' hrow
    rw [lookup_table_save] at hrow
    split at hrow
    · rename_i heq
      cases hrow
      exact hst heq.symm
    · exact h.row st' hrow
  · intro content st' hfile hdec
    rw [lookup_files_save] at hfile
    split at hfile
    · rename_i heq
      cases hfile
      rw [codec.decode_encode] at hdec
      cases hdec
      exact hst heq.symm
    · exact h.file content st' hfile hdec

theorem Holds.step (op : Op σ) (hop : ∀ policy spec handle now, op ≠ .run id policy spec handle now) :
    Holds codec id saved backend (d.step codec op) := by
  cases op with
  | run id' policy spec handle now =>
    have hid : id' ≠ id := by
      rintro rfl
      exact hop policy spec handle now rfl
    change Holds codec id saved backend (d.runWorkload codec id' policy spec handle now)
    unfold runWorkload
    split
    · exact h
    · have hsave : Holds codec id saved backend
          (d.save codec id' (.launched spec policy handle now)) :=
        h.save fun heq => absurd heq hid
      exact ⟨hsave.row, hsave.file⟩
  | stop id' killed now =>
    change Holds codec id saved backend (d.stopWorkload codec id' killed now)
    unfold stopWorkload
    split
    · rename_i st _ hrow
      split
      · refine h.save fun heq => ?_
        subst heq
        obtain ⟨hspec, hbackend⟩ := h.row st hrow
        unfold WorkloadState.stopped
        split <;> exact ⟨hspec, hbackend⟩
      · exact h
    · exact h
  | exit id' exitCode lost restart now later =>
    change Holds codec id saved backend (d.watchExit codec id' exitCode lost restart now later)
    unfold watchExit
    split
    · exact h
    · rename_i st hrow
      split
      · have hexit : Holds codec id saved backend (d.save codec id' (st.exited now exitCode)) :=
          h.save fun heq => h.row st (heq ▸ hrow)
        simp only
        split
        · unfold attemptRestart
          cases restart with
          | none => exact hexit
          | some handle => exact hexit.save fun heq => h.row st (heq ▸ hrow)
        · exact hexit
      · exact h
  | probe id' healthy retries now =>
    change Holds codec id saved backend (d.probe id' healthy retries now)
    unfold probe
    split
    · exact h
    · rename_i st hrow
      split
      · -- The health is not written to the file.
        refine ⟨fun st' hrow' => ?_, h.file⟩
        simp only [WorkloadTable.lookup_set] at hrow'
        split at hrow'
        · rename_i heq
          cases hrow'
          obtain ⟨hspec, hbackend⟩ := h.row st (heq ▸ hrow)
          unfold WorkloadState.probed
          split <;> exact ⟨hspec, hbackend⟩
        · exact h.row st' hrow'
      · exact h
  | prune => exact ⟨fun st hrow => h.row st (WorkloadTable.lookup_pruned.mp hrow).1, h.file⟩

theorem Holds.reload {entries : List (Σ _ : Str, κ)}
    (hentries : (entries : Multiset (Σ _ : Str, κ)) = d.files.entries) (now : ℤ) :
    Holds codec id saved backend { d with table := restarted codec entries now, unsaved := ∅ } := by
  refine ⟨fun st hrow => ?_, h.file⟩
  simp only [restarted, WorkloadTable.lookup_recovered] at hrow
  obtain ⟨st', hload, rfl⟩ := Option.map_eq_some_iff.mp hrow
  obtain ⟨content, hmem, hdec⟩ := (mem_of_lookup_load hload).resolve_left (by
    rw [Finmap.lookup_empty]
    simp)
  rw [← Multiset.mem_coe, hentries] at hmem
  obtain ⟨hspec, hbackend⟩ := h.file content st' (Finmap.mem_lookup_iff.mpr hmem) hdec
  unfold WorkloadState.recovered
  split <;> exact ⟨hspec, hbackend⟩

theorem Holds.later (hlater : Later codec id d d') : Holds codec id saved backend d' := by
  induction hlater with
  | refl => exact h
  | step _ op hop ih => exact ih.step op hop
  | reload _ entries hentries now ih => exact ih.reload hentries now

end

theorem holds_runWorkload (hid : validateWorkloadId id = .ok ()) (policy : RestartPolicy)
    (handle : Handle) (now : ℤ) (hbackend : handle.backend = backend) :
    Holds codec id saved backend (d.runWorkload codec id policy saved handle now) := by
  unfold runWorkload
  rw [hid]
  refine ⟨fun st hrow => ?_, fun content st hfile hdec => ?_⟩
  · simp only [lookup_table_save, if_true] at hrow
    cases hrow
    exact ⟨rfl, hbackend⟩
  · simp only [lookup_files_save, if_true] at hfile
    cases hfile
    rw [codec.decode_encode] at hdec
    cases hdec
    exact ⟨rfl, hbackend⟩

end Checkpointed

/-! ## The restart -/

theorem rebuildSpec_saved {m : RunMessage} {env : SpecEnv} {backend : Backend} {root : Digest}
    {st : WorkloadState SavedSpec} (hspec : st.spec = m.saved (m.spec env backend root))
    (hroot : RuntimeService.runDigest m.rootDigest = .ok root) (hexit : st.status = .exited) :
    rebuildSpec m.id st = some
      { m.spec env backend root with
        restartPolicy := .always
        kernelPath := none
        backend := st.backend
        networkMode := parseNetworkMode (networkModeStr (m.spec env backend root).networkMode)
          (!m.networkRules.isEmpty) } := by
  have hmode : (m.saved (m.spec env backend root)).networkMode ≠ [] := networkModeStr_ne_nil _
  have hdigest : Digest.fromHex (m.saved (m.spec env backend root)).imageRoot = .ok root := hroot
  have hrules : (m.saved (m.spec env backend root)).networkRules.isEmpty = m.networkRules.isEmpty :=
    List.isEmpty_map
  unfold rebuildSpec
  simp only [hspec, hexit, ne_eq, not_true_eq_false, if_false, hmode, not_false_eq_true, if_true,
    fromStr_asStr, hdigest, hrules]
  rfl

/-- **The spec of a restart** is that of the run, whatever has happened to the daemon since, except that
the restart policy is `Always`, the kernel path is left out and the backend is the one it was started on.
-/
theorem restarted_with_spec {σ κ : Type} (launchEnv : LaunchEnv) (h : Host σ) (m : RunMessage)
    (backend : Backend) (hacc : Host.Accepted launchEnv h m.request backend) (env : SpecEnv)
    (root : Digest) (hroot : RuntimeService.runDigest m.rootDigest = .ok root) (rootless : Bool)
    (handle : Handle) (hhandle : backend.routed rootless = some handle.backend)
    (codec : StateCodec SavedSpec κ) (d₀ d : Checkpointed SavedSpec κ) (now : ℤ)
    (hlater : Checkpointed.Later codec m.id
      (d₀.runWorkload codec m.id (parseRestartPolicy m.restartPolicy)
        (m.saved (m.spec env backend root)) handle now) d)
    (st : WorkloadState SavedSpec) (hrow : d.table.lookup m.id = some st)
    (hexit : st.status = .exited) :
    ∃ spec, rebuildSpec m.id st = some spec ∧
      spec = { m.spec env backend root with
        restartPolicy := .always
        kernelPath := none
        backend := handle.backend
        networkMode := spec.networkMode } ∧
      (rootless = false ∨ backend ≠ .container → handle.backend = backend) ∧
      ((m.spec env backend root).networkMode ≠ .loopback ∨ m.networkRules = [] →
        spec.networkMode = (m.spec env backend root).networkMode) := by
  obtain ⟨hspec, hbackend⟩ :=
    ((Checkpointed.holds_runWorkload hacc.valid _ handle now rfl).later hlater).row st hrow
  refine ⟨_, rebuildSpec_saved hspec hroot hexit, by rw [hbackend], fun hrouted => ?_, fun hmode => ?_⟩
  · cases backend with
    | container =>
      have hroot' : rootless = false := hrouted.resolve_right fun hne => hne rfl
      simpa [Backend.routed, hroot', eq_comm] using hhandle
    | containerRootless => cases rootless <;> simp_all [Backend.routed]
    | vm => simpa [Backend.routed, eq_comm] using hhandle
    | sandbox => simp [Backend.routed] at hhandle
  · refine parseNetworkMode_networkModeStr (hmode.imp id fun hnil => ?_)
    rw [hnil]
    rfl

/-! ## Outbound rules, and a kernel -/

def outboundRun : RunMessage where
  id := "w".toList
  rootDigest := List.replicate 64 '0'
  backend := "container".toList
  command := []
  env := ∅
  cpuMillicores := 0
  memoryBytes := 0
  networkMode := []
  networkRules := [⟨"outbound".toList, "tcp".toList, 443, "db".toList, [], 0⟩]
  kernelImage := "kernel:6".toList
  bridgeName := []
  mounts := []
  healthCheck := none
  restartPolicy := 3
  secrets := []
  configs := []
  privileged := false
  readonlyRootfs := true
  noNewPrivileges := false
  seccompProfile := []
  allowedSyscalls := []
  dns := none

def kernelEnv : SpecEnv where
  policy := ⟨false, false, none, []⟩
  kernelCache := fun image => if image = "kernel:6".toList then some "/k/vmlinux".toList else none
  stagedSecretDir := "/s".toList

theorem length_zeroes : (List.replicate 32 (0 : UInt8)).length = 32 := rfl

def zeroRoot : Digest := ⟨List.replicate 32 0, length_zeroes⟩

def outboundSaved : SavedSpec := outboundRun.saved (outboundRun.spec kernelEnv .container zeroRoot)

theorem no_bundles {id : Str} {bundle : ℕ}
    (h : (∅ : Finmap fun _ : Str => ℕ).lookup id = some bundle) : bundle < 0 := by cases h

def noHost : Host SavedSpec := ⟨∅, ∅, ∅, ∅, fun _ => 0, fun _ => 0, 0, @no_bundles⟩

/-- **A workload without a network gets one with its restart, and loses its kernel.** -/
theorem outbound_restarted_bridged :
    (noHost.runWorkload Host.plainEnv Host.allWell outboundSaved outboundRun.request).1 = .ok () ∧
      (outboundRun.spec kernelEnv .container zeroRoot).networkMode = .loopback ∧
      (outboundRun.spec kernelEnv .container zeroRoot).kernelPath = some "/k/vmlinux".toList ∧
      (rebuildSpec "w".toList (WorkloadState.exited (.launched outboundSaved .always
        ⟨.container, 8, none⟩ 1) 2 (some 1))).map (·.networkMode) = some .bridge ∧
      (rebuildSpec "w".toList (WorkloadState.exited (.launched outboundSaved .always
        ⟨.container, 8, none⟩ 1) 2 (some 1))).map (·.kernelPath) = some none := by
  decide +kernel

/-- `outboundRun` with a bridge. -/
def bridgedRun : RunMessage := { outboundRun with networkMode := "bridge".toList }

theorem bridgedRun_accepted : Host.Accepted Host.plainEnv noHost bridgedRun.request .container := by
  obtain ⟨hvalid, hparsed, hjoin, hkernel, hpolicy, harch⟩ := checkRequest_eq_ok.mp
    (show checkRequest Host.plainEnv noHost.table bridgedRun.request = .ok .container by decide +kernel)
  exact ⟨hvalid, hparsed, hjoin, hkernel, hpolicy, harch,
    Host.stageFiles_eq_ok.mp (by decide +kernel), by simp [bridgedRun, outboundRun, RunMessage.request],
    zeroRoot, by decide +kernel⟩

def bridgedExit : WorkloadState SavedSpec :=
  WorkloadState.exited (.launched (bridgedRun.saved (bridgedRun.spec kernelEnv .container zeroRoot))
    .always ⟨.container, 8, none⟩ 1) 2 (some 1)

theorem bridged_restarted :
    ∃ spec, rebuildSpec "w".toList bridgedExit = some spec ∧ spec.networkMode = .bridge := by
  obtain ⟨spec, hspec, -, -, hmode⟩ := restarted_with_spec Host.plainEnv noHost bridgedRun .container
    bridgedRun_accepted kernelEnv zeroRoot (by decide +kernel) false ⟨.container, 8, none⟩ rfl
    (.plain SavedSpec) .init _ 1
    (.step (.refl _) (.exit "w".toList (some 1) false none 2 3) fun _ _ _ _ h => by cases h)
    bridgedExit (by decide +kernel) rfl
  exact ⟨spec, hspec, hmode (.inl (by decide +kernel))⟩

end Pullrun
