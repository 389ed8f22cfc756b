import Pullrun.Proof.Workload.Accepted
import Pullrun.Workload.Sample

/-!
# A run under an id that is in use

No layer asks whether an id is in use. A request that comes as far as the container executor removes
the bundle the running container stands on, and `runc run`, which refuses the id, is followed by the
clean-up that kills it. A request for a machine that comes as far as `create` puts a session for the id
into the proxy, in the place of the container's, and a directory with `network.json` beside it; what fails
after that undoes neither.
-/

namespace Pullrun

namespace Host

variable {σ : Type} {env : LaunchEnv} {req : RunRequest} {h h' : Host σ} {o : ExecOutcome} {spec : σ}
  {backend : Backend}

/-- **The request is rejected without side effects** on the workload: its container runs on the same
    bundle, its state, its staged files and its session in the proxy are as they were, and no directory of a
    machine has been made under its id. -/
structure Intact (h : Host σ) (id : Str) (after : Except LaunchError Unit × Host σ) : Prop where
  rejected : ∃ e, after.1 = .error e
  container : after.2.containers.lookup id = h.containers.lookup id
  bundle : after.2.bundles.lookup id = h.bundles.lookup id
  record : after.2.table.lookup id = h.table.lookup id
  staged : ∀ name content, (h.stageDir id).lookup name = some content →
    (after.2.stageDir id).lookup name = some content
  session : after.2.sessions id = h.sessions id
  vmDir : after.2.vmDirs id = h.vmDirs id

theorem StageFrame.intact (hframe : StageFrame h h' req.id) (e : LaunchError) :
    Intact h req.id (.error e, h') :=
  ⟨⟨e, rfl⟩, by rw [hframe.containers], by rw [hframe.bundles], by rw [hframe.table], hframe.staged,
    by rw [hframe.sessions], by rw [hframe.vmDirs]⟩

/-- The executor of the backend fails before it does anything under the id. -/
def Spared (env : LaunchEnv) (o : ExecOutcome) : Backend → Prop
  | .container => o.runcFound = false
  | .vm => env.vmBackend = true → o.vmSession = false ∧ o.vmDir = false ∧ o.vmCreated = false
  | .containerRootless | .sandbox => True

theorem execute_of_spared (req : RunRequest) (hspared : Spared env o backend) (h : Host σ) :
    ∃ e, h.execute env o req backend = (.error e, h) := by
  cases backend with
  | container =>
    have hrunc : o.runcFound = false := hspared
    exact ⟨.createFailed, by simp [execute, runContainer, createContainer, hrunc]⟩
  | vm =>
    refine ⟨.createFailed, ?_⟩
    unfold execute
    by_cases hvm : env.vmBackend = true
    · obtain ⟨hsession, hdir, hcreated⟩ := hspared hvm
      simp [hvm, hsession, hdir, hcreated, createVm]
    · simp [hvm]
  | containerRootless | sandbox => exact ⟨.createFailed, rfl⟩

theorem bundles_startContainer (join : Bool) (id : Str) :
    (h.startContainer o join id).2.bundles = h.bundles := by
  unfold startContainer
  split
  · rfl
  split
  · rfl
  split
  · split <;> rfl
  · rfl

theorem bundles_runContainer (hrunc : o.runcFound = true) (join : Bool) (id : Str) :
    (h.runContainer o join id).2.bundles = (h.makeBundle id).bundles := by
  unfold runContainer
  simp only [createContainer, hrunc, if_true]
  split
  · split <;> exact bundles_startContainer join id
  · rfl

theorem not_intact_of_reached (hframe : StageFrame h h' req.id) (hreached : ¬ Spared env o backend) :
    ¬ Intact h req.id (record o spec req (h'.execute env o req backend)) := by
  intro hintact
  cases backend with
  | container =>
    have hrunc : o.runcFound = true := by simpa [Spared] using hreached
    have hbundle := hintact.bundle
    have hrecord : ∀ after : Except LaunchError Handle × Host σ,
        (record o spec req after).2.bundles = after.2.bundles := by rintro ⟨_ | _, _⟩ <;> rfl
    rw [hrecord, execute, bundles_runContainer hrunc, ← hframe.bundles] at hbundle
    have hnew : (h'.makeBundle req.id).bundles.lookup req.id = some h'.fresh := Finmap.lookup_insert _
    exact absurd (h'.bundle_lt (hbundle.symm.trans hnew)) (lt_irrefl _)
  | vm =>
    obtain ⟨hvm, hmade⟩ : env.vmBackend = true ∧
        ¬ (o.vmSession = false ∧ o.vmDir = false ∧ o.vmCreated = false) := by
      simpa only [Spared, Classical.not_imp] using hreached
    have hhost : (record o spec req (h'.execute env o req .vm)).2.sessions = (h'.createVm o req.id).sessions ∧
        (record o spec req (h'.execute env o req .vm)).2.vmDirs = (h'.createVm o req.id).vmDirs := by
      unfold execute
      simp only [hvm, not_true_eq_false, if_false]
      split
      · exact ⟨rfl, rfl⟩
      · split <;> exact ⟨rfl, rfl⟩
    have hsession := hintact.session
    have hdir := hintact.vmDir
    rw [hhost.1, ← hframe.sessions] at hsession
    rw [hhost.2, ← hframe.vmDirs] at hdir
    unfold createVm at hsession hdir
    refine hmade ⟨?_, ?_⟩
    · by_contra hs
      have hs : o.vmSession = true := by simpa using hs
      simp [hs, bump] at hsession
    · by_contra hd
      have hor : o.vmDir = true ∨ o.vmCreated = true := by
        cases hv : o.vmDir <;> cases hc : o.vmCreated <;> simp_all
      simp [hor, bump] at hdir
  | containerRootless | sandbox => exact hreached trivial

/-- **What keeps a workload safe from a run of its id.** For every host, request and outcome: the
    request is rejected without side effects on the workload of that id exactly when it fails one of
    the checks, or the executor of its backend fails before it does anything under the id. -/
theorem intact_iff :
    Intact h req.id (h.runWorkload env o spec req) ↔
      ∀ backend, Accepted env h req backend → Spared env o backend := by
  rcases @runWorkload_cases σ env req h o spec with
    ⟨hnot, e, h', hrun, hframe⟩ | ⟨backend, h', hacc, hframe, hrun⟩
  · rw [hrun]
    exact iff_of_true (hframe.intact e) fun backend hacc => absurd hacc (hnot backend)
  · rw [hrun]
    constructor
    · intro hintact backend' hacc'
      by_contra hreached
      rw [hacc'.unique hacc] at hreached
      exact not_intact_of_reached hframe hreached hintact
    · intro hspared
      obtain ⟨e, hexec⟩ := execute_of_spared req (hspared backend hacc) h'
      rw [hexec]
      exact hframe.intact e

/-! ## A second run of a running container -/

def oneContainer : Host Unit where
  table := WorkloadTable.set ∅ "w".toList (.launched () .no ⟨.container, 7, none⟩ 0)
  containers := Finmap.insert "w".toList 0 ∅
  bundles := Finmap.insert "w".toList 0 ∅
  staged := ∅
  sessions := fun _ => 0
  vmDirs := fun _ => 0
  fresh := 1
  bundle_lt := by
    intro id bundle h
    by_cases hid : id = "w".toList
    · rw [hid, Finmap.lookup_insert, Option.some.injEq] at h
      omega
    · rw [Finmap.lookup_insert_of_ne _ hid, Finmap.lookup_empty] at h
      cases h

def secondRun : RunRequest := plainRun

/-- **A second run kills the first workload.** -/
theorem second_run_kills :
    oneContainer.table.Running "w".toList ∧
      oneContainer.containers.lookup "w".toList = oneContainer.bundles.lookup "w".toList ∧
      (oneContainer.runWorkload plainEnv allWell () secondRun).1 = .error .startFailed ∧
      (oneContainer.runWorkload plainEnv allWell () secondRun).2.containers.lookup "w".toList = none ∧
      (oneContainer.runWorkload plainEnv allWell () secondRun).2.bundles.lookup "w".toList ≠
        oneContainer.bundles.lookup "w".toList ∧
      (oneContainer.runWorkload plainEnv allWell () secondRun).2.table.Running "w".toList := by
  decide +kernel

end Host

end Pullrun
