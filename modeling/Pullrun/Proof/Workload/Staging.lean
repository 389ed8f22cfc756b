import Pullrun.Proof.Workload.Accepted
import Pullrun.Workload.Sample

/-!
# What a failed run leaves behind

The secrets and configs of a run are written to its staging directory before its mounts and its digest
are looked at and before the executor is asked for anything, and no exit after that removes them. A second
thing is left by a container that runs and whose network cannot be set up: the run fails, the container stays,
and runc refuses the id from then on.
-/

namespace Pullrun.Host

variable {σ : Type} {env : LaunchEnv} {req : RunRequest} {h : Host σ} {o : ExecOutcome} {spec : σ}
  {backend : Backend}

/-! ## What is staged -/

def stagedFiles (env : LaunchEnv) (req : RunRequest) : List (Str × Option Bytes) :=
  req.secrets.map (fun r => (r.name, env.readSecretRaw r.name)) ++
    req.configs.map fun r => (r.name, env.readConfigRaw r.name)

def FirstRefused (env : LaunchEnv) (dir : StageDir) (req : RunRequest) : Prop :=
  ∀ file, (stagedFiles env req).head? = some file → file.2 = none ∨ dir.lookup file.1 ≠ none

def ReachesStaging (env : LaunchEnv) (h : Host σ) (req : RunRequest) : Prop :=
  ∃ backend, validateWorkloadId req.id = .ok () ∧
    Backend.fromStr (env.toLowercase req.backend) = some backend ∧ JoinOk h.table req backend ∧
    KernelOk env req backend ∧ RuntimeService.PassesPolicy env.policyFormats env.policyEngine
      env.imageTags env.store req.rootDigest ∧ ArchOk env req backend

theorem stageAll_first (read : Str → Option Bytes) (dir : StageDir) (r : StageRequest)
    (rs : List StageRequest) :
    ((read r.name = none ∨ dir.lookup r.name ≠ none) ∧
        ∃ e, stageAll read dir (r :: rs) = (.error e, dir)) ∨
      (read r.name ≠ none ∧ dir.lookup r.name = none) ∧
        ∃ content, (stageAll read dir (r :: rs)).2.lookup r.name = some content := by
  unfold stageAll
  cases hread : read r.name with
  | none => exact .inl ⟨.inl rfl, _, rfl⟩
  | some content =>
    cases hdir : dir.lookup r.name with
    | some old => exact .inl ⟨.inr (by simp), _, rfl⟩
    | none =>
      refine Or.inr ⟨⟨by simp, rfl⟩, content, ?_⟩
      exact stageAll_keeps (Finmap.lookup_insert _)

theorem stageDir_setStageDir_self (id id' : Str) :
    (h.setStageDir id (h.stageDir id)).stageDir id' = h.stageDir id' := by
  by_cases hid : id' = id
  · rw [hid, stageDir_setStageDir]
  · unfold stageDir setStageDir
    rw [Finmap.lookup_insert_of_ne _ hid]

theorem stageFiles_first :
    (FirstRefused env (h.stageDir req.id) req ∧
        ∀ id, (h.stageFiles env req).2.stageDir id = h.stageDir id) ∨
      ¬ FirstRefused env (h.stageDir req.id) req ∧ ∃ name content,
        (h.stageDir req.id).lookup name = none ∧
        ((h.stageFiles env req).2.stageDir req.id).lookup name = some content := by
  unfold stageFiles FirstRefused stagedFiles
  cases hsecrets : req.secrets with
  | cons r rs =>
    simp only [reduceCtorEq, false_and, if_false, List.map_cons, List.cons_append, List.head?_cons,
      Option.some.injEq, forall_eq']
    rcases stageAll_first env.readSecretRaw (h.stageDir req.id) r rs with
      ⟨href, e, heq⟩ | ⟨⟨hread, hfree⟩, content, hstays⟩
    · refine Or.inl ⟨href, fun id => ?_⟩
      simp only [heq]
      exact stageDir_setStageDir_self req.id id
    · refine Or.inr ⟨fun href => href.elim hread fun htaken => htaken hfree, r.name, content, hfree, ?_⟩
      -- The configs that follow do not take it away.
      cases hok : (stageAll env.readSecretRaw (h.stageDir req.id) (r :: rs)).1 with
      | error e =>
        simp only [stageDir_setStageDir]
        exact hstays
      | ok _ =>
        simp only [stageDir_setStageDir]
        exact stageAll_keeps hstays
  | nil =>
    cases hconfigs : req.configs with
    | nil => exact .inl ⟨by simp, fun id => rfl⟩
    | cons r rs =>
      simp only [reduceCtorEq, and_false, if_false, List.map_nil, List.nil_append, List.map_cons,
        List.head?_cons, Option.some.injEq, forall_eq', stageAll]
      rcases stageAll_first env.readConfigRaw (h.stageDir req.id) r rs with
        ⟨href, e, heq⟩ | ⟨⟨hread, hfree⟩, content, hstays⟩
      · refine Or.inl ⟨href, fun id => ?_⟩
        have hdir : (stageAll env.readConfigRaw (h.stageDir req.id) (r :: rs)).2 = h.stageDir req.id := by
          rw [heq]
        rw [stageAll] at hdir
        rw [hdir]
        exact stageDir_setStageDir_self req.id id
      · refine Or.inr ⟨fun href => href.elim hread fun htaken => htaken hfree, r.name, content, hfree, ?_⟩
        rw [stageDir_setStageDir]
        exact hstays

/-! ## The executor -/

theorem record_ok_iff (after : Except LaunchError Handle × Host σ) :
    (record o spec req after).1 = .ok () ↔ ∃ handle, after.1 = .ok handle := by
  rcases after with ⟨_ | handle, _⟩ <;> simp [record]

theorem record_containers (after : Except LaunchError Handle × Host σ) :
    (record o spec req after).2.containers = after.2.containers := by
  rcases after with ⟨_ | handle, _⟩ <;> rfl

theorem record_staged (after : Except LaunchError Handle × Host σ) :
    (record o spec req after).2.staged = after.2.staged := by
  rcases after with ⟨_ | handle, _⟩ <;> rfl

theorem record_table {e : LaunchError} {after : Except LaunchError Handle × Host σ}
    (h : (record o spec req after).1 = .error e) : (record o spec req after).2.table = after.2.table := by
  rcases after with ⟨_ | handle, _⟩
  · rfl
  · cases h

/-- The executors touch neither the table nor the staged files. -/
theorem startContainer_frame (join : Bool) (id : Str) :
    (h.startContainer o join id).2.table = h.table ∧ (h.startContainer o join id).2.staged = h.staged := by
  unfold startContainer
  split
  · exact ⟨rfl, rfl⟩
  split
  · exact ⟨rfl, rfl⟩
  split
  · split <;> exact ⟨rfl, rfl⟩
  · exact ⟨rfl, rfl⟩

theorem runContainer_frame (join : Bool) (id : Str) :
    (h.runContainer o join id).2.table = h.table ∧ (h.runContainer o join id).2.staged = h.staged := by
  have hstart := @startContainer_frame σ (h.makeBundle id) o join id
  unfold runContainer
  by_cases hrunc : o.runcFound = true
  · simp only [createContainer, hrunc, if_true]
    split
    · split <;> exact hstart
    · exact ⟨rfl, rfl⟩
  · simp only [createContainer, hrunc]
    exact ⟨rfl, rfl⟩

theorem execute_vm (h : Host σ) : ∃ after : Host σ, after.table = h.table ∧ after.staged = h.staged ∧
    after.containers = h.containers ∧ h.execute env o req .vm =
      (if env.vmBackend = true ∧ o.vmCreated = true then
        if o.vmStarted = true then .ok { o.handle with backend := .vm } else .error .startFailed
      else .error .createFailed, after) := by
  by_cases hvm : env.vmBackend = true
  · refine ⟨h.createVm o req.id, rfl, rfl, rfl, ?_⟩
    by_cases hcreated : o.vmCreated = true
    · by_cases hstarted : o.vmStarted = true <;> simp [execute, hvm, hcreated, hstarted]
    · simp [execute, hvm, hcreated]
  · exact ⟨h, rfl, rfl, rfl, by simp [execute, hvm]⟩

theorem execute_frame (backend : Backend) : (h.execute env o req backend).2.table = h.table ∧
    (h.execute env o req backend).2.staged = h.staged := by
  cases backend with
  | container => exact runContainer_frame _ _
  | vm =>
    obtain ⟨after, htable, hstaged, -, hexec⟩ := @execute_vm σ env req o h
    rw [hexec]
    exact ⟨htable, hstaged⟩
  | containerRootless | sandbox => exact ⟨rfl, rfl⟩

theorem staged_launch (backend : Backend) :
    (h.launch env o spec req backend).2.staged = h.staged := by
  unfold launch
  split
  · rfl
  · rfl
  · rw [record_staged]
    exact (execute_frame backend).2

theorem stageDir_runWorkload {backend : Backend} (hcheck : checkRequest env h.table req = .ok backend)
    (id : Str) :
    (h.runWorkload env o spec req).2.stageDir id = (h.stageFiles env req).2.stageDir id := by
  unfold runWorkload
  rw [hcheck]
  simp only
  cases (h.stageFiles env req).1 with
  | error e => rfl
  | ok _ =>
    unfold stageDir
    rw [staged_launch]

/-- The container comes to run, with whatever becomes of its network. -/
def Runs (o : ExecOutcome) (h : Host σ) (req : RunRequest) : Prop :=
  o.runcFound = true ∧ o.built = true ∧
    ((parseNetworkMode req.networkMode req.hasInboundPorts).joins = true → o.joined = true) ∧
    o.spawned = true ∧ h.containers.lookup req.id = none ∧ o.runs = true

theorem startContainer_runs {join : Bool} {id : Str} {bundle : ℕ} (hjoin : join = true → o.joined = true)
    (hspawned : o.spawned = true) (hfree : h.containers.lookup id = none)
    (hbundle : h.bundles.lookup id = some bundle) (hrun : o.runs = true) :
    ∃ h' : Host σ, h'.containers.lookup id = some bundle ∧
      h.startContainer o join id = (o.networked, h') := by
  have hjoin' : ¬ (join = true ∧ ¬ o.joined = true) := fun hj => hj.2 (hjoin hj.1)
  unfold startContainer
  rw [if_neg hjoin', if_neg (not_not.mpr hspawned)]
  simp only [hfree, hbundle]
  rw [if_pos hrun]
  exact ⟨_, Finmap.lookup_insert _, rfl⟩

/-- A failed call of the container executor leaves a container of the id only if it came to run one. -/
theorem runContainer_cases (h : Host σ) (o : ExecOutcome) (req : RunRequest) :
    let after := h.runContainer o (parseNetworkMode req.networkMode req.hasInboundPorts).joins req.id
    Runs o h req ∧ after.2.containers.lookup req.id ≠ none ∧
        ((∃ handle, after.1 = .ok handle) ↔ o.networked = true) ∨
      ¬ Runs o h req ∧ (∃ e, after.1 = .error e) ∧
        (h.containers.lookup req.id = none → after.2.containers.lookup req.id = none) := by
  intro after
  have hbundle : (h.makeBundle req.id).bundles.lookup req.id = some h.fresh := Finmap.lookup_insert _
  by_cases hruns : Runs o h req
  · obtain ⟨hrunc, hbuilt, hjoin, hspawned, hfree, hrun⟩ := hruns
    refine .inl ⟨⟨hrunc, hbuilt, hjoin, hspawned, hfree, hrun⟩, ?_⟩
    obtain ⟨h', hused, hstart⟩ :=
      @startContainer_runs σ (h.makeBundle req.id) o _ _ _ hjoin hspawned hfree hbundle hrun
    have hafter : after = if o.networked = true then (.ok { o.handle with backend := .container }, h')
        else (.error .startFailed, h') := by
      simp only [after, runContainer, createContainer, hrunc, hbuilt, if_true, hstart]
    rw [hafter]
    by_cases hnet : o.networked = true
    · rw [if_pos hnet]
      exact ⟨by rw [hused]; exact Option.some_ne_none _, iff_of_true ⟨_, rfl⟩ hnet⟩
    · rw [if_neg hnet]
      refine ⟨by rw [hused]; exact Option.some_ne_none _, iff_of_false ?_ hnet⟩
      rintro ⟨_, ⟨⟩⟩
  · refine .inr ⟨hruns, ?_⟩
    simp only [after, runContainer, createContainer]
    by_cases hrunc : o.runcFound = true
    · simp only [hrunc, if_true]
      by_cases hbuilt : o.built = true
      · simp only [hbuilt, if_true]
        have hstart : ((h.makeBundle req.id).startContainer o
            (parseNetworkMode req.networkMode req.hasInboundPorts).joins req.id).1 = false ∧
            (h.containers.lookup req.id = none → ((h.makeBundle req.id).startContainer o
              (parseNetworkMode req.networkMode req.hasInboundPorts).joins
              req.id).2.containers.lookup req.id = none) := by
          unfold startContainer
          split
          · exact ⟨rfl, id⟩
          · rename_i hjoin
            split
            · exact ⟨rfl, id⟩
            · rename_i hspawned
              split
              · rename_i hfree _
                have hrun : ¬ o.runs = true := fun hrun => hruns ⟨hrunc, hbuilt,
                  fun hj => by_contra fun hnot => hjoin ⟨hj, hnot⟩, not_not.mp hspawned, hfree, hrun⟩
                rw [if_neg hrun]
                exact ⟨rfl, id⟩
              · exact ⟨rfl, fun _ => Finmap.lookup_erase _ _⟩
        rw [hstart.1]
        exact ⟨⟨_, rfl⟩, hstart.2⟩
      · simp only [hbuilt]
        exact ⟨⟨_, rfl⟩, id⟩
    · simp only [hrunc]
      exact ⟨⟨_, rfl⟩, id⟩

/-! ## Failed runs -/

/-- **A failed run leaves nothing behind**: the staged files are those from before, under every id, and in
    whatever surroundings the same request succeeds on the host from before the failed run, it succeeds
    after it. -/
structure CleanExit (h h' : Host σ) (req : RunRequest) (spec : σ) : Prop where
  nothingLeft : ∀ id name, (h'.stageDir id).lookup name = (h.stageDir id).lookup name
  repeatable : ∀ env o, (h.runWorkload env o spec req).1 = .ok () →
    (h'.runWorkload env o spec req).1 = .ok ()

/-- The request comes to the container executor, and that comes to run a container. -/
def LeavesContainer (env : LaunchEnv) (o : ExecOutcome) (h : Host σ) (req : RunRequest) : Prop :=
  Accepted env h req .container ∧ Runs o h req

/-- A run has the same answer on two hosts that have the same table and staged files, unless the id is in
    use on the second. -/
theorem runWorkload_ok_of {h h' : Host σ} (htable : h'.table = h.table)
    (hdir : h'.stageDir req.id = h.stageDir req.id)
    (hfree : h.containers.lookup req.id = none → h'.containers.lookup req.id = none)
    (hok : (h.runWorkload env o spec req).1 = .ok ()) : (h'.runWorkload env o spec req).1 = .ok () := by
  rcases @runWorkload_cases σ env req h o spec with
    ⟨-, e, _, hrun, -⟩ | ⟨backend, h₁, hacc, hframe, hrun⟩
  · rw [hrun] at hok
    cases hok
  have hacc' : Accepted env h' req backend :=
    ⟨hacc.valid, hacc.parsed, htable ▸ hacc.join, hacc.kernel, hacc.policy, hacc.arch, hdir ▸ hacc.files,
      hacc.mounts, hacc.digest⟩
  rcases @runWorkload_cases σ env req h' o spec with
    ⟨hnot, -⟩ | ⟨backend', h₂, hacc₂, hframe', hrun'⟩
  · exact absurd hacc' (hnot backend)
  cases hacc₂.unique hacc'
  rw [hrun] at hok
  rw [hrun']
  have hexec : (∃ handle, (h₁.execute env o req backend).1 = .ok handle) →
      ∃ handle, (h₂.execute env o req backend).1 = .ok handle := by
    cases backend with
    | container =>
      rintro ⟨handle, hhandle⟩
      rcases runContainer_cases h₁ o req with ⟨hruns, -, hnet⟩ | ⟨-, ⟨e, herr⟩, -⟩
      · have hruns₂ : Runs o h₂ req := by
          refine ⟨hruns.1, hruns.2.1, hruns.2.2.1, hruns.2.2.2.1, ?_, hruns.2.2.2.2.2⟩
          rw [hframe'.containers]
          exact hfree (hframe.containers ▸ hruns.2.2.2.2.1)
        rcases runContainer_cases h₂ o req with ⟨-, -, hnet₂⟩ | ⟨hnot, -⟩
        · exact hnet₂.mpr (hnet.mp ⟨handle, hhandle⟩)
        · exact absurd hruns₂ hnot
      · cases hhandle.symm.trans herr
    | vm =>
      obtain ⟨_, -, -, -, hexec₁⟩ := @execute_vm σ env req o h₁
      obtain ⟨_, -, -, -, hexec₂⟩ := @execute_vm σ env req o h₂
      rw [hexec₁, hexec₂]
      exact id
    | containerRootless | sandbox => rintro ⟨_, ⟨⟩⟩
  rw [record_ok_iff] at hok ⊢
  exact hexec hok

theorem execute_container_free (hnot : backend = .container → ¬ Runs o h req)
    (hfree : h.containers.lookup req.id = none) :
    (h.execute env o req backend).2.containers.lookup req.id = none := by
  cases backend with
  | container =>
    rcases runContainer_cases h o req with ⟨hruns, -⟩ | ⟨-, -, hkeep⟩
    · exact absurd hruns (hnot rfl)
    · exact hkeep hfree
  | vm =>
    obtain ⟨_, -, -, hcontainers, hexec⟩ := @execute_vm σ env req o h
    rw [hexec]
    exact hcontainers ▸ hfree
  | containerRootless | sandbox => exact hfree

/-- A failed run that has not come to run a container leaves the id free, and the table as it was. -/
theorem failed_frame {e : LaunchError} (hfail : (h.runWorkload env o spec req).1 = .error e)
    (hnot : ¬ LeavesContainer env o h req) : (h.runWorkload env o spec req).2.table = h.table ∧
      (h.containers.lookup req.id = none →
        (h.runWorkload env o spec req).2.containers.lookup req.id = none) := by
  rcases @runWorkload_cases σ env req h o spec with
    ⟨-, _, h₁, hrun, hframe⟩ | ⟨backend, h₁, hacc, hframe, hrun⟩
  · rw [hrun]
    exact ⟨hframe.table, fun hfree => by rw [hframe.containers]; exact hfree⟩
  · rw [hrun] at hfail ⊢
    rw [record_table hfail, record_containers]
    have htable := (@execute_frame σ env req h₁ o backend).1
    have hcontainers := @execute_container_free σ env req h₁ o backend fun hb hruns => hnot
      ⟨hb ▸ hacc, hruns.1, hruns.2.1, hruns.2.2.1, hruns.2.2.2.1,
        hframe.containers ▸ hruns.2.2.2.2.1, hruns.2.2.2.2.2⟩
    exact ⟨htable.trans hframe.table, fun hfree => hcontainers (by rw [hframe.containers]; exact hfree)⟩

theorem not_repeatable_of_leaves (hleaves : LeavesContainer env o h req) :
    ¬ CleanExit h (h.runWorkload env o spec req).2 req spec := by
  obtain ⟨hacc, hruns⟩ := hleaves
  intro hclean
  -- with a network that can be set up the run succeeds on the host before, and not on the one after
  let o' := { o with networked := true }
  have hused : (h.runWorkload env o spec req).2.containers.lookup req.id ≠ none := by
    rcases @runWorkload_cases σ env req h o spec with ⟨hno, -⟩ | ⟨backend, h₁, hacc₁, hframe, hrun⟩
    · exact absurd hacc (hno _)
    · cases hacc₁.unique hacc
      rw [hrun, record_containers]
      have hruns₁ : Runs o h₁ req := by rwa [Runs, hframe.containers]
      rcases runContainer_cases h₁ o req with ⟨-, hused, -⟩ | ⟨hnot, -⟩
      · exact hused
      · exact absurd hruns₁ hnot
  have hbefore : (h.runWorkload env o' spec req).1 = .ok () := by
    rcases @runWorkload_cases σ env req h o' spec with ⟨hno, -⟩ | ⟨backend, h₁, hacc₁, hframe, hrun⟩
    · exact absurd hacc (hno _)
    · cases hacc₁.unique hacc
      rw [hrun, record_ok_iff]
      have hruns₁ : Runs o' h₁ req := by rwa [Runs, hframe.containers]
      rcases runContainer_cases h₁ o' req with ⟨-, -, hnet⟩ | ⟨hnot, -⟩
      · exact hnet.mpr rfl
      · exact absurd hruns₁ hnot
  have hafter := hclean.repeatable env o' hbefore
  rcases @runWorkload_cases σ env req (h.runWorkload env o spec req).2 o' spec with
    ⟨-, _, _, hrun, -⟩ | ⟨backend, h₁, hacc₁, hframe, hrun⟩
  · rw [hrun] at hafter
    cases hafter
  · cases hacc₁.parsed.symm.trans hacc.parsed
    rw [hrun, record_ok_iff] at hafter
    rcases runContainer_cases h₁ o' req with ⟨hruns₁, -⟩ | ⟨-, ⟨e, herr⟩, -⟩
    · rw [Runs, hframe.containers] at hruns₁
      exact hused hruns₁.2.2.2.2.1
    · obtain ⟨handle, hok⟩ := hafter
      cases herr.symm.trans hok

def secretEnv : LaunchEnv :=
  { plainEnv with
    readSecretRaw := fun name => if name = "token".toList then some [115, 51, 99] else none }

def emptyHost : Host Unit := ⟨∅, ∅, ∅, ∅, fun _ => 0, fun _ => 0, 0, fun h => by cases h⟩

def secretRun : RunRequest := { plainRun with secrets := [⟨"token".toList, []⟩] }

def noRunc : ExecOutcome := { allWell with runcFound := false }

end Pullrun.Host
