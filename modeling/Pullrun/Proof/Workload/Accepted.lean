import Pullrun.Workload.Launch

/-!
# What `run_workload` accepts

Each check of a run as the condition it stands for, and the two ways through the function: a request
that fails a check has touched the staging directory of its id at most, and one that passes them all
comes to the executor.
-/

namespace Pullrun

open List Option Finmap RuntimeService

theorem check_then_eq_ok {ε β : Type} {x : Except ε Unit} {f : Unit → Except ε β} {b : β} :
    (x >>= f) = .ok b ↔ x = .ok () ∧ f () = .ok b := by
  cases x with
  | error e | ok a => simp [bind, Except.bind]

/-! ## What the checks accept -/

section Checks

variable {σ : Type} {env : LaunchEnv} {table : WorkloadTable σ} {req : RunRequest} {backend : Backend}

/-- A network namespace is only joined if it is that of another workload, in a container. -/
def JoinOk (table : WorkloadTable σ) (req : RunRequest) (backend : Backend) : Prop :=
  ∀ target, parseNetworkMode req.networkMode req.hasInboundPorts = .container target →
    target ≠ req.id ∧ backend ≠ .vm ∧ ∃ st ∈ table.lookup target, st.backend.isContainer = true

theorem checkJoin_eq_ok : checkJoin table req backend = .ok () ↔ JoinOk table req backend := by
  unfold checkJoin JoinOk
  cases parseNetworkMode req.networkMode req.hasInboundPorts with
  | container target =>
    by_cases hid : target = req.id
    · simp [hid]
    by_cases hvm : backend = .vm
    · simp [hid, hvm]
    cases hrow : table.lookup target with
    | none | some st => simp [hid, hvm, hrow]
  | bridge | host | slirp | loopback => simp

def KernelOk (env : LaunchEnv) (req : RunRequest) (backend : Backend) : Prop :=
  backend = .vm →
    if req.kernelImage = [] then env.vmBackend = true else env.kernelStaged req.kernelImage = true

theorem checkKernel_eq_ok : checkKernel env req backend = .ok () ↔ KernelOk env req backend := by
  unfold checkKernel KernelOk
  by_cases hvm : backend = .vm <;> by_cases hk : req.kernelImage = [] <;> simp [hvm, hk]

theorem checkPolicy_eq_ok :
    checkPolicy env req = .ok () ↔ PassesPolicy env.policyFormats env.policyEngine
      env.imageTags env.store req.rootDigest := by
  unfold checkPolicy PassesPolicy
  cases evaluateForRun env.policyFormats env.policyEngine env.imageTags env.store
    (strippedDigest req.rootDigest) <;> simp

def ArchOk (env : LaunchEnv) (req : RunRequest) (backend : Backend) : Prop :=
  backend ≠ .vm → ∃ root arch, RuntimeService.runDigest req.rootDigest = .ok root ∧
    env.manifestArch root = some arch ∧ (arch = env.currentArch ∨ env.ensureBinfmt arch = true)

theorem checkDigest_eq_ok {root : Digest} :
    checkDigest req = .ok root ↔ runDigest req.rootDigest = .ok root := by
  unfold checkDigest
  cases runDigest req.rootDigest <;> simp

theorem checkArch_eq_ok : checkArch env req backend = .ok () ↔ ArchOk env req backend := by
  unfold checkArch ArchOk checkDigest
  by_cases hvm : backend = .vm
  · simp [hvm]
  cases runDigest req.rootDigest with
  | error e => simp [hvm]
  | ok root =>
    cases harch : env.manifestArch root with
    | none => simp [hvm, harch]
    | some arch =>
      by_cases hok : arch = env.currentArch ∨ env.ensureBinfmt arch = true <;> simp [hvm, harch, hok]

theorem sanitizeMounts_eq_ok {mounts : List MountRequest} :
    sanitizeMounts env mounts = .ok () ↔
      ∀ m ∈ mounts, checkSource env m = .ok () ∧ checkDestination m = .ok () := by
  induction mounts with
  | nil => simp [sanitizeMounts]
  | cons m ms ih =>
    rw [sanitizeMounts, check_then_eq_ok, check_then_eq_ok, ih, forall_mem_cons, and_assoc]

theorem checkRequest_eq_ok :
    checkRequest env table req = .ok backend ↔ validateWorkloadId req.id = .ok () ∧
      Backend.fromStr (env.toLowercase req.backend) = some backend ∧ JoinOk table req backend ∧
      KernelOk env req backend ∧ PassesPolicy env.policyFormats env.policyEngine
        env.imageTags env.store req.rootDigest ∧ ArchOk env req backend := by
  unfold checkRequest
  cases validateWorkloadId req.id with
  | error e => simp
  | ok u =>
    cases Backend.fromStr (env.toLowercase req.backend) with
    | none => simp
    | some b =>
      simp only [check_then_eq_ok, checkJoin_eq_ok, checkKernel_eq_ok, checkPolicy_eq_ok,
        checkArch_eq_ok, true_and, some.injEq, pure, Except.pure, Except.ok.injEq]
      constructor
      · rintro ⟨hj, hk, hp, ha, rfl⟩
        exact ⟨rfl, hj, hk, hp, ha⟩
      · rintro ⟨rfl, hj, hk, hp, ha⟩
        exact ⟨hj, hk, hp, ha, rfl⟩

end Checks

/-! ## Staging -/

def StageOk (read : Str → Option Bytes) (dir : StageDir) (rs : List StageRequest) : Prop :=
  (∀ r ∈ rs, read r.name ≠ none ∧ dir.lookup r.name = none) ∧ (rs.map (·.name)).Nodup

variable {dir : StageDir} {read : Str → Option Bytes} {rs : List StageRequest} {name : Str}
  {content : Bytes}

theorem lookup_insert_eq_none {name' : Str} :
    Finmap.lookup name' (Finmap.insert name content dir) = none ↔
      name' ≠ name ∧ dir.lookup name' = none := by
  by_cases hname : name' = name
  · rw [hname, lookup_insert]
    simp
  · rw [lookup_insert_of_ne _ hname]
    simp [hname]

theorem stageAll_eq_ok : (stageAll read dir rs).1 = .ok () ↔ StageOk read dir rs := by
  induction rs generalizing dir with
  | nil => simp [stageAll, StageOk]
  | cons r rs ih =>
    unfold stageAll StageOk
    cases hread : read r.name with
    | none => simp [hread]
    | some content =>
      cases hdir : dir.lookup r.name with
      | some old => simp [hdir]
      | none =>
        -- a name that is staged is taken from then on
        simp only [ih, StageOk, lookup_insert_eq_none, forall_mem_cons, map_cons,
          nodup_cons, hread, hdir]
        constructor
        · rintro ⟨hall, hnodup⟩
          refine ⟨⟨⟨some_ne_none content, trivial⟩, fun r' hr' => ?_⟩, fun hmem => ?_, hnodup⟩
          · exact ⟨(hall r' hr').1, (hall r' hr').2.2⟩
          · obtain ⟨r', hr', hname⟩ := mem_map.mp hmem
            exact (hall r' hr').2.1 hname
        · rintro ⟨⟨_, hall⟩, hnot, hnodup⟩
          refine ⟨fun r' hr' => ⟨(hall r' hr').1, fun hname => hnot ?_, (hall r' hr').2⟩, hnodup⟩
          exact mem_map.mpr ⟨r', hr', hname⟩

theorem lookup_stageAll_eq_none (h : StageOk read dir rs) :
    (stageAll read dir rs).2.lookup name = none ↔
      dir.lookup name = none ∧ name ∉ rs.map (·.name) := by
  induction rs generalizing dir with
  | nil => simp [stageAll]
  | cons r rs ih =>
    obtain ⟨content, hread⟩ := ne_none_iff_exists'.mp (h.1 r mem_cons_self).1
    have hdir := (h.1 r mem_cons_self).2
    have hrest : StageOk read (Finmap.insert r.name content dir) rs := by
      rw [← stageAll_eq_ok] at h ⊢
      simpa only [stageAll, hread, hdir] using h
    unfold stageAll
    simp only [hread, hdir, ih hrest, lookup_insert_eq_none, map_cons, mem_cons, not_or]
    tauto

theorem stageAll_keeps (h : dir.lookup name = some content) :
    (stageAll read dir rs).2.lookup name = some content := by
  induction rs generalizing dir with
  | nil => exact h
  | cons r rs ih =>
    unfold stageAll
    cases hread : read r.name with
    | none => exact h
    | some new =>
      cases hdir : dir.lookup r.name with
      | some old => exact h
      | none =>
        refine ih ?_
        have hne : name ≠ r.name := by
          rintro rfl
          rw [h] at hdir
          cases hdir
        rw [lookup_insert_of_ne _ hne]
        exact h

/-- Every secret and config can be read, and their names are new to the staging directory. -/
structure FilesOk (env : LaunchEnv) (dir : StageDir) (req : RunRequest) : Prop where
  secrets : ∀ r ∈ req.secrets, env.readSecretRaw r.name ≠ none
  configs : ∀ r ∈ req.configs, env.readConfigRaw r.name ≠ none
  free : ∀ r ∈ req.secrets ++ req.configs, dir.lookup r.name = none
  nodup : ((req.secrets ++ req.configs).map (·.name)).Nodup

namespace Host

variable {σ : Type} {env : LaunchEnv} {req : RunRequest} {h : Host σ} {o : ExecOutcome} {spec : σ}

theorem stageFiles_eq_ok :
    (h.stageFiles env req).1 = .ok () ↔ FilesOk env (h.stageDir req.id) req := by
  unfold stageFiles
  by_cases hempty : req.secrets = [] ∧ req.configs = []
  · rw [if_pos hempty]
    refine iff_of_true rfl ⟨?_, ?_, ?_, ?_⟩ <;> simp [hempty]
  rw [if_neg hempty]
  have hsecrets := @stageAll_eq_ok (h.stageDir req.id) env.readSecretRaw req.secrets
  cases hfirst : (stageAll env.readSecretRaw (h.stageDir req.id) req.secrets).1 with
  | error e =>
    rw [hfirst] at hsecrets
    simp only [hfirst, reduceCtorEq, false_iff] at hsecrets ⊢
    intro hok
    refine hsecrets ⟨fun r hr => ⟨hok.secrets r hr, hok.free r (mem_append_left _ hr)⟩, ?_⟩
    have := hok.nodup
    rw [map_append] at this
    exact this.of_append_left
  | ok _ =>
    have hstage := hsecrets.mp hfirst
    simp only [hfirst, stageAll_eq_ok, StageOk, lookup_stageAll_eq_none hstage]
    obtain ⟨hread, hnodup⟩ := hstage
    constructor
    · rintro ⟨hall, hnodup'⟩
      refine ⟨fun r hr => (hread r hr).1, fun r hr => (hall r hr).1, fun r hr => ?_, ?_⟩
      · rcases mem_append.mp hr with hr | hr
        · exact (hread r hr).2
        · exact (hall r hr).2.1
      · rw [map_append, nodup_append']
        refine ⟨hnodup, hnodup', fun name hmem hmem' => ?_⟩
        obtain ⟨r, hr, rfl⟩ := mem_map.mp hmem'
        exact (hall r hr).2.2 hmem
    · intro hok
      have hdisj := hok.nodup
      rw [map_append, nodup_append'] at hdisj
      refine ⟨fun r hr => ⟨hok.configs r hr, hok.free r (mem_append_right _ hr), ?_⟩, hdisj.2.1⟩
      exact fun hmem => hdisj.2.2 hmem (mem_map.mpr ⟨r, hr, rfl⟩)

theorem stageDir_setStageDir (dir : StageDir) (id : Str) : (h.setStageDir id dir).stageDir id = dir := by
  unfold stageDir setStageDir
  rw [lookup_insert, getD_some]

/-- What staging leaves alone: everything but the staging directory, and what is in that. -/
structure StageFrame (h h' : Host σ) (id : Str) : Prop where
  table : h'.table = h.table
  containers : h'.containers = h.containers
  bundles : h'.bundles = h.bundles
  sessions : h'.sessions = h.sessions
  vmDirs : h'.vmDirs = h.vmDirs
  staged : ∀ name content, (h.stageDir id).lookup name = some content →
    (h'.stageDir id).lookup name = some content

theorem stageFrame_setStageDir {id : Str}
    (hkeep : ∀ name content, (h.stageDir id).lookup name = some content →
      dir.lookup name = some content) : StageFrame h (h.setStageDir id dir) id :=
  ⟨rfl, rfl, rfl, rfl, rfl, by rw [stageDir_setStageDir]; exact hkeep⟩

theorem stageFiles_frame : StageFrame h (h.stageFiles env req).2 req.id := by
  unfold stageFiles
  by_cases hempty : req.secrets = [] ∧ req.configs = []
  · rw [if_pos hempty]
    exact ⟨rfl, rfl, rfl, rfl, rfl, fun _ _ hfile => hfile⟩
  rw [if_neg hempty]
  cases hfirst : (stageAll env.readSecretRaw (h.stageDir req.id) req.secrets).1 with
  | error e =>
    simp only [hfirst]
    exact stageFrame_setStageDir fun _ _ hfile => stageAll_keeps hfile
  | ok _ =>
    simp only [hfirst]
    exact stageFrame_setStageDir fun _ _ hfile => stageAll_keeps (stageAll_keeps hfile)

theorem StageFrame.refl (h : Host σ) (id : Str) : StageFrame h h id :=
  ⟨rfl, rfl, rfl, rfl, rfl, fun _ _ hfile => hfile⟩

/-! ## The request -/

/-- The request passes every check of `run_workload`, for the backend. -/
structure Accepted (env : LaunchEnv) (h : Host σ) (req : RunRequest) (backend : Backend) : Prop where
  valid : validateWorkloadId req.id = .ok ()
  parsed : Backend.fromStr (env.toLowercase req.backend) = some backend
  join : JoinOk h.table req backend
  kernel : KernelOk env req backend
  policy : RuntimeService.PassesPolicy env.policyFormats env.policyEngine env.imageTags env.store
    req.rootDigest
  arch : ArchOk env req backend
  files : FilesOk env (h.stageDir req.id) req
  mounts : ∀ m ∈ req.mounts, checkSource env m = .ok () ∧ checkDestination m = .ok ()
  digest : ∃ root, RuntimeService.runDigest req.rootDigest = .ok root

theorem runWorkload_cases :
    ((∀ backend, ¬ Accepted env h req backend) ∧
      ∃ e h', h.runWorkload env o spec req = (.error e, h') ∧ StageFrame h h' req.id) ∨
    ∃ backend h', Accepted env h req backend ∧ StageFrame h h' req.id ∧
      h.runWorkload env o spec req = record o spec req (h'.execute env o req backend) := by
  unfold runWorkload
  cases hcheck : checkRequest env h.table req with
  | error e =>
    refine .inl ⟨fun backend hacc => ?_, e, h, rfl, .refl h req.id⟩
    cases hcheck.symm.trans (checkRequest_eq_ok.mpr
      ⟨hacc.valid, hacc.parsed, hacc.join, hacc.kernel, hacc.policy, hacc.arch⟩)
  | ok backend =>
    obtain ⟨hid, hbackend, hjoin, hkernel, hpolicy, harch⟩ := checkRequest_eq_ok.mp hcheck
    have hframe := @stageFiles_frame σ env req h
    cases hstage : (h.stageFiles env req).1 with
    | error e =>
      simp only [hstage]
      refine .inl ⟨fun backend hacc => ?_, e, _, rfl, hframe⟩
      cases hstage.symm.trans (stageFiles_eq_ok.mpr hacc.files)
    | ok _ =>
      simp only [hstage]
      have hfiles := stageFiles_eq_ok.mp hstage
      unfold launch
      cases hmounts : sanitizeMounts env req.mounts with
      | error e =>
        refine .inl ⟨fun backend hacc => ?_, e, _, rfl, hframe⟩
        cases hmounts.symm.trans (sanitizeMounts_eq_ok.mpr hacc.mounts)
      | ok _ =>
        cases hdigest : checkDigest req with
        | error e =>
          refine .inl ⟨fun backend hacc => ?_, e, _, rfl, hframe⟩
          obtain ⟨root, hroot⟩ := hacc.digest
          cases hdigest.symm.trans (checkDigest_eq_ok.mpr hroot)
        | ok root =>
          refine .inr ⟨backend, _, ?_, hframe, rfl⟩
          exact ⟨hid, hbackend, hjoin, hkernel, hpolicy, harch, hfiles,
            sanitizeMounts_eq_ok.mp hmounts, root, checkDigest_eq_ok.mp hdigest⟩

theorem Accepted.unique {backend backend' : Backend} (h1 : Accepted env h req backend)
    (h2 : Accepted env h req backend') : backend = backend' :=
  some.inj (h1.parsed.symm.trans h2.parsed)

end Host

end Pullrun
