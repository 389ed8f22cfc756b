import Pullrun.Proof.Gc.Collect
import Pullrun.Service.Gc

/-!
# A pull beside a collection

The collector enumerates its roots, looks at the op locks once, and lists the nodes; then it walks from the
roots. What it has listed and does not reach is *condemned*, and swept some time later; a pull that comes by in
between neither sees that nor prevents it. So a node of the image is lost if it is condemned when the pull has
passed it already, or if the last existence test of the pull for it comes before its sweep.
-/

namespace Pullrun

open MmapStore GarbageCollector Sample Schedule Disk List

variable {c : Codec}

namespace Pull

/-- The pull has yet to come to `d`: its existence test is ahead, or the node was found missing and
    is not written yet. -/
def Ahead (p : Pull c) (d : Digest) : Prop :=
  match p.stage with
  | .lock => d ∈ p.image.digests
  | .put _ call rest =>
    ((call.stage = .test ∨ call.stage = .write) ∧ call.digest c = d) ∨
      d ∈ rest.map fun q => c.sha256 q.2
  | _ => False

instance (p : Pull c) (d : Digest) : Decidable (p.Ahead d) :=
  match p with
  | ⟨image, _, .lock⟩ => inferInstanceAs (Decidable (d ∈ image.digests))
  | ⟨_, _, .put _ _ _⟩ => inferInstanceAs (Decidable (_ ∨ _))
  | ⟨_, _, .tag⟩ | ⟨_, _, .count⟩ | ⟨_, _, .unlock⟩ | ⟨_, _, .done⟩ => inferInstanceAs (Decidable False)

theorem ahead_next (p : Pull c) (stored : List Digest) (rest : List (DagNode × Bytes)) (d : Digest) :
    Ahead { p with stage := next stored rest } d ↔ d ∈ rest.map fun q => c.sha256 q.2 := by
  cases rest with
  | nil => simp [next, Ahead]
  | cons q rest =>
    change ((PutStage.test = .test ∨ _) ∧ c.sha256 q.2 = d) ∨ _ ↔ _
    rw [map_cons, mem_cons, eq_comm (a := d)]
    exact or_congr_left ⟨And.right, fun h => ⟨.inl rfl, h⟩⟩

theorem ahead_advance (p : Pull c) (stored : List Digest) (call : PutCall)
    (rest : List (DagNode × Bytes)) (d : Digest) :
    Ahead { p with stage := advance c stored call rest } d ↔
      ((call.stage = .test ∨ call.stage = .write) ∧ call.digest c = d) ∨
        d ∈ rest.map fun q => c.sha256 q.2 := by
  unfold advance
  split
  · rename_i hs
    rw [ahead_next, hs]
    simp
  · rfl

variable {f f' : Files} {p p' : Pull c} {d : Digest}

theorem Steps.not_ahead (h : Steps f p p' f')
    (hd : ¬ p.Ahead d) : ¬ p'.Ahead d := by
  cases h with
  | lock opId ops hs =>
    rw [Ahead, hs] at hd
    exact fun ha => hd ((ahead_next { p with opId } _ _ d).mp ha)
  | put stored call call' rest k hs hcall =>
    rw [ahead_advance]
    rw [Ahead, hs] at hd
    rintro (⟨hstage, hdig⟩ | hrest)
    · cases hcall with
      | absent hs' => exact hd (.inl ⟨.inl hs', hdig⟩)
      | found | write | count => exact absurd hstage (by simp)
    · exact hd (.inr hrest)
  | tag hs | count hs | unlock ops hs => exact id

/-- The pull is about to test for `d`, and will not do so again. -/
def Tests (p : Pull c) (d : Digest) : Prop :=
  match p.stage with
  | .put _ call rest =>
    call.stage = .test ∧ call.digest c = d ∧ d ∉ rest.map fun q => c.sha256 q.2
  | _ => False

/-- The pull has found that `d` is missing, and is about to write it. -/
def Missing (p : Pull c) (d : Digest) : Prop :=
  match p.stage with
  | .put _ call _ => call.stage = .write ∧ call.digest c = d
  | _ => False

instance (p : Pull c) (d : Digest) : Decidable (p.Tests d) :=
  match p with
  | ⟨_, _, .put _ _ _⟩ => inferInstanceAs (Decidable (_ ∧ _ ∧ _))
  | ⟨_, _, .lock⟩ | ⟨_, _, .tag⟩ | ⟨_, _, .count⟩ | ⟨_, _, .unlock⟩ | ⟨_, _, .done⟩ =>
    inferInstanceAs (Decidable False)

/-- A digest is passed by its last test or by a write. -/
theorem Steps.ahead_or_passes (h : Steps f p p' f')
    (hd : p.Ahead d) : p'.Ahead d ∨ p.Tests d ∨ p.Missing d := by
  cases h with
  | lock opId ops hs =>
    rw [Ahead, hs] at hd
    exact .inl ((ahead_next _ _ _ d).mpr hd)
  | put stored call call' rest k hs hcall =>
    rw [ahead_advance, Tests, Missing, hs]
    rw [Ahead, hs] at hd
    by_cases hrest : d ∈ rest.map fun q => c.sha256 q.2
    · exact .inl (.inr hrest)
    · obtain ⟨htest | hwrite, hdig⟩ := hd.resolve_right hrest
      · exact .inr (.inl ⟨htest, hdig, hrest⟩)
      · exact .inr (.inr ⟨hwrite, hdig⟩)
  | tag hs | count hs | unlock ops hs =>
    rw [Ahead, hs] at hd
    exact hd.elim

theorem not_missing_next (p : Pull c) (stored : List Digest) (rest : List (DagNode × Bytes)) (d : Digest) :
    ¬ Missing { p with stage := next stored rest } d := by
  cases rest <;> simp [next, Missing, PutCall.new]

theorem Steps.missing (h : Steps f p p' f')
    (hd : p'.Missing d) : f'.disk.hasNode d = false := by
  cases h with
  | lock opId ops hs => exact absurd hd (not_missing_next { p with opId } _ _ d)
  | put stored call call' rest k hs hcall =>
    unfold advance at hd
    split at hd
    · exact absurd hd (not_missing_next _ _ _ d)
    · obtain ⟨hwrite, rfl⟩ := hd
      cases hcall with
      | absent _ hk => exact hk
      | found | write | count => cases hwrite
  | tag hs | count hs | unlock ops hs => exact hd.elim

/-- The only node that a pull writes is the one that it found missing. -/
theorem Steps.nodes (h : Steps f p p' f') :
    f'.disk.nodes = f.disk.nodes ∨
      ∃ d b, p.Missing d ∧ f'.disk.nodes = f.disk.nodes.insert d b := by
  cases h with
  | lock | tag | unlock => exact .inl rfl
  | count => exact .inl (setRefcount_nodes _ _ _)
  | put stored call call' rest k hs hcall =>
    cases hcall with
    | found | absent => exact .inl rfl
    | count => exact .inl (setRefcount_nodes _ _ _)
    | write hwrite =>
      refine .inr ⟨call.digest c, call.bytes, ?_, rfl⟩
      rw [Missing, hs]
      exact ⟨hwrite, rfl⟩

theorem Steps.stored (h : Steps f p p' f') (hk : f.disk.hasNode d = true) :
    f'.disk.hasNode d = true := by
  rcases h.nodes with hsame | ⟨e, b, -, hinsert⟩
  · rwa [hasNode, hsame]
  · rw [hasNode, hinsert, FileMap.lookup_insert_if]
    split
    · rfl
    · exact hk

theorem Steps.ahead_or_stored (h : Steps f p p' f')
    (hd : p.Ahead d ∨ f.disk.hasNode d = true) : p'.Ahead d ∨ f'.disk.hasNode d = true := by
  rcases hd with hd | hk
  · cases h with
    | lock opId ops hs =>
      rw [Ahead, hs] at hd
      exact .inl ((ahead_next _ _ _ d).mpr hd)
    | put stored call call' rest k hs hcall =>
      rw [ahead_advance]
      rw [Ahead, hs] at hd
      rcases hd with ⟨hstage, hd⟩ | hd
      · cases hcall with
        | found _ hk => exact .inr (hd ▸ hk)
        | absent _ hk => exact .inl (.inl ⟨.inr rfl, hd⟩)
        | write => exact .inr ((hasNode_writeNode _ _ _ _).mpr (.inl hd.symm))
        | count edge edges hcount =>
          rw [hcount] at hstage
          exact absurd hstage (by simp)
      · exact .inl (.inr hd)
    | tag hs | count hs | unlock ops hs =>
      rw [Ahead, hs] at hd
      exact hd.elim
  · exact .inr (h.stored hk)

theorem Missing.ahead (h : p.Missing d) : p.Ahead d := by
  obtain ⟨image, opId, stage⟩ := p
  cases stage with
  | put stored call rest => exact .inl ⟨.inr h.1, h.2⟩
  | lock | tag | count | unlock | done => exact h.elim

/-- What a pull has passed it does not write. -/
theorem Steps.absent (h : Steps f p p' f') (hd : ¬ p.Ahead d) (hk : f.disk.hasNode d = false) :
    f'.disk.hasNode d = false := by
  rcases h.nodes with hsame | ⟨e, b, hmissing, hinsert⟩
  · rwa [hasNode, hsame]
  · have hne : d ≠ e := fun he => hd (he ▸ hmissing.ahead)
    rwa [hasNode, hinsert, FileMap.lookup_insert_if, if_neg hne]

/-- A test that finds its node passes it. -/
theorem Steps.passed (h : Steps f p p' f') (hd : p.Tests d)
    (hk : f.disk.hasNode d = true) : ¬ p'.Ahead d := by
  cases h with
  | put stored call call' rest k hs hcall =>
    rw [Tests, hs] at hd
    obtain ⟨htest, hdig, hrest⟩ := hd
    rw [ahead_advance]
    cases hcall with
    | found => simpa using hrest
    | absent _ habsent =>
      rw [hdig, hk] at habsent
      cases habsent
    | write hs' | count _ _ hs' => cases htest.symm.trans hs'
  | lock opId ops hs | tag hs | count hs | unlock ops hs =>
    rw [Tests, hs] at hd
    exact hd.elim

end Pull

/-- Before the listing. -/
def GcStage.early : GcStage → Bool
  | .enumerate | .locks _ | .clean _ | .check _ _ | .list _ => true
  | _ => false

/-- The request has been refused or has failed. -/
def GcStage.over : GcStage → Bool
  | .refused | .failed _ => true
  | _ => false

/-- `d` is still there for the sweep to come to, if it is condemned. -/
def GcStage.Pending : GcStage → Digest → Prop
  | .walk _ _ _ _ _, _ | .guard _ _, _ => True
  | .sweep left _ _, d => d ∈ left
  | _, _ => False

instance : ∀ (stage : GcStage) (d : Digest), Decidable (stage.Pending d)
  | .walk _ _ _ _ _, _ | .guard _ _, _ => inferInstanceAs (Decidable True)
  | .sweep _ _ _, _ => inferInstanceAs (Decidable (_ ∈ _))
  | .enumerate, _ | .locks _, _ | .clean _, _ | .check _ _, _ | .list _, _ | .done _, _ | .refused, _
  | .failed _, _ => inferInstanceAs (Decidable False)

namespace PullGc

/-! ## What a step of the collector does -/

theorem walkVisit_disk (d : Digest) (s : MmapStore) (acc : List Digest × List Digest) :
    (walkVisit c d (s, acc)).2.1.disk = s.disk := by
  obtain ⟨nodes, blobs⟩ := acc
  obtain ⟨cache, hframe⟩ := getArchived_frame c s d
  simp only [walkVisit]
  split
  · rcases hr : s.getArchived c d with ⟨r, s'⟩
    rw [hr] at hframe
    dsimp only at hframe
    subst hframe
    split <;> rename_i heq <;> cases heq <;> rfl
  · rfl

/-- A visit reads the node as it is on disk, and follows its edges. -/
theorem walkVisit_ok {d : Digest} {s s' : MmapStore} {nodes blobs next nodes' blobs' : List Digest}
    (hcoh : s.Coherent) (h : walkVisit c d (s, (nodes, blobs)) = (.ok next, (s', (nodes', blobs')))) :
    s'.Coherent ∧ s'.disk = s.disk ∧ nodes' = (if s.disk.hasNode d then nodes ++ [d] else nodes) ∧
      next = s.disk.edgesOf c d := by
  have hdisk := walkVisit_disk (c := c) d s (nodes, blobs)
  rw [h] at hdisk
  unfold walkVisit at h
  dsimp only at h
  rw [exists_coherent hcoh] at h
  split at h
  · rename_i hd
    rw [if_pos hd]
    obtain ⟨b, hb⟩ := Option.isSome_iff_exists.mp hd
    obtain ⟨hcoh', -, hres⟩ := getArchived_coherent c hcoh d
    simp only [hb] at hres
    rcases hr : s.getArchived c d with ⟨r, s₁⟩
    rw [hr] at h hcoh' hres
    cases hc : c.checkArchivedRoot b with
    | error why =>
      rw [hc] at hres
      cases hres
      cases h
    | ok n =>
      rw [hc] at hres
      cases hres
      cases h
      exact ⟨hcoh', hdisk, rfl, (edgesOf_ok hb hc).symm⟩
  · rename_i hd
    rw [if_neg hd]
    cases h
    exact ⟨hcoh, rfl, rfl, (edgesOf_absent (by simpa [Disk.hasNode] using hd)).symm⟩

inductive Moves (w : PullGc c) : PullGc c → Prop
  | early (store : MmapStore) (stage : GcStage) (hgc : w.gc.early = true)
      (hstage : stage.early = true ∨ stage.over = true)
      (hnodes : store.disk.nodes = w.store.disk.nodes) (hcache : store.cache = w.store.cache) :
      Moves w { w with store, gc := stage }
  | list (roots order : List Digest) (hgc : w.gc = .list roots)
      (horder : (order : Multiset Digest) = w.store.disk.nodes.keys.val) :
      Moves w { w with gc := .walk order roots [] [] [] }
  | walked (listing seen nodes blobs : List Digest) (hgc : w.gc = .walk listing [] seen nodes blobs) :
      Moves w { w with gc := .guard listing nodes }
  | skip (listing : List Digest) (d : Digest) (queue seen nodes blobs : List Digest)
      (hgc : w.gc = .walk listing (d :: queue) seen nodes blobs) (hseen : d ∈ seen) :
      Moves w { w with gc := .walk listing queue seen nodes blobs }
  | visit (listing : List Digest) (d : Digest) (queue seen nodes blobs next nodes' blobs' : List Digest)
      (store : MmapStore) (hgc : w.gc = .walk listing (d :: queue) seen nodes blobs)
      (hvisit : walkVisit c d (w.store, (nodes, blobs)) = (.ok next, (store, (nodes', blobs')))) :
      Moves w { w with store, gc := .walk listing (queue ++ next) (d :: seen) nodes' blobs' }
  /-- A broken node ends the walk. -/
  | broken (store : MmapStore) (e : GcError) (hcoh : w.store.Coherent → store.Coherent)
      (hdisk : store.disk = w.store.disk) : Moves w { w with store, gc := .failed e }
  | judged (listing reachable : List Digest) (report : GcReport) (hgc : w.gc = .guard listing reachable)
      (hdry : w.config.dryRun = false) :
      Moves w { w with gc := .sweep (listing.filter (· ∉ reachable)) report {} }
  | dry (report : GcReport) (hdry : w.config.dryRun = true) : Moves w { w with gc := .done report }
  | sweep (d : Digest) (left : List Digest) (report : GcReport) (swept swept' : Swept)
      (hgc : w.gc = .sweep (d :: left) report swept) :
      Moves w { w with
        store := { w.store.evictCacheEntry d with disk := (w.store.disk.removeNode d).removeBlob d }
        gc := .sweep left report swept' }
  | swept (report report' : GcReport) (swept : Swept) (hgc : w.gc = .sweep [] report swept) :
      Moves w { w with gc := .done report' }

variable {w w' : PullGc c} {a : Act} {now : ℕ}

theorem walkVisit_error {d : Digest} {s s' : MmapStore} {acc acc' : List Digest × List Digest}
    {e : StoreError} (h : walkVisit c d (s, acc) = (.error e, (s', acc'))) :
    (s.Coherent → s'.Coherent) ∧ s'.disk = s.disk := by
  have hread : ∀ {r s₁}, s.getArchived c d = (r, s₁) → (s.Coherent → s₁.Coherent) ∧ s₁.disk = s.disk := by
    intro r s₁ hr
    obtain ⟨cache, hframe⟩ := getArchived_frame c s d
    have hcoh := fun hc => (getArchived_coherent c (s := s) hc d).1
    rw [hr] at hframe hcoh
    exact ⟨hcoh, by rw [show s₁ = _ from hframe]⟩
  obtain ⟨nodes, blobs⟩ := acc
  unfold walkVisit at h
  dsimp only at h
  split at h
  · split at h <;> rename_i heq <;> cases h
    · exact hread heq
    · exact hread heq
  · cases h

theorem moves_of_gcStep {order : List Digest} (h : w.gcStep now order = some w') : Moves w w' := by
  revert h
  fun_cases w.gcStep now order with
  | case3 | case12 | case17 | case18 | case19 => rintro ⟨⟩
  | case1 hgc | case2 hgc | case4 _ hgc | case5 _ hgc | case8 _ hgc | case9 _ _ _ hgc
  | case10 _ _ _ hgc =>
    rintro ⟨⟩
    refine .early _ _ (by rw [hgc]; rfl) ?_ rfl rfl
    first | exact .inl rfl | exact .inr rfl
  | case11 roots hgc horder =>
    rintro ⟨⟩
    exact .list roots order hgc horder
  | case6 _ hgc | case7 _ hgc =>
    have hstore : ∀ store, store = (if w.config.dryRun then w.store
        else { w.store with disk := (cleanStaleOpLocks now w.store.disk).2 }) →
        store.disk.nodes = w.store.disk.nodes ∧ store.cache = w.store.cache := by
      rintro store rfl
      split <;> exact ⟨rfl, rfl⟩
    rintro ⟨⟩
    refine .early _ _ (by rw [hgc]; rfl) ?_ (hstore _ rfl).1 (hstore _ rfl).2
    first | exact .inl rfl | exact .inr rfl
  | case13 listing queue seen nodes blobs hgc =>
    rintro ⟨⟩
    cases queue with
    | nil => exact .walked listing seen nodes blobs hgc
    | cons d queue =>
      unfold walkStep
      dsimp only
      split
      · rename_i hseen
        exact .skip listing d queue seen nodes blobs hgc hseen
      · split
        · rename_i heq
          obtain ⟨hcoh, hdisk⟩ := walkVisit_error heq
          exact .broken _ _ hcoh hdisk
        · rename_i heq
          exact .visit listing d queue seen nodes blobs _ _ _ _ hgc heq
  | case14 listing reachable hgc =>
    rintro ⟨⟩
    fun_cases guardStep w listing reachable with
    | case1 => exact .broken _ _ id rfl
    | case2 _ _ _ _ hdry => exact .dry _ hdry
    | case3 _ _ _ _ hdry => exact .judged listing reachable _ hgc (Bool.eq_false_iff.mpr hdry)
  | case15 report swept hgc =>
    rintro ⟨⟩
    exact .swept report _ swept hgc
  | case16 digest left report swept hgc _ _ hsweep =>
    rw [sweepDigest_eq] at hsweep
    cases hsweep
    rintro ⟨⟩
    exact .sweep digest left report swept _ hgc

theorem step_pull (h : step w (.pull now) = some w') :
    w.pull.Steps ⟨w.store.disk, w.imageTags⟩ w'.pull ⟨w'.store.disk, w'.imageTags⟩ ∧ w'.gc = w.gc ∧
      w'.store.cache = w.store.cache ∧ w'.config = w.config := by
  rw [step] at h
  split at h
  · cases h
  rename_i r hp
  cases h
  exact ⟨Pull.steps_of_step hp, rfl, rfl, rfl⟩

theorem Moves.pull_eq (h : Moves w w') : w'.pull = w.pull := by
  cases h <;> rfl

theorem Moves.config_eq (h : Moves w w') : w'.config = w.config := by
  cases h <;> rfl

/-- A node file is removed only by its sweep. -/
theorem Moves.nodes (h : Moves w w') : w'.store.disk.nodes = w.store.disk.nodes ∨
    ∃ d left report swept, w.gc = .sweep (d :: left) report swept ∧
      w'.store.disk.nodes = w.store.disk.nodes.erase d := by
  cases h with
  | early store stage _ _ hnodes => exact .inl hnodes
  | list | walked | skip | judged | dry | swept => exact .inl rfl
  | broken store e _ hdisk => exact .inl (congrArg Disk.nodes hdisk)
  | visit listing d queue seen nodes blobs next nodes' blobs' store hgc hvisit =>
    have hdisk := walkVisit_disk (c := c) d w.store (nodes, blobs)
    rw [hvisit] at hdisk
    exact .inl (congrArg Disk.nodes hdisk)
  | sweep d left report swept _ hgc => exact .inr ⟨d, left, report, swept, hgc, rfl⟩

theorem Moves.hasNode (h : Moves w w') {d : Digest} (hd : w.store.disk.hasNode d = true) :
    w'.store.disk.hasNode d = true ∨ ∃ left report swept, w.gc = .sweep (d :: left) report swept := by
  rcases h.nodes with hnodes | ⟨d', left, report, swept, hgc, hnodes⟩
  · exact .inl (by rw [Disk.hasNode, hnodes]; exact hd)
  · by_cases he : d = d'
    · exact .inr ⟨left, report, swept, he ▸ hgc⟩
    · refine .inl ?_
      rw [Disk.hasNode, hnodes, FileMap.lookup_erase_if, if_neg he]
      exact hd

theorem Moves.absent (h : Moves w w') {d : Digest} (hd : w.store.disk.hasNode d = false) :
    w'.store.disk.hasNode d = false := by
  rcases h.nodes with hnodes | ⟨d', left, report, swept, hgc, hnodes⟩
  · rw [Disk.hasNode, hnodes]
    exact hd
  · rw [Disk.hasNode, hnodes, FileMap.lookup_erase_if]
    split
    · rfl
    · exact hd

/-! ## The node cache and the write of a pull -/

/-- The node cache agrees with the files, and the node that the pull is about to write is not there. -/
structure Base (w : PullGc c) : Prop where
  coherent : w.store.Coherent
  missing : ∀ d, w.pull.Missing d → w.store.disk.hasNode d = false

theorem Moves.coherent (h : Moves w w') (hcoh : w.store.Coherent) : w'.store.Coherent := by
  cases h with
  | early store stage _ _ hnodes hcache =>
    change store.cache.Coherent store.disk.nodes
    rw [hnodes, hcache]
    exact hcoh
  | list | walked | skip | judged | dry | swept => exact hcoh
  | broken store e hbroken => exact hbroken hcoh
  | visit listing d queue seen nodes blobs next nodes' blobs' store hgc hvisit =>
    exact (walkVisit_ok hcoh hvisit).1
  | sweep d => exact Cache.Coherent.evictEntry hcoh d

theorem base_step (h : Base w) (hstep : step w a = some w') : Base w' := by
  cases a with
  | pull now =>
    obtain ⟨hsteps, -, hcache, -⟩ := step_pull hstep
    refine ⟨?_, fun d hd => hsteps.missing hd⟩
    change w'.store.cache.Coherent w'.store.disk.nodes
    rw [hcache]
    rcases hsteps.nodes with hnodes | ⟨d, b, hmissing, hnodes⟩
    · rw [show w'.store.disk.nodes = _ from hnodes]
      exact h.coherent
    · rw [show w'.store.disk.nodes = _ from hnodes]
      exact Cache.Coherent.write h.coherent (by simpa [Disk.hasNode] using h.missing d hmissing) b
  | gc now order =>
    have hmoves := moves_of_gcStep hstep
    refine ⟨hmoves.coherent h.coherent, fun d hd => ?_⟩
    rw [hmoves.pull_eq] at hd
    exact hmoves.absent (h.missing d hd)

/-! ## From the listing to the sweep -/

section Listed

variable {k : Disk} {roots : List Digest}

/-- The digest is listed, and not reached from the roots. -/
def Condemned (c : Codec) (k : Disk) (roots : List Digest) (d : Digest) : Prop :=
  k.hasNode d = true ∧ ¬ (k.graph c).ReachFrom roots d

/-- Nothing that the roots reach is missing. -/
def Closed (c : Codec) (k : Disk) (roots : List Digest) : Prop :=
  ∀ d, (k.graph c).ReachFrom roots d → k.hasNode d = true

/-- The walk, in a store that has grown from `k`: it follows all edges of `k`, and where `k` is closed no
    others. -/
structure Walking (c : Codec) (k : Disk) (roots queue seen nodes : List Digest) : Prop where
  started : ∀ r ∈ roots, r ∈ seen ∨ r ∈ queue
  kept : ∀ v ∈ seen, k.hasNode v = true → v ∈ nodes
  followed : ∀ v ∈ seen, ∀ e ∈ k.edgesOf c v, e ∈ seen ∨ e ∈ queue
  reached : Closed c k roots → ∀ v, v ∈ seen ∨ v ∈ queue → (k.graph c).ReachFrom roots v
  seen : ∀ v ∈ nodes, v ∈ seen

theorem Walking.mem_nodes {seen nodes : List Digest} (h : Walking c k roots [] seen nodes) {d : Digest}
    (hd : k.hasNode d = true) (hreach : (k.graph c).ReachFrom roots d) : d ∈ nodes := by
  refine h.kept d ?_ hd
  obtain ⟨r, hr, hpath⟩ := hreach
  clear hd
  induction hpath with
  | refl => exact (h.started r hr).resolve_right not_mem_nil
  | tail _ he ih => exact (h.followed _ ih _ he).resolve_right not_mem_nil

/-- What the collector knows at each stage after the listing, and what of it is still so. -/
def Judging (c : Codec) (k : Disk) (roots : List Digest) (disk : Disk) : GcStage → Prop
  | .walk listing queue seen found _ =>
    ((∀ d, d ∈ listing ↔ k.hasNode d = true) ∧ listing.Nodup) ∧
      (∀ d b, k.nodes.lookup d = some b → disk.nodes.lookup d = some b) ∧
      Walking c k roots queue seen found
  | .guard listing reachable =>
    ((∀ d, d ∈ listing ↔ k.hasNode d = true) ∧ listing.Nodup) ∧
      (∀ d b, k.nodes.lookup d = some b → disk.nodes.lookup d = some b) ∧
      (∀ d, k.hasNode d = true → (k.graph c).ReachFrom roots d → d ∈ reachable) ∧
      (Closed c k roots → ∀ d ∈ reachable, (k.graph c).ReachFrom roots d)
  | .sweep left _ _ => left.Nodup ∧ ∀ d ∈ left, Condemned c k roots d ∧ disk.hasNode d = true
  | .done _ | .refused | .failed _ => True
  | .enumerate | .locks _ | .clean _ | .check _ _ | .list _ => False

theorem Judging.stored {disk : Disk} {stage : GcStage} (h : Judging c k roots disk stage) {d : Digest}
    (hd : Condemned c k roots d) (hpending : stage.Pending d) : disk.hasNode d = true := by
  have hgrown : (∀ d b, k.nodes.lookup d = some b → disk.nodes.lookup d = some b) →
      disk.hasNode d = true := by
    intro hgrown
    obtain ⟨b, hb⟩ := Option.isSome_iff_exists.mp hd.1
    rw [Disk.hasNode, hgrown d b hb]
    rfl
  cases stage with
  | walk => exact hgrown h.2.1
  | guard => exact hgrown h.2.1
  | sweep left => exact (h.2 d hpending).2
  | enumerate | locks | clean | check | list | done | refused | failed => exact hpending.elim

theorem Judging.not_early {disk : Disk} {stage : GcStage} (h : Judging c k roots disk stage) :
    stage.early = false := by
  cases stage <;> first | rfl | exact h.elim

/-- A pull writes nothing that was there. -/
theorem Judging.grow {disk disk' : Disk} {stage : GcStage} (h : Judging c k roots disk stage)
    (hgrow : ∀ d b, disk.nodes.lookup d = some b → disk'.nodes.lookup d = some b) :
    Judging c k roots disk' stage := by
  cases stage with
  | walk => exact ⟨h.1, fun d b hb => hgrow d b (h.2.1 d b hb), h.2.2⟩
  | guard => exact ⟨h.1, fun d b hb => hgrow d b (h.2.1 d b hb), h.2.2⟩
  | sweep left =>
    refine ⟨h.1, fun d hd => ⟨(h.2 d hd).1, ?_⟩⟩
    obtain ⟨b, hb⟩ := Option.isSome_iff_exists.mp (h.2 d hd).2
    rw [Disk.hasNode, hgrow d b hb]
    rfl
  | enumerate | locks | clean | check | list | done | refused | failed => exact h

theorem Walking.visit {d : Digest} {queue seen nodes nodes' next : List Digest} {disk : Disk}
    (h : Walking c k roots (d :: queue) seen nodes)
    (hgrown : ∀ d b, k.nodes.lookup d = some b → disk.nodes.lookup d = some b)
    (hnodes : nodes' = if disk.hasNode d then nodes ++ [d] else nodes)
    (hnext : next = disk.edgesOf c d) : Walking c k roots (queue ++ next) (d :: seen) nodes' := by
  have hpop : ∀ u, u ∈ seen ∨ u ∈ d :: queue → u ∈ d :: seen ∨ u ∈ queue ++ next := by
    rintro u (hs | hq)
    · exact .inl (mem_cons_of_mem _ hs)
    · rcases mem_cons.mp hq with rfl | hq
      · exact .inl mem_cons_self
      · exact .inr (mem_append_left _ hq)
  -- of a node of `k` the edges are those of `k`
  have hsame : k.hasNode d = true → disk.hasNode d = true ∧ disk.edgesOf c d = k.edgesOf c d := by
    intro hd
    obtain ⟨b, hb⟩ := Option.isSome_iff_exists.mp hd
    exact ⟨by rw [Disk.hasNode, hgrown d b hb]; rfl, by rw [edgesOf, edgesOf, hb, hgrown d b hb]⟩
  have hsub : ∀ v ∈ nodes, v ∈ nodes' := by
    intro v hv
    rw [hnodes]
    split
    · exact mem_append_left _ hv
    · exact hv
  refine ⟨fun r hr => hpop r (h.started r hr), fun v hv hkv => ?_, fun v hv e he => ?_,
    fun hclosed v hv => ?_, fun v hv => ?_⟩
  · rcases mem_cons.mp hv with rfl | hv
    · rw [hnodes, if_pos (hsame hkv).1]
      exact mem_append_right _ (mem_singleton_self _)
    · exact hsub v (h.kept v hv hkv)
  · rcases mem_cons.mp hv with rfl | hv
    · refine .inr (mem_append_right _ ?_)
      have hkv : k.hasNode v = true := by
        by_contra hno
        rw [edgesOf_absent (by simpa [Disk.hasNode] using hno)] at he
        cases he
      rwa [hnext, (hsame hkv).2]
    · exact hpop e (h.followed v hv e he)
  · have hd := h.reached hclosed d (.inr mem_cons_self)
    rcases hv with hv | hv
    · rcases mem_cons.mp hv with rfl | hv
      · exact hd
      · exact h.reached hclosed v (.inl hv)
    · rcases mem_append.mp hv with hv | hv
      · exact h.reached hclosed v (.inr (mem_cons_of_mem _ hv))
      · rw [hnext, (hsame (hclosed d hd)).2] at hv
        exact hd.tail hv
  · rw [hnodes] at hv
    split at hv
    · rcases mem_append.mp hv with hv | hv
      · exact mem_cons_of_mem _ (h.seen v hv)
      · rw [mem_singleton.mp hv]
        exact mem_cons_self
    · exact mem_cons_of_mem _ (h.seen v hv)

theorem Walking.skip {d : Digest} {queue seen nodes : List Digest}
    (h : Walking c k roots (d :: queue) seen nodes) (hd : d ∈ seen) : Walking c k roots queue seen nodes := by
  have hpop : ∀ u, u ∈ seen ∨ u ∈ d :: queue → u ∈ seen ∨ u ∈ queue := by
    rintro u (hs | hq)
    · exact .inl hs
    · rcases mem_cons.mp hq with rfl | hq
      · exact .inl hd
      · exact .inr hq
  exact ⟨fun r hr => hpop r (h.started r hr), h.kept, fun v hv e he => hpop e (h.followed v hv e he),
    fun hclosed v hv => h.reached hclosed v (hv.imp_right fun hq => mem_cons_of_mem _ hq), h.seen⟩

theorem Moves.judging (h : Moves w w') (hcoh : w.store.Coherent)
    (hj : Judging c k roots w.store.disk w.gc) : Judging c k roots w'.store.disk w'.gc := by
  cases h with
  | early store stage hgc => rw [hj.not_early] at hgc; cases hgc
  | list roots' order hgc => rw [hgc] at hj; exact hj.elim
  | walked listing seen nodes blobs hgc =>
    rw [hgc] at hj
    obtain ⟨hlist, hgrown, hwalk⟩ := hj
    exact ⟨hlist, hgrown, fun d hd hreach => hwalk.mem_nodes hd hreach,
      fun hclosed d hd => hwalk.reached hclosed d (.inl (hwalk.seen d hd))⟩
  | skip listing d queue seen nodes blobs hgc hseen =>
    rw [hgc] at hj
    exact ⟨hj.1, hj.2.1, hj.2.2.skip hseen⟩
  | visit listing d queue seen nodes blobs next nodes' blobs' store hgc hvisit =>
    rw [hgc] at hj
    obtain ⟨-, hdisk, hnodes, hnext⟩ := walkVisit_ok hcoh hvisit
    obtain ⟨hlist, hgrown, hwalk⟩ := hj
    refine ⟨hlist, ?_, hwalk.visit hgrown hnodes hnext⟩
    rw [hdisk]
    exact hgrown
  | broken | dry | swept => trivial
  | judged listing reachable report hgc =>
    rw [hgc] at hj
    obtain ⟨⟨hlist, hnodup⟩, hgrown, hkept, -⟩ := hj
    refine ⟨hnodup.filter _, fun d hd => ?_⟩
    obtain ⟨hmem, hnot⟩ := mem_filter.mp hd
    have hstored := (hlist d).mp hmem
    obtain ⟨b, hb⟩ := Option.isSome_iff_exists.mp hstored
    refine ⟨⟨hstored, fun hreach => of_decide_eq_true hnot (hkept d hstored hreach)⟩, ?_⟩
    rw [Disk.hasNode, hgrown d b hb]
    rfl
  | sweep d left report swept _ hgc =>
    rw [hgc] at hj
    obtain ⟨hnodup, hleft⟩ := hj
    rw [nodup_cons] at hnodup
    refine ⟨hnodup.2, fun e he => ⟨(hleft e (mem_cons_of_mem _ he)).1, ?_⟩⟩
    have hne : e ≠ d := fun h => hnodup.1 (h ▸ he)
    change ((w.store.disk.nodes.erase d).lookup e).isSome = true
    rw [FileMap.lookup_erase_if, if_neg hne]
    exact (hleft e (mem_cons_of_mem _ he)).2

theorem grows_of_pull (hb : Base w) (hstep : step w (.pull now) = some w') (d : Digest) (b : Bytes)
    (h : w.store.disk.nodes.lookup d = some b) : w'.store.disk.nodes.lookup d = some b := by
  obtain ⟨hsteps, -⟩ := step_pull hstep
  rcases hsteps.nodes with hnodes | ⟨d', b', hmissing, hnodes⟩
  · rw [show w'.store.disk.nodes = _ from hnodes]
    exact h
  · have hne : d ≠ d' := by
      rintro rfl
      have := hb.missing d hmissing
      rw [Disk.hasNode, h] at this
      cases this
    rw [show w'.store.disk.nodes = _ from hnodes, FileMap.lookup_insert_if, if_neg hne]
    exact h

theorem judging_step (hb : Base w) (hj : Judging c k roots w.store.disk w.gc)
    (hstep : step w a = some w') : Judging c k roots w'.store.disk w'.gc := by
  cases a with
  | pull now =>
    rw [(step_pull hstep).2.1]
    exact hj.grow (grows_of_pull hb hstep)
  | gc now order => exact (moves_of_gcStep hstep).judging hb.coherent hj

theorem Moves.pending (h : Moves w w') {d : Digest} (hd : w'.gc.Pending d) (hgc : w.gc.early = false) :
    w.gc.Pending d := by
  cases h with
  | early store stage hearly => rw [hgc] at hearly; cases hearly
  | list roots order hlist => rw [hlist] at hgc; cases hgc
  | walked _ _ _ _ h | skip _ _ _ _ _ _ h | visit _ _ _ _ _ _ _ _ _ _ h | judged _ _ _ h =>
    rw [h]; trivial
  | broken | dry | swept => exact hd.elim
  | sweep d' left report swept _ h =>
    rw [h]
    exact mem_cons_of_mem _ hd

/-! ## What becomes of a node -/

/-- A pull does not pass a condemned digest, by its last test for it, while the sweep of it is ahead. -/
def TestsLate (c : Codec) (k : Disk) (roots : List Digest) (w : PullGc c) : Act → Prop
  | .pull _ =>
    ∀ d ∈ w.pull.image.digests, w.pull.Tests d → Condemned c k roots d → ¬ w.gc.Pending d
  | .gc _ _ => True

def Safe (w : PullGc c) : Prop :=
  ∀ d ∈ w.pull.image.digests, w.pull.Ahead d ∨ w.store.disk.hasNode d = true

/-- No condemned digest of the image is passed before its sweep. -/
def Behind (c : Codec) (k : Disk) (roots : List Digest) (w : PullGc c) : Prop :=
  ∀ d ∈ w.pull.image.digests, Condemned c k roots d → w.gc.Pending d → w.pull.Ahead d

theorem safe_pull (hs : Safe w) (h : step w (.pull now) = some w') : Safe w' := by
  obtain ⟨hsteps, -⟩ := step_pull h
  intro d hd
  rw [hsteps.image_eq] at hd
  exact hsteps.ahead_or_stored (hs d hd)

/-- Where a sweep spares what the pull has passed, the image stays whole. -/
theorem safe_gc (hs : Safe w) (h : Moves w w')
    (hswept : ∀ d left report swept, w.gc = .sweep (d :: left) report swept →
      d ∈ w.pull.image.digests → w.pull.Ahead d) : Safe w' := by
  intro d hd
  rw [h.pull_eq] at hd ⊢
  rcases hs d hd with hahead | hstored
  · exact .inl hahead
  · rcases h.hasNode hstored with hkept | ⟨left, report, swept, hgc⟩
    · exact .inr hkept
    · exact .inl (hswept d left report swept hgc hd)

theorem behind_step (hb : Base w) (hj : Judging c k roots w.store.disk w.gc) (hbehind : Behind c k roots w)
    (hlate : TestsLate c k roots w a) (h : step w a = some w') : Behind c k roots w' := by
  intro d hd hcond hpending
  cases a with
  | pull now =>
    obtain ⟨hsteps, hgc, -⟩ := step_pull h
    rw [hsteps.image_eq] at hd
    rw [hgc] at hpending
    rcases hsteps.ahead_or_passes (hbehind d hd hcond hpending) with hahead | htests | hmissing
    · exact hahead
    · exact absurd hpending (hlate d hd htests hcond)
    · -- a condemned digest is stored until it is swept
      have := hj.stored hcond hpending
      rw [hb.missing d hmissing] at this
      cases this
  | gc now order =>
    have hmoves := moves_of_gcStep h
    rw [hmoves.pull_eq] at hd ⊢
    exact hbehind d hd hcond (hmoves.pending hpending hj.not_early)

theorem safe_step (hj : Judging c k roots w.store.disk w.gc) (hbehind : Behind c k roots w) (hs : Safe w)
    (h : step w a = some w') : Safe w' := by
  cases a with
  | pull now => exact safe_pull hs h
  | gc now order =>
    refine safe_gc hs (moves_of_gcStep h) fun d left report swept hgc hd => ?_
    rw [hgc] at hj
    refine hbehind d hd (hj.2 d mem_cons_self).1 ?_
    rw [hgc]
    exact mem_cons_self

/-- A condemned digest of the image that the pull has passed: its sweep is ahead, it is gone, or the
    request has failed. -/
def Lost (c : Codec) (k : Disk) (roots : List Digest) (w : PullGc c) : Prop :=
  ∃ d ∈ w.pull.image.digests, Condemned c k roots d ∧ ¬ w.pull.Ahead d ∧
    (w.gc.Pending d ∨ w.store.disk.hasNode d = false ∨ w.gc.over = true)

theorem lost_step (hclosed : Closed c k roots) (hdry : w.config.dryRun = false)
    (hj : Judging c k roots w.store.disk w.gc) (hl : Lost c k roots w) (h : step w a = some w') :
    Lost c k roots w' := by
  obtain ⟨d, hd, hcond, hpassed, hstate⟩ := hl
  cases a with
  | pull now =>
    obtain ⟨hsteps, hgc, -⟩ := step_pull h
    refine ⟨d, by rw [hsteps.image_eq]; exact hd, hcond, ?_⟩
    rw [hgc]
    refine ⟨hsteps.not_ahead hpassed, ?_⟩
    rcases hstate with hpending | habsent | hover
    · exact .inl hpending
    · exact .inr (.inl (hsteps.absent hpassed habsent))
    · exact .inr (.inr hover)
  | gc now order =>
    have hmoves := moves_of_gcStep h
    refine ⟨d, by rw [hmoves.pull_eq]; exact hd, hcond, by rw [hmoves.pull_eq]; exact hpassed, ?_⟩
    rcases hstate with hpending | habsent | hover
    · cases hmoves with
      | early store stage hgc => rw [hj.not_early] at hgc; cases hgc
      | list roots' order hgc => rw [hgc] at hpending; exact hpending.elim
      | walked | skip | visit => exact .inl trivial
      | broken => exact .inr (.inr rfl)
      | dry report hdry' => rw [hdry] at hdry'; cases hdry'
      | judged listing reachable report hgc =>
        rw [hgc] at hj
        obtain ⟨⟨hlist, -⟩, -, -, hreached⟩ := hj
        refine .inl (mem_filter.mpr ⟨(hlist d).mpr hcond.1, decide_eq_true fun hmem => ?_⟩)
        exact hcond.2 (hreached hclosed d hmem)
      | sweep d' left report swept _ hgc =>
        rw [hgc] at hpending
        rcases mem_cons.mp hpending with rfl | hmem
        · refine .inr (.inl ?_)
          change ((w.store.disk.nodes.erase d).lookup d).isSome = false
          rw [FileMap.lookup_erase_if, if_pos rfl]
          rfl
        · exact .inl hmem
      | swept report report' swept hgc => rw [hgc] at hpending; cases hpending
    · refine .inr (.inl ?_)
      exact hmoves.absent habsent
    · -- nothing follows a failure
      change w.gcStep now order = some w' at h
      cases hstage : w.gc with
      | refused | failed =>
        rw [gcStep, hstage] at h
        cases h
      | _ => rw [hstage] at hover; cases hover

end Listed

/-! ## Before the listing -/

theorem early_of_step (hgc : w'.gc.early = true) (h : step w a = some w') : w.gc.early = true := by
  cases a with
  | pull now => rwa [← (step_pull h).2.1]
  | gc now order =>
    cases moves_of_gcStep h with
    | early store stage hearly => exact hearly
    | list roots order hlist => rw [hlist]; rfl
    | walked | skip | visit | broken | judged | dry | sweep | swept => cases hgc

theorem safe_before (h : step w a = some w') (hs : w.gc.early = true → Safe w)
    (hgc : w'.gc.early = true) : Safe w' := by
  have hearly := early_of_step hgc h
  cases a with
  | pull now => exact safe_pull (hs hearly) h
  | gc now order =>
    refine safe_gc (hs hearly) (moves_of_gcStep h) fun d left report swept hsweep => ?_
    rw [hsweep] at hearly
    cases hearly

theorem failed_stays {e : GcError} (hgc : w.gc = .failed e) (h : step w a = some w') :
    w'.gc = .failed e := by
  cases a with
  | pull now => rw [(step_pull h).2.1, hgc]
  | gc now order =>
    change w.gcStep now order = some w' at h
    rw [gcStep, hgc] at h
    cases h

/-- What the events have to be, from the listing on, with the roots enumerated before. -/
def Spared (w : PullGc c) (roots : List Digest) (acts : List Act) : Prop :=
  (∀ d ∈ w.pull.image.digests, Condemned c w.store.disk roots d → w.pull.Ahead d) ∧
    Schedule.Meets step (TestsLate c w.store.disk roots) w acts

/-- **A pull and a collection that both succeed.** The image is whole in the end if, when the nodes are
    listed, the pull has passed no node of it that the roots enumerated before do not reach, and if
    afterwards its last test for such a node comes when the node is swept. Where the collection deletes and
    nothing that the roots reach is missing, only then. And the collector has found no fresh lock, unless it
    was forced. -/
theorem pulled_stored_iff {c : Codec} {store : MmapStore} {imageTags : Finset Digest}
    {pinned : List Digest} {image : Image c} {config : GarbageCollector} (hcoh : store.Coherent)
    {before after : List Act} {now : ℕ} {order roots : List Digest} {report : GcReport} {w₁ w : PullGc c}
    (hrun₁ : Schedule.run step (start store imageTags pinned image config) before = some w₁)
    (hlist : w₁.gc = .list roots)
    (hrun : Schedule.run step w₁ (.gc now order :: after) = some w)
    (hpull : w.pull.stage = .done) (hgc : w.gc = .done report) :
    (Spared w₁ roots (.gc now order :: after) → ∀ d ∈ image.digests, w.store.disk.hasNode d = true) ∧
      (config.dryRun = false → Closed c w₁.store.disk roots →
        ((∀ d ∈ image.digests, w.store.disk.hasNode d = true) ↔
          Spared w₁ roots (.gc now order :: after))) ∧
      ∀ sampled now' order' rest w₀ roots', before = sampled ++ .gc now' order' :: rest →
        Schedule.run step (start store imageTags pinned image config) sampled = some w₀ →
        w₀.gc = .locks roots' → w₀.config.force = false → listFreshOpLocks now' w₀.store.disk = [] := by
  have hframe : ∀ {s t : PullGc c} {acts : List Act}, Schedule.run step s acts = some t →
      t.pull.image = s.pull.image ∧ t.config = s.config := by
    intro s t acts hr
    refine Schedule.run_inv' (fun t => t.pull.image = s.pull.image ∧ t.config = s.config)
      (fun v a v' hi h => ?_) ⟨rfl, rfl⟩ hr
    cases a with
    | pull now =>
      obtain ⟨hsteps, -, -, hconfig⟩ := step_pull h
      exact ⟨hsteps.image_eq.trans hi.1, hconfig.trans hi.2⟩
    | gc now order =>
      have hmoves := moves_of_gcStep h
      exact ⟨(congrArg Pull.image hmoves.pull_eq).trans hi.1, hmoves.config_eq.trans hi.2⟩
  have himage₁ : w₁.pull.image = image := (hframe hrun₁).1
  have himage : w.pull.image = image := (hframe hrun).1.trans himage₁
  have hbase₀ : Base (start store imageTags pinned image config) := ⟨hcoh, fun d hd => hd.elim⟩
  have hsafe₀ : Safe (start store imageTags pinned image config) := fun d hd => .inl hd
  have hbase : Base w₁ := Schedule.run_inv' Base (fun _ _ _ h hs => base_step h hs) hbase₀ hrun₁
  have hsafe : Safe w₁ := by
    refine Schedule.run_inv' (fun w => w.gc.early = true → Safe w) (fun _ _ _ hs h => safe_before h hs)
      (fun _ => hsafe₀) hrun₁ ?_
    rw [hlist]
    rfl
  obtain ⟨w₂, hstep, hrest⟩ := run_cons_eq_some.mp hrun
  -- the step that lists
  obtain ⟨horder, rfl⟩ : (order : Multiset Digest) = w₁.store.disk.nodes.keys.val ∧
      w₂ = { w₁ with gc := .walk order roots [] [] [] } := by
    change w₁.gcStep now order = some w₂ at hstep
    rw [gcStep, hlist] at hstep
    dsimp only at hstep
    split at hstep
    · rename_i horder
      exact ⟨horder, (Option.some.inj hstep).symm⟩
    · cases hstep
  have hbase₂ := base_step hbase hstep
  have hjudging : Judging c w₁.store.disk roots w₁.store.disk (.walk order roots [] [] []) := by
    have hlists : GarbageCollector.Lists order w₁.store := horder
    refine ⟨⟨hlists.mem, hlists.nodup⟩, fun d b hb => hb, fun r hr => .inr hr, ?_, ?_, ?_, ?_⟩
    · exact fun v hv => by cases hv
    · exact fun v hv => by cases hv
    · exact fun _ v hv => .root (hv.resolve_left not_mem_nil)
    · exact fun v hv => by cases hv
  have hdone : ∀ d, ¬ w.pull.Ahead d := by
    intro d ha
    rw [Pull.Ahead, hpull] at ha
    exact ha
  have hspared : Spared w₁ roots (.gc now order :: after) →
      ∀ d ∈ image.digests, w.store.disk.hasNode d = true := by
    rintro ⟨hahead, hlate⟩ d hd
    have hinv := Schedule.run_inv (fun w => (Base w ∧ Judging c w₁.store.disk roots w.store.disk w.gc) ∧
        Behind c w₁.store.disk roots w ∧ Safe w) (TestsLate c w₁.store.disk roots)
      (fun v a v' hi ha h => ⟨⟨base_step hi.1.1 h, judging_step hi.1.1 hi.1.2 h⟩,
        behind_step hi.1.1 hi.1.2 hi.2.1 ha h, safe_step hi.1.2 hi.2.1 hi.2.2 h⟩)
      ⟨⟨hbase₂, hjudging⟩, fun d hd hcond _ => hahead d hd hcond, hsafe⟩
      ((meets_cons_some hstep).mp hlate).2 hrest
    exact (hinv.2.2 d (himage.symm ▸ hd)).resolve_left (hdone d)
  refine ⟨hspared, fun hdry hclosed => ⟨fun hall => ?_, hspared⟩, ?_⟩
  · -- what is passed too early is lost in the end
    let Sweeping (v : PullGc c) : Prop :=
      Base v ∧ Judging c w₁.store.disk roots v.store.disk v.gc ∧ v.config.dryRun = false
    have hkeep : ∀ (v : PullGc c) a v', Sweeping v → step v a = some v' → Sweeping v' := by
      intro v a v' hi h
      refine ⟨base_step hi.1 h, judging_step hi.1 hi.2.1 h, ?_⟩
      rw [(@hframe v v' [a] (run_cons_eq_some.mpr ⟨v', h, rfl⟩)).2]
      exact hi.2.2
    have hnot : ¬ Lost c w₁.store.disk roots w := by
      rintro ⟨d, hd, -, -, hpending | habsent | hover⟩
      · rw [hgc] at hpending
        exact hpending
      · rw [hall d (himage ▸ hd)] at habsent
        cases habsent
      · rw [hgc] at hover
        cases hover
    have hstart : Sweeping { w₁ with gc := .walk order roots [] [] [] } :=
      ⟨hbase₂, hjudging, by rw [(hframe hrun₁).2]; exact hdry⟩
    have hlost : ∀ (v : PullGc c) a v', Sweeping v → Lost c w₁.store.disk roots v →
        step v a = some v' → Lost c w₁.store.disk roots v' :=
      fun _ _ _ hi hl h => lost_step hclosed hi.2.2 hi.2.1 hl h
    constructor
    · intro d hd hcond
      by_contra hpassed
      refine hnot ((Schedule.run_inv' (fun v => Sweeping v ∧ Lost c w₁.store.disk roots v)
        (fun v a v' hi h => ⟨hkeep v a v' hi.1 h, hlost v a v' hi.1 hi.2 h⟩) ⟨hstart, ?_⟩ hrest).2)
      exact ⟨d, hd, hcond, hpassed, .inl trivial⟩
    · rw [meets_cons_some hstep]
      refine ⟨trivial, ?_⟩
      by_contra hmeets
      refine hnot ((Schedule.meets_or_lost_on Sweeping (fun _ => True) (Lost c w₁.store.disk roots)
        (TestsLate c w₁.store.disk roots) hkeep (fun _ _ _ _ _ _ _ => trivial) (fun v a v' hi hbad h => ?_)
        hlost hstart trivial hrest).2 hmeets)
      cases a with
      | gc now order => exact absurd trivial hbad
      | pull now =>
        unfold TestsLate at hbad
        push Not at hbad
        obtain ⟨d, hd, htests, hcond, hpending⟩ := hbad
        obtain ⟨hsteps, hsame, -⟩ := step_pull h
        refine ⟨d, by rw [hsteps.image_eq]; exact hd, hcond,
          hsteps.passed htests (hi.2.1.stored hcond hpending), .inl ?_⟩
        rw [hsame]
        exact hpending
  · rintro sampled now' order' rest w₀ roots' rfl hrun₀ hlocks hforce
    obtain ⟨w₀', hrun₀', hrest₀⟩ := run_append_eq_some.mp hrun₁
    cases hrun₀.symm.trans hrun₀'
    obtain ⟨v, hv, htail⟩ := run_cons_eq_some.mp hrest₀
    by_contra hfresh
    have hfailed : v.gc = .failed .activeOpLocks := by
      change w₀.gcStep now' order' = some v at hv
      rw [gcStep, hlocks] at hv
      dsimp only at hv
      rw [if_pos ⟨hfresh, hforce⟩] at hv
      rw [← Option.some.inj hv]
    have hend : w₁.gc = .failed .activeOpLocks :=
      Schedule.run_inv' (fun v => v.gc = .failed .activeOpLocks) (fun _ _ _ h hs => failed_stays h hs)
        hfailed htail
    rw [hlist] at hend
    cases hend

def oneFile : MmapStore := ((MmapStore.openOn .empty none none).put Sample.codec Sample.other).2

/-- `oneFile`, with the file of the three images beside it and nothing that refers to it. -/
def straysBeside : MmapStore := (oneFile.put Sample.codec Sample.leaf).2

def pullAll : List Act := replicate 9 (.pull 0)

/-- A collection from its lock check to its guard, on a store with the given listing. -/
def toSweep (listing : List Digest) : List Act :=
  [.gc 0 [], .gc 0 [], .gc 0 [], .gc 0 [], .gc 0 listing, .gc 0 [], .gc 0 [], .gc 0 []]

def collecting : GarbageCollector := ⟨false, false⟩

theorem gc_sweeps_pulled_image :
    ∃ w report, Schedule.run step (start oneFile {otherD} [] A collecting)
        ([.gc 0 [otherD]] ++ pullAll ++
          toSweep [leafD, otherD, imageAD] ++ replicate 3 (.gc 0 []))
        = some w ∧
      w.pull.stage = .done ∧ w.gc = .done report ∧ A.root ∈ w.imageTags ∧
      A.digests = [leafD, imageAD] ∧
      w.store.disk.hasNode leafD = false ∧ w.store.disk.hasNode imageAD = false := by
  refine exists_comm.mp ⟨⟨3, 1, 2, 2, 0, 80, false⟩, ?_⟩
  decide +kernel

/-- Every test of the pull comes when there is nothing left to sweep. -/
def TestsAfter (w : PullGc c) : Act → Prop
  | .pull _ => ∀ d ∈ w.pull.image.digests, w.pull.Tests d → ¬ w.gc.Pending d
  | .gc _ _ => True

instance (w : PullGc c) : ∀ a, Decidable (w.TestsAfter a)
  | .pull _ => inferInstanceAs (Decidable (∀ d ∈ _, _ → ¬ _))
  | .gc _ _ => inferInstanceAs (Decidable True)

def toListing : List Act := .gc 0 [otherD] :: replicate 4 (.gc 0 [])

def sweptBetween : List Act :=
  replicate 3 (.gc 0 []) ++ [.pull 0, .gc 0 []] ++ replicate 8 (.pull 0) ++ [.gc 0 []]

/-- The file is listed and condemned; the pull has taken its lock when it is swept, and tests for it
    afterwards. -/
theorem pulled_stored_iff_straysBeside :
    ∃ w, Schedule.run step (start straysBeside {otherD} [] A collecting)
        (toListing ++ .gc 0 [leafD, otherD] :: sweptBetween) = some w ∧
      w.pull.stage = .done ∧ ∀ d ∈ A.digests, w.store.disk.hasNode d = true := by
  obtain ⟨w₁, hrun₁, hlist, hahead⟩ :
      ∃ w₁, run step (start straysBeside {otherD} [] A collecting) toListing = some w₁ ∧
        w₁.gc = .list [otherD] ∧ ∀ d ∈ w₁.pull.image.digests, w₁.pull.Ahead d := by decide +kernel
  obtain ⟨w, hrun, hpull, hgc⟩ : ∃ w, run step (start straysBeside {otherD} [] A collecting)
      (toListing ++ .gc 0 [leafD, otherD] :: sweptBetween) = some w ∧ w.pull.stage = .done ∧
      w.gc = .done ⟨2, 1, 1, 1, 0, 24, false⟩ := by decide +kernel
  have hmeets : Meets step TestsAfter (start straysBeside {otherD} [] A collecting)
      (toListing ++ .gc 0 [leafD, otherD] :: sweptBetween) := by decide +kernel
  have hafter := ((meets_append hrun₁).mp hmeets).2
  obtain ⟨_, hsplit, hrest⟩ := run_append_eq_some.mp hrun
  cases hrun₁.symm.trans hsplit
  refine ⟨w, hrun, hpull, ?_⟩
  have hcoh : straysBeside.Coherent :=
    putBlocking_coherent (putBlocking_coherent (coherent_openOn _ _ _) _) _
  refine (pulled_stored_iff hcoh hrun₁ hlist hrest hpull hgc).1
    ⟨fun d hd _ => hahead d hd, hafter.of_inv (fun _ => True) (fun _ _ _ _ _ _ => trivial) ?_ trivial⟩
  rintro v (now | ⟨now, order⟩) - hv
  · exact fun d hd htests _ => hv d hd htests
  · trivial

end PullGc

end Pullrun
