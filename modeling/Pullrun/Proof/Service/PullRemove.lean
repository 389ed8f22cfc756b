import Pullrun.Proof.Service.Put
import Pullrun.Proof.Service.Remove

/-!
# A pull beside a removal

`refcount_lock` makes single updates of a count atomic, but not a test and what is done about it.
-/

namespace Pullrun

open MmapStore Sample Schedule List Disk

/-! ## A store with one image -/

theorem Files.ofImage_valid {c : Codec} (image : Image c) : (Files.ofImage image).disk.Valid c := by
  obtain ⟨hholds, -⟩ := convert_nodes_spec (openOn .empty none none) image.encodes
  intro d b hb
  change (nodes (setRefcount _ _ _)).lookup d = some b at hb
  rw [setRefcount_nodes] at hb
  rcases hholds.origin d b hb with hnone | ⟨p, hp, rfl, -⟩
  · cases hnone
  · exact ⟨p.1, (image.encodes p hp).2⟩

theorem Files.ofImage_balanced {c : Codec} (image : Image c) :
    ((Files.ofImage image).disk.graph c).Balanced (tagCount (Files.ofImage image).imageTags) := by
  obtain ⟨-, hsurplus⟩ := convert_nodes_spec (openOn .empty none none)
    (show ∀ p ∈ image.nodes, c.Encodes p.1 p.2 from image.encodes)
  rw [RefGraph.balanced_iff_surplus]
  intro d
  have hempty := RefGraph.balanced_iff_surplus.mp (empty_balanced c) d
  have htag := tagCount_insert (Finset.notMem_empty image.root) d
  change ((Disk.incrementRefcount _ _).2.graph c).surplus d = (tagCount (insert image.root ∅) d : ℤ)
  rw [surplus_incrementRefcount, hsurplus, htag]
  change (empty.graph c).surplus d + _ = _
  rw [hempty]
  simp [tagCount]

namespace PullRemove

variable {c : Codec}

/-- A node is not deleted once the pull has come past it, the pull does not look for a node that is
    being deleted, and it tags what is not tagged. -/
def Apart (w : PullRemove c) : Act → Prop
  | .pull _ => (∀ v ∈ w.pull.testing, w.remove.busy ≠ some v) ∧
      (w.pull.stage = .tag → w.pull.image.root ∉ w.files.imageTags)
  | .remove => ∀ v ∈ w.remove.visiting w.files.disk, ¬ w.pull.Passed v

instance (w : PullRemove c) (a : Act) : Decidable (Apart w a) := by
  cases a <;> unfold Apart <;> infer_instance

structure Sound (w : PullRemove c) : Prop where
  valid : w.files.disk.Valid c
  pull : w.pull.Inv w.files
  remove : w.remove.Inv c w.pull.Passed w.files
  other : w.pull.image.root ≠ w.remove.root
  account : ∀ d, (w.files.disk.graph c).surplus d + w.pull.debt d + w.remove.credit d
    = tagCount w.files.imageTags d

/-! ## What one request does to the other -/

variable {w w' : PullRemove c} {f' : Files}

theorem Sound.not_passed (h : Sound w) {v : Digest} (hv : w.remove.busy = some v) :
    ¬ w.pull.Passed v := by
  have hr := h.remove
  unfold Remove.busy at hv
  unfold Remove.Inv at hr
  cases hs : w.remove.stage with
  | cascade queue deleted visit =>
    rw [hs] at hv hr
    exact (hr.2.busy v hv).1
  | _ => rw [hs] at hv; cases hv

theorem Sound.remove_of_pull (h : Sound w) {p' : Pull c}
    (hst : w.pull.Steps w.files p' f') (hok : ∀ v ∈ w.pull.testing, w.remove.busy ≠ some v) :
    w.remove.Inv c p'.Passed f' := by
  have hbusy := fun v => h.not_passed (v := v)
  have hr := h.remove
  unfold Remove.busy at hok hbusy
  unfold Remove.Inv at hr ⊢
  cases hs : w.remove.stage with
  | cascade queue deleted visit =>
    rw [hs] at hr hok hbusy
    have hmore : ∀ v, p'.Passed v ↔ w.pull.Passed v ∨ w.pull.testing = some v :=
      h.pull.passed_steps hst
    -- the pull counts only what it has come past
    have hrc : ∀ v, ¬ w.pull.Passed v → f'.disk.getRefcount v = w.files.disk.getRefcount v :=
      fun v hv => hst.getRefcount fun hi => hv (h.pull.passed_of_increments hi)
    refine ⟨hst.mem_imageTags hr.1, fun v hv hd => ?_, fun v hv => ⟨?_, ?_⟩, ?_⟩
    · by_cases hp : w.pull.Passed v
      · exact .inr ((hmore v).mpr (.inl hp))
      · refine Or.inl ((hrc v hp).trans ?_)
        exact (hr.2.queued v hv hd).resolve_right hp
    · rw [hmore v, not_or]
      exact ⟨hbusy v hv, fun ht => hok v ht hv⟩
    · rw [hrc v (hbusy v hv)]
      exact (hr.2.busy v hv).2
    · refine hr.2.holds.of_lookup fun v hv => hst.lookup fun hw => ?_
      exact hbusy v hv (Pull.passed_of_writing hw)
  | root | untag => rw [hs] at hr; exact hst.mem_imageTags hr
  | check => trivial
  | done => trivial
  | refused => trivial

theorem Sound.pull_of_remove (h : Sound w) {r' : Remove}
    (hst : w.remove.Steps c w.workloads w.files r' f') : w.pull.Inv f' := by
  have hkeep : ∀ d, w.pull.Passed d →
      f'.disk.nodes.lookup d = w.files.disk.nodes.lookup d :=
    fun d hd => hst.lookup fun hb => h.not_passed hb hd
  refine ⟨fun d hd => ?_, fun stored call rest hs => ?_, fun hs => ?_⟩
  · rw [hasNode, hkeep d hd]
    exact h.pull.stored d hd
  · have hstoring := h.pull.storing stored call rest hs
    refine ⟨hstoring.encodes, hstoring.first, hstoring.cover, ?_, hstoring.fresh,
      fun edges hne hc => ?_⟩
    · intro hw
      exact hst.absent (hstoring.absent hw)
    · have hpassed : w.pull.Passed (call.digest c) := by
        rw [Pull.Passed, hs]
        exact .inr ⟨by rw [hc]; simp, rfl⟩
      rw [hasNode, edgesOf, hkeep _ hpassed]
      exact hstoring.written edges hne hc
  · exact hst.mem_imageTags h.other (h.pull.tagged hs)

theorem Sound.covered (h : Sound w) :
    Remove.Covered c w.pull.Passed w.files w.remove.root w.pull.debt := by
  intro d
  rcases h.pull.debt_covered d with hz | hnode | ⟨htag, hroot⟩
  · exact .inl hz
  · exact .inr (.inl hnode)
  · exact .inr (.inr ⟨_, htag, h.other, hroot⟩)

/-! ## Runs -/

theorem step_pull {now : ℕ} (h : step w (.pull now) = some w') :
    ∃ p' f', w.pull.Steps w.files p' f' ∧ w' = { w with pull := p', files := f' } := by
  unfold step at h
  dsimp only at h
  split at h
  · cases h
  rename_i p' f' hp
  cases h
  exact ⟨p', f', Pull.steps_of_step hp, rfl⟩

theorem step_remove (h : step w .remove = some w') :
    ∃ r' f', w.remove.Steps c w.workloads w.files r' f' ∧
      w' = { w with remove := r', files := f' } := by
  unfold step at h
  dsimp only at h
  split at h
  · cases h
  rename_i r' f' hr
  cases h
  exact ⟨r', f', Remove.steps_of_step hr, rfl⟩

theorem sound_start {files : Files} {workloads : List Digest} {image : Image c} {root : Digest}
    (hval : files.disk.Valid c) (hbal : (files.disk.graph c).Balanced (tagCount files.imageTags))
    (hne : image.root ≠ root) : Sound (start files workloads image root) where
  valid := hval
  pull := Pull.inv_new files image
  remove := trivial
  other := hne
  account d := by
    have hd : files.disk.getRefcount d = _ := hbal d
    change (files.disk.getRefcount d : ℤ) - (files.disk.graph c).inDeg d + (0 : ℕ) + (0 : ℕ)
      = tagCount files.imageTags d
    omega

theorem sound_step {a : Act} (h : Sound w) (hok : Apart w a) (hstep : step w a = some w') :
    Sound w' := by
  cases a with
  | pull now =>
    obtain ⟨p', f', hst, rfl⟩ := step_pull hstep
    refine ⟨h.pull.valid hst h.valid, h.pull.steps hst, h.remove_of_pull hst hok.1, ?_, fun d => ?_⟩
    · rw [hst.image_eq]
      exact h.other
    · have := h.pull.account hst hok.2 d
      have := h.account d
      dsimp only
      omega
  | remove =>
    obtain ⟨r', f', hst, rfl⟩ := step_remove hstep
    have hpos : ∀ v, w.remove.decrements = some v → 1 ≤ w.files.disk.getRefcount v := by
      intro v hv
      exact h.remove.positive w.pull.debt (fun _ => 0) h.covered h.account hv
    refine ⟨hst.valid h.valid, h.pull_of_remove hst, h.remove.steps h.valid hst hok, ?_, fun d => ?_⟩
    · rw [hst.root_eq]
      exact h.other
    · have := h.remove.account hst hpos d
      have := h.account d
      dsimp only
      omega

/-- **A pull and the removal of another image that stay clear of each other leave the pulled image
    stored and the counts exact.** -/
theorem pull_remove_counted {files : Files} {workloads : List Digest} {image : Image c}
    {root : Digest} {acts : List Act} {w : PullRemove c} (hval : files.disk.Valid c)
    (hbal : (files.disk.graph c).Balanced (tagCount files.imageTags)) (hne : image.root ≠ root)
    (hapart : Schedule.Meets step Apart (start files workloads image root) acts)
    (hrun : Schedule.run step (start files workloads image root) acts = some w)
    (hpull : w.pull.stage = .done) (hremove : w.remove.stage = .done) :
    (∀ d ∈ image.digests, w.files.disk.hasNode d = true) ∧
      ∀ d, w.files.disk.getRefcount d
        = tagCount w.files.imageTags d + (w.files.disk.graph c).inDeg d := by
  have himage : w.pull.image = image := by
    refine run_inv' (fun w => w.pull.image = image) (fun w a w' hi h => ?_) rfl hrun
    cases a with
    | pull now =>
      obtain ⟨p', f', hst, rfl⟩ := step_pull h
      exact hst.image_eq.trans hi
    | remove =>
      obtain ⟨r', f', -, rfl⟩ := step_remove h
      exact hi
  have hsound : Sound w :=
    run_inv Sound Apart (fun _ _ _ hs hok h => sound_step hs hok h)
      (sound_start hval hbal hne) hapart hrun
  constructor
  · intro d hd
    refine (hsound.pull.stored d ?_).resolve_right ?_
    · rw [Pull.Passed, hpull]
      exact himage.symm ▸ hd
    · rw [Pull.Writing, hpull]
      exact id
  · intro d
    have hdebt : w.pull.debt d = 0 := by rw [Pull.debt, hpull]
    have hcredit : w.remove.credit d = 0 := by rw [Remove.credit, hremove]
    have hacc := hsound.account d
    rw [hdebt, hcredit] at hacc
    change (w.files.disk.getRefcount d : ℤ) - (w.files.disk.graph c).inDeg d + (0 : ℕ) + (0 : ℕ) = _
      at hacc
    omega

theorem removal_deletes_pulled_file :
    Sample.A.root ≠ Sample.imageBD ∧ Sample.leafD ∈ Sample.A.digests ∧
    ∃ w, Schedule.run step (start (.ofImage Sample.B) [] Sample.A Sample.imageBD)
        (List.replicate 2 (.pull 0) ++ List.replicate 17 .remove ++ List.replicate 6 (.pull 0))
        = some w ∧
      w.pull.stage = .done ∧ w.remove.stage = .done ∧ w.files.imageTags = {Sample.imageAD} ∧
      w.files.disk.hasNode Sample.leafD = false := by
  decide +kernel

theorem pull_remove_counted_overlapping :
    ∃ w, Schedule.run step (start (.ofImage Sample.B) [] Sample.A Sample.imageBD)
        (List.replicate 2 (.pull 0) ++ List.replicate 4 .remove ++ List.replicate 3 (.pull 0) ++
          List.replicate 7 .remove ++ List.replicate 3 (.pull 0)) = some w ∧
      w.pull.stage = .done ∧ w.remove.stage = .done ∧
      (∀ d ∈ Sample.A.digests, w.files.disk.hasNode d = true) ∧
      ∀ d, w.files.disk.getRefcount d
        = tagCount w.files.imageTags d + (w.files.disk.graph Sample.codec).inDeg d := by
  obtain ⟨w, hrun, hpull, hremove⟩ : ∃ w, run step (start (.ofImage B) [] A imageBD)
      (replicate 2 (.pull 0) ++ replicate 4 .remove ++ replicate 3 (.pull 0) ++
        replicate 7 .remove ++ replicate 3 (.pull 0)) = some w ∧
      w.pull.stage = .done ∧ w.remove.stage = .done := by decide +kernel
  have hapart : Meets step Apart (start (.ofImage B) [] A imageBD)
      (replicate 2 (.pull 0) ++ replicate 4 .remove ++ replicate 3 (.pull 0) ++
        replicate 7 .remove ++ replicate 3 (.pull 0)) := by decide +kernel
  exact ⟨w, hrun, hpull, hremove, pull_remove_counted (Files.ofImage_valid B)
    (Files.ofImage_balanced B) (by decide +kernel) hapart hrun hpull hremove⟩

end PullRemove

end Pullrun
