import Pullrun.Service.TagLock

/-!
# Image requests and the lock of the tag table

Every image request but one gives its guard back before it asks for the next, so requests of those
kinds never block each other for good. The exception is `commit_image` with a tag: it calls
`save_image_tags` under its own write guard and waits for itself.
-/

namespace Pullrun

namespace TagLock

open RwLock (Mode Act Task Flat)

theorem flat_guarded (m : Mode) : Flat (guarded m) := .guarded m .nil

theorem flat_updateAndSave : Flat updateAndSave := (flat_guarded _).append (flat_guarded _)

theorem Request.flat_script {r : Request} (h : ¬ r.TagsCommit) : Flat r.script := by
  cases r with
  | pullImage outcome =>
    cases outcome with
    | localHitOrFailed => exact flat_guarded _
    | tagged => exact (flat_guarded _).append flat_updateAndSave
  | buildImage outcome | importImage outcome =>
    cases outcome with
    | failed => exact .nil
    | stored => exact flat_updateAndSave
  | commitImage tag outcome =>
    cases outcome with
    | failed => exact .nil
    | stored =>
      have htag : tag = [] := not_not.mp h
      rw [Request.script, Request.commitTag, if_pos htag]
      exact .nil
  | removeImage outcome =>
    cases outcome with
    | invalidDigest => exact .nil
    | refused => exact flat_guarded _
    | removed => exact (flat_guarded _).append flat_updateAndSave
  | listImages | gc => exact flat_guarded _

variable {requests : List Request}

theorem sound_start (h : ∀ r ∈ requests, ¬ r.TagsCommit) :
    RwLock.Sound (start requests) := by
  intro t ht
  obtain ⟨r, hr, rfl⟩ := List.mem_map.mp ht
  exact .outside false (r.flat_script (h r hr))

/-- The state a commit with a tag ends in: inside its own write guard, asking for a read guard. -/
def blocked : Task := ⟨saveImageTags ++ [.release .write], [.write], true⟩

theorem run_commit {i : ℕ} {tag : Str}
    (hi : requests[i]? = some (.commitImage tag .stored)) (htag : tag ≠ []) :
    Schedule.run RwLock.step (start requests) [i, i, i] =
      some ((start requests).set i blocked) := by
  have hlen : i < (start requests).length := by
    rw [start, List.length_map]
    exact (List.getElem?_eq_some_iff.mp hi).1
  -- the task after it has asked, and inside its guard
  let asking : Task := ⟨.acquire .write :: (saveImageTags ++ [.release .write]), [], true⟩
  let inside : Task := ⟨saveImageTags ++ [.release .write], [.write], false⟩
  have hset : ∀ t : Task, ((start requests).set i t)[i]? = some t := fun t =>
    List.getElem?_set_self hlen
  have hask : RwLock.step (start requests) i = some ((start requests).set i asking) := by
    refine RwLock.step_eq_some.mpr ⟨.new (Request.commitTag tag), asking, ?_, ?_, rfl⟩
    · rw [start, List.getElem?_map, hi]
      rfl
    · rw [Request.commitTag, if_neg htag]
      rfl
  have hfree : RwLock.Free ((start requests).set i asking) .write := by
    intro t ht
    rcases List.mem_or_eq_of_mem_set ht with hmem | rfl
    · obtain ⟨r, _, rfl⟩ := List.mem_map.mp hmem
      rfl
    · rfl
  have henter : RwLock.step ((start requests).set i asking) i =
      some ((start requests).set i inside) := by
    refine RwLock.step_eq_some.mpr ⟨asking, inside, hset asking, ?_, (List.set_set ..).symm⟩
    simp only [RwLock.advance, asking, inside, Bool.true_eq_false, if_false, if_pos hfree]
  have hagain : RwLock.step ((start requests).set i inside) i =
      some ((start requests).set i blocked) :=
    RwLock.step_eq_some.mpr ⟨inside, blocked, hset inside, rfl, (List.set_set ..).symm⟩
  simp only [Schedule.run, hask, henter, hagain]

/-- **The image requests deadlock exactly if one of them is a commit with a tag.** -/
theorem requests_finish_iff (requests : List Request) :
    (∀ turns s, Schedule.run RwLock.step (start requests) turns = some s →
      (∀ t ∈ s, t.waiting = true → t.held = []) ∧
      ∃ more s', Schedule.run RwLock.step s more = some s' ∧ RwLock.Finished s') ↔
    ∀ r ∈ requests, ¬ r.TagsCommit := by
  constructor
  · intro h r hr hcommit
    obtain ⟨i, hi⟩ := List.mem_iff_getElem?.mp hr
    match r, hcommit with
    | .commitImage tag .stored, htag =>
      have hblocked := (h _ _ (run_commit hi htag)).1 blocked
        (List.mem_set (by simpa [start] using (List.getElem?_eq_some_iff.mp hi).1) _) rfl
      cases hblocked
  · intro h turns s hrun
    have hs : RwLock.Sound s := (sound_start h).run hrun
    exact ⟨fun t ht hw => (hs t ht).held_of_waiting hw, hs.canFinish⟩

theorem commit_blocks_itself :
    ∃ s, Schedule.run RwLock.step (start [.commitImage ['a'] .stored]) [0, 0, 0] = some s ∧
      ¬ RwLock.Finished s ∧ ∀ i, RwLock.step s i = none := by
  refine ⟨[blocked], by decide, by decide, fun i => ?_⟩
  cases i with
  | zero => decide
  | succ i => rfl

end TagLock

end Pullrun
