import Pullrun.Proof.Workload.Steps

/-!
# The exits that the watcher announces

The watcher keeps the ids it has announced, so that it announces each exit once, and forgets one only
when its id leaves the table.
-/

namespace Pullrun

open WorkloadTable Finset Schedule

namespace Watch

def Announcing (id : Str) : Watch → Prop
  | .record id' _ false _ | .announce id' _ => id' = id
  | _ => False

def Owes (id : Str) : Watch → Prop
  | .idle => False
  | .visit todo => id ∈ todo.map Prod.fst
  | .judged id' _ _ _ todo => id' = id ∨ id ∈ todo.map Prod.fst
  | .record id' _ _ todo | .announce id' todo | .attempt id' todo | .sleep id' todo
  | .create id' todo | .start id' todo | .started id' _ todo => id' ≠ id ∧ id ∈ todo.map Prod.fst

def atVm : Watch → Bool
  | .visit ((_, backend) :: _) => backend = .vm
  | _ => false

instance (id : Str) : DecidablePred (Announcing id)
  | .record id' _ false _ | .announce id' _ => inferInstanceAs (Decidable (id' = id))
  | .idle | .visit _ | .judged _ _ _ _ _ | .record _ _ true _ | .attempt _ _ | .sleep _ _
  | .create _ _ | .start _ _ | .started _ _ _ => inferInstanceAs (Decidable False)

end Watch

namespace Workloads

variable {σ : Type} {s s' : Workloads σ} {id : Str} {table : WorkloadTable σ}

def RunAct.inserts : RunAct → Bool
  | .inserted _ => true
  | _ => false

def WatchAct.fails : WatchAct → Bool
  | .query .failed => true
  | _ => false

/-- **Nothing announced is running**, or about to be restarted. -/
structure Unannounced (s : Workloads σ) (id : Str) : Prop where
  announced : id ∈ s.announced → ¬ s.table.Running id
  announcing : s.watch.Announcing id → ¬ s.table.Running id
  judging : s.watch.Judging id → id ∉ s.announced
  restarting : s.watch.Restarting id → id ∉ s.announced

/-- A run records an id that the watcher has not announced and is not about to announce, and the
    executor knows the VMs it is asked about. -/
def Fresh (s : Workloads σ) : Act σ → Prop
  | .run t a => a.inserts = true → t.id ∉ s.announced ∧ ¬ s.watch.Announcing t.id
  | .watch a => a.fails = true → s.watch.atVm = false
  | .runBegin .. | .stopBegin _ | .stop _ _ | .exits _ | .prune => True

instance (s : Workloads σ) : DecidablePred s.Fresh
  | .run t a =>
    inferInstanceAs (Decidable (a.inserts = true → t.id ∉ s.announced ∧ ¬ s.watch.Announcing t.id))
  | .watch a => inferInstanceAs (Decidable (a.fails = true → s.watch.atVm = false))
  | .runBegin .. | .stopBegin _ | .stop _ _ | .exits _ | .prune => isTrue trivial

theorem Unannounced.mono (h : s.Unannounced id) (hann : s'.announced = s.announced)
    (hwatch : s'.watch = s.watch) (hrun : s'.table.Running id → s.table.Running id) :
    s'.Unannounced id := by
  obtain ⟨h1, h2, h3, h4⟩ := h
  rw [← hann, ← hwatch] at *
  exact ⟨fun h => h1 h ∘ hrun, fun h => h2 h ∘ hrun, h3, h4⟩

theorem Unannounced.run {t : RunTask σ} {rest : Multiset (RunTask σ)} {a : RunAct}
    (h : s.Unannounced id) (hstep : RunStep s t rest a s') (hok : s.Fresh (.run t a)) :
    s'.Unannounced id := by
  cases hstep with
  | created | createFailed | started | startFailed | counted => exact h.mono rfl rfl (fun h => h)
  | inserted handle now hstage =>
    by_cases hid : id = t.id
    · subst hid
      obtain ⟨hann, hing⟩ := hok rfl
      exact ⟨fun h => absurd h hann, fun h => absurd h hing, h.judging, h.restarting⟩
    · refine h.mono rfl rfl fun hrun => ?_
      simpa [running_set, hid] using hrun

theorem running_writeStop {id' : Str} {now : ℤ}
    (h : (writeStop table id' now).Running id) : table.Running id := by
  by_cases hid : id = id'
  · exact absurd (hid ▸ h) (not_running_writeStop table id' now)
  · obtain ⟨st, hrow, hrun⟩ := h
    rw [lookup_writeStop, if_neg hid] at hrow
    exact ⟨st, hrow, hrun⟩

theorem Unannounced.stop {t : StopTask} {rest : Multiset StopTask} (h : s.Unannounced id)
    {b : StopAct} (hstep : StopStep s t rest b s') : s'.Unannounced id := by
  cases hstep with
  | written => exact h.mono rfl rfl running_writeStop
  | unknown | found | nothing | needed | killed | killFailed | left | reported | ignored | labelled
  | recorded => exact h.mono rfl rfl (fun h => h)

variable {a : WatchAct}

theorem Unannounced.move {w : Watch} (h : s.Unannounced id) (hmove : WatchMove s a s.watch w) :
    Unannounced { s with watch := w } id := by
  obtain ⟨h1, h2, h3, h4⟩ := h
  generalize s.watch = w0 at *
  cases hmove with
  | judge id' _ _ _ _ _ hann =>
    exact ⟨h1, fun h => h.elim, fun h => h ▸ hann, fun h => h.elim⟩
  | missing id' _ _ _ _ _ hrow =>
    refine ⟨h1, fun h => ?_, fun h => h.elim, fun h => h.elim⟩
    exact not_running_of_none (h ▸ hrow)
  | backoff | wake | created => exact ⟨h1, fun h => h.elim, fun h => h.elim, h4⟩
  | tick | skip | alive | placeholder | stale | decline | noSpec | createFailed | gone =>
    exact ⟨h1, fun h => h.elim, fun h => h.elim, fun h => h.elim⟩

theorem Unannounced.watch (h : s.Unannounced id) (hstep : WatchStep s a s') :
    s'.Unannounced id := by
  cases hstep with
  | moved _ w hmove => exact h.move hmove
  | marked id' backend exitCode lost todo now st hwatch hrow hrun =>
    have hnot : id' = id → ¬ (s.table.set id' (st.exited now exitCode)).Running id := by
      rintro rfl
      simp [running_set]
    refine ⟨fun hann hrun => h.announced hann ?_, fun hing => ?_, fun h => h.elim, fun hre => ?_⟩
    · rw [running_set] at hrun
      by_cases hid : id = id'
      · simp [hid] at hrun
      · simpa [hid] using hrun
    · cases hw : wantsRestart st exitCode lost with
      | false => rw [hw] at hing; exact hnot hing
      | true => rw [hw] at hing; exact hing.elim
    · refine h.judging ?_
      rw [hwatch]
      cases hw : wantsRestart st exitCode lost with
      | false => rw [hw] at hre; exact hre.elim
      | true => rw [hw] at hre; exact hre
  | recorded id' backend restart todo now hwatch =>
    obtain ⟨h1, h2, h3, h4⟩ := h
    rw [hwatch] at h2 h4
    cases restart with
    | false => exact ⟨h1, h2, fun h => h.elim, fun h => h.elim⟩
    | true => exact ⟨h1, fun h => h.elim, fun h => h.elim, h4⟩
  | announced id' todo now hwatch =>
    refine ⟨fun hann => ?_, fun h => h.elim, fun h => h.elim, fun h => h.elim⟩
    rcases mem_insert.mp hann with rfl | hann
    · exact h.announcing (by rw [hwatch]; rfl)
    · exact h.announced hann
  | started id' handle todo hwatch =>
    obtain ⟨h1, h2, h3, h4⟩ := h
    rw [hwatch] at h4
    exact ⟨h1, fun h => h.elim, fun h => h.elim, h4⟩
  | startFailed id' alive todo hwatch =>
    exact ⟨h.announced, fun h => h.elim, fun h => h.elim, fun h => h.elim⟩
  | rewritten id' handle todo now st hwatch hrow =>
    refine ⟨fun hann hrun => ?_, fun h => h.elim, fun h => h.elim, fun h => h.elim⟩
    by_cases hid : id = id'
    · exact h.restarting (by rw [hwatch, hid]; rfl) hann
    · exact h.announced hann (by simpa [running_set, hid] using hrun)
  | sweep now hwatch =>
    exact ⟨fun hann => h.announced (mem_of_mem_filter id hann), fun h => h.elim,
      fun h => h.elim, fun h => h.elim⟩

theorem Unannounced.step [DecidableEq σ] {a : Act σ} (h : s.Unannounced id) (hok : s.Fresh a)
    (hstep : s.step a = some s') : s'.Unannounced id := by
  cases a with
  | run t a => exact h.run (stepRun_eq_some (Option.ite_none_right_eq_some.mp hstep).2) hok
  | stop t a => exact h.stop (stepStop_eq_some (Option.ite_none_right_eq_some.mp hstep).2)
  | watch a => exact h.watch (stepWatch_eq_some hstep)
  | runBegin | stopBegin | exits => cases hstep; exact h.mono rfl rfl (fun h => h)
  | prune => cases hstep; exact h.mono rfl rfl running_pruned.mp

/-! ## A tick -/

/-- The exit of the workload is announced since then, or the watcher still has it before it. -/
def Due (n : ℕ) (id : Str) (s : Workloads σ) : Prop :=
  n < s.events.count id ∨
    n ≤ s.events.count id ∧
      (s.watch.Owes id ∧ s.table.Running id ∧ id ∉ s.live ∧ id ∉ s.announced ∨
        ∃ backend restart todo, s.watch = .record id backend restart todo)

theorem WatchMove.owes {w w' : Watch} (h : WatchMove s a w w')
    (hok : a.fails = true → w.atVm = false) (howes : w.Owes id) (hrun : s.table.Running id)
    (hlive : id ∉ s.live) (hann : id ∉ s.announced) :
    w'.Owes id ∨ ∃ backend restart todo, w' = .record id backend restart todo := by
  have htail : ∀ {id' : Str} {backend : Backend} {todo : List (Str × Backend)},
      (Watch.visit ((id', backend) :: todo)).Owes id → id' = id ∨ id ∈ todo.map Prod.fst := by
    intro id' backend todo h
    exact (List.mem_cons.mp h).imp_left Eq.symm
  cases h with
  | tick => exact howes.elim
  | skip id' backend todo now hin =>
    exact .inl ((htail howes).resolve_left fun hid => hann (hid ▸ hin))
  | alive id' backend todo _ hin =>
    exact .inl ((htail howes).resolve_left fun hid => hlive (hid ▸ hin))
  | judge => exact .inl (htail howes)
  | placeholder => exact Bool.noConfusion (hok rfl)
  | missing id' backend exitCode lost todo now hrow =>
    by_cases hid : id' = id
    · exact .inr ⟨backend, false, todo, hid ▸ rfl⟩
    · exact .inl ⟨hid, howes.resolve_left hid⟩
  | stale id' backend exitCode lost todo now hrow =>
    exact .inl (howes.resolve_left fun hid => hrow (hid ▸ hrun))
  | backoff | wake | created => exact .inl howes
  | decline | noSpec | createFailed | gone => exact .inl howes.2

theorem WatchStep.owes (h : WatchStep s a s') (hok : s.Fresh (.watch a)) (howes : s.watch.Owes id)
    (hrun : s.table.Running id) (hlive : id ∉ s.live) (hann : id ∉ s.announced) :
    s'.watch.Owes id ∧ s'.table.Running id ∧ id ∉ s'.live ∧ id ∉ s'.announced ∨
      ∃ backend restart todo, s'.watch = .record id backend restart todo := by
  have hset : ∀ {id'} st, id' ≠ id → (s.table.set id' st).Running id := fun st hne => by
    rw [running_set, if_neg (Ne.symm hne)]
    exact hrun
  cases h with
  | moved a w hmove =>
    exact (hmove.owes hok howes hrun hlive hann).imp_left fun h => ⟨h, hrun, hlive, hann⟩
  | marked id' backend exitCode lost todo now st hwatch hrow hst =>
    rw [hwatch] at howes
    by_cases hid : id' = id
    · subst hid
      exact .inr ⟨backend, _, todo, rfl⟩
    · exact .inl ⟨⟨hid, howes.resolve_left hid⟩, hset _ hid, hlive, hann⟩
  | recorded id' backend restart todo now hwatch =>
    rw [hwatch] at howes
    cases restart <;> exact .inl ⟨howes, hrun, hlive, hann⟩
  | announced id' todo now hwatch =>
    rw [hwatch] at howes
    refine .inl ⟨howes.2, hrun, hlive, fun h => ?_⟩
    rcases mem_insert.mp h with rfl | h
    · exact howes.1 rfl
    · exact hann h
  | started id' handle todo hwatch =>
    rw [hwatch] at howes
    exact .inl ⟨howes, hrun, (mem_setLive true (Ne.symm howes.1)).not.mpr hlive, hann⟩
  | startFailed id' alive todo hwatch =>
    rw [hwatch] at howes
    exact .inl ⟨howes.2, hrun, (mem_setLive alive (Ne.symm howes.1)).not.mpr hlive, hann⟩
  | rewritten id' handle todo now st hwatch hrow =>
    rw [hwatch] at howes
    exact .inl ⟨howes.2, hset _ howes.1, hlive, hann⟩
  | sweep now hwatch =>
    rw [hwatch] at howes
    exact absurd howes List.not_mem_nil

theorem WatchStep.count_le (h : WatchStep s a s') : s.events.count id ≤ s'.events.count id := by
  cases h with
  | recorded => exact List.count_le_count_cons
  | moved | marked | announced | started | startFailed | rewritten | sweep => exact le_refl _

theorem Due.watch {n : ℕ} (h : Due n id s) (hstep : WatchStep s a s') (hok : s.Fresh (.watch a)) :
    Due n id s' := by
  rcases h with hcount | ⟨hle, ⟨howes, hrun, hlive, hann⟩ | ⟨backend, restart, todo, hwatch⟩⟩
  · exact .inl (lt_of_lt_of_le hcount hstep.count_le)
  · exact .inr ⟨hle.trans hstep.count_le, hstep.owes hok howes hrun hlive hann⟩
  · cases hstep with
    | moved _ w hmove => rw [hwatch] at hmove; cases hmove
    | recorded id' backend' restart' todo' now hwatch' =>
      rw [hwatch] at hwatch'
      cases hwatch'
      exact .inl (by simpa using Nat.lt_succ_of_le hle)
    | marked _ _ _ _ _ _ _ hwatch' | announced _ _ _ hwatch' | started _ _ _ hwatch'
    | startFailed _ _ _ hwatch' | rewritten _ _ _ _ _ hwatch' | sweep _ hwatch' =>
      rw [hwatch] at hwatch'; cases hwatch'

theorem mem_runningRows (h : table.Running id) : ∃ backend, (id, backend) ∈ runningRows table := by
  obtain ⟨st, hrow, hrun⟩ := h
  rw [← Option.mem_def, Finmap.mem_lookup_iff] at hrow
  exact ⟨st.backend, Multiset.mem_map.mpr ⟨⟨id, st⟩, Multiset.mem_filter.mpr ⟨hrow, hrun⟩, rfl⟩⟩

structure Tick [DecidableEq σ] (s : Workloads σ) (acts : List WatchAct) (s' : Workloads σ) :
    Prop where
  idle : s.watch = .idle
  nonempty : acts ≠ []
  run : Schedule.run step s (acts.map .watch) = some s'
  idle' : s'.watch = .idle

theorem Tick.announces [DecidableEq σ] {acts : List WatchAct} (h : Tick s acts s')
    (hok : Meets step Fresh s (acts.map .watch)) (hann : id ∉ s.announced)
    (hrow : s.table.Running id) (hlive : id ∉ s.live) :
    s.events.count id < s'.events.count id := by
  obtain ⟨hidle, hne, hrun, hidle'⟩ := h
  obtain ⟨a, acts, rfl⟩ := List.exists_cons_of_ne_nil hne
  obtain ⟨s1, hstep, hrest⟩ := run_cons_eq_some.mp hrun
  rw [List.map_cons, meets_cons_some hstep] at hok
  -- the first step takes the snapshot, and the workload is in it
  have hfirst : Due (s.events.count id) id s1 := by
    cases stepWatch_eq_some hstep with
    | moved a w hmove =>
      rw [hidle] at hmove
      cases hmove with
      | tick snapshot hrows =>
        obtain ⟨backend, hmem⟩ := mem_runningRows hrow
        rw [← hrows, Multiset.mem_coe] at hmem
        exact .inr ⟨le_refl _, .inl ⟨List.mem_map.mpr ⟨_, hmem, rfl⟩, hrow, hlive, hann⟩⟩
    | marked _ _ _ _ _ _ _ hwatch | recorded _ _ _ _ _ hwatch | announced _ _ _ hwatch
    | started _ _ _ hwatch | startFailed _ _ _ hwatch | rewritten _ _ _ _ _ hwatch | sweep _ hwatch =>
      rw [hidle] at hwatch; cases hwatch
  have hlast : Due (s.events.count id) id s' := by
    refine run_inv (Due (s.events.count id) id) _ ?_ hfirst hok.2.mem hrest
    rintro s a s' hdue ⟨hok, hmem⟩ hstep
    obtain ⟨a, _, rfl⟩ := List.mem_map.mp hmem
    exact hdue.watch (stepWatch_eq_some hstep) hok
  rcases hlast with hlt | ⟨_, ⟨howes, _⟩ | ⟨_, _, _, hwatch⟩⟩
  · exact hlt
  · rw [hidle'] at howes
    exact howes.elim
  · rw [hidle'] at hwatch
    cases hwatch

theorem unannounced_start (table : WorkloadTable σ) (live : Finset Str) (id : Str) :
    (start table live).Unannounced id :=
  ⟨fun h => absurd h (notMem_empty id), fun h => h.elim, fun h => h.elim, fun h => h.elim⟩

/-- **No exit is passed over**, if a run takes no id that the watcher has announced. -/
theorem exits_announced [DecidableEq σ] {table : WorkloadTable σ} {live : Finset Str}
    {acts : List (Act σ)} (hok : Schedule.Meets step Fresh (start table live) acts)
    (hrun : Schedule.run step (start table live) acts = some s) :
    (∀ id, s.table.Running id → id ∉ s.announced) ∧
      ∀ id tick s', s.table.Running id → id ∉ s.live → Tick s tick s' →
        Schedule.Meets step Fresh s (tick.map .watch) →
        s.events.count id < s'.events.count id := by
  have hun : ∀ id, s.Unannounced id := fun id =>
    run_inv (fun s => s.Unannounced id) Fresh (fun _ _ _ h hok hstep => h.step hok hstep)
      (unannounced_start table live id) hok hrun
  refine ⟨fun id hrow hann => (hun id).announced hann hrow, ?_⟩
  intro id tick s' hrow hlive htick hfresh
  exact htick.announces hfresh (fun hann => (hun id).announced hann hrow) hrow hlive

/-! ## An id that is pruned before it is used again, and one that is not -/

def announcedOnce : List WatchAct :=
  [.tick [("w".toList, .container)], .query (.ended (some 0)), .next 1, .next 1, .next 1, .next 1]

/-- A workload is run, ends and is announced; after `between` the id is used again, and the second
    workload ends too. -/
def usedAgain (between : List (Act Unit)) : List (Act Unit) :=
  launch "w".toList .container .no () ⟨.container, 7, none⟩ 0 ++ .exits "w".toList ::
    announcedOnce.map .watch ++ between ++
  launch "w".toList .container .no () ⟨.container, 8, none⟩ 2 ++ [.exits "w".toList]

def prunedBetween : List (Act Unit) := [.prune, .watch (.tick []), .watch (.next 2)]

theorem exits_announced_pruned :
    Schedule.Meets step Fresh (start ∅ ∅) (usedAgain prunedBetween) ∧
      ∃ s s', Schedule.run step (start ∅ ∅) (usedAgain prunedBetween) = some s ∧
        Tick s announcedOnce s' ∧ s.events.count "w".toList < s'.events.count "w".toList := by
  have hok : Meets step Fresh (start ∅ ∅) (usedAgain prunedBetween) := by decide +kernel
  have htick : ∃ s s', run step (start ∅ ∅) (usedAgain prunedBetween) = some s ∧
      Tick s announcedOnce s' ∧ s.table.Running "w".toList ∧ "w".toList ∉ s.live ∧
      Meets step Fresh s (announcedOnce.map .watch) :=
    ⟨_, _, rfl, ⟨rfl, by decide, rfl, rfl⟩, by decide +kernel, by decide +kernel, by decide +kernel⟩
  obtain ⟨s, s', hrun, htick, hrow, hlive, hfresh⟩ := htick
  exact ⟨hok, s, s', hrun, htick,
    (exits_announced hok hrun).2 "w".toList announcedOnce s' hrow hlive htick hfresh⟩

/-- **A second workload under an announced id is not watched.** -/
theorem reused_id_passed_over :
    ∃ s s', Schedule.run step (start ∅ ∅) (usedAgain []) = some s ∧
      Tick s [.tick [("w".toList, .container)], .next 3, .next 3] s' ∧
      "w".toList ∉ s.live ∧ s'.table.Running "w".toList ∧ "w".toList ∈ s'.announced ∧
      s'.events = s.events :=
  ⟨_, _, rfl, ⟨rfl, by decide, rfl, rfl⟩, by decide +kernel, by decide +kernel, by decide +kernel, rfl⟩

end Workloads

end Pullrun
