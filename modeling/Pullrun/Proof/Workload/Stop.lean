import Pullrun.Proof.Workload.Steps

/-!
# What is left of a workload after a stop

`stop_workload` answers with success when the executor has done so and the workload is recorded as
stopped. Three things can bring it back: a run of the same id that was already under way, a restart by the
exit watcher, which looks for an operator's stop before its back-off and not after it, and a process the
table does not account for. A fourth keeps it up: the executor of machines answers success for one from the
warm pool without stopping it, and says of it that it is stopped.
-/

namespace Pullrun

open WorkloadTable Finset

def RunStage.Launched : RunStage → Prop
  | .count _ | .insert _ => True
  | .create | .start => False

def StopStage.Killed : StopStage → Prop
  | .label | .write _ | .record _ => True
  | .lookup | .status | .stopping | .failed => False

def StopStage.Written : StopStage → Prop
  | .record _ => True
  | _ => False

namespace Workloads

variable {σ : Type} {s s' : Workloads σ} {id : Str} {stops : Multiset StopTask} {a : WatchAct}

def Launching (s : Workloads σ) (id : Str) : Prop := ∃ r ∈ s.runs, r.id = id

/-- **Where a live process is accounted for, and what a stop relies on.** -/
structure Accounted (s : Workloads σ) (id : Str) : Prop where
  live : id ∈ s.live → (∃ r ∈ s.runs, r.id = id ∧ r.stage.Launched) ∨ s.watch.Restarted id ∨
    s.table.lookup id = none ∨ s.table.Running id
  judged : s.watch.Judging id → id ∉ s.live
  killed : ∀ t ∈ s.stops, t.id = id → t.stage.Killed → id ∉ s.live
  found : ∀ t ∈ s.stops, t.id = id → t.stage = .status → id ∈ s.live → s.table.lookup id ≠ none
  written : ∀ t ∈ s.stops, t.id = id → t.stage.Written → ¬ s.table.Running id
  settled : id ∈ s.settled →
    ¬ s.table.Running id ∧ id ∉ s.live ∧ ¬ s.Launching id ∧ ¬ s.watch.Restarting id

/-- Nobody starts or restarts a workload that is being stopped, and the watcher holds no verdict on
    one that is being started. -/
structure Apart (s : Workloads σ) : Prop where
  stops : ∀ t ∈ s.stops, ¬ s.Launching t.id ∧ ¬ s.watch.Restarting t.id
  runs : ∀ r ∈ s.runs, ¬ s.watch.Judging r.id

theorem SameAt.launching (h : SameAt s s' id) : s'.Launching id ↔ s.Launching id :=
  exists_congr fun r => and_congr_left fun hid => h.runs r hid

theorem SameAt.running (h : SameAt s s' id) : s'.table.Running id ↔ s.table.Running id := by
  rw [Running, h.row]
  rfl

theorem Accounted.sameAt (h : s.Accounted id) (hsame : SameAt s s' id) : s'.Accounted id where
  live hl := by
    rw [hsame.restarted, hsame.row, hsame.running]
    refine (h.live (hsame.live.mp hl)).imp_left ?_
    rintro ⟨r, hr, hid, hstage⟩
    exact ⟨r, (hsame.runs r hid).mpr hr, hid, hstage⟩
  judged hj := hsame.live.not.mpr (h.judged (hsame.judging.mp hj))
  killed t ht hid hstage := hsame.live.not.mpr (h.killed t ((hsame.stops t hid).mp ht) hid hstage)
  found t ht hid hstage hl := by
    rw [hsame.row]
    exact h.found t ((hsame.stops t hid).mp ht) hid hstage (hsame.live.mp hl)
  written t ht hid hstage :=
    hsame.running.not.mpr (h.written t ((hsame.stops t hid).mp ht) hid hstage)
  settled hset := by
    rw [hsame.running, hsame.live, hsame.launching, hsame.restarting]
    exact h.settled (hsame.settled.mp hset)

/-! ## Runs -/

theorem Accounted.of_unstopped (hstops : ∀ t ∈ s.stops, t.id ≠ id) (hset : id ∉ s.settled)
    (hjudge : ¬ s.watch.Judging id)
    (hlive : id ∈ s.live → (∃ r ∈ s.runs, r.id = id ∧ r.stage.Launched) ∨ s.watch.Restarted id ∨
      s.table.lookup id = none ∨ s.table.Running id) : s.Accounted id where
  live := hlive
  judged hj := absurd hj hjudge
  killed t ht hid := absurd hid (hstops t ht)
  found t ht hid := absurd hid (hstops t ht)
  written t ht hid := absurd hid (hstops t ht)
  settled h := absurd h hset

section

variable (h : s.Accounted id) {t : StopTask}
include h

theorem Accounted.run {t : RunTask σ} {rest : Multiset (RunTask σ)} {a : RunAct}
    (hapart : s.Apart) (hrest : s.runs = t ::ₘ rest)
    (hstep : RunStep s t rest a s') (hclean : a ≠ .startFailed true) : s'.Accounted id := by
  by_cases hid : id = t.id
  swap
  · exact h.sameAt (hstep.sameAt hrest hid)
  subst hid
  have ht : t ∈ s.runs := by rw [hrest]; exact Multiset.mem_cons_self t rest
  have hlaunch : s.Launching t.id := ⟨t, ht, rfl⟩
  have hstops : ∀ r ∈ s.stops, r.id ≠ t.id := fun r hr hid =>
    (hapart.stops r hr).1 (hid ▸ hlaunch)
  have hset : t.id ∉ s.settled := fun hset => (h.settled hset).2.2.1 hlaunch
  have hjudge := hapart.runs t ht
  -- the other runs stay as they are, and so does what they account for
  have hrest' : (∃ r ∈ s.runs, r.id = t.id ∧ r.stage.Launched) → t.stage.Launched ∨
      ∃ r ∈ rest, r.id = t.id ∧ r.stage.Launched := by
    rw [hrest]
    rintro ⟨r, hr, hrid, hstage⟩
    rcases Multiset.mem_cons.mp hr with rfl | hr
    · exact .inl hstage
    · exact .inr ⟨r, hr, hrid, hstage⟩
  cases hstep with
  | created hstage =>
    refine .of_unstopped hstops hset hjudge fun hl => (h.live hl).imp_left fun hr => ?_
    rcases hrest' hr with hst | ⟨r, hr, hrest⟩
    · rw [hstage] at hst
      exact hst.elim
    · exact ⟨r, Multiset.mem_cons_of_mem hr, hrest⟩
  | createFailed hstage =>
    refine .of_unstopped hstops hset hjudge fun hl => (h.live hl).imp_left fun hr => ?_
    rcases hrest' hr with hst | hr
    · rw [hstage] at hst
      exact hst.elim
    · exact hr
  | started handle hstage | counted handle hstage =>
    refine .of_unstopped hstops hset hjudge fun _ => .inl ?_
    exact ⟨_, Multiset.mem_cons_self _ rest, rfl, trivial⟩
  | startFailed alive hstage =>
    cases alive with
    | true => exact absurd rfl hclean
    | false => exact .of_unstopped hstops hset hjudge fun hl => absurd hl (by simp [setLive])
  | inserted handle now hstage =>
    refine .of_unstopped hstops hset hjudge fun _ => .inr (.inr (.inr ?_))
    exact running_set.mpr (by simp)

/-! ## Stops -/

theorem Accounted.ledger (gauge : Option Backend → ℤ) (announced : Finset Str)
    (events : List Str) : Accounted { s with gauge, announced, events } id :=
  ⟨h.live, h.judged, h.killed, h.found, h.written, h.settled⟩

theorem Accounted.dead (id' : Str) : Accounted { s with live := s.live.erase id' } id where
  live hl := h.live (mem_of_mem_erase hl)
  judged hj := h.judged hj ∘ mem_of_mem_erase
  killed t ht hid hstage := h.killed t ht hid hstage ∘ mem_of_mem_erase
  found t ht hid hstage hl := h.found t ht hid hstage (mem_of_mem_erase hl)
  written := h.written
  settled hset := by
    obtain ⟨hrun, hlive, hrest⟩ := h.settled hset
    exact ⟨hrun, hlive ∘ mem_of_mem_erase, hrest⟩

theorem Accounted.endStop (hle : ∀ t ∈ stops, t ∈ s.stops) : Accounted { s with stops } id :=
  ⟨h.live, h.judged, fun t ht => h.killed t (hle t ht), fun t ht => h.found t (hle t ht),
    fun t ht => h.written t (hle t ht), h.settled⟩

theorem Accounted.setStop
    (hle : ∀ t ∈ stops, t ∈ s.stops) (hkilled : t.id = id → t.stage.Killed → id ∉ s.live)
    (hfound : t.id = id → t.stage = .status → s.table.lookup id ≠ none)
    (hwritten : t.id = id → t.stage.Written → ¬ s.table.Running id) :
    Accounted { s with stops := t ::ₘ stops } id where
  live := h.live
  judged := h.judged
  killed r hr := by
    rcases Multiset.mem_cons.mp hr with rfl | hr
    · exact hkilled
    · exact h.killed r (hle r hr)
  found r hr := by
    rcases Multiset.mem_cons.mp hr with rfl | hr
    · exact fun hid hstage _ => hfound hid hstage
    · exact h.found r (hle r hr)
  written r hr := by
    rcases Multiset.mem_cons.mp hr with rfl | hr
    · exact hwritten
    · exact h.written r (hle r hr)
  settled := h.settled

theorem Accounted.settle (hrun : ¬ s.table.Running id) (hlive : id ∉ s.live)
    (hlaunch : ¬ s.Launching id) (hrestart : ¬ s.watch.Restarting id) :
    Accounted { s with settled := insert id s.settled } id :=
  ⟨h.live, h.judged, h.killed, h.found, h.written, fun _ => ⟨hrun, hlive, hlaunch, hrestart⟩⟩

theorem Accounted.writeStop (hlive : id ∉ s.live) (now : ℤ) :
    Accounted { s with table := writeStop s.table id now } id where
  live hl := absurd hl hlive
  judged := h.judged
  killed := h.killed
  found _ _ _ _ hl := absurd hl hlive
  written _ _ _ _ := not_running_writeStop s.table id now
  settled hset := ⟨not_running_writeStop s.table id now, (h.settled hset).2⟩

theorem Accounted.stop {rest : Multiset StopTask}
    {b : StopAct} (hapart : s.Apart) (hrest : s.stops = t ::ₘ rest) (hstep : StopStep s t rest b s')
    (hleft : b ≠ .left) (hvm : t.stage = .failed → ∀ st, s.table.lookup t.id = some st → st.backend = .vm →
      t.id ∉ s.live) : s'.Accounted id := by
  by_cases hid : id = t.id
  swap
  · exact h.sameAt (hstep.sameAt hrest hid)
  subst hid
  have ht : t ∈ s.stops := by rw [hrest]; exact Multiset.mem_cons_self t rest
  have hle : ∀ r ∈ rest, r ∈ s.stops := fun r hr => by
    rw [hrest]
    exact Multiset.mem_cons_of_mem hr
  obtain ⟨hlaunch, hrestart⟩ := hapart.stops t ht
  cases hstep with
  | unknown | reported => exact h.endStop hle
  | found _ st hstage hrow =>
    exact h.setStop hle (fun _ h => h.elim) (fun _ _ => by rw [hrow]; simp) (fun _ h => h.elim)
  | nothing _ hstage hrow =>
    -- a live process would be accounted for by the table
    have hlive : t.id ∉ s.live := fun hl => by
      rcases h.live hl with ⟨r, hr, hid, _⟩ | hre | hnone | hrun
      · exact hlaunch ⟨r, hr, hid⟩
      · exact hrestart hre.restarting
      · exact h.found t ht rfl hstage hl hnone
      · exact hrow hrun
    exact (h.endStop hle).settle hrow hlive hlaunch hrestart
  | needed _ hstage hrow | killFailed hstage =>
    exact h.setStop hle (fun _ h => h.elim) (fun _ h => by cases h) (fun _ h => h.elim)
  | left => exact absurd rfl hleft
  | killed _ hstage =>
    exact (h.dead t.id).setStop hle (fun _ _ => notMem_erase _ _) (fun _ h => by cases h)
      (fun _ h => h.elim)
  | ignored _ st hstage hrow hback =>
    exact h.setStop hle (fun _ _ => hvm hstage st hrow hback) (fun _ h => by cases h)
      (fun _ h => h.elim)
  | labelled _ hstage =>
    have hlive := h.killed t ht rfl (by rw [hstage]; trivial)
    exact h.setStop hle (fun _ _ => hlive) (fun _ h => by cases h) (fun _ h => h.elim)
  | written label now hstage =>
    have hlive := h.killed t ht rfl (by rw [hstage]; trivial)
    exact (h.writeStop hlive now).setStop hle (fun _ _ => hlive) (fun _ h => by cases h)
      (fun _ _ => not_running_writeStop s.table t.id now)
  | recorded label _ hstage =>
    have hlive := h.killed t ht rfl (by rw [hstage]; trivial)
    have hrun := h.written t ht rfl (by rw [hstage]; trivial)
    have hcounted := h.ledger (s.addGauge label (-1)).gauge s.announced s.events
    exact (hcounted.endStop hle).settle hrun hlive hlaunch hrestart

/-! ## The watcher -/

theorem Accounted.watch {w : Watch} (hjudge : w.Judging id → id ∉ s.live)
    (hrestart : w.Restarting id → s.watch.Restarting id)
    (hgone : s.watch.Restarted id → w.Restarted id ∨ s.table.lookup id = none) :
    Accounted { s with watch := w } id where
  live hl := by
    rcases h.live hl with hr | hre | hrow
    · exact .inl hr
    · exact .inr ((hgone hre).imp_right .inl)
    · exact .inr (.inr hrow)
  judged := hjudge
  killed := h.killed
  found := h.found
  written := h.written
  settled hset := by
    obtain ⟨hrun, hlive, hlaunch, hno⟩ := h.settled hset
    exact ⟨hrun, hlive, hlaunch, hno ∘ hrestart⟩

end

/-- The executor does not say of a workload that it has ended while it runs. -/
def Truthful (s : Workloads σ) : WatchAct → Prop
  | .query (.ended _) => ∀ id, s.watch.current = some id → id ∉ s.live
  | _ => True

theorem WatchMove.effects {w w' : Watch} (h : WatchMove s a w w') (htrue : s.Truthful a)
    (hwatch : s.watch = w) :
    (w'.Judging id → id ∉ s.live) ∧ (w'.Restarting id → w.Restarting id) ∧
      (w.Restarted id → s.table.lookup id = none) := by
  cases h with
  | judge id' _ _ _ _ _ _ hlive =>
    have hdead : id' ∉ s.live := by
      intro hl
      obtain ⟨code, rfl⟩ := hlive hl
      exact htrue id' (by rw [hwatch]; rfl) hl
    exact ⟨fun h => h ▸ hdead, fun h => h.elim, fun h => h.elim⟩
  | gone _ _ _ _ hrow => exact ⟨fun h => h.elim, fun h => h.elim, fun h => h ▸ hrow⟩
  | backoff | wake | created => exact ⟨fun h => h.elim, fun h => h, fun h => h.elim⟩
  | tick | skip | alive | placeholder | missing | stale | decline | noSpec | createFailed =>
    exact ⟨fun h => h.elim, fun h => h.elim, fun h => h.elim⟩

theorem Accounted.watchStep (h : s.Accounted id) (hapart : s.Apart)
    (hstep : WatchStep s a s') (hclean : a ≠ .startFailed true) (htrue : s.Truthful a) :
    s'.Accounted id := by
  by_cases hcur : s.watch.current = some id
  swap
  · exact h.sameAt (hstep.sameAt hcur)
  -- a workload that is being restarted has no stop to answer to
  have hfree : s.watch.Restarting id → (∀ t ∈ s.stops, t.id ≠ id) ∧ id ∉ s.settled := fun hre =>
    ⟨fun t ht hid => (hapart.stops t ht).2 (hid ▸ hre), fun hset => (h.settled hset).2.2.2 hre⟩
  cases hstep with
  | moved _ w hmove =>
    obtain ⟨hjudge, hrestart, hgone⟩ := hmove.effects htrue rfl
    exact h.watch hjudge hrestart fun hre => .inr (hgone hre)
  | marked id' backend exitCode lost todo now st hwatch hrow hrun =>
    rw [hwatch] at hcur
    cases hcur
    have hlive : id ∉ s.live := h.judged (by rw [hwatch]; rfl)
    have hnot : ¬ Running (s.table.set id (st.exited now exitCode)) id := by
      simp [running_set]
    refine ⟨fun hl => absurd hl hlive, fun h => h.elim, h.killed, fun _ _ _ _ hl => absurd hl hlive,
      fun _ _ _ _ => hnot, fun hset => ?_⟩
    exact absurd ((running_of_lookup hrow).mpr hrun) (h.settled hset).1
  | recorded id' backend restart todo now hwatch =>
    refine (h.ledger (s.addGauge (some backend) (-1)).gauge s.announced (id' :: s.events)).watch
      ?_ ?_ (by simp [hwatch, Watch.Restarted])
    · cases restart <;> exact fun h => h.elim
    · cases restart with
      | false => exact fun h => h.elim
      | true =>
        intro hre
        change s.watch.Restarting id
        rw [hwatch]
        exact hre
  | announced id' todo now hwatch =>
    exact (h.ledger s.gauge (insert id' s.announced) s.events).watch (fun h => h.elim)
      (fun h => h.elim) (by simp [hwatch, Watch.Restarted])
  | started id' handle todo hwatch =>
    rw [hwatch] at hcur
    cases hcur
    obtain ⟨hstops, hset⟩ := hfree (by rw [hwatch]; rfl)
    exact .of_unstopped hstops hset (fun h => h) fun _ => .inr (.inl rfl)
  | startFailed id' alive todo hwatch =>
    cases alive with
    | true => exact absurd rfl hclean
    | false =>
      exact (h.dead id').watch (fun h => h.elim) (fun h => h.elim)
        (by simp [hwatch, Watch.Restarted])
  | rewritten id' handle todo now st hwatch hrow =>
    rw [hwatch] at hcur
    cases hcur
    obtain ⟨hstops, hset⟩ := hfree (by rw [hwatch]; rfl)
    refine .of_unstopped hstops hset (fun h => h) fun _ => .inr (.inr (.inr ?_))
    simp [running_set]
  | sweep now hwatch =>
    exact (h.ledger s.gauge (s.announced.filter (· ∈ s.table)) s.events).watch (fun h => h.elim)
      (fun h => h.elim) (by simp [hwatch, Watch.Restarted])

/-! ## All steps -/

/-- The executor leaves a process behind: a start that fails, or a stop that succeeds. -/
def Act.orphans : Act σ → Bool
  | .run _ (.startFailed true) | .watch (.startFailed true) | .stop _ .left => true
  | _ => false

def Act.Truthful (s : Workloads σ) : Act σ → Prop
  | .watch a => s.Truthful a
  | _ => True

/-- Nobody interferes with a stop, no failed start and no stop leaves a process behind, a workload is said
    to have ended only if it has, and a failure to stop a VM is passed over only if the VM is dead. -/
structure Undisturbed (s : Workloads σ) (a : Act σ) : Prop where
  apart : s.Apart
  clean : a.orphans = false
  truthful : a.Truthful s
  dead : ∀ t ∈ s.stops, t.stage = .failed → ∀ st ∈ s.table.lookup t.id, st.backend = .vm →
    t.id ∉ s.live

instance (s : Workloads σ) (id : Str) : Decidable (s.Launching id) :=
  Multiset.decidableExistsMultiset

instance (s : Workloads σ) : Decidable s.Apart :=
  decidable_of_iff (_ ∧ _) ⟨fun h => ⟨h.1, h.2⟩, fun h => ⟨h.stops, h.runs⟩⟩

instance (s : Workloads σ) : ∀ a, Decidable (s.Truthful a)
  | .query (.ended _) => decidable_of_iff (s.watch.current.all (· ∉ s.live) = true)
      (by cases h : s.watch.current <;> simp [Truthful, h])
  | .tick _ | .query .running | .query .failed | .next _ | .giveUp | .started _ | .startFailed _ =>
    inferInstanceAs (Decidable True)

instance (s : Workloads σ) : ∀ a : Act σ, Decidable (a.Truthful s)
  | .watch a => inferInstanceAs (Decidable (s.Truthful a))
  | .runBegin _ _ _ _ | .run _ _ | .stopBegin _ | .stop _ _ | .exits _ | .prune =>
    inferInstanceAs (Decidable True)

instance (s : Workloads σ) (a : Act σ) : Decidable (s.Undisturbed a) :=
  decidable_of_iff (_ ∧ _ ∧ _ ∧ _)
    ⟨fun h => ⟨h.1, h.2.1, h.2.2.1, h.2.2.2⟩, fun h => ⟨h.apart, h.clean, h.truthful, h.dead⟩⟩

theorem Accounted.step [DecidableEq σ] {a : Act σ} (h : s.Accounted id) (hok : s.Undisturbed a)
    (hstep : s.step a = some s') : s'.Accounted id := by
  cases a with
  | runBegin id' backend restartPolicy spec =>
    cases hstep
    refine ⟨fun hl => (h.live hl).imp_left fun ⟨r, hr, hrest⟩ =>
      ⟨r, Multiset.mem_cons_of_mem hr, hrest⟩, h.judged, h.killed, h.found, h.written, fun hset => ?_⟩
    obtain ⟨hne, hset⟩ := mem_erase.mp hset
    obtain ⟨hrun, hlive, hlaunch, hrestart⟩ := h.settled hset
    refine ⟨hrun, hlive, ?_, hrestart⟩
    rintro ⟨r, hr, hid⟩
    rcases Multiset.mem_cons.mp hr with rfl | hr
    · exact hne hid.symm
    · exact hlaunch ⟨r, hr, hid⟩
  | run t a =>
    obtain ⟨ht, hstep⟩ := Option.ite_none_right_eq_some.mp hstep
    refine h.run hok.apart (Multiset.cons_erase ht).symm (stepRun_eq_some hstep) ?_
    rintro rfl
    exact Bool.noConfusion hok.clean
  | stopBegin id' =>
    cases hstep
    exact h.setStop (fun _ ht => ht) (fun _ h => h.elim) (fun _ h => by cases h) (fun _ h => h.elim)
  | stop t a =>
    obtain ⟨ht, hstep⟩ := Option.ite_none_right_eq_some.mp hstep
    refine h.stop hok.apart (Multiset.cons_erase ht).symm (stepStop_eq_some hstep) ?_ (hok.dead t ht)
    rintro rfl
    exact Bool.noConfusion hok.clean
  | watch a =>
    refine h.watchStep hok.apart (stepWatch_eq_some hstep) ?_ hok.truthful
    rintro rfl
    exact Bool.noConfusion hok.clean
  | exits id' =>
    cases hstep
    exact h.dead id'
  | prune =>
    cases hstep
    have hrun := @running_pruned σ s.table id
    refine ⟨fun hl => ?_, h.judged, h.killed, fun t ht hid hstage hl => ?_,
      fun t ht hid hstage => hrun.not.mpr (h.written t ht hid hstage), fun hset => ?_⟩
    · rcases h.live hl with hr | hre | hnone | hrow
      · exact .inl hr
      · exact .inr (.inl hre)
      · exact .inr (.inr (.inl (lookup_pruned_of_none hnone)))
      · exact .inr (.inr (.inr (hrun.mpr hrow)))
    · -- the process of a workload that is being stopped is one the table has as running
      subst hid
      obtain ⟨hlaunch, hrestart⟩ := hok.apart.stops t ht
      rcases h.live hl with ⟨r, hr, hid, _⟩ | hre | hnone | hrow
      · exact absurd ⟨r, hr, hid⟩ hlaunch
      · exact absurd hre.restarting hrestart
      · exact absurd hnone (h.found t ht rfl hstage hl)
      · exact (hrun.mpr hrow).lookup_ne_none
    · obtain ⟨hnot, hrest⟩ := h.settled hset
      exact ⟨hrun.not.mpr hnot, hrest⟩

theorem accounted_start {table : WorkloadTable σ} {live : Finset Str}
    (hlive : ∀ id ∈ live, table.Running id) (id : Str) : (start table live).Accounted id :=
  .of_unstopped (fun t ht => absurd ht (Multiset.notMem_zero t)) (notMem_empty id)
    (fun h => h) fun hl => .inr (.inr (.inr (hlive id hl)))

def launched : List (Act Unit) :=
  launch "w".toList .container .always () ⟨.container, 7, none⟩ 0

def launchAndStop : List (Act Unit) :=
  launched ++ stopping "w".toList (stopStages (some .container)) 1 ++
    [.watch (.tick []), .watch (.next 2)]

/-- The workload ends, the watcher is asleep before its restart, and the stop finds nothing to do. -/
def stopInBackoff : List (Act Unit) :=
  launched ++ [.exits "w".toList, .watch (.tick [("w".toList, .container)]),
    .watch (.query (.ended (some 1))), .watch (.next 1), .watch (.next 1), .watch (.next 1)] ++
  stopping "w".toList [.lookup, .status] 1 ++
  [.watch (.next 2), .watch (.next 2), .watch (.started ⟨.container, 8, none⟩), .watch (.next 2)]

/-- A machine from the warm pool is stopped, and goes on. -/
def stopPooled : List (Act Unit) :=
  launch "v".toList .vm .no () ⟨.vm, 7, none⟩ 0 ++ [.stopBegin "v".toList,
    .stop ⟨"v".toList, .lookup⟩ (.next 1), .stop ⟨"v".toList, .status⟩ (.next 1),
    .stop ⟨"v".toList, .stopping⟩ .left, .stop ⟨"v".toList, .label⟩ (.next 1),
    .stop ⟨"v".toList, .write (some .vm)⟩ (.next 1), .stop ⟨"v".toList, .record (some .vm)⟩ (.next 1)]

end Workloads

end Pullrun
