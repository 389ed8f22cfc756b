import Pullrun.Vm.Processes

/-!
# When `status` and `stop` know the process

The invariant: whatever process is alive for an id, the pid file of the id names it; and what a pid file
names, if it is still there, is a process of that id.
-/

namespace Pullrun.Vm.Processes

open Schedule Function Option

variable {s s' : Processes} {pid : ℕ} {p : Proc} {id : Str}

/-! ## Small steps -/

theorem update_eq_some {ι β : Type*} [DecidableEq ι] {f : ι → Option β} {i j : ι} {b : Option β} {y : β}
    (h : update f i b j = some y) : j = i ∧ b = some y ∨ j ≠ i ∧ f j = some y := by
  rw [update_apply] at h
  split at h
  · next heq => exact .inl ⟨heq, h⟩
  · next hne => exact .inr ⟨hne, h⟩

theorem pidFile_update (dirs : Str → Option VmDir) (id id' : Str) (dir : Option VmDir) :
    (update dirs id dir id').bind VmDir.pid =
      if id' = id then dir.bind VmDir.pid else (dirs id').bind VmDir.pid := by
  rw [update_apply]
  split <;> rfl

theorem pidFile_prepare (s : Processes) (id : Str) (sidecar : Bool) :
    (s.prepare id sidecar).pidFile = s.pidFile := by
  funext id'
  rw [pidFile, prepare, pidFile_update]
  split
  · next h =>
    subst h
    rw [pidFile]
    cases s.dirs id' <;> rfl
  · rfl

theorem kill_procs {q : ℕ} (h : (s.kill pid).procs q = some p) :
    ∃ p0, s.procs q = some p0 ∧ p0.owner = p.owner ∧ (p.alive → q ≠ pid ∧ p0 = p) := by
  rcases update_eq_some h with ⟨rfl, hp⟩ | ⟨hne, hp⟩
  · obtain ⟨p0, hp0, rfl⟩ := map_eq_some_iff.mp hp
    exact ⟨p0, hp0, rfl, by rintro ⟨⟩⟩
  · exact ⟨p, hp, rfl, fun _ => ⟨hne, rfl⟩⟩

/-! ## The invariant -/

structure Inv (s : Processes) : Prop where
  cold : ∀ id, s.poolAllocations id = false
  served : ∀ id pid, s.procs pid = some ⟨.vm id, true⟩ → s.pidFile id = some pid ∧ s.started id
  named : ∀ id pid p, s.pidFile id = some pid → s.procs pid = some p → p.owner = .vm id

theorem inv_new : (new).Inv where
  cold _ := rfl
  served id pid h := by cases h
  named id pid p h := by cases h

section

variable (hs : s.Inv)
include hs

theorem Inv.of_procs (hpool : s'.poolAllocations = s.poolAllocations)
    (hfiles : s'.pidFile = s.pidFile) (hstarted : s'.started = s.started)
    (hprocs : ∀ pid p, s'.procs pid = some p →
      (∃ p0, s.procs pid = some p0 ∧ p0.owner = p.owner ∧ (p.alive → p0 = p)) ∨
        (∀ id, s.pidFile id ≠ some pid) ∧ ∀ id, p.owner ≠ .vm id) : s'.Inv where
  cold id := by rw [hpool]; exact hs.cold id
  served id pid h := by
    rw [hfiles, hstarted]
    rcases hprocs pid _ h with ⟨p0, hp0, -, hsame⟩ | ⟨-, hother⟩
    · rw [hsame rfl] at hp0
      exact hs.served id pid hp0
    · exact absurd rfl (hother id)
  named id pid p hfile h := by
    rw [hfiles] at hfile
    rcases hprocs pid p h with ⟨p0, hp0, howner, -⟩ | ⟨hunnamed, -⟩
    · rw [← howner]
      exact hs.named id pid p0 hfile hp0
    · exact absurd hfile (hunnamed id)

theorem Inv.prepare (id : Str) (sidecar : Bool) : (s.prepare id sidecar).Inv :=
  hs.of_procs rfl (pidFile_prepare s id sidecar) rfl fun _ p h => .inl ⟨p, h, rfl, fun _ => rfl⟩

theorem Inv.spawn (hunnamed : ∀ id, s.pidFile id ≠ some pid)
    (hother : ∀ id, p.owner ≠ .vm id) (pool : List ℕ) :
    { s with procs := update s.procs pid (some p), pool := pool }.Inv := by
  refine hs.of_procs rfl rfl rfl fun q p' h => ?_
  rcases update_eq_some h with ⟨rfl, ⟨⟩⟩ | ⟨-, hp⟩
  · exact .inr ⟨hunnamed, hother⟩
  · exact .inl ⟨p', hp, rfl, fun _ => rfl⟩

theorem Inv.wait (pid : ℕ) : { s with procs := update s.procs pid none }.Inv := by
  refine hs.of_procs rfl rfl rfl fun q p h => ?_
  rcases update_eq_some h with ⟨-, ⟨⟩⟩ | ⟨-, hp⟩
  exact .inl ⟨p, hp, rfl, fun _ => rfl⟩

theorem Inv.kill (pid : ℕ) : (s.kill pid).Inv := by
  refine hs.of_procs rfl rfl rfl fun q p h => ?_
  obtain ⟨p0, hp0, howner, hsame⟩ := kill_procs h
  exact .inl ⟨p0, hp0, howner, fun halive => (hsame halive).2⟩

theorem Inv.status (id : Str) : (s.status id).2.Inv := by
  rw [Processes.status]
  split
  · exact hs
  · split
    · exact hs
    · split
      · exact hs
      · split
        · exact hs
        · exact hs.wait _

theorem Inv.start (hserved : ¬ s.Served id)
    (hunnamed : ∀ id', id' ≠ id → s.pidFile id' ≠ some pid) (dir : VmDir) :
    { s with
      procs := update s.procs pid (some ⟨.vm id, true⟩)
      dirs := update s.dirs id (some { dir with pid := some pid })
      started := update s.started id true }.Inv where
  cold := hs.cold
  served id' q h := by
    rw [pidFile, pidFile_update]
    dsimp only
    rcases update_eq_some h with ⟨rfl, ⟨⟩⟩ | ⟨-, hold⟩
    · rw [if_pos rfl, update_self]
      exact ⟨rfl, rfl⟩
    · -- another process serves another id
      have hne : id' ≠ id := fun heq => hserved ⟨q, heq ▸ hold⟩
      rw [if_neg hne, update_of_ne hne]
      exact hs.served id' q hold
  named id' q p hfile h := by
    rw [pidFile, pidFile_update] at hfile
    split at hfile
    · next heq =>
      obtain rfl : pid = q := some.inj hfile
      rcases update_eq_some h with ⟨-, ⟨⟩⟩ | ⟨hne, -⟩
      · rw [heq]
      · exact absurd rfl hne
    · next hne =>
      rcases update_eq_some h with ⟨rfl, -⟩ | ⟨-, hold⟩
      · exact absurd hfile (hunnamed id' hne)
      · exact hs.named id' q p hfile hold

theorem Inv.stop_served (id : Str) : ¬ (s.stop id).Served id := by
  rintro ⟨pid, h⟩
  rw [stop] at h
  simp only [hs.cold id, Bool.false_eq_true, if_false] at h
  cases hfile : s.pidFile id with
  | none =>
    rw [hfile] at h
    rw [(hs.served id pid h).1] at hfile
    cases hfile
  | some q =>
    rw [hfile] at h
    obtain ⟨p0, hp0, -, hsame⟩ := kill_procs h
    obtain ⟨hne, rfl⟩ := hsame rfl
    rw [(hs.served id pid hp0).1] at hfile
    exact hne (some.inj hfile)

end

theorem stop_procs (h : (s.stop id).procs pid = some p) :
    ∃ p0, s.procs pid = some p0 ∧ p0.owner = p.owner ∧ (p.alive → p0 = p) := by
  rw [stop] at h
  dsimp only at h
  split at h
  · exact ⟨p, h, rfl, fun _ => rfl⟩
  · split at h
    · exact ⟨p, h, rfl, fun _ => rfl⟩
    · obtain ⟨p0, hp0, howner, hsame⟩ := kill_procs h
      exact ⟨p0, hp0, howner, fun halive => (hsame halive).2⟩

theorem Inv.stop (hs : s.Inv) (id : Str) : (s.stop id).Inv where
  cold id' := by
    have hcold := hs.cold id'
    rw [Processes.stop]
    dsimp only
    rw [if_neg (by rw [hs.cold id]; decide)]
    cases s.pidFile id <;> exact hcold
  served id' q h := by
    have hne : id' ≠ id := fun heq => hs.stop_served id ⟨q, heq ▸ h⟩
    obtain ⟨p0, hp0, -, hsame⟩ := stop_procs h
    obtain rfl := hsame rfl
    show (update s.dirs id none id').bind VmDir.pid = some q ∧ update s.started id false id'
    rw [pidFile_update, if_neg hne, update_of_ne hne]
    exact hs.served id' q hp0
  named id' q p hfile h := by
    have hfile' : (update s.dirs id none id').bind VmDir.pid = some q := hfile
    rw [pidFile_update] at hfile'
    split at hfile'
    · cases hfile'
    · obtain ⟨p0, hp0, howner, -⟩ := stop_procs h
      rw [← howner]
      exact hs.named id' q p0 hfile' hp0

theorem Inv.create (hs : s.Inv) {outcome : Outcome} (hpool : outcome = .ok → s.pool = [])
    (h : s.create id outcome = some s') : s'.Inv := by
  revert h
  fun_cases s.create id outcome with
  | case1 => rintro ⟨⟩; exact hs
  | case2 => rintro ⟨⟩; exact hs.prepare id _
  | case3 =>
    rintro ⟨⟩
    exact (hs.prepare id false).of_procs rfl rfl rfl fun _ p hp => .inl ⟨p, hp, rfl, fun _ => rfl⟩
  | case4 hrefused pid pool hp hfailed | case5 hrefused pid pool hp hfailed =>
    have hok : outcome = .ok := by cases outcome <;> trivial
    rw [hpool hok] at hp
    cases hp

theorem Inv.step (hs : s.Inv) {a : Action} (hregular : s.Regular a) (h : s.step a = some s') :
    s'.Inv := by
  cases a with
  | create id outcome => exact hs.create (fun hok => by subst hok; exact hregular) h
  | start id pid outcome =>
    have hcold := hs.cold id
    change s.start id pid outcome = some s' at h
    revert h
    fun_cases s.start id pid outcome with
    | case1 _ hhot => cases hcold.symm.trans hhot
    | case2 => rintro ⟨⟩; exact hs
    | case3 _ dir => rintro ⟨⟩; exact hs.start hregular.1 hregular.2 dir
    | case5 => exact absurd hregular not_false
    | case4 | case6 | case7 => rintro ⟨⟩
  | status id => cases h; exact hs.status id
  | stop id => cases h; exact hs.stop id
  | exit pid => cases h; exact hs.kill pid
  | bootPoolVm pid | spawn pid child =>
    obtain ⟨-, h⟩ := ite_none_right_eq_some.mp h
    cases h
    exact hs.spawn hregular (by rintro id ⟨⟩) _
  | checkHealth =>
    cases h
    exact hs.of_procs rfl rfl rfl fun _ p hp => .inl ⟨p, hp, rfl, fun _ => rfl⟩
  | reap pid =>
    simp only [Processes.step] at h
    split at h <;> cases h
    exact hs.wait pid

theorem Inv.status_running (hs : s.Inv) (id : Str) :
    (s.status id).1 = .running ↔ s.started id ∧ s.Served id := by
  constructor
  · intro h
    cases hfile : s.pidFile id with
    | none =>
      rw [Processes.status, hfile] at h
      cases h
    | some pid =>
      cases hproc : s.procs pid with
      | none =>
        simp only [Processes.status, hfile, hproc] at h
        cases h
      | some p =>
        obtain ⟨owner, alive⟩ := p
        obtain rfl : owner = .vm id := hs.named id pid _ hfile hproc
        cases alive with
        | true => exact ⟨(hs.served id pid hproc).2, pid, hproc⟩
        | false =>
          simp only [Processes.status, hfile, hproc, Proc.child, Bool.not_true, Bool.false_eq_true,
            if_false] at h
          cases h
  · rintro ⟨-, pid, hpid⟩
    simp only [Processes.status, (hs.served id pid hpid).1, hpid, Proc.child, Bool.not_true,
      Bool.false_eq_true, if_false, if_true]

/-- **`status` and `stop` are right about the process in every regular run.** -/
theorem reports_of_regular {as : List Action} (h : Schedule.Meets step Regular new as) :
    Schedule.Meets step Reports new as := by
  refine Meets.of_inv Inv (fun s a s' hs hregular => hs.step hregular) ?_ inv_new h
  intro s a hs _
  cases a with
  | status id => exact hs.status_running id
  | stop id => exact hs.stop_served id
  | _ => trivial

def coldBoot : List Action :=
  [.create ['a'] .ok, .start ['a'] 5 .ok, .status ['a'], .exit 5, .status ['a'], .stop ['a']]

theorem coldBoot_reports : Schedule.Meets step Reports new coldBoot := by
  refine reports_of_regular ?_
  rw [coldBoot, meets_cons_some rfl, meets_cons_some rfl,
    meets_cons_some rfl, meets_cons_some rfl, meets_cons_some rfl,
    meets_cons_some rfl]
  refine ⟨rfl, ⟨?_, ?_⟩, trivial, trivial, trivial, trivial, trivial⟩
  · rintro ⟨pid, ⟨⟩⟩
  · intro id' hne
    rw [pidFile_prepare]
    rintro ⟨⟩

def fromPool : List Action := [.bootPoolVm 7, .create ['a'] .ok, .start ['a'] 0 .ok]

def startedTwice : List Action := [.create ['a'] .ok, .start ['a'] 5 .ok, .start ['a'] 6 .ok]

theorem pooled_and_second_not_reported :
    (Schedule.run step new fromPool).map (fun s => ((s.status ['a']).1, s.started ['a'], s.procs 7)) =
        some (.stopped, true, some ⟨.vm ['a'], true⟩) ∧
      (Schedule.run step new fromPool).map (fun s => (s.stop ['a']).procs 7) =
        some (some ⟨.vm ['a'], true⟩) ∧
      (Schedule.run step new startedTwice).map (fun s => (s.stop ['a']).procs 5) =
        some (some ⟨.vm ['a'], true⟩) ∧
      ¬ Schedule.Meets step Reports new (fromPool ++ [.status ['a']]) ∧
      ¬ Schedule.Meets step Reports new (fromPool ++ [.stop ['a']]) ∧
      ¬ Schedule.Meets step Reports new (startedTwice ++ [.stop ['a']]) := by
  -- a process that is alive after `stop`
  have hstop : ∀ {as : List Action} (pid : ℕ), (∃ s, run step new as = some s ∧
      (s.stop ['a']).procs pid = some ⟨.vm ['a'], true⟩) →
        ¬ Meets step Reports new (as ++ [.stop ['a']]) := by
    rintro as pid ⟨s, hs, hproc⟩ hmeets
    exact ((meets_append hs).mp hmeets).2.1 ⟨pid, hproc⟩
  refine ⟨by decide +kernel, by decide +kernel, by decide +kernel, fun hmeets => ?_,
    hstop 7 (by decide +kernel), hstop 5 (by decide +kernel)⟩
  obtain ⟨s, hs, hstatus, hstarted, hproc⟩ : ∃ s, run step new fromPool = some s ∧
      (s.status ['a']).1 ≠ .running ∧ s.started ['a'] = true ∧
      s.procs 7 = some ⟨.vm ['a'], true⟩ := by decide +kernel
  exact hstatus (((meets_append hs).mp hmeets).2.1.mpr ⟨hstarted, 7, hproc⟩)

end Pullrun.Vm.Processes
