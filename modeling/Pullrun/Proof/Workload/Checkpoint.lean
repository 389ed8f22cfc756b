import Pullrun.Workload.Checkpoint

/-!
# The workload table across a restart

Reading the directory back gives, for each id, what was last written under its name, in whatever order
the files are listed.
-/

namespace Pullrun

open WorkloadTable List Option Finmap Finset

/-! ## Names -/

variable {name : Str}

theorem not_dot_of_reverse (h : '.' ∉ name) : ∀ c ∈ name.reverse, decide (c ≠ '.') = true := by
  intro c hc
  refine decide_eq_true fun hdot => h ?_
  rw [← hdot]
  exact mem_reverse.mp hc

theorem splitExtension_of_dot {after before : Str} (hname : name = before ++ '.' :: after)
    (hafter : '.' ∉ after) :
    splitExtension name =
      if before = [] ∨ name = "..".toList then (name, none) else (before, some after) := by
  have hall := not_dot_of_reverse hafter
  have hrev : name.reverse = after.reverse ++ '.' :: before.reverse := by simp [hname]
  have htake : name.reverse.takeWhile (· ≠ '.') = after.reverse := by
    rw [hrev, takeWhile_append_of_pos hall, takeWhile_cons_of_neg (by simp),
      append_nil]
  have hdrop : name.reverse.dropWhile (· ≠ '.') = '.' :: before.reverse := by
    rw [hrev, dropWhile_append_of_pos hall, dropWhile_cons_of_neg (by simp)]
  rw [splitExtension, htake, hdrop]
  simp only [reverse_reverse, reverse_eq_nil_iff]

theorem splitExtension_of_no_dot (h : '.' ∉ name) : splitExtension name = (name, none) := by
  have hdrop : name.reverse.dropWhile (· ≠ '.') = [] := by
    rw [← append_nil name.reverse, dropWhile_append_of_pos (not_dot_of_reverse h),
      dropWhile_nil]
  rw [splitExtension, hdrop]

theorem splitExtension_json {id : Str} :
    splitExtension name = (id, some "json".toList) ↔ name = checkpointName id ∧ id ≠ [] := by
  constructor
  · intro h
    by_cases hdot : '.' ∈ name.reverse
    · obtain ⟨after, before, hrev, hafter⟩ := eq_append_cons_of_mem hdot
      have hname : name = before.reverse ++ '.' :: after.reverse := by
        rw [← reverse_reverse name, hrev]
        simp
      rw [splitExtension_of_dot hname (by simpa using hafter)] at h
      split at h
      · cases h
      · next hne =>
        obtain ⟨hid, hjson⟩ := Prod.mk.inj h
        rw [some.injEq] at hjson
        rw [not_or] at hne
        refine ⟨?_, hid ▸ hne.1⟩
        rw [hname, hid, hjson]
        rfl
    · rw [splitExtension_of_no_dot (by simpa using hdot)] at h
      cases h
  · rintro ⟨rfl, hne⟩
    have hname : checkpointName id = id ++ '.' :: "json".toList := rfl
    rw [splitExtension_of_dot hname (by decide), if_neg]
    rintro (h | h)
    · exact hne h
    · have := congrArg length h
      simp [checkpointName] at this

/-! ## Reading the directory -/

section Load

variable {σ κ : Type} {codec : StateCodec σ κ} {id : Str}

theorem lookup_loadEntry_of_ne (table : WorkloadTable σ) {entry : Σ _ : Str, κ}
    (h : entry.1 ≠ checkpointName id) : (loadEntry codec table entry).lookup id = table.lookup id := by
  unfold loadEntry
  by_cases hjson : (splitExtension entry.1).2 = some "json".toList
  · rw [if_pos hjson]
    cases codec.decode entry.2 with
    | none => rfl
    | some st =>
      -- the name is that of another id
      have hid : id ≠ (splitExtension entry.1).1 := by
        rintro rfl
        exact h (splitExtension_json.mp (Prod.ext rfl hjson)).1
      rw [lookup_set, if_neg hid]
  · rw [if_neg hjson]

variable {st : WorkloadState σ} {entries : List (Σ _ : Str, κ)} {files : CheckpointDir κ} {content : κ}

theorem lookup_loadEntry (table : WorkloadTable σ) (hid : id ≠ [])
    (hdec : codec.decode content = some st) :
    (loadEntry codec table ⟨checkpointName id, content⟩).lookup id = some st := by
  have hsplit : splitExtension (checkpointName id) = (id, some "json".toList) :=
    splitExtension_json.mpr ⟨rfl, hid⟩
  unfold loadEntry
  simp only [hsplit, if_true, hdec]
  rw [lookup_set, if_pos rfl]

theorem lookup_foldl_loadEntry_of_ne (h : ∀ entry ∈ entries, entry.1 ≠ checkpointName id)
    (table : WorkloadTable σ) :
    (entries.foldl (loadEntry codec) table).lookup id = table.lookup id := by
  induction entries generalizing table with
  | nil => rfl
  | cons entry entries ih =>
    rw [foldl_cons, ih fun e he => h e (mem_cons_of_mem _ he)]
    exact lookup_loadEntry_of_ne table (h entry mem_cons_self)

theorem lookup_load_of_mem
    (hentries : (entries : Multiset (Σ _ : Str, κ)) = files.entries) (hid : id ≠ [])
    (hfile : files.lookup (checkpointName id) = some content)
    (hdec : codec.decode content = some st) :
    (loadWorkloadCheckpoints codec entries).lookup id = some st := by
  have hmem : (⟨checkpointName id, content⟩ : Σ _ : Str, κ) ∈ entries := by
    rw [← Multiset.mem_coe, hentries]
    exact mem_lookup_iff.mp hfile
  obtain ⟨before, after, rfl⟩ := append_of_mem hmem
  -- no later file has the same name
  have hafter : ∀ entry ∈ after, entry.1 ≠ checkpointName id := by
    have hnodup : (before ++ ⟨checkpointName id, content⟩ :: after).NodupKeys := by
      have := files.nodupKeys
      rw [← hentries] at this
      exact this
    intro entry hentry heq
    have htail := (nodupKeys_cons.mp (NodupKeys.sublist (sublist_append_right _ _) hnodup)).1
    exact htail (mem_map.mpr ⟨entry, hentry, heq⟩)
  rw [loadWorkloadCheckpoints, foldl_append, foldl_cons,
    lookup_foldl_loadEntry_of_ne hafter, lookup_loadEntry _ hid hdec]

theorem lookup_load_of_none (hentries : (entries : Multiset (Σ _ : Str, κ)) = files.entries)
    (hfile : files.lookup (checkpointName id) = none) :
    (loadWorkloadCheckpoints codec entries).lookup id = none := by
  rw [loadWorkloadCheckpoints, lookup_foldl_loadEntry_of_ne, lookup_empty]
  rintro ⟨name, content⟩ hentry rfl
  rw [← Multiset.mem_coe, hentries] at hentry
  rw [mem_lookup_iff.mpr hentry] at hfile
  cases hfile

theorem mem_of_lookup_load {table : WorkloadTable σ}
    (h : (entries.foldl (loadEntry codec) table).lookup id = some st) :
    table.lookup id = some st ∨
      ∃ content, ⟨checkpointName id, content⟩ ∈ entries ∧ codec.decode content = some st := by
  induction entries generalizing table with
  | nil => exact .inl h
  | cons entry entries ih =>
    rcases ih h with hentry | ⟨content, hmem, hdec⟩
    · by_cases hname : entry.1 = checkpointName id
      · obtain ⟨name, content⟩ := entry
        cases hname
        revert hentry
        fun_cases loadEntry codec table ⟨checkpointName id, content⟩ with
        | case1 _ _ st' hdec =>
          intro hentry
          rw [lookup_set] at hentry
          split at hentry
          · cases hentry
            exact .inr ⟨content, mem_cons_self, hdec⟩
          · exact .inl hentry
        | case2 | case3 => exact .inl
      · rw [lookup_loadEntry_of_ne table hname] at hentry
        exact .inl hentry
    · exact .inr ⟨content, mem_cons_of_mem _ hmem, hdec⟩

end Load

namespace Checkpointed

variable {σ κ : Type} {codec : StateCodec σ κ} {d : Checkpointed σ κ} {id : Str}

/-! ## What is written -/

/-- **The directory has what the table has, and what prunes have left.** -/
structure Saved (codec : StateCodec σ κ) (d : Checkpointed σ κ) : Prop where
  valid : ∀ id, d.table.lookup id ≠ none → id ≠ []
  filed : ∀ id, d.table.lookup id ≠ none →
    ∃ st, d.files.lookup (checkpointName id) = some (codec.encode st)
  saved : ∀ id st, d.table.lookup id = some st → id ∉ d.unsaved →
    d.files.lookup (checkpointName id) = some (codec.encode st)
  known : ∀ id, d.files.lookup (checkpointName id) ≠ none →
    d.table.lookup id ≠ none ∨ id ∈ d.forgotten
  forgotten : ∀ id ∈ d.forgotten, id ≠ [] ∧ d.table.lookup id = none ∧
    ∃ st, d.files.lookup (checkpointName id) = some (codec.encode st)

theorem saved_init : Saved codec (init : Checkpointed σ κ) where
  valid _ h := absurd (lookup_empty _) h
  filed _ h := absurd (lookup_empty _) h
  saved id st h _ := by rw [init, lookup_empty] at h; cases h
  known _ h := absurd (lookup_empty _) h
  forgotten id h := absurd h (notMem_empty id)

theorem lookup_files_save (id id' : Str) (st : WorkloadState σ) :
    (d.save codec id st).files.lookup (checkpointName id') =
      if id' = id then some (codec.encode st) else d.files.lookup (checkpointName id') := by
  unfold save
  by_cases h : id' = id
  · rw [if_pos h, h]
    exact lookup_insert _
  · rw [if_neg h]
    exact lookup_insert_of_ne _ (mt (append_left_inj _).mp h)

theorem lookup_table_save (id id' : Str) (st : WorkloadState σ) :
    (d.save codec id st).table.lookup id' = if id' = id then some st else d.table.lookup id' :=
  lookup_set d.table id id' st

section

variable (h : Saved codec d)
include h

theorem Saved.save (hid : id ≠ []) (st : WorkloadState σ) :
    Saved codec { d.save codec id st with forgotten := d.forgotten.erase id } where
  valid id' hrow := by
    by_cases heq : id' = id
    · exact heq ▸ hid
    · refine h.valid id' ?_
      rwa [lookup_table_save, if_neg heq] at hrow
  filed id' hrow := by
    by_cases heq : id' = id
    · exact ⟨st, by rw [lookup_files_save, if_pos heq]⟩
    · rw [lookup_table_save, if_neg heq] at hrow
      rw [lookup_files_save, if_neg heq]
      exact h.filed id' hrow
  saved id' st' hrow hun := by
    rw [lookup_table_save] at hrow
    rw [lookup_files_save]
    by_cases heq : id' = id
    · rw [if_pos heq] at hrow ⊢
      cases hrow
      rfl
    · rw [if_neg heq] at hrow ⊢
      exact h.saved id' st' hrow fun hmem => hun (mem_erase.mpr ⟨heq, hmem⟩)
  known id' hfile := by
    rw [lookup_files_save] at hfile
    rw [lookup_table_save]
    by_cases heq : id' = id
    · exact .inl (by rw [if_pos heq]; simp)
    · rw [if_neg heq] at hfile ⊢
      exact (h.known id' hfile).imp_right fun hmem => mem_erase.mpr ⟨heq, hmem⟩
  forgotten id' hmem := by
    obtain ⟨heq, hmem⟩ := mem_erase.mp hmem
    rw [lookup_table_save, lookup_files_save, if_neg heq, if_neg heq]
    exact h.forgotten id' hmem

theorem Saved.resave (hrow : d.table.lookup id ≠ none) (st : WorkloadState σ) :
    Saved codec (d.save codec id st) := by
  have hnot : id ∉ d.forgotten := fun hmem => hrow (h.forgotten id hmem).2.1
  have hsave := h.save (h.valid id hrow) st
  rw [erase_eq_of_notMem hnot] at hsave
  exact hsave

theorem Saved.prune : Saved codec d.prune := by
  have hpruned : ∀ id, d.prune.table.lookup id ≠ none → d.table.lookup id ≠ none := fun id =>
    mt lookup_pruned_of_none
  refine ⟨fun id hrow => h.valid id (hpruned id hrow), fun id hrow => h.filed id (hpruned id hrow),
    fun id st hrow => h.saved id st (lookup_pruned.mp hrow).1, fun id hfile => ?_,
    fun id hmem => ?_⟩
  · -- what was in the table is still there or has just been taken out
    rcases h.known id hfile with hrow | hmem
    · obtain ⟨st, hst⟩ := ne_none_iff_exists'.mp hrow
      by_cases hex : st.status = .exited
      · exact .inr (mem_union_right _ (mem_exitedIds.mpr ⟨st, hst, hex⟩))
      · refine .inl (ne_none_iff_exists'.mpr ⟨st, ?_⟩)
        exact lookup_pruned.mpr ⟨hst, hex⟩
    · exact .inr (mem_union_left _ hmem)
  · rcases mem_union.mp hmem with hmem | hmem
    · obtain ⟨hid, hrow, hfile⟩ := h.forgotten id hmem
      exact ⟨hid, lookup_pruned_of_none hrow, hfile⟩
    · obtain ⟨st, hst, hex⟩ := mem_exitedIds.mp hmem
      have hrow : d.table.lookup id ≠ none := by rw [hst]; exact some_ne_none st
      refine ⟨h.valid id hrow, ?_, h.filed id hrow⟩
      cases hnew : d.prune.table.lookup id with
      | none => rfl
      | some st' =>
        obtain ⟨hst', hne⟩ := lookup_pruned.mp hnew
        rw [hst, some.injEq] at hst'
        exact absurd (hst' ▸ hex) hne

theorem Saved.probe (healthy : Bool) (retries : ℕ) (now : ℤ) :
    Saved codec (d.probe id healthy retries now) := by
  unfold Checkpointed.probe
  cases hrow : d.table.lookup id with
  | none => exact h
  | some st =>
    by_cases hrun : st.status = .running
    swap
    · simp only [if_neg hrun]
      exact h
    simp only [if_pos hrun]
    have hne : ∀ id', (d.table.set id (st.probed healthy (max retries 1) now)).lookup id' ≠ none ↔
        d.table.lookup id' ≠ none := fun id' => by
      rw [lookup_set]
      by_cases heq : id' = id
      · rw [if_pos heq, heq, hrow]
        exact iff_of_true (some_ne_none _) (some_ne_none _)
      · rw [if_neg heq]
    refine ⟨fun id' hr => h.valid id' ((hne id').mp hr), fun id' hr => h.filed id' ((hne id').mp hr),
      fun id' st' hr hun => ?_, fun id' hf => (h.known id' hf).imp_left (hne id').mpr,
      fun id' hmem => ?_⟩
    · have heq : id' ≠ id := fun heq => hun (heq ▸ Finset.mem_insert_self id d.unsaved)
      rw [lookup_set, if_neg heq] at hr
      exact h.saved id' st' hr fun hmem => hun (mem_insert_of_mem hmem)
    · obtain ⟨hid, hnone, hfile⟩ := h.forgotten id' hmem
      exact ⟨hid, not_not.mp (mt (hne id').mp (not_not.mpr hnone)), hfile⟩

theorem Saved.attemptRestart (hrow : d.table.lookup id ≠ none)
    (st : WorkloadState σ) (restart : Option Handle) (now : ℤ) :
    Saved codec (d.attemptRestart codec id st restart now) := by
  cases restart with
  | none => exact h
  | some handle => exact h.resave hrow _

theorem Saved.watchExit (exitCode : Option ℕ) (lost : Bool) (restart : Option Handle) (now later : ℤ) :
    Saved codec (d.watchExit codec id exitCode lost restart now later) := by
  unfold Checkpointed.watchExit
  cases hrow : d.table.lookup id with
  | none => exact h
  | some st =>
    by_cases hrun : st.status = .running
    swap
    · simp only [if_neg hrun]
      exact h
    simp only [if_pos hrun]
    have hmarked : Saved codec (d.save codec id (st.exited now exitCode)) :=
      h.resave (by rw [hrow]; exact some_ne_none st) _
    split
    · refine hmarked.attemptRestart ?_ _ restart later
      rw [lookup_table_save, if_pos rfl]
      exact some_ne_none _
    · exact hmarked

theorem Saved.stopWorkload (killed : Bool) (now : ℤ) :
    Saved codec (d.stopWorkload codec id killed now) := by
  unfold Checkpointed.stopWorkload
  split
  · next st _ hrow =>
    split
    · exact h.resave (by rw [hrow]; exact some_ne_none st) _
    · exact h
  · exact h

end

theorem Saved.runWorkload (h : Saved codec d) (restartPolicy : RestartPolicy) (spec : σ)
    (handle : Handle) (now : ℤ) :
    Saved codec (d.runWorkload codec id restartPolicy spec handle now) := by
  unfold Checkpointed.runWorkload
  split
  · exact h
  · next hok => exact h.save (by rintro rfl; cases hok) _

theorem Saved.step (h : Saved codec d) (op : Op σ) : Saved codec (d.step codec op) := by
  cases op with
  | run id restartPolicy spec handle now => exact h.runWorkload restartPolicy spec handle now
  | stop id killed now => exact h.stopWorkload killed now
  | exit id exitCode lost restart now later => exact h.watchExit exitCode lost restart now later
  | probe id healthy retries now => exact h.probe healthy retries now
  | prune => exact h.prune

theorem Saved.run (h : Saved codec d) (ops : List (Op σ)) : Saved codec (d.run codec ops) := by
  induction ops generalizing d with
  | nil => exact h
  | cons op ops ih => exact ih (h.step op)

/-- **The table survives a restart, up to the dead containers, if and only if nothing is forgotten**:
every workload that was pruned has been run again since. -/
theorem restarted_eq_iff (ops : List (Op σ)) {entries : List (Σ _ : Str, κ)}
    (hsaved : (init.run codec ops).unsaved = ∅)
    (hentries : (entries : Multiset (Σ _ : Str, κ)) = (init.run codec ops).files.entries) (now : ℤ) :
    restarted codec entries now = (init.run codec ops).table.recovered now ↔
      (init.run codec ops).forgotten = ∅ := by
  have hinv : Saved codec (init.run codec ops) := saved_init.run ops
  generalize init.run codec ops = d at hsaved hentries hinv ⊢
  constructor
  · intro heq
    rw [eq_empty_iff_forall_notMem]
    intro id hmem
    obtain ⟨hid, hrow, st, hfile⟩ := hinv.forgotten id hmem
    have hload := lookup_load_of_mem hentries hid hfile (codec.decode_encode st)
    have hlookup := congrArg (Finmap.lookup id) heq
    rw [restarted, lookup_recovered, lookup_recovered, hload, hrow] at hlookup
    cases hlookup
  · intro hforgotten
    refine ext_lookup fun id => ?_
    rw [restarted, lookup_recovered, lookup_recovered]
    congr 1
    cases hrow : d.table.lookup id with
    | some st =>
      have hne : d.table.lookup id ≠ none := by rw [hrow]; exact some_ne_none st
      have hfile := hinv.saved id st hrow (by rw [hsaved]; exact notMem_empty id)
      exact lookup_load_of_mem hentries (hinv.valid id hne) hfile (codec.decode_encode st)
    | none =>
      refine lookup_load_of_none hentries ?_
      by_contra hfile
      rcases hinv.known id hfile with hne | hmem
      · exact hne hrow
      · rw [hforgotten] at hmem
        exact notMem_empty id hmem

/-! ## A restart after a stop, and one after a prune -/

def stoppedOps : List (Op Unit) :=
  [.run "a".toList .no () ⟨.container, 7, none⟩ 1, .probe "a".toList true 1 2,
    .stop "a".toList true 3, .run "b".toList .no () ⟨.container, 8, none⟩ 4]

def prunedOps : List (Op Unit) :=
  [.run "a".toList .no () ⟨.container, 7, none⟩ 1, .exit "a".toList (some 0) false none 2 2, .prune]

def listing (ops : List (Op Unit)) : List (Σ _ : Str, WorkloadState Unit) :=
  ["a".toList, "b".toList].filterMap fun id =>
    ((init.run (.plain Unit) ops).files.lookup (checkpointName id)).map fun st => ⟨checkpointName id, st⟩

theorem restarted_eq_stopped :
    restarted (.plain Unit) (listing stoppedOps) 9 =
      (init.run (.plain Unit) stoppedOps).table.recovered 9 :=
  (restarted_eq_iff stoppedOps (by decide +kernel) (by decide +kernel) 9).mpr (by decide +kernel)

/-- **A pruned workload comes back.** -/
theorem pruned_comes_back :
    ((listing prunedOps : List (Σ _ : Str, WorkloadState Unit)) : Multiset _) =
        (init.run (.plain Unit) prunedOps).files.entries ∧
      (init.run (.plain Unit) prunedOps).unsaved = ∅ ∧
      (init.run (.plain Unit) prunedOps).table.lookup "a".toList = none ∧
      (restarted (.plain Unit) (listing prunedOps) 9).lookup "a".toList ≠ none := by
  decide +kernel

end Checkpointed

end Pullrun
