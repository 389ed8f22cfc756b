import Mathlib.Data.Finmap

/-!
# Records in a map and in a directory

A service keeps its records in a map and writes each to a file of its own, `<key>.json`, which it reads
back when it starts. The contents of a file are the record in it.

Map and file change together: a write or a removal succeeds, and nobody looks, and nothing is killed, while a
file is half written. A service that logs a failed write and goes on, or is killed within one, is outside
of this.
-/

namespace RecordDir

open List

variable {ρ : Type} (key : ρ → List Char)

abbrev Table (ρ : Type) := Finmap fun _ : List Char => ρ

/-- A map or a directory as it is gone through. -/
abbrev Entries (ρ : Type) := List (Σ _ : List Char, ρ)

def fileName (id : List Char) : List Char := id ++ ".json".toList

structure Dir (ρ : Type) where
  mem : Table ρ
  files : Table ρ

/-- The record goes into the map and into its file. The write is taken to succeed, in one step. -/
def put (d : Dir ρ) (r : ρ) : Dir ρ :=
  ⟨d.mem.insert (key r) r, d.files.insert (fileName (key r)) r⟩

/-- Out of the map, and the file removed; that too is taken to succeed. -/
def remove (d : Dir ρ) (id : List Char) : Dir ρ := ⟨d.mem.erase id, d.files.erase (fileName id)⟩

def listed (rs : List ρ) : Entries ρ := rs.map fun r => ⟨key r, r⟩

/-- Read the files in the order of the listing. Other names are skipped. -/
def load (entries : Entries ρ) : Table ρ :=
  entries.foldl
    (fun t e => if ".json".toList.isSuffixOf e.1 then t.insert (key e.2) e.2 else t) ∅

/-- Every record is under its key, in the map and in the file of that name, and nowhere else. -/
structure InStep (d : Dir ρ) : Prop where
  keyed : ∀ id r, d.mem.lookup id = some r → key r = id
  named : ∀ name r, d.files.lookup name = some r → name = fileName (key r)
  same : ∀ id, d.files.lookup (fileName id) = d.mem.lookup id

variable {key} {d : Dir ρ} {r : ρ} {id : List Char} {entries : Entries ρ}

theorem fileName_inj {id' : List Char} : fileName id = fileName id' ↔ id = id' := append_left_inj _

theorem inStep_empty : InStep key (⟨∅, ∅⟩ : Dir ρ) where
  keyed _ _ h := by simp at h
  named _ _ h := by simp at h
  same _ := rfl

theorem InStep.put (h : InStep key d) (r : ρ) : InStep key (put key d r) where
  keyed id r' hr := by
    by_cases hid : id = key r
    · subst hid
      rw [RecordDir.put, Finmap.lookup_insert, Option.some.injEq] at hr
      rw [hr]
    · rw [RecordDir.put, Finmap.lookup_insert_of_ne _ hid] at hr
      exact h.keyed id r' hr
  named name r' hr := by
    by_cases hname : name = fileName (key r)
    · subst hname
      rw [RecordDir.put, Finmap.lookup_insert, Option.some.injEq] at hr
      rw [hr]
    · rw [RecordDir.put, Finmap.lookup_insert_of_ne _ hname] at hr
      exact h.named name r' hr
  same id := by
    by_cases hid : id = key r
    · subst hid
      rw [RecordDir.put, Finmap.lookup_insert, Finmap.lookup_insert]
    · rw [RecordDir.put, Finmap.lookup_insert_of_ne _ (fileName_inj.not.mpr hid),
        Finmap.lookup_insert_of_ne _ hid]
      exact h.same id

theorem lookup_erase_some {κ : Type} [DecidableEq κ] {m : Finmap fun _ : κ => ρ} {a b : κ}
    (h : (m.erase a).lookup b = some r) : m.lookup b = some r := by
  by_cases hab : b = a
  · subst hab
    rw [Finmap.lookup_erase] at h
    cases h
  · rwa [Finmap.lookup_erase_ne hab] at h

theorem InStep.remove (h : InStep key d) (id : List Char) : InStep key (remove d id) where
  keyed id' r hr := h.keyed id' r (lookup_erase_some hr)
  named name r hr := h.named name r (lookup_erase_some hr)
  same id' := by
    by_cases hid : id' = id
    · subst hid
      rw [RecordDir.remove, Finmap.lookup_erase, Finmap.lookup_erase]
    · rw [RecordDir.remove, Finmap.lookup_erase_ne (fileName_inj.not.mpr hid),
        Finmap.lookup_erase_ne hid]
      exact h.same id'

theorem lookup_load (hnodup : (entries.map (·.1)).Nodup)
    (hnamed : ∀ e ∈ entries, e.1 = fileName (key e.2)) :
    (load key entries).lookup id = some r ↔ ⟨fileName id, r⟩ ∈ entries := by
  induction entries using List.reverseRecOn with
  | nil => simp [load]
  | append_singleton entries e ih =>
    obtain ⟨hnamed, he⟩ : (∀ e ∈ entries, e.1 = fileName (key e.2)) ∧ e.1 = fileName (key e.2) := by
      simpa [or_imp, forall_and] using hnamed
    rw [map_append, nodup_append] at hnodup
    have hstep : load key (entries ++ [e]) = (load key entries).insert (key e.2) e.2 := by
      have hjson : ".json".toList.isSuffixOf e.1 = true := by
        rw [he]
        exact isSuffixOf_iff_suffix.mpr (suffix_append _ _)
      rw [load, foldl_concat, if_pos hjson, load]
    have hnew : ∀ r', ⟨fileName (key e.2), r'⟩ ∉ entries := by
      intro r' hr'
      exact hnodup.2.2 _ (mem_map_of_mem hr') e.1 (by simp) he.symm
    rw [hstep, mem_append, mem_singleton]
    by_cases hid : id = key e.2
    · subst hid
      rw [Finmap.lookup_insert, Option.some.injEq, or_iff_right (hnew r)]
      exact ⟨fun h => Sigma.ext he.symm (heq_of_eq h.symm), fun h => by rw [← h]⟩
    · rw [Finmap.lookup_insert_of_ne _ hid, ih hnodup.1 hnamed]
      refine (or_iff_left fun h => hid (fileName_inj.mp ?_)).symm
      rw [← he, ← h]

/-- **Reading the directory gives the map back**, in whatever order it is listed. -/
theorem InStep.load (h : InStep key d)
    (hentries : (entries : Multiset (Σ _ : List Char, ρ)) = d.files.entries) :
    load key entries = d.mem := by
  have hmem : ∀ name r, ⟨name, r⟩ ∈ entries ↔ d.files.lookup name = some r := by
    intro name r
    rw [← Multiset.mem_coe, hentries, ← Finmap.mem_lookup_iff, Option.mem_def]
  have hnodup : (entries.map (·.1)).Nodup := by
    have := d.files.nodupKeys
    rwa [← hentries] at this
  refine Finmap.ext_lookup fun id => Option.ext fun r => ?_
  rw [lookup_load hnodup fun e he => h.named e.1 e.2 ((hmem e.1 e.2).mp he), hmem, h.same]

end RecordDir
