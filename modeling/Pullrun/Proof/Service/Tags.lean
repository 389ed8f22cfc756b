import Pullrun.Service.Sample

/-!
# What a reference resolves to

`image_tags` is meant as a map from references to digests: a pull, a build, a commit or an import
binds a reference, `remove_image` takes a digest away.
-/

namespace Pullrun

open Option Multiset Function FileMap

abbrev Bindings := Str → Option Str

/-- A binding replaces what the reference was bound to and touches no other reference; a removal
    unbinds every reference of the digest. -/
def Bindings.apply (b : Bindings) : Option TagEffect → Bindings
  | none => b
  | some (.insert digest reference) => Function.update b reference (some digest)
  | some (.remove digest) => fun reference =>
    if b reference = some digest then none else b reference

namespace TagTable

variable {tags : TagTable} {b : Bindings}

/-! ## The lookup -/

variable {order : List (Σ _ : Str, Str)} {d r : Str}

theorem Iterates.mem (h : tags.Iterates order) :
    (⟨d, r⟩ : Σ _ : Str, Str) ∈ order ↔ tags.lookup d = some r := by
  rw [← mem_coe, h, ← Finmap.mem_lookup_iff, mem_def]

theorem lookup_of_localHit (ho : tags.Iterates order) (h : localHit order r = some d) :
    tags.lookup d = some r := by
  obtain ⟨entry, hfind, rfl⟩ := map_eq_some_iff.mp h
  have hr : entry.2 = r := by simpa using List.find?_some hfind
  exact ho.mem.mp (hr ▸ List.mem_of_find?_eq_some hfind)

theorem localHit_isSome (ho : tags.Iterates order) (h : tags.lookup d = some r) :
    ∃ e, localHit order r = some e := by
  cases hhit : localHit order r with
  | some e => exact ⟨e, rfl⟩
  | none =>
    have hnone := List.find?_eq_none.mp (map_eq_none_iff.mp hhit) ⟨d, r⟩ (ho.mem.mpr h)
    simp at hnone

theorem exists_order_of_lookup (h : tags.lookup d = some r) :
    ∃ order, tags.Iterates order ∧ localHit order r = some d := by
  have hmem : (⟨d, r⟩ : Σ _ : Str, Str) ∈ tags.entries := Finmap.mem_lookup_iff.mp h
  obtain ⟨rest, hrest⟩ := exists_cons_of_mem hmem
  refine ⟨⟨d, r⟩ :: rest.toList, ?_, by simp [localHit]⟩
  rw [Iterates, hrest, ← cons_coe, coe_toList]

/-! ## The table as a map of references -/

def Resolves (tags : TagTable) (b : Bindings) : Prop :=
  ∀ order, tags.Iterates order → ∀ reference, localHit order reference = b reference

def Matches (tags : TagTable) (b : Bindings) : Prop :=
  ∀ d r, tags.lookup d = some r ↔ b r = some d

theorem Matches.resolves (h : Matches tags b) : Resolves tags b := by
  intro order ho r
  cases hb : b r with
  | some d =>
    obtain ⟨e, he⟩ := localHit_isSome ho ((h d r).mpr hb)
    rw [he, ← hb, (h e r).mp (lookup_of_localHit ho he)]
  | none =>
    cases he : localHit order r with
    | none => rfl
    | some e =>
      rw [(h e r).mp (lookup_of_localHit ho he)] at hb
      cases hb

theorem Resolves.matches (h : Resolves tags b) : Matches tags b := by
  intro d r
  constructor
  · intro hd
    obtain ⟨order, ho, hhit⟩ := exists_order_of_lookup hd
    rw [← h order ho r, hhit]
  · intro hb
    have ho : tags.Iterates tags.entries.toList := coe_toList _
    exact lookup_of_localHit ho ((h _ ho r).trans hb)

/-! ## One effect -/

def Fresh (tags : TagTable) (digest reference : Str) : Prop :=
  (∀ r, tags.lookup digest = some r → r = reference) ∧
  ∀ d, tags.lookup d = some reference → d = digest

theorem Matches.remove (h : Matches tags b) (digest : Str) :
    Matches (tags.apply (some (.remove digest))) (b.apply (some (.remove digest))) := by
  intro d r
  change (Finmap.erase digest tags).lookup d = some r ↔
    (if b r = some digest then none else b r) = some d
  rw [lookup_erase_if]
  by_cases hd : d = digest
  · subst hd
    rw [if_pos rfl]
    by_cases hb : b r = some d
    · simp [hb]
    · rw [if_neg hb]
      simpa using hb
  · rw [if_neg hd, h d r]
    by_cases hb : b r = some digest
    · rw [if_pos hb, hb]
      simpa using Ne.symm hd
    · rw [if_neg hb]

theorem Matches.insert {digest reference : Str} (h : Matches tags b)
    (hfresh : tags.Fresh digest reference) :
    Matches (tags.apply (some (.insert digest reference)))
      (b.apply (some (.insert digest reference))) := by
  intro d r
  rw [apply, Bindings.apply, lookup_insert_if]
  by_cases hr : r = reference
  · subst hr
    rw [update_self]
    by_cases hd : d = digest
    · rw [if_pos hd, hd]
      simp
    · rw [if_neg hd]
      refine ⟨fun hl => absurd (hfresh.2 d hl) hd, fun he => ?_⟩
      rw [some.injEq] at he
      exact absurd he.symm hd
  · rw [update_of_ne hr]
    by_cases hd : d = digest
    · subst hd
      rw [if_pos rfl]
      refine ⟨fun he => ?_, fun hb => absurd (hfresh.1 r ((h d r).mpr hb)) hr⟩
      rw [some.injEq] at he
      exact absurd he.symm hr
    · rw [if_neg hd]
      exact h d r

theorem Matches.fresh_of_insert {digest reference : Str} (h : Matches tags b)
    (h' : Matches (tags.apply (some (.insert digest reference)))
      (b.apply (some (.insert digest reference)))) : tags.Fresh digest reference := by
  rw [apply, Bindings.apply] at h'
  constructor
  · -- the other reference of the digest would be lost
    intro r hr
    by_contra hne
    have hb : update b reference (some digest) r = some digest := by
      rw [update_of_ne hne]
      exact (h digest r).mp hr
    have hlookup := (h' digest r).mpr hb
    rw [lookup_insert_if, if_pos rfl, some.injEq] at hlookup
    exact hne hlookup.symm
  · -- the other digest of the reference would still be found
    intro d hd
    by_contra hne
    have hlookup : (Finmap.insert digest reference tags).lookup d = some reference := by
      rw [lookup_insert_if, if_neg hne, hd]
    have hb := (h' d reference).mp hlookup
    rw [update_self, some.injEq] at hb
    exact hne hb.symm

end TagTable

/-! ## Runs -/

structure BoundService where
  service : RuntimeService
  bindings : Bindings

namespace BoundService

variable {cfg : RuntimeConfig}

def start : BoundService := ⟨.start, fun _ => none⟩

def step (cfg : RuntimeConfig) (s : BoundService) (op : RuntimeService.Op) : Option BoundService :=
  match s.service.reply cfg op with
  | none => none
  | some r => some ⟨s.service.after r, s.bindings.apply r.effect⟩

/-- After the request every reference resolves to what it is bound to, and a reference that the
    request did not bind resolves to what it did before. -/
def ResolvesAfter (cfg : RuntimeConfig) (s : BoundService) (op : RuntimeService.Op) : Prop :=
  ∀ r, s.service.reply cfg op = some r →
    (s.service.after r).imageTags.Resolves (s.bindings.apply r.effect) ∧
    ∀ digest reference, r.effect = some (.insert digest reference) → ∀ other, other ≠ reference →
      ∀ order order', s.service.imageTags.Iterates order →
        (s.service.after r).imageTags.Iterates order' → localHit order' other = localHit order other

def BindsFresh (cfg : RuntimeConfig) (s : BoundService) (op : RuntimeService.Op) : Prop :=
  ∀ r, s.service.reply cfg op = some r → ∀ digest reference,
    r.effect = some (.insert digest reference) → s.service.imageTags.Fresh digest reference

def Inv (s : BoundService) : Prop := s.service.imageTags.Matches s.bindings

variable {s : BoundService} {op : RuntimeService.Op}

theorem Inv.apply (h : s.Inv) {effect : Option TagEffect}
    (hfresh : ∀ digest reference, effect = some (.insert digest reference) →
      s.service.imageTags.Fresh digest reference) :
    (s.service.imageTags.apply effect).Matches (s.bindings.apply effect) := by
  match effect, hfresh with
  | none, _ => exact h
  | some (.remove digest), _ => exact TagTable.Matches.remove h digest
  | some (.insert digest reference), hfresh =>
    exact TagTable.Matches.insert h (hfresh digest reference rfl)

theorem Inv.step {s' : BoundService} (h : s.Inv)
    (hfresh : BindsFresh cfg s op) (hstep : step cfg s op = some s') : s'.Inv := by
  rw [BoundService.step] at hstep
  split at hstep
  · cases hstep
  rename_i r hr
  cases hstep
  exact h.apply (hfresh r hr)

theorem Inv.resolvesAfter_iff (h : s.Inv) : ResolvesAfter cfg s op ↔ BindsFresh cfg s op := by
  constructor
  · intro hres r hr digest reference he
    have hmatches := (hres r hr).1.matches
    rw [RuntimeService.after, he] at hmatches
    exact TagTable.Matches.fresh_of_insert h hmatches
  · intro hfresh r hr
    have hafter := (h.apply (hfresh r hr)).resolves
    refine ⟨hafter, fun digest reference he other hne order order' ho ho' => ?_⟩
    rw [hafter order' ho' other, TagTable.Matches.resolves h order ho other, he, Bindings.apply,
      update_of_ne hne]

/-- **A reference resolves to the digest it was bound to last, in every iteration order, exactly as long
as bindings are fresh**: the digest not tagged with another reference, the reference not bound to another
digest. -/
theorem resolvesAfter_iff_bindsFresh (cfg : RuntimeConfig) (ops : List RuntimeService.Op) :
    Schedule.Meets (step cfg) (ResolvesAfter cfg) start ops ↔
      Schedule.Meets (step cfg) (BindsFresh cfg) start ops :=
  have hempty : TagTable.Matches ∅ fun _ => none := fun d r => by simp
  have hstart : start.Inv := hempty
  Schedule.meets_congr Inv (fun _ _ _ hi hq hs => hi.step hq hs)
    (fun _ _ hi => hi.resolvesAfter_iff) hstart ops

theorem bindings_collide :
    (∃ s, Schedule.run (step (Sample.runtime none)) start
        [.buildImage (.ok Sample.leafD) .new ['a'] none,
          .buildImage (.ok Sample.leafD) .new ['b'] none] = some s ∧
      s.bindings ['a'] = some Sample.leafD.asHex ∧
      ∀ order, s.service.imageTags.Iterates order → localHit order ['a'] = none) ∧
    ∃ s order, Schedule.run (step (Sample.runtime none)) start
        [.buildImage (.ok Sample.leafD) .new ['a'] none,
          .buildImage (.ok Sample.otherD) .new ['a'] none] = some s ∧
      s.bindings ['a'] = some Sample.otherD.asHex ∧ s.service.imageTags.Iterates order ∧
      localHit order ['a'] = some Sample.leafD.asHex := by
  refine ⟨⟨_, rfl, by decide +kernel, fun order ho => ?_⟩,
    _, [⟨Sample.leafD.asHex, ['a']⟩, ⟨Sample.otherD.asHex, ['a']⟩], rfl, by decide +kernel,
    by decide +kernel, by decide +kernel⟩
  cases hhit : localHit order ['a'] with
  | none => rfl
  | some d =>
    have hlookup := TagTable.lookup_of_localHit ho hhit
    change ((TagTable.apply ∅ (some (.insert Sample.leafD.asHex ['a']))).apply
      (some (.insert Sample.leafD.asHex ['b']))).lookup d = some ['a'] at hlookup
    rw [TagTable.apply, TagTable.apply, lookup_insert_if, lookup_insert_if] at hlookup
    split at hlookup
    · cases hlookup
    · cases hlookup

end BoundService

end Pullrun
