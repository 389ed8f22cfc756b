import Pullrun.Proof.Oci.Converted

/-!
# Converting any archive

What the trees of a converted layer list, in terms of the archive alone: an entry that is read and is
not a whiteout is a `Member` of a directory.
-/

namespace Pullrun

open MmapStore List ReadEntry

/-! ## Digests without a store -/

def Codec.Names (c : Codec) (d : Digest) (n : DagNode) : Prop := c.digest? n = some d

namespace Codec

variable {c : Codec} {d d' : Digest} {n m : DagNode}

theorem names_iff : c.Names d n ↔ ∃ b, c.toBytes n = .ok b ∧ c.sha256 b = d := by
  rw [Names, digest?]
  cases h : c.toBytes n with
  | error e => simp
  | ok b => simp

theorem Names.digest_eq (h : c.Names d n) (h' : c.Names d' n) : d = d' := by
  rw [Names, h] at h'
  exact Option.some.inj h'

theorem Names.node_eq (hc : c.Lawful) (h : c.Names d n) (h' : c.Names d m) : n = m := by
  obtain ⟨b, hb, hd⟩ := names_iff.mp h
  obtain ⟨b', hb', hd'⟩ := names_iff.mp h'
  exact hc.collisionFree n m b b' hb hb' (hd.trans hd'.symm)

end Codec

variable {c : Codec} {s s' : MmapStore} {d : Digest} {F : Formats} {Q : Seed → Prop}
  {seeds seeds' : ℕ → Seed} {archive : Archive} {n : DagNode}

theorem MmapStore.Holds.names (h : s.Holds c d n) : c.Names d n := by
  obtain ⟨b, hb, hd, -⟩ := h
  exact Codec.names_iff.mpr ⟨b, hb, hd⟩

/-! ## The members of an archive -/

structure Member where
  parent : Str
  name : Str
  isDir : Bool
  xattrs : List (Str × Bytes)
deriving DecidableEq

/-- The attributes that the PAX records of an entry give, as a map. -/
def paxAttributes (pax : List (Str × Bytes)) : List (Str × Bytes) :=
  Value.mapOf (pax.filterMap fun e =>
    (Digest.stripPrefix schilyPrefix e.1).map fun name => (name, e.2))

/-- An entry that is passed over or that is a whiteout adds nothing. -/
def LayerEntry.member? (entry : LayerEntry) : Option Member :=
  match entry.path, entry.header with
  | .ok path, .ok h =>
    if isSkipped path then none
    else if h.entryType ≠ .directory ∧ whPrefix <+: (splitPath path).2 then none
    else some ⟨(splitPath path).1, (splitPath path).2, h.entryType = .directory,
      paxAttributes entry.pax⟩
  | _, _ => none

def Archive.members (archive : Archive) : List Member :=
  archive.filterMap fun r =>
    match r with
    | .ok entry => entry.member?
    | .error _ => none

def ReadEntry.member (e : ReadEntry) : Member :=
  ⟨(splitPath e.path).1, (splitPath e.path).2, e.header.entryType = .directory, paxAttributes e.pax⟩

theorem listed_member (archive : Archive) :
    archive.listed.map member = archive.members := by
  rw [Archive.listed, Archive.read, filter_filterMap, map_filterMap, Archive.members]
  refine filterMap_congr fun r _ => ?_
  cases r with
  | error why => rfl
  | ok entry =>
    simp only [Except.toOption, Option.bind_some, LayerEntry.read?, LayerEntry.member?]
    cases entry.path with
    | error why => rfl
    | ok path =>
      cases entry.header with
      | error why => rfl
      | ok header =>
        dsimp only
        by_cases hskip : isSkipped path = true
        · simp [hskip]
        · by_cases hmarks : header.entryType ≠ .directory ∧ whPrefix <+: (splitPath path).2
          · simp [hskip, hmarks, Option.filter, marks, of]
          · simp [hskip, hmarks, Option.filter, marks, of, member]

structure MemberEntry (Q : Seed → Prop) (m : Member) (e : Str × DirectoryEntry) : Prop where
  parent : e.1 = m.parent
  name : e.2.name = m.name
  isDir : e.2.isDir = m.isDir
  xattrs : ∃ seed, Q seed ∧ e.2.xattrs = iterate seed m.xattrs

theorem EntryFor.memberEntry {x : ReadEntry × Bytes} {e : Str × DirectoryEntry}
    (h : EntryFor Q c s x e) : MemberEntry Q x.1.member e := by
  obtain ⟨seed, hQ, hentry⟩ := h.entry
  refine ⟨h.parent, ?_, ?_, seed, hQ, ?_⟩
  all_goals
    rw [hentry]
    rfl

theorem extractTarEntries_members (hc : F.codec.Lawful) (hQ : ∀ i, Q (seeds i))
    (hs : s.Sound F.codec) {x : Extracted}
    (h : extractTarEntries F.codec seeds archive s = (.ok x, s')) :
    s'.Sound F.codec ∧ s.Grown s' ∧ List.Forall₂ (MemberEntry Q) archive.members x.entries ∧
      FilesHeld F s' (x.entries.map Prod.snd) := by
  obtain ⟨hs', hg, -, hes⟩ := extractTarEntries_reads hc hQ hs h
  refine ⟨hs', hg, ?_, ?_⟩
  · rw [← listed_member, ← settle_map_fst (record (fun _ => none) archive.listed) archive.listed,
      map_map, forall₂_map_left_iff]
    exact hes.imp fun _ _ he => he.memberEntry
  · intro e he _
    obtain ⟨e', he', rfl⟩ := mem_map.mp he
    obtain ⟨y, -, hy⟩ := forall₂_mem_right hes he'
    exact ⟨y.2, hy.stored⟩

/-! ## Two conversions of one archive -/

def bareEntry (e : Str × DirectoryEntry) : Str × DirectoryEntry := (e.1, { e.2 with xattrs := [] })

/-- **Two conversions read the same entries**, up to the order of the attributes. -/
theorem extractTarEntries_twin (hc : c.Lawful) (hs : s.Sound c) (hs' : s'.Sound c)
    {t t' : MmapStore} {x x' : Extracted} (h : extractTarEntries c seeds archive s = (.ok x, t))
    (h' : extractTarEntries c seeds' archive s' = (.ok x', t')) :
    x.whiteouts = x'.whiteouts ∧ x.entries.map bareEntry = x'.entries.map bareEntry := by
  obtain ⟨-, -, hwh, hes⟩ := extractTarEntries_reads (Q := fun _ => True) hc (fun _ => trivial) hs h
  obtain ⟨-, -, hwh', hes'⟩ :=
    extractTarEntries_reads (Q := fun _ => True) hc (fun _ => trivial) hs' h'
  refine ⟨hwh.trans hwh'.symm, ?_⟩
  rw [← forall₂_eq_eq_eq, forall₂_map_left_iff, forall₂_map_right_iff]
  refine forall₂_comp (fun e y e' he he' => ?_) hes.flip hes'
  have hd : e.2.digest = e'.2.digest := he.stored.names.digest_eq he'.stored.names
  obtain ⟨seed, -, hentry⟩ := he.entry
  obtain ⟨seed', -, hentry'⟩ := he'.entry
  rw [hd] at hentry
  unfold bareEntry
  rw [he.parent, he'.parent, hentry, hentry']
  rfl

end Pullrun
