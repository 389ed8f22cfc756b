import Pullrun.Oci.Sample
import Pullrun.Proof.Oci.Hashed

/-!
# Hard links to hard links

A link finds the contents of the file whose path is its target, or those of the link of that path if it
comes earlier in the archive (`Finds`).
-/

namespace Pullrun

open FileTree List Function

/-! ## Layers of files and hard links -/

def archiveOf (es : List ReadEntry) : Archive :=
  es.map fun e => .ok ⟨.ok e.path, .ok e.header, e.pax, .ok e.data⟩

/-- Following targets from an entry, however they are spelled, ends at a regular file. -/
inductive Leads (es : List ReadEntry) : ReadEntry → ReadEntry → Prop
  | file {f : ReadEntry} : f ∈ es → f.target = none → Leads es f f
  | link {e e' f : ReadEntry} {target : Str} : e.target = some target → e' ∈ es →
      segs e'.path = segs target → Leads es e' f → Leads es e f

/-- A layer of regular files and hard links, each of which leads to a file. -/
structure LinkLayer (es : List ReadEntry) : Prop where
  kinds : ∀ e ∈ es, e.header.entryType = .regular ∨
    e.header.entryType = .hardLink ∧ e.header.linkName ≠ none ∧ e.data = []
  places : (es.map fun e => segs e.path).Nodup
  leads : ∀ e ∈ es, ∃ f, Leads es e f

/-- The entry that is created for each hard link carries the digest of its file's contents. -/
def LinksCarry (c : Codec) (es : List ReadEntry) (x : Extracted) : Prop :=
  List.Forall₂ (fun e entry => (entry.1, entry.2.name) = splitPath e.path ∧
    (e.target ≠ none → ∀ f, Leads es e f → c.digest? (.blob f.data) = some entry.2.digest))
    (archiveOf es).listed x.entries

namespace LinkLayer

variable (h : LinkLayer es) {e : ReadEntry}
include h

theorem bare_eq_false (he : e ∈ es) : e.isBare = false := by
  rcases h.kinds e he with hk | ⟨hk, -⟩ <;> simp [ReadEntry.isBare, Header.isBare, hk]

theorem data_of_link (he : e ∈ es) (hlink : e.target ≠ none) : e.data = [] := by
  rcases h.kinds e he with hk | ⟨-, -, hdata⟩
  · exact absurd (if_neg (by simp [hk])) hlink
  · exact hdata

theorem listed_eq :
    (archiveOf es).listed = es.filter fun e => !isSkipped e.path && !e.marks := by
  have hread : (archiveOf es).read = es.filter fun e => !isSkipped e.path := by
    rw [Archive.read, archiveOf, filterMap_map, ← filterMap_eq_filter]
    refine filterMap_congr fun e he => ?_
    have hbare : e.header.isBare = false := h.bare_eq_false he
    cases hskip : isSkipped e.path <;>
      simp [Except.toOption, LayerEntry.read?, ReadEntry.of, hskip, hbare, Option.guard]
  rw [Archive.listed, hread, filter_filter]
  exact filter_congr fun e _ => Bool.and_comm _ _

theorem listed_sublist : (archiveOf es).listed <+ es := h.listed_eq ▸ filter_sublist

theorem paths_nodup : ((archiveOf es).listed.map ReadEntry.path).Nodup := by
  refine (Nodup.of_map segs ?_).sublist (h.listed_sublist.map _)
  rw [map_map]
  exact h.places

theorem finds_of_leads
    (hback : ∀ e ∈ (archiveOf es).listed, e.target ≠ none → ∀ f, Leads es e f → f.data ≠ [] →
      ∃ e' ∈ (archiveOf es).listed, e.target = some e'.path ∧
        (e'.target = none ∨ Before (archiveOf es).listed e' e))
    {f : ReadEntry} {data : Bytes} (hfinds : Finds (archiveOf es).listed e data)
    (he : e ∈ (archiveOf es).listed) (hleads : Leads es e f) : data = f.data := by
  induction hfinds with
  | own htarget =>
    cases hleads with
    | file => rfl
    | link ht => rw [htarget] at ht; cases ht
  | target he' _ htarget _ _ ih =>
    cases hleads with
    | file _ ht => rw [htarget] at ht; cases ht
    | link ht he1 hsegs hrest =>
      rw [htarget] at ht
      cases ht
      rw [inj_on_of_nodup_map h.places he1 (h.listed_sublist.subset he') hsegs] at hrest
      exact ih he' hrest
  | @lost e hlink hno =>
    by_contra hne
    obtain ⟨e', he', htarget, hor⟩ := hback e he hlink f hleads (Ne.symm hne)
    have hbare := h.bare_eq_false (h.listed_sublist.subset he')
    obtain ⟨hlink', hafter⟩ := hno e' he' hbare htarget
    exact hor.elim hlink' hafter

end LinkLayer

/-- **The hard links of a layer carry the contents of their files exactly if chains of links go back.** -/
theorem linksCarry_iff {c : Codec} (hc : c.Lawful) (h : LinkLayer es) {seeds : ℕ → Seed}
    {s s' : MmapStore} (hs : s.Sound c) {x : Extracted}
    (hx : extractTarEntries c seeds (archiveOf es) s = (.ok x, s')) :
    LinksCarry c es x ↔
      ∀ e ∈ (archiveOf es).listed, e.target ≠ none → ∀ f, Leads es e f → f.data ≠ [] →
        ∃ e' ∈ (archiveOf es).listed, e.target = some e'.path ∧
          (e'.target = none ∨ Before (archiveOf es).listed e' e) := by
  obtain ⟨-, -, -, hes⟩ :=
    extractTarEntries_reads (Q := fun _ => True) hc (fun _ => trivial) hs hx
  have hlinks : ∀ e ∈ (archiveOf es).listed, e.target ≠ none → e.data = [] :=
    fun e he => h.data_of_link (h.listed_sublist.subset he)
  have hfinds : ∀ y ∈ (archiveOf es).settled, Finds (archiveOf es).listed y.1 y.2 :=
    Archive.settled_finds h.paths_nodup hlinks
  have hfst : (archiveOf es).settled.map Prod.fst = (archiveOf es).listed := settle_map_fst _ _
  have hdigest : ∀ y entry (f : ReadEntry), EntryFor (fun _ => True) c s' y entry →
      (c.digest? (.blob f.data) = some entry.2.digest ↔ y.2 = f.data) := by
    intro y entry f hentry
    refine ⟨fun hd => ?_, fun heq => heq ▸ hentry.stored.names⟩
    have hnode := Codec.Names.node_eq hc hentry.stored.names hd
    injection hnode
  have hcarry : LinksCarry c es x ↔ ∀ y ∈ (archiveOf es).settled, y.1.target ≠ none →
      ∀ f, Leads es y.1 f → y.2 = f.data := by
    unfold LinksCarry
    rw [← hfst, forall₂_map_left_iff]
    constructor
    · intro hall y hy
      have hright : Forall₂ (fun y (_ : Str × DirectoryEntry) => y.1.target ≠ none →
          ∀ f, Leads es y.1 f → y.2 = f.data) (archiveOf es).settled x.entries :=
        Forall₂.mp (fun y entry he hcarry hlink f hf =>
          (hdigest y entry f he).mp (hcarry.2 hlink f hf)) hes hall
      obtain ⟨-, -, hy'⟩ := forall₂_mem_left hright hy
      exact hy'
    · intro hall
      refine ((forall₂_and_left _ _).mpr ⟨hall, hes⟩).imp fun y entry hy => ⟨?_, fun hlink f hf => ?_⟩
      · obtain ⟨seed, -, hentry⟩ := hy.2.entry
        rw [hy.2.parent, hentry]
        rfl
      · exact (hdigest y entry f hy.2).mpr (hy.1 hlink f hf)
  rw [hcarry]
  constructor
  · intro hall e he hlink f hleads hne
    rw [← hfst] at he
    obtain ⟨⟨e, data⟩, hy, rfl⟩ := mem_map.mp he
    have hdata := hall _ hy hlink f hleads
    have hy' := hfinds _ hy
    simp only at hdata hy'
    cases hy' with
    | own ht => exact absurd ht hlink
    | target he' _ ht hor => exact ⟨_, he', ht, hor⟩
    | lost => exact absurd hdata.symm hne
  · intro hback y hy _ f hleads
    exact h.finds_of_leads hback (hfinds y hy) (hfst ▸ mem_map_of_mem hy) hleads

/-! ## A chain of two links -/

namespace Sample

def fileF : ReadEntry := ⟨['f'], tarHeader .regular 0o644 2 none, [], leaf.inlineData⟩
def linkTo (path target : Str) : ReadEntry :=
  ⟨path, tarHeader .hardLink 0o644 0 (some target), [], []⟩

variable {es : List ReadEntry}

theorem chain_leads
    (h : [linkTo ['a'] ['b'], linkTo ['b'] ['f'], fileF] ⊆ es) :
    Leads es fileF fileF ∧ Leads es (linkTo ['b'] ['f']) fileF ∧
      Leads es (linkTo ['a'] ['b']) fileF := by
  have hf : Leads es fileF fileF := .file (h (by decide)) rfl
  have hb : Leads es (linkTo ['b'] ['f']) fileF := .link rfl (h (by decide)) rfl hf
  exact ⟨hf, hb, .link rfl (h (by decide)) rfl hb⟩

theorem chain_linkLayer
    (h : es.Perm [linkTo ['a'] ['b'], linkTo ['b'] ['f'], fileF]) : LinkLayer es := by
  obtain ⟨hf, hb, ha⟩ := chain_leads h.symm.subset
  refine ⟨fun e he => ?_, ((h.map _).nodup_iff).mpr (by decide), fun e he => ⟨fileF, ?_⟩⟩
  all_goals
    have hmem := h.mem_iff.mp he
    simp only [mem_cons, not_mem_nil, or_false] at hmem
    rcases hmem with rfl | rfl | rfl
  · decide
  · decide
  · decide
  · exact ha
  · exact hb
  · exact hf

/-- In an order in which links go back, -/
def chainBack : List ReadEntry := [fileF, linkTo ['b'] ['f'], linkTo ['a'] ['b']]

/-- and in the other. -/
def chainAhead : List ReadEntry := [linkTo ['a'] ['b'], linkTo ['b'] ['f'], fileF]

end Sample

open Sample

theorem linksCarry_chainBack : ∃ x s', extractTarEntries formats.codec (fun _ _ => 0)
      (archiveOf chainBack) noStore = (.ok x, s') ∧ LinksCarry formats.codec chainBack x := by
  obtain ⟨x, s', hx⟩ : ∃ x s', extractTarEntries formats.codec (fun _ _ => 0)
      (archiveOf chainBack) noStore = (.ok x, s') := ⟨_, _, rfl⟩
  refine ⟨x, s', hx, (linksCarry_iff formats_codec (chain_linkLayer (by decide)) noStore_sound
    hx).mpr ?_⟩
  have hlisted : (archiveOf chainBack).listed = chainBack := by decide
  rw [hlisted]
  intro e he hlink f _ _
  simp only [chainBack, mem_cons, not_mem_nil, or_false] at he
  rcases he with rfl | rfl | rfl
  · exact absurd rfl hlink
  · exact ⟨fileF, by decide, rfl, .inl rfl⟩
  · exact ⟨linkTo ['b'] ['f'], by decide, rfl, .inr ⟨[fileF, linkTo ['b'] ['f']], [], rfl, by decide⟩⟩

/-- **A link to a link that comes later is an empty file.** -/
theorem link_ahead_is_empty : LinkLayer chainAhead ∧ ∃ x s',
    extractTarEntries formats.codec (fun _ _ => 0) (archiveOf chainAhead) noStore = (.ok x, s') ∧
      (∀ entry ∈ x.entries, entry.2.name = ['a'] → entry.2.digest = emptyD) ∧
      ¬ LinksCarry formats.codec chainAhead x := by
  have hlayer : LinkLayer chainAhead := chain_linkLayer (by decide)
  obtain ⟨x, s', hx, hempty⟩ : ∃ x s', extractTarEntries formats.codec (fun _ _ => 0)
      (archiveOf chainAhead) noStore = (.ok x, s') ∧
      ∀ entry ∈ x.entries, entry.2.name = ['a'] → entry.2.digest = emptyD :=
    ⟨_, _, rfl, by decide +kernel⟩
  refine ⟨hlayer, x, s', hx, hempty, fun hcarry => ?_⟩
  obtain ⟨entry, hentry, hsplit, hdigest⟩ :=
    forall₂_mem_left hcarry (show linkTo ['a'] ['b'] ∈ (archiveOf chainAhead).listed by decide)
  have hd := hdigest (by decide) fileF (chain_leads (by decide)).2.2
  rw [hempty entry hentry (congrArg Prod.snd hsplit)] at hd
  exact absurd hd (by decide +kernel)

end Pullrun
