import Pullrun.Proof.Oci.Stored

/-!
# What the converter reads from an archive

`extract_tar_entries_sync` on any archive that it gets to the end of.
-/

namespace Pullrun

open List Function Option

/-! ## What is read -/

/-- The header of a directory or a symlink: there is no data to read. -/
def Header.isBare (h : Header) : Bool := h.entryType = .directory ∨ h.entryType = .symlink

structure ReadEntry where
  path : Str
  header : Header
  pax : List (Str × Bytes)
  data : Bytes
deriving DecidableEq

namespace ReadEntry

def isBare (e : ReadEntry) : Bool := e.header.isBare

def marks (e : ReadEntry) : Bool :=
  e.header.entryType ≠ .directory ∧ whPrefix <+: (splitPath e.path).2

def whiteout (e : ReadEntry) : WhiteoutEntry := whiteoutOf (splitPath e.path).1 (splitPath e.path).2

def target (e : ReadEntry) : Option Str :=
  if e.header.entryType = .hardLink then e.header.linkName else none

theorem isBare_of_target {e : ReadEntry} (h : e.target ≠ none) : e.isBare = false := by
  have hlink : e.header.entryType = .hardLink := by
    by_contra hno
    exact h (if_neg hno)
  simp [isBare, Header.isBare, hlink]

def of (path : Str) (header : Header) (pax : List (Str × Bytes)) (data : Except String Bytes) :
    ReadEntry :=
  ⟨path, header, pax, if header.isBare then [] else data.toOption.getD []⟩

end ReadEntry

def LayerEntry.read? (entry : LayerEntry) : Option ReadEntry :=
  match entry.path, entry.header with
  | .ok path, .ok header =>
    if isSkipped path then none else some (.of path header entry.pax entry.data)
  | _, _ => none

def Archive.read (archive : Archive) : List ReadEntry :=
  archive.filterMap fun r => r.toOption.bind LayerEntry.read?

def Archive.listed (archive : Archive) : List ReadEntry := archive.read.filter fun e => !e.marks

/-! ## What it contains -/

/-- The contents that are known by path, once the entries have been read. -/
def record (known : Str → Option Bytes) (es : List ReadEntry) : Str → Option Bytes :=
  es.foldl (fun known e => if e.isBare then known else update known e.path (some e.data)) known

/-- The entries with their contents, hard links resolved. -/
def settle (known : Str → Option Bytes) : List ReadEntry → List (ReadEntry × Bytes)
  | [] => []
  | e :: es =>
    match e.target.bind known with
    | none => (e, e.data) :: settle known es
    | some data => (e, data) :: settle (update known e.path (some data)) es

def Archive.settled (archive : Archive) : List (ReadEntry × Bytes) :=
  settle (record (fun _ => none) archive.listed) archive.listed

section

variable {known : Str → Option Bytes} {es : List ReadEntry} {e : ReadEntry} {path : Str}

theorem record_of_not_mem (h : ∀ e ∈ es, e.isBare = false → e.path ≠ path) :
    record known es path = known path := by
  induction es generalizing known with
  | nil => rfl
  | cons e es ih =>
    rw [record, foldl_cons]
    refine (ih fun e' he' => h e' (mem_cons_of_mem _ he')).trans ?_
    split
    · rfl
    · rename_i hbare
      exact update_of_ne (h e mem_cons_self (by simpa using hbare)).symm _ _

theorem record_of_mem (hnodup : (es.map ReadEntry.path).Nodup) (he : e ∈ es)
    (hbare : e.isBare = false) : record known es e.path = some e.data := by
  induction es generalizing known with
  | nil => cases he
  | cons e' es ih =>
    rw [record, foldl_cons]
    rw [map_cons, nodup_cons] at hnodup
    rcases mem_cons.mp he with rfl | he
    · refine (record_of_not_mem fun e' he' _ hpath => ?_).trans (by simp [hbare])
      exact hnodup.1 (hpath ▸ mem_map_of_mem he')
    · exact ih hnodup.2 he

theorem record_ne_none (he : e ∈ es) (hbare : e.isBare = false) : record known es e.path ≠ none := by
  induction es using reverseRecOn with
  | nil => cases he
  | append_singleton es e' ih =>
    rw [record, foldl_concat]
    rcases mem_append.mp he with he | he
    · split
      · exact ih he
      · rw [update_apply]
        split
        · exact some_ne_none _
        · exact ih he
    · cases mem_singleton.mp he
      simp [hbare]

theorem settle_cons : settle known (e :: es) = (e, (e.target.bind known).getD e.data) ::
    settle (match e.target.bind known with
      | none => known
      | some data => update known e.path (some data)) es := by
  rw [settle]
  cases e.target.bind known <;> rfl

theorem settle_map_fst (known : Str → Option Bytes) (es : List ReadEntry) :
    (settle known es).map Prod.fst = es := by
  induction es generalizing known with
  | nil => rfl
  | cons e es ih => rw [settle_cons, map_cons, ih]

end

/-! ## What a link finds -/

def Before (es : List ReadEntry) (e' e : ReadEntry) : Prop :=
  ∃ pre post, es = pre ++ e :: post ∧ e' ∈ pre

/-- The contents that an entry of an archive ends up with. -/
inductive Finds (es : List ReadEntry) : ReadEntry → Bytes → Prop
  | own {e : ReadEntry} : e.target = none → Finds es e e.data
  | target {e e' : ReadEntry} {data : Bytes} : e' ∈ es → e'.isBare = false →
      e.target = some e'.path → (e'.target = none ∨ Before es e' e) → Finds es e' data →
      Finds es e data
  | lost {e : ReadEntry} : e.target ≠ none →
      (∀ e' ∈ es, e'.isBare = false → e.target = some e'.path → e'.target ≠ none ∧ ¬ Before es e' e) →
      Finds es e []

variable {es : List ReadEntry}

/-- What is known of an entry in the second pass, once the entries in `done` have had their turn. -/
def Settled (es done : List ReadEntry) (e : ReadEntry) (data : Bytes) : Prop :=
  (e.target = none ∨ e ∈ done) ∧ Finds es e data ∨ e.target ≠ none ∧ e ∉ done ∧ data = []

theorem Settled.concat {done : List ReadEntry} {e e' : ReadEntry} {data : Bytes}
    (h : Settled es done e data) (hself : e = e' → e.target ≠ none → Finds es e []) :
    Settled es (done ++ [e']) e data := by
  obtain ⟨hdone, hfinds⟩ | ⟨hlink, hnot, rfl⟩ := h
  · exact .inl ⟨hdone.imp_right (mem_append_left _), hfinds⟩
  · by_cases heq : e = e'
    · exact .inl ⟨.inr (by simp [heq]), hself heq hlink⟩
    · exact .inr ⟨hlink, by simp [hnot, heq], rfl⟩

structure Known (es done : List ReadEntry) (known : Str → Option Bytes) : Prop where
  found : ∀ path data, known path = some data →
    ∃ e ∈ es, e.isBare = false ∧ e.path = path ∧ Settled es done e data
  all : ∀ e ∈ es, e.isBare = false → known e.path ≠ none

section

variable (hpaths : (es.map ReadEntry.path).Nodup)
  (hlinks : ∀ e ∈ es, e.target ≠ none → e.data = []) {e : ReadEntry}
include hpaths hlinks

theorem Known.record : Known es [] (record (fun _ => none) es) where
  found path data h := by
    have hmem : ∃ e ∈ es, e.isBare = false ∧ e.path = path := by
      by_contra hno
      push Not at hno
      rw [record_of_not_mem hno] at h
      cases h
    obtain ⟨e, he, hbare, rfl⟩ := hmem
    rw [record_of_mem hpaths he hbare] at h
    cases h
    refine ⟨e, he, hbare, rfl, ?_⟩
    by_cases htarget : e.target = none
    · exact .inl ⟨.inl htarget, .own htarget⟩
    · exact .inr ⟨htarget, not_mem_nil, hlinks e he htarget⟩
  all _ he hbare := record_ne_none he hbare

theorem Known.finds {done rest : List ReadEntry} {known : Str → Option Bytes}
    (h : Known es done known) (hes : es = done ++ e :: rest) :
    Finds es e ((e.target.bind known).getD e.data) := by
  have he : e ∈ es := hes ▸ mem_append_right _ mem_cons_self
  cases htarget : e.target with
  | none => exact .own htarget
  | some t =>
    rw [bind_some]
    cases hk : known t with
    | none =>
      rw [getD_none, hlinks e he (by simp [htarget])]
      refine .lost (by simp [htarget]) fun e' he' hbare ht => ?_
      rw [htarget] at ht
      cases ht
      exact absurd hk (h.all e' he' hbare)
    | some data =>
      obtain ⟨e', he', hbare, rfl, ⟨hdone, hfinds⟩ | ⟨hlink, hnot, rfl⟩⟩ := h.found t data hk
      · exact .target he' hbare htarget (hdone.imp_right fun hmem => ⟨done, rest, hes, hmem⟩) hfinds
      · refine .lost (by simp [htarget]) fun e1 he1 hbare₁ ht => ?_
        have heq : e1 = e' := by
          rw [htarget] at ht
          exact inj_on_of_nodup_map hpaths he1 he' (Option.some.inj ht).symm
        subst heq
        refine ⟨hlink, fun ⟨pre, post, hsplit, hmem⟩ => hnot ?_⟩
        -- The entry is in the list once, so that there is one way to split the list at it.
        have hnodup : (done ++ e :: rest).Nodup := hes ▸ hpaths.of_map
        have honce := (nodup_cons.mp (nodup_middle.mp hnodup)).1
        rw [mem_append, not_or] at honce
        rw [hes, append_cons_inj_of_notMem honce.1 honce.2] at hsplit
        exact hsplit.1 ▸ hmem

theorem Known.step {done rest : List ReadEntry} {known : Str → Option Bytes}
    (h : Known es done known) (hes : es = done ++ e :: rest) :
    Known es (done ++ [e]) (match e.target.bind known with
      | none => known
      | some data => update known e.path (some data)) := by
  have he : e ∈ es := hes ▸ mem_append_right _ mem_cons_self
  have hfinds := h.finds hpaths hlinks hes
  cases hb : e.target.bind known with
  | none =>
    refine ⟨fun path data hk => ?_, h.all⟩
    obtain ⟨e1, he1, hbare, hpath, hcase⟩ := h.found path data hk
    refine ⟨e1, he1, hbare, hpath, hcase.concat fun heq hlink => ?_⟩
    subst heq
    rwa [hb, getD_none, hlinks e1 he hlink] at hfinds
  | some data =>
    have hlink : e.target ≠ none := fun hnone => by simp [hnone] at hb
    rw [hb] at hfinds
    refine ⟨fun path data' hk => ?_, fun e1 he1 hbare => ?_⟩
    · dsimp only at hk
      rw [update_apply] at hk
      split at hk
      · rename_i hpath
        cases hk
        exact ⟨e, he, ReadEntry.isBare_of_target hlink, hpath.symm,
          Or.inl ⟨.inr (by simp), hfinds⟩⟩
      · rename_i hne
        obtain ⟨e1, he1, hbare, hpath, hcase⟩ := h.found path data' hk
        refine ⟨e1, he1, hbare, hpath, hcase.concat fun heq _ => absurd ?_ hne⟩
        rw [← hpath, heq]
    · dsimp only
      rw [update_apply]
      split
      · exact some_ne_none _
      · exact h.all e1 he1 hbare

theorem settle_finds : ∀ {rest done : List ReadEntry} {known : Str → Option Bytes},
    Known es done known → es = done ++ rest → ∀ x ∈ settle known rest, Finds es x.1 x.2 := by
  intro rest
  induction rest with
  | nil => exact fun _ _ x hx => by cases hx
  | cons e rest ih =>
    intro done known h hes x hx
    have hfinds := h.finds hpaths hlinks hes
    have hrest := ih (h.step hpaths hlinks hes) (by rw [hes, append_assoc]; rfl)
    rw [settle_cons] at hx
    rcases mem_cons.mp hx with rfl | hx
    · exact hfinds
    · exact hrest x hx

omit hlinks in
theorem Finds.unique {a b : Bytes} (ha : Finds es e a) (hb : Finds es e b) : a = b := by
  induction ha with
  | own htarget =>
    cases hb with
    | own => rfl
    | target _ _ ht => rw [htarget] at ht; cases ht
    | lost hlink => exact absurd htarget hlink
  | target he hbare ht hor _ ih =>
    cases hb with
    | own htarget => rw [htarget] at ht; cases ht
    | target he' _ ht' _ hb =>
      rw [ht] at ht'
      cases inj_on_of_nodup_map hpaths he he' (some.inj ht')
      exact ih hb
    | lost _ hno => exact (hor.elim (hno _ he hbare ht).1 (hno _ he hbare ht).2).elim
  | lost hlink hno =>
    cases hb with
    | own htarget => exact absurd htarget hlink
    | target he hbare ht hor => exact (hor.elim (hno _ he hbare ht).1 (hno _ he hbare ht).2).elim
    | lost => rfl

end

theorem Archive.settled_finds {archive : Archive} (hpaths : (archive.listed.map ReadEntry.path).Nodup)
    (hlinks : ∀ e ∈ archive.listed, e.target ≠ none → e.data = []) :
    ∀ x ∈ archive.settled, Finds archive.listed x.1 x.2 :=
  settle_finds hpaths hlinks (.record hpaths hlinks) rfl

/-! ## First pass -/

variable {Q : Seed → Prop} {c : Codec} {s s' : MmapStore} {known : Str → Option Bytes}
  {paths : List (Str × Digest)} {p p' p₁ : Scan} {es' : List ReadEntry} {d : Digest}
  {data : Bytes} {seeds : ℕ → Seed} {archive : Archive} {entries : List (Str × DirectoryEntry)}
  {raws : List RawEntry} {size : UInt64}

/-- The map of paths has the digests of the contents that are known. -/
def Tracks (c : Codec) (s : MmapStore) (paths : List (Str × Digest)) (known : Str → Option Bytes) :
    Prop :=
  ∀ path, Option.Rel (fun d data => s.Holds c d (.blob data)) (paths.lookup path) (known path)

theorem Tracks.mono (h : Tracks c s paths known) (hg : s.Grown s') : Tracks c s' paths known := by
  intro path
  have hp := h path
  generalize paths.lookup path = o, known path = k at hp ⊢
  cases hp with
  | some hd => exact .some (hd.mono hg)
  | none => exact .none

theorem Tracks.insertKey (h : Tracks c s paths known) (path : Str)
    (hd : s.Holds c d (.blob data)) :
    Tracks c s (Value.insertKey paths path d) (update known path (some data)) := by
  intro path'
  rw [Value.lookup_insertKey, update_apply]
  split
  · exact .some hd
  · exact h path'

/-- The raw entry of an entry with its contents. `Q` says in which orders attributes may be. -/
def RawOf (Q : Seed → Prop) (c : Codec) (s : MmapStore) (e : ReadEntry) (data : Bytes)
    (r : RawEntry) : Prop :=
  ∃ seed d, Q seed ∧ r = rawEntryOf seed e.path e.header e.pax d ∧
    if e.isBare then d = zeroDigest ∧ data = [] else s.Holds c d (.blob data)

theorem RawOf.mono {e : ReadEntry} {r : RawEntry} (h : RawOf Q c s e data r) (hg : s.Grown s') :
    RawOf Q c s' e data r := by
  obtain ⟨seed, d, hQ, hr, hd⟩ := h
  refine ⟨seed, d, hQ, hr, ?_⟩
  split
  · rwa [if_pos ‹_›] at hd
  · rw [if_neg ‹_›] at hd
    exact hd.mono hg

theorem storeFile_spec (hc : c.Lawful) (hs : s.Sound c)
    (h : storeFile c s size data = (.ok d, s')) :
    s'.Sound c ∧ s.Grown s' ∧ s'.Holds c d (.blob data) := by
  revert h
  fun_cases storeFile c s size data with
  | case1 => rintro ⟨⟩
  | case2 d1 s1 hput =>
    rintro ⟨⟩
    obtain ⟨hs1, hg1, hd1, -⟩ := MmapStore.putBlocking_spec hc hs hput
    obtain ⟨hs2, hg2⟩ := MmapStore.putBlobBlocking_spec hs1 hd1
    exact ⟨hs2, hg1.trans hg2, hd1.mono hg2⟩
  | case3 d1 s1 hput =>
    rintro ⟨⟩
    obtain ⟨hs1, hg1, hd1, -⟩ := MmapStore.putBlocking_spec hc hs hput
    exact ⟨hs1, hg1, hd1⟩

structure Scanned (Q : Seed → Prop) (c : Codec) (es : List ReadEntry) (p p' : Scan) : Prop where
  sound : p'.store.Sound c
  grown : p.store.Grown p'.store
  whiteouts : p'.whiteouts = p.whiteouts ++ (es.filter ReadEntry.marks).map ReadEntry.whiteout
  raws : ∃ raws, p'.rawEntries = p.rawEntries ++ raws ∧
    List.Forall₂ (fun e => RawOf Q c p'.store e e.data) (es.filter fun e => !e.marks) raws
  paths : ∀ known, Tracks c p.store p.pathToDigest known →
    Tracks c p'.store p'.pathToDigest (record known (es.filter fun e => !e.marks))

theorem Scanned.nil (hs : p.store.Sound c) : Scanned Q c [] p p :=
  ⟨hs, .refl _, by simp, ⟨[], by simp, .nil⟩, fun _ h => h⟩

theorem Scanned.trans (h : Scanned Q c es p p₁) (h' : Scanned Q c es' p₁ p') :
    Scanned Q c (es ++ es') p p' where
  sound := h'.sound
  grown := h.grown.trans h'.grown
  whiteouts := by rw [h'.whiteouts, h.whiteouts, filter_append, map_append, append_assoc]
  raws := by
    obtain ⟨raws, hraws, hall⟩ := h.raws
    obtain ⟨raws', hraws', hall'⟩ := h'.raws
    refine ⟨raws ++ raws', by rw [hraws', hraws, append_assoc], ?_⟩
    rw [filter_append]
    exact rel_append (hall.imp fun _ _ hr => hr.mono h'.grown) hall'
  paths known hp := by
    rw [filter_append, record, foldl_append]
    exact h'.paths _ (h.paths known hp)

theorem scanEntry_scanned (hc : c.Lawful) {seed : Seed} (hQ : Q seed) {path : Str} {header : Header}
    {pax : List (Str × Bytes)} {data : Except String Bytes} (hs : p.store.Sound c)
    (h : scanEntry c seed path header pax data p = (.ok (), p')) :
    Scanned Q c [.of path header pax data] p p' := by
  generalize he : ReadEntry.of path header pax data = e
  obtain ⟨rfl, rfl, rfl, hdata⟩ : path = e.path ∧ header = e.header ∧ pax = e.pax ∧
      e.data = if e.isBare then [] else data.toOption.getD [] := by
    subst he
    exact ⟨rfl, rfl, rfl, rfl⟩
  unfold scanEntry at h
  by_cases hmarks : e.marks = true
  · rw [if_pos (by simpa [ReadEntry.marks] using hmarks)] at h
    cases h
    exact ⟨hs, .refl _, by simp [hmarks, ReadEntry.whiteout], ⟨[], by simp, by simp [hmarks]⟩,
      fun known hp => by simpa [hmarks, record] using hp⟩
  rw [if_neg (by simpa [ReadEntry.marks] using hmarks)] at h
  by_cases hbare : e.isBare = true
  · rw [if_pos (by simpa [ReadEntry.isBare, Header.isBare] using hbare)] at h
    cases h
    rw [if_pos hbare] at hdata
    refine ⟨hs, .refl _, by simp [hmarks], ⟨[_], rfl, ?_⟩, fun known hp => ?_⟩
    · simpa [hmarks] using ⟨seed, zeroDigest, hQ, rfl, by simp [hbare, hdata]⟩
    · simpa [hmarks, record, hbare] using hp
  · rw [if_neg (by simpa [ReadEntry.isBare, Header.isBare] using hbare)] at h
    rw [if_neg hbare] at hdata
    split at h
    · cases h
    rename_i b
    have hb : e.data = b := hdata
    split at h
    · cases h
    rename_i d s1 hstore
    cases h
    obtain ⟨hs1, hg1, hd⟩ := storeFile_spec hc hs hstore
    rw [← hb] at hd
    refine ⟨hs1, hg1, by simp [hmarks], ⟨[_], rfl, ?_⟩, fun known hp => ?_⟩
    · simpa [hmarks] using ⟨seed, d, hQ, rfl, by simpa [hbare] using hd⟩
    · simpa [hmarks, record, hbare] using (hp.mono hg1).insertKey e.path hd

theorem scan_scanned (hc : c.Lawful) (hQ : ∀ i, Q (seeds i)) {k : ℕ}
    (hs : p.store.Sound c) (h : scan c seeds k archive p = (.ok (), p')) :
    Scanned Q c archive.read p p' := by
  have hread : ∀ (entry : LayerEntry) rest,
      Archive.read (.ok entry :: rest) = entry.read?.toList ++ Archive.read rest := by
    intro entry rest
    rw [Archive.read, filterMap_cons]
    cases hr : entry.read? <;> simp [Except.toOption, hr, Archive.read]
  fun_induction scan c seeds k archive p with
  | case1 =>
    cases h
    exact .nil hs
  | case2 | case3 | case5 | case6 => cases h
  | case4 k entry rest p path hpath hskip ih =>
    have hnone : entry.read? = none := by
      unfold LayerEntry.read?
      split
      · rename_i hpath' _
        rw [hpath] at hpath'
        cases hpath'
        exact if_pos hskip
      · rfl
    rw [hread, hnone]
    exact ih hs h
  | case7 k entry rest p path hpath hskip header hheader p₁ hentry ih =>
    have hsome : entry.read? = some (.of path header entry.pax entry.data) := by
      simp only [LayerEntry.read?, hpath, hheader, if_neg hskip]
    rw [hread, hsome]
    have hfirst := scanEntry_scanned hc (hQ k) hs hentry
    exact hfirst.trans (ih hfirst.sound h)

/-! ## Hard links -/

theorem retryLoop_of_fixed {raws : List (RawEntry × Bool)} (h : retryLinks paths raws = raws)
    (retries : ℕ) : retryLoop paths retries raws = raws := by
  induction retries with
  | zero => rfl
  | succ n ih =>
    rw [retryLoop, h, ih]
    split <;> rfl

theorem resolveLinks_settle
    (hraws : List.Forall₂ (fun e => RawOf Q c s e e.data) es raws) :
    ∀ {paths : List (Str × Digest)} {known : Str → Option Bytes}, Tracks c s paths known →
      (∀ e ∈ es, e.target ≠ none → known e.path ≠ none) →
      List.Forall₂ (fun x => RawOf Q c s x.1 x.2) (settle known es)
        ((resolveLinks paths raws).1.map Prod.fst) ∧
      (∀ path, known path = none → (resolveLinks paths raws).2.lookup path = none) ∧
      ∀ x ∈ (resolveLinks paths raws).1, x.2 = true →
        ∃ target, x.1.hardlinkTarget = some target ∧ known target = none := by
  induction hraws with
  | nil =>
    intro paths known htracks _
    refine ⟨.nil, fun path hpath => ?_, fun x hx => by cases hx⟩
    have hp := htracks path
    rw [hpath] at hp
    generalize ho : paths.lookup path = o at hp
    cases hp
    exact ho
  | @cons e r es raws hr _ ih =>
    intro paths known htracks hown
    have hown' : ∀ e ∈ es, e.target ≠ none → known e.path ≠ none :=
      fun e he => hown e (mem_cons_of_mem _ he)
    obtain ⟨seed, d, hQ, rfl, hd⟩ := hr
    have htarget : (rawEntryOf seed e.path e.header e.pax d).hardlinkTarget = e.target := rfl
    rw [resolveLinks, settle, htarget]
    cases htgt : e.target with
    | none =>
      obtain ⟨hall, hkeys, hdef⟩ := ih htracks hown'
      exact ⟨.cons ⟨seed, d, hQ, rfl, hd⟩ hall, hkeys, fun x hx hx2 => by
        rcases mem_cons.mp hx with rfl | hx
        · cases hx2
        · exact hdef x hx hx2⟩
    | some target =>
      rw [bind_some]
      dsimp only
      have hlook := htracks target
      generalize paths.lookup target = o, hk : known target = k at hlook ⊢
      cases hlook with
      | none =>
        obtain ⟨hall, hkeys, hdef⟩ := ih htracks hown'
        refine ⟨.cons ⟨seed, d, hQ, rfl, hd⟩ hall, hkeys, fun x hx hx2 => ?_⟩
        rcases mem_cons.mp hx with rfl | hx
        · exact ⟨target, htgt, hk⟩
        · exact hdef x hx hx2
      | @some d' data hd' =>
        have hbare : e.isBare = false := ReadEntry.isBare_of_target (by simp [htgt])
        -- The path of a link is known already, so that no path becomes known.
        have hold : ∀ path, known path = none ↔ update known e.path (some data) path = none := by
          intro path
          rw [update_apply]
          split
          · rename_i hpath
            simp [hpath, hown e mem_cons_self (by simp [htgt])]
          · rfl
        obtain ⟨hall, hkeys, hdef⟩ := ih (htracks.insertKey e.path hd') (fun e' he' ht hn =>
          hown' e' he' ht ((hold _).mpr hn))
        refine ⟨.cons ⟨seed, d', hQ, by rw [← htgt]; rfl, by simpa [hbare] using hd'⟩ hall,
          fun path hpath => hkeys path ((hold path).mp hpath), fun x hx hx2 => ?_⟩
        rcases mem_cons.mp hx with rfl | hx
        · cases hx2
        · obtain ⟨t, ht, hnone⟩ := hdef x hx hx2
          exact ⟨t, ht, (hold t).mpr hnone⟩

theorem resolvedEntries_settle
    (hraws : List.Forall₂ (fun e => RawOf Q c s e e.data) es p.rawEntries)
    (htracks : Tracks c s p.pathToDigest (record (fun _ => none) es)) :
    List.Forall₂ (fun x => RawOf Q c s x.1 x.2) (settle (record (fun _ => none) es) es)
      (resolvedEntries p) := by
  obtain ⟨hall, hkeys, hdeferred⟩ := resolveLinks_settle hraws htracks fun e he htarget =>
    record_ne_none he (ReadEntry.isBare_of_target htarget)
  unfold resolvedEntries
  generalize resolveLinks p.pathToDigest p.rawEntries = out at hall hkeys hdeferred ⊢
  obtain ⟨raws, paths⟩ := out
  have hfixed : retryLinks paths raws = raws := by
    unfold retryLinks
    refine (map_congr_left fun x hx => ?_).trans (map_id _)
    obtain ⟨r, _ | _⟩ := x
    · rfl
    · obtain ⟨target, htarget, hnone⟩ := hdeferred _ hx rfl
      simp only at htarget
      simp [htarget, hkeys target hnone]
  dsimp only
  rw [retryLoop_of_fixed hfixed]
  exact hall

/-! ## Entries -/

structure EntryFor (Q : Seed → Prop) (c : Codec) (s : MmapStore) (x : ReadEntry × Bytes)
    (e : Str × DirectoryEntry) : Prop where
  parent : e.1 = (splitPath x.1.path).1
  entry : ∃ seed, Q seed ∧
    e.2 = (rawEntryOf seed x.1.path x.1.header x.1.pax e.2.digest).entry e.2.digest
  stored : s.Holds c e.2.digest (.blob x.2)

theorem finishEntries_cons_ok {raw : RawEntry} {rest : List RawEntry}
    (h : finishEntries c (raw :: rest) s = (.ok entries, s')) :
    ∃ d s1 es, (raw.blobDigest = zeroDigest ∧ s.putBlocking c (.blob []) = (.ok d, s1) ∨
        raw.blobDigest ≠ zeroDigest ∧ d = raw.blobDigest ∧ s1 = s) ∧
      finishEntries c rest s1 = (.ok es, s') ∧ entries = (raw.parent, raw.entry d) :: es := by
  rw [finishEntries] at h
  split at h
  · rename_i hzero
    split at h
    · cases h
    · rename_i d s1 hput
      split at h <;> cases h
      exact ⟨d, s1, _, .inl ⟨hzero, hput⟩, ‹_›, rfl⟩
  · rename_i hzero
    split at h <;> cases h
    exact ⟨_, s, _, .inr ⟨hzero, rfl, rfl⟩, ‹_›, rfl⟩

theorem finishEntries_for (hc : c.Lawful) {xs : List (ReadEntry × Bytes)}
    (hraws : List.Forall₂ (fun x => RawOf Q c s x.1 x.2) xs raws) (hs : s.Sound c)
    (h : finishEntries c raws s = (.ok entries, s')) :
    s'.Sound c ∧ s.Grown s' ∧ List.Forall₂ (EntryFor Q c s') xs entries := by
  induction raws generalizing xs s entries with
  | nil =>
    cases hraws
    cases h
    exact ⟨hs, .refl _, .nil⟩
  | cons r raws ih =>
    obtain ⟨x, xs, ⟨seed, d0, hQ, rfl, hd0⟩, hrest, rfl⟩ := forall₂_cons_right_iff.mp hraws
    obtain ⟨d, s1, es, hput, hfin, rfl⟩ := finishEntries_cons_ok h
    have hstep : s1.Sound c ∧ s.Grown s1 ∧ s1.Holds c d (.blob x.2) := by
      -- Only what has no data has the sentinel for its digest.
      split at hd0
      · obtain ⟨rfl, hnil⟩ := hd0
        obtain ⟨-, hput⟩ | ⟨hzero, -, -⟩ := hput
        · obtain ⟨hs1, hg1, hd, -⟩ := MmapStore.putBlocking_spec hc hs hput
          exact ⟨hs1, hg1, hnil ▸ hd⟩
        · exact absurd rfl hzero
      · obtain ⟨hzero, -⟩ | ⟨-, rfl, rfl⟩ := hput
        · exact absurd hzero (hd0.ne_zero hc)
        · exact ⟨hs, .refl _, hd0⟩
    obtain ⟨hs1, hg1, hd⟩ := hstep
    obtain ⟨hs2, hg2, hes⟩ := ih (hrest.imp fun _ _ hr => hr.mono hg1) hs1 hfin
    exact ⟨hs2, hg1.trans hg2, .cons ⟨rfl, ⟨seed, hQ, rfl⟩, hd.mono hg2⟩ hes⟩

theorem extractTarEntries_reads (hc : c.Lawful) (hQ : ∀ i, Q (seeds i)) (hs : s.Sound c)
    {x : Extracted} (h : extractTarEntries c seeds archive s = (.ok x, s')) :
    s'.Sound c ∧ s.Grown s' ∧
      x.whiteouts = (archive.read.filter ReadEntry.marks).map ReadEntry.whiteout ∧
      List.Forall₂ (EntryFor Q c s') archive.settled x.entries := by
  revert h
  fun_cases extractTarEntries c seeds archive s with
  | case1 | case2 => rintro ⟨⟩
  | case3 p hscan es s2 hfin =>
    rintro ⟨⟩
    have hp := scan_scanned hc hQ hs hscan
    obtain ⟨raws, hraws, hall⟩ := hp.raws
    rw [nil_append] at hraws
    have hresolved := resolvedEntries_settle (hraws ▸ hall) (hp.paths _ fun _ => .none)
    obtain ⟨hs2, hg2, hes⟩ := finishEntries_for hc hresolved hp.sound hfin
    exact ⟨hs2, hp.grown.trans hg2, by rw [hp.whiteouts]; rfl, hes⟩

end Pullrun
