import Pullrun.Oci.Sample
import Pullrun.Proof.Oci.Hashed

/-!
# Is the digest of an image a function of the image?

A manifest node carries JSON, and so do the trees below it.
-/

namespace Pullrun

open MmapStore Sample List Option Prod Value OciDescriptor

theorem eq_of_forall₂ {α β : Type} {R S : β → α → Prop} {as : List α} {bs bs' : List β}
    (huniq : ∀ a ∈ as, ∀ b b', R b a → S b' a → b = b') (h : List.Forall₂ R bs as)
    (h' : List.Forall₂ S bs' as) : bs = bs' := by
  induction h generalizing bs' with
  | nil =>
    cases h'
    rfl
  | cons hab _ ih =>
    cases h' with
    | cons hab' hrest =>
      rw [huniq _ mem_cons_self _ _ hab hab',
        ih (fun a ha => huniq a (mem_cons_of_mem _ ha)) hrest]

/-! ## Trees and their digests -/

section

variable {F : Formats} {entries entries' : List (Str × DirectoryEntry)}

theorem IsLayer.tree {P : Digest → DagNode → Prop} {k : ℕ} {q : Str} {d : Digest}
    (h : IsLayer F P entries k q d) :
    ∃ k0 tree, k = k0 + 1 ∧ P d ⟨.layer, [tree], F.text.utf8 q⟩ ∧ IsTree F P entries k0 q tree := by
  cases k with
  | zero => exact h.elim
  | succ k =>
    obtain ⟨tree, hd, htree⟩ := isLayer_succ_iff.mp h
    exact ⟨k, tree, rfl, hd, htree⟩

theorem IsTree.congr {H : Str → Prop}
    (hsub : ∀ q, H q → ∀ e ∈ entriesIn entries q, e.isDir = true → H (subPath q e.name))
    (heq : ∀ q, H q → entriesIn entries q = entriesIn entries' q) :
    ∀ {k k' : ℕ} {q : Str} {t t' : Digest}, H q → IsTree F F.codec.Names entries k q t →
      IsTree F F.codec.Names entries' k' q t' → t = t' := by
  intro k
  induction k using Nat.strong_induction_on with
  | _ k ih =>
    rintro k' q t t' hq ⟨edges, inline, hin, ht, hedges⟩ ⟨edges', inline', hin', ht', hedges'⟩
    rw [← heq q hq] at hin' hedges'
    have hinline : inline = inline' := by
      rw [hin, Except.ok.injEq] at hin'
      exact hin'
    have hedgesEq : edges' = edges := by
      refine eq_of_forall₂ (fun e hmem edge' edge he' he => ?_) hedges' hedges
      by_cases hdir : e.isDir = true
      · rw [if_pos hdir] at he he'
        obtain ⟨k0, tree, rfl, hd, htree⟩ := he.tree
        obtain ⟨k0', tree', rfl, hd', htree'⟩ := he'.tree
        have htrees := ih k0 (Nat.lt_succ_self k0) (hsub q hq e hmem hdir) htree htree'
        rw [htrees] at hd
        exact hd'.digest_eq hd
      · rw [if_neg hdir] at he he'
        rw [he.1, he'.1]
    rw [hedgesEq, ← hinline] at ht'
    exact ht.digest_eq ht'

open DirectoryEntry in
/-- **Lists of entries are read back**, with any names, targets and attribute maps, and reading
    distributes over the concatenation of what is written. -/
theorem entries_read_back {j : SerdeJson} (hj : j.Lawful) {es es' : List DirectoryEntry}
    (hwf : ∀ e ∈ es ++ es', e.Wf) (hser : ∀ e ∈ es ++ es', ∃ b, j.toVec e.toValue = .ok b) :
    ∃ data data', inlineBytes j es = .ok data ∧ inlineBytes j es' = .ok data' ∧
      inlineBytes j (es ++ es') = .ok (data ++ data') ∧ fromInlineBytes j data = es ∧
      fromInlineBytes j (data ++ data') = fromInlineBytes j data ++ fromInlineBytes j data' ∧
      fromInlineBytes j (data ++ data') = es ++ es' := by
  obtain ⟨hwf₁, hwf₂⟩ := forall_mem_append.mp hwf
  obtain ⟨hser₁, hser₂⟩ := forall_mem_append.mp hser
  obtain ⟨data', h', -⟩ := inlineBytes_append hser₂ (show inlineBytes j [] = .ok [] from rfl)
  obtain ⟨data, h, hall⟩ := inlineBytes_append hser₁ h'
  have hread := fromInlineBytes_inlineBytes hj hwf₁ h
  have hboth := fromInlineBytes_inlineBytes hj hwf hall
  refine ⟨data, data', h, h', hall, hread, ?_, hboth⟩
  rw [hboth, hread, fromInlineBytes_inlineBytes hj hwf₂ h']

open DirectoryEntry in
theorem entries_read_back_link : ∃ data data',
    inlineBytes formats.json [fEntry, dEntry] = .ok data ∧ inlineBytes formats.json [pEntry] = .ok data' ∧
      fromInlineBytes formats.json (data ++ data') = [fEntry, dEntry, pEntry] := by
  have hser : ∀ e ∈ [fEntry, dEntry] ++ [pEntry], (e.xattrs.map fst).Nodup ∧
      formats.json.toVec e.toValue = .ok e.toValue.text := by decide +kernel
  obtain ⟨data, data', h, h', -, -, -, hread⟩ := entries_read_back formats_json
    (fun e he => (hser e he).1) fun e he => ⟨_, (hser e he).2⟩
  exact ⟨data, data', h, h', hread⟩

theorem IsTree.step_eq (hc : F.codec.Lawful) (hj : F.json.Lawful) (hwf : ∀ e ∈ entries, e.2.Wf)
    (hwf' : ∀ e ∈ entries', e.2.Wf) {k k' : ℕ} {q : Str} {t : Digest}
    (h : IsTree F F.codec.Names entries k q t) (h' : IsTree F F.codec.Names entries' k' q t) :
    entriesIn entries q = entriesIn entries' q ∧
      ∀ e ∈ entriesIn entries q, e.isDir = true → ∃ k0 k0' tree,
        IsTree F F.codec.Names entries k0 (subPath q e.name) tree ∧
        IsTree F F.codec.Names entries' k0' (subPath q e.name) tree := by
  obtain ⟨edges, inline, hin, ht, hedges⟩ := h
  obtain ⟨edges', inline', hin', ht', hedges'⟩ := h'
  have hnode := ht.node_eq hc ht'
  injection hnode with _ hedgesEq hinline
  subst hedgesEq hinline
  -- What is written can be told apart.
  have hes : entriesIn entries q = entriesIn entries' q := by
    rw [← DirectoryEntry.fromInlineBytes_inlineBytes hj (entriesIn_wf hwf q) hin,
      ← DirectoryEntry.fromInlineBytes_inlineBytes hj (entriesIn_wf hwf' q) hin']
  refine ⟨hes, fun e he hdir => ?_⟩
  rw [← hes] at hedges'
  -- The two edges for a subdirectory are one, since the edges are those of one node.
  have hboth := Forall₂.mp (fun _ _ hl hl' => And.intro hl hl') hedges hedges'
  obtain ⟨edge, -, hl, hl'⟩ := forall₂_mem_right hboth he
  rw [if_pos hdir] at hl hl'
  obtain ⟨k0, tree, -, hd, htree⟩ := hl.tree
  obtain ⟨k0', tree', -, hd', htree'⟩ := hl'.tree
  have hlayer := hd.node_eq hc hd'
  injection hlayer with _ htrees _
  rw [cons.injEq] at htrees
  exact ⟨k0, k0', tree, htree, htrees.1 ▸ htree'⟩

end

/-! ## Members that the trees list -/

/-- The directories that `store_trees` comes to. -/
inductive Reached (ms : List Member) : Str → Prop
  | root : Reached ms []
  | sub {path : Str} {m : Member} : Reached ms path → m ∈ ms → m.parent = path → m.isDir = true →
      Reached ms (subPath path m.name)

variable {entries entries' : List (Str × DirectoryEntry)} {Q : Seed → Prop} {image : PulledImage}
  {archive : Archive} {ms : List Member} {m : Member}

theorem entriesIn_eq_iff (h : List.Forall₂ (fun e e' => e.1 = e'.1) entries entries') (q : Str) :
    entriesIn entries q = entriesIn entries' q ↔
      List.Forall₂ (fun e e' => e.1 = q → e.2 = e'.2) entries entries' := by
  induction h with
  | nil => exact ⟨fun _ => .nil, fun _ => rfl⟩
  | @cons e e' entries entries' hdir _ ih =>
    rw [forall₂_cons]
    unfold entriesIn at ih ⊢
    by_cases hq : e.1 = q
    · have hq' : e'.1 = q := hdir ▸ hq
      simp only [filter_cons, hq, hq', decide_true, if_true, map_cons, cons.injEq, ih,
        true_imp_iff]
    · have hq' : ¬ e'.1 = q := hdir ▸ hq
      simp only [filter_cons, hq, hq', decide_false, Bool.false_eq_true, if_false, ih,
        false_imp_iff, true_and]

theorem exists_member (h : List.Forall₂ (MemberEntry Q) ms entries) {q : Str}
    {e : DirectoryEntry} (he : e ∈ entriesIn entries q) : ∃ m ∈ ms, MemberEntry Q m (q, e) := by
  obtain ⟨item, hitem, rfl⟩ := mem_map.mp he
  obtain ⟨hmem, hq⟩ := mem_filter.mp hitem
  obtain ⟨m, hm, hentry⟩ := forall₂_mem_right h hmem
  have hpath : item.1 = q := by simpa using hq
  exact ⟨m, hm, hpath ▸ hentry⟩

theorem exists_entry (h : List.Forall₂ (MemberEntry Q) ms entries)
    (hm : m ∈ ms) : ∃ e ∈ entriesIn entries m.parent, MemberEntry Q m (m.parent, e) := by
  obtain ⟨item, hitem, hentry⟩ := forall₂_mem_left h hm
  refine ⟨item.2, mem_map.mpr ⟨item, mem_filter.mpr ⟨hitem, ?_⟩, rfl⟩, ?_⟩
  · simpa using hentry.parent
  · exact hentry.parent ▸ hentry

theorem members_nodup (h : m ∈ archive.members) : (m.xattrs.map fst).Nodup := by
  obtain ⟨r, -, hr⟩ := mem_filterMap.mp h
  cases r with
  | error why => cases hr
  | ok entry =>
    change entry.member? = some m at hr
    revert hr
    fun_cases LayerEntry.member? entry with
    | case1 | case2 | case4 => rintro ⟨⟩
    | case3 =>
      rintro ⟨⟩
      exact mapOf_nodup _

theorem members_wf (h : List.Forall₂ (MemberEntry Q) archive.members entries) :
    ∀ e ∈ entries, e.2.Wf := by
  intro e he
  obtain ⟨m, hm, hentry⟩ := forall₂_mem_right h he
  obtain ⟨seed, -, hattrs⟩ := hentry.xattrs
  rw [DirectoryEntry.Wf, hattrs]
  exact ((iterate_perm seed _).map fst).nodup_iff.mpr (members_nodup hm)

theorem sameDirs_of_bare (h : entries.map bareEntry = entries'.map bareEntry) :
    List.Forall₂ (fun e e' => e.1 = e'.1) entries entries' := by
  have hall : Forall₂ (· = ·) (entries.map bareEntry) (entries'.map bareEntry) :=
    forall₂_eq_eq_eq ▸ h
  rw [forall₂_map_left_iff, forall₂_map_right_iff] at hall
  exact hall.imp fun e e' he => congrArg fst he

/-! ## Layers -/

/-- `d` is the digest that `convert_layer` gives an archive, with seeds that `Q` allows. -/
def LayerOf (F : Formats) (Q : Seed → Prop) (archive : Archive) (d : Digest) : Prop :=
  ∃ seeds s t x k tree ws, (∀ i, Q (seeds i)) ∧ s.Sound F.codec ∧
    extractTarEntries F.codec seeds archive s = (.ok x, t) ∧
    IsTree F F.codec.Names x.entries k [] tree ∧
    List.Forall₂ (fun w wh => F.codec.Names w (wh.node F.text)) ws x.whiteouts ∧
    F.codec.Names d ⟨.layer, tree :: ws, F.text.utf8 []⟩

section

variable {F : Formats} {Q Q' : Seed → Prop} {archive : Archive} {d : Digest}

theorem convertLayer_layerOf (hc : F.codec.Lawful) {seeds : ℕ → Seed} (hQ : ∀ i, Q (seeds i))
    {fuel : ℕ} {s s' : MmapStore} (hs : s.Sound F.codec)
    (h : convertLayer F seeds fuel archive s = some (.ok d, s')) :
    s'.Sound F.codec ∧ LayerOf F Q archive d := by
  obtain ⟨x, s1, ws, s2, layer, s3, hx, hw, ht, hadd⟩ := convertLayer_ok h
  obtain ⟨hs1, -, -, hfiles⟩ := extractTarEntries_members hc hQ hs hx
  obtain ⟨hs2, hg2, hws⟩ := storeWhiteouts_spec hc hs1 hw
  obtain ⟨hs3, -, hlayer⟩ := storeTrees_isLayer hc hs2 (hfiles.mono hg2) ht
  obtain ⟨k, tree, -, hl, htree⟩ := hlayer.tree
  obtain ⟨hs4, -, hd⟩ := addWhiteouts_spec hc hs3 hl hadd
  exact ⟨hs4, seeds, s, s1, x, k, tree, ws, hQ, hs, hx, htree.mono fun _ _ hn => hn.names,
    hws.imp fun _ _ hn => hn.names, hd.names⟩

theorem LayerOf.congr (hc : F.codec.Lawful) {d' : Digest} (h : LayerOf F Q archive d)
    (h' : LayerOf F Q' archive d')
    (hkeys : ∀ m ∈ archive.members, Reached archive.members m.parent → OneKey m.xattrs) : d = d' := by
  obtain ⟨seeds, s, t, x, k, tree, ws, hQ, hs, hx, htree, hws, hd⟩ := h
  obtain ⟨seeds', s', t', x', k', tree', ws', hQ', hs', hx', htree', hws', hd'⟩ := h'
  obtain ⟨hwh, hbare⟩ := extractTarEntries_twin hc hs hs' hx hx'
  obtain ⟨-, -, hms, -⟩ := extractTarEntries_members hc hQ hs hx
  obtain ⟨-, -, hms', -⟩ := extractTarEntries_members hc hQ' hs' hx'
  have hsub : ∀ q, Reached archive.members q → ∀ e ∈ entriesIn x.entries q, e.isDir = true →
      Reached archive.members (subPath q e.name) := by
    intro q hq e he hdir
    obtain ⟨m, hm, hentry⟩ := exists_member hms he
    have hname : e.name = m.name := hentry.name
    rw [hname]
    exact .sub hq hm hentry.parent.symm (hentry.isDir ▸ hdir)
  have heq : ∀ q, Reached archive.members q → entriesIn x.entries q = entriesIn x'.entries q := by
    intro q hq
    refine (entriesIn_eq_iff (sameDirs_of_bare hbare) q).mpr ?_
    have hboth : Forall₂ (fun e e' => ∃ m ∈ archive.members,
        MemberEntry Q m e ∧ MemberEntry Q' m e') x.entries x'.entries := by
      have hmem : Forall₂ (fun m e' => m ∈ archive.members ∧ MemberEntry Q' m e')
          archive.members x'.entries := (forall₂_and_left _ _).mpr ⟨fun m hm => hm, hms'⟩
      refine forall₂_comp (fun e m e' he he' => ?_) hms.flip hmem
      exact ⟨m, he'.1, he, he'.2⟩
    have hsame : Forall₂ (fun e e' => bareEntry e = bareEntry e') x.entries x'.entries := by
      rw [← forall₂_map_right_iff, ← forall₂_map_left_iff, forall₂_eq_eq_eq]
      exact hbare
    refine Forall₂.mp (fun e e' hm he hq' => ?_) hboth hsame
    obtain ⟨m, hm, hentry, hentry'⟩ := hm
    obtain ⟨seed, -, hattrs⟩ := hentry.xattrs
    obtain ⟨seed', -, hattrs'⟩ := hentry'.xattrs
    have hone := hkeys m hm (by rw [← hentry.parent, hq']; exact hq)
    rw [iterate_of_oneKey _ hone] at hattrs hattrs'
    have hfields := congrArg snd he
    obtain ⟨p, e⟩ := e
    obtain ⟨p', e'⟩ := e'
    cases e
    cases e'
    simp only [bareEntry, DirectoryEntry.mk.injEq] at hfields hattrs hattrs' ⊢
    simp [hfields, hattrs, hattrs']
  have htrees : tree = tree' := IsTree.congr hsub heq .root htree htree'
  have hwss : ws = ws' := by
    rw [← hwh] at hws'
    exact eq_of_forall₂ (fun _ _ _ _ ha hb => ha.digest_eq hb) hws hws'
  rw [htrees, hwss] at hd
  exact hd.digest_eq hd'

theorem LayerOf.iterate_eq (hc : F.codec.Lawful) (hj : F.json.Lawful) {σ σ' : Seed}
    (h : LayerOf F (· = σ) archive d) (h' : LayerOf F (· = σ') archive d)
    (hm : m ∈ archive.members) (hreach : Reached archive.members m.parent) :
    iterate σ m.xattrs = iterate σ' m.xattrs := by
  obtain ⟨seeds, s, t, x, k, tree, ws, hQ, hs, hx, htree, -, hd⟩ := h
  obtain ⟨seeds', s', t', x', k', tree', ws', hQ', hs', hx', htree', -, hd'⟩ := h'
  obtain ⟨-, hbare⟩ := extractTarEntries_twin hc hs hs' hx hx'
  obtain ⟨-, -, hms, -⟩ := extractTarEntries_members (Q := (· = σ)) hc hQ hs hx
  obtain ⟨-, -, hms', -⟩ := extractTarEntries_members (Q := (· = σ')) hc hQ' hs' hx'
  have hwf := members_wf hms
  have hwf' := members_wf hms'
  have htrees : tree = tree' := by
    have hnode := hd.node_eq hc hd'
    injection hnode with _ hedges _
    exact (cons.inj hedges).1
  subst htrees
  have hall : ∀ q, Reached archive.members q → ∃ k k' t, IsTree F F.codec.Names x.entries k q t ∧
      IsTree F F.codec.Names x'.entries k' q t := by
    intro q hq
    induction hq with
    | root => exact ⟨k, k', tree, htree, htree'⟩
    | @sub path m _ hm hparent hdir ih =>
      obtain ⟨k1, k1', t1, h1, h1'⟩ := ih
      obtain ⟨e, he, hentry⟩ := exists_entry hms hm
      rw [hparent] at he
      have hname : e.name = m.name := hentry.name
      rw [← hname]
      exact (IsTree.step_eq hc hj hwf hwf' h1 h1').2 e he (hentry.isDir.trans hdir)
  obtain ⟨k1, k1', t1, h1, h1'⟩ := hall m.parent hreach
  have heq := (IsTree.step_eq hc hj hwf hwf' h1 h1').1
  rw [entriesIn_eq_iff (sameDirs_of_bare hbare)] at heq
  have hmatch : Forall₂ (fun m1 e' => m1.parent = m.parent →
      iterate σ m1.xattrs = iterate σ' m1.xattrs) archive.members x'.entries := by
    have hleft : Forall₂ (fun m1 e' => ∃ e, MemberEntry (· = σ) m1 e ∧
        (e.1 = m.parent → e.2 = e'.2)) archive.members x'.entries :=
      forall₂_comp (fun m1 e e' he hee => ⟨e, he, hee⟩) hms heq
    refine Forall₂.mp (fun m1 e' hl he' hparent => ?_) hleft hms'
    obtain ⟨e, he, hee⟩ := hl
    obtain ⟨seed, rfl, hattrs⟩ := he.xattrs
    obtain ⟨seed', rfl, hattrs'⟩ := he'.xattrs
    rw [← hattrs, ← hattrs', hee (he.parent.trans hparent)]
  obtain ⟨e', -, hmatch⟩ := forall₂_mem_left hmatch hm
  exact hmatch rfl

end

/-! ## The manifest -/

theorem ManifestData.get_maps (seeds : ManifestSeeds) (m : ManifestData) :
    (m.toValue seeds).get? "exposed_ports".toList = m.exposedPorts.map ofStrs ∧
      (m.toValue seeds).get? "volumes".toList = m.volumes.map ofStrs ∧
      (m.toValue seeds).get? "annotations".toList
        = m.annotations.map (fun a => .ofMap .str (iterate seeds.annotations a)) ∧
      (m.toValue seeds).get? "subject".toList
        = m.subject.map (OciDescriptor.toValue seeds.subject) := by
  refine ⟨?_, ?_, ?_, ?_⟩ <;>
    simp [ManifestData.toValue, get?, lookup_append, lookup_skipNone,
      lookup_cons]

theorem OciDescriptor.get_annotations (seed : Seed) (d : OciDescriptor) :
    (d.toValue seed).get? "annotations".toList
      = d.annotations.map (fun m => .ofMap .str (iterate seed m)) := by
  simp [toValue, get?, lookup_append, lookup_skipNone,
    lookup_cons]

structure PulledImage.OneOrder (image : PulledImage) : Prop where
  exposedPorts : ∀ config ∈ image.config.config, ∀ m ∈ config.exposedPorts, OneKey m
  volumes : ∀ config ∈ image.config.config, ∀ m ∈ config.volumes, OneKey m
  annotations : ∀ m ∈ image.annotations, OneKey m
  subject : ∀ descriptor ∈ image.subject, ∀ m ∈ descriptor.annotations, OneKey m
  xattrs : ∀ archive ∈ image.layers, ∀ m ∈ Archive.members archive,
    Reached (Archive.members archive) m.parent → OneKey m.xattrs

def manifestValue (seeds : ImageSeeds) (image : PulledImage) : Value :=
  (manifestData seeds image).toValue seeds.manifest

section

variable {α V : Type} {o : Option α} {g : α → Option (List (Str × V))} {σ σ' : Seed}

theorem keys_eq_of_oneKey (h : ∀ a ∈ o, ∀ m ∈ g a, OneKey m) (σ σ' : Seed) :
    ((o.bind g).map fun m => (iterate σ m).map fst)
      = (o.bind g).map fun m => (iterate σ' m).map fst := by
  refine map_congr fun m hm => ?_
  obtain ⟨a, ha, hm⟩ := bind_eq_some_iff.mp hm
  rw [iterate_of_oneKey _ (h a ha m hm), iterate_of_oneKey _ (h a ha m hm)]

theorem keys_eq_of_ofStrs
    (h : ((o.bind g).map fun m => (iterate σ m).map fst).map ofStrs
      = ((o.bind g).map fun m => (iterate σ' m).map fst).map ofStrs) :
    ∀ a ∈ o, ∀ m ∈ g a, (iterate σ m).map fst = (iterate σ' m).map fst := by
  intro a ha m hm
  rw [bind_eq_some_iff.mpr ⟨a, ha, hm⟩] at h
  exact ofStrs_inj (some.inj h)

theorem iterate_eq_of_ofMap {o : Option (List (Str × Str))}
    (h : (o.map fun m => ofMap .str (iterate σ m)) = o.map fun m => .ofMap .str (iterate σ' m)) :
    ∀ m ∈ o, iterate σ m = iterate σ' m := by
  intro m hm
  rw [mem_def.mp hm] at h
  exact ofMap_inj (fun _ _ => str.inj) (some.inj h)

end

theorem manifestValue_eq_of_oneOrder (h : image.OneOrder)
    (seeds seeds' : ImageSeeds) : manifestValue seeds image = manifestValue seeds' image := by
  have hports : (manifestData seeds image).exposedPorts = (manifestData seeds' image).exposedPorts :=
    keys_eq_of_oneKey h.exposedPorts _ _
  have hvolumes : (manifestData seeds image).volumes = (manifestData seeds' image).volumes :=
    keys_eq_of_oneKey h.volumes _ _
  have hdata : manifestData seeds image = manifestData seeds' image := by
    unfold manifestData at hports hvolumes ⊢
    simp only at hports hvolumes
    rw [hports, hvolumes]
  have hsubject : ∀ σ σ' : Seed, skipNone "subject".toList (toValue σ) image.subject
      = skipNone "subject".toList (toValue σ') image.subject := by
    intro σ σ'
    cases hd : image.subject with
    | none => rfl
    | some descriptor =>
      have hval : descriptor.toValue σ = descriptor.toValue σ' := by
        unfold toValue
        rw [skipNone_iterate (h.subject descriptor hd) σ σ']
      simp only [skipNone, hval]
  have hann : (manifestData seeds' image).annotations = image.annotations := rfl
  have hsub : (manifestData seeds' image).subject = image.subject := rfl
  unfold manifestValue
  rw [hdata]
  unfold ManifestData.toValue
  rw [hann, hsub, skipNone_iterate h.annotations seeds.manifest.annotations
    seeds'.manifest.annotations, hsubject seeds.manifest.subject seeds'.manifest.subject]

/-! ## Images -/

def ImageSeeds.all (σ : Seed) : ImageSeeds := ⟨fun _ _ => σ, σ, σ, ⟨σ, σ⟩⟩

theorem manifestValue_all_inj {σ σ' : Seed}
    (h : manifestValue (.all σ) image = manifestValue (.all σ') image) :
    (∀ config ∈ image.config.config, ∀ m ∈ config.exposedPorts,
        (iterate σ m).map fst = (iterate σ' m).map fst) ∧
      (∀ config ∈ image.config.config, ∀ m ∈ config.volumes,
        (iterate σ m).map fst = (iterate σ' m).map fst) ∧
      (∀ m ∈ image.annotations, iterate σ m = iterate σ' m) ∧
      ∀ descriptor ∈ image.subject, ∀ m ∈ descriptor.annotations, iterate σ m = iterate σ' m := by
  obtain ⟨hports, hvolumes, hann, hsubject⟩ :=
    ManifestData.get_maps (ImageSeeds.all σ).manifest (manifestData (.all σ) image)
  obtain ⟨hports', hvolumes', hann', hsubject'⟩ :=
    ManifestData.get_maps (ImageSeeds.all σ').manifest (manifestData (.all σ') image)
  have hget : ∀ name : Str, (manifestValue (.all σ) image).get? name
      = (manifestValue (.all σ') image).get? name := fun name => by rw [h]
  refine ⟨keys_eq_of_ofStrs (hports.symm.trans ((hget _).trans hports')),
    keys_eq_of_ofStrs (hvolumes.symm.trans ((hget _).trans hvolumes')),
    iterate_eq_of_ofMap (hann.symm.trans ((hget _).trans hann')), fun descriptor hd => ?_⟩
  have hval := hsubject.symm.trans ((hget _).trans hsubject')
  have hd' : image.subject = some descriptor := hd
  simp only [manifestData, hd', map_some, some.injEq] at hval
  have hann := get_annotations (ImageSeeds.all σ).manifest.subject descriptor
  rw [hval, get_annotations] at hann
  exact iterate_eq_of_ofMap hann.symm

section

variable {F : Formats} {image : PulledImage}

/-- The inline data of the manifest node: what does not serialize is left empty. -/
def manifestInline (F : Formats) (seeds : ImageSeeds) (image : PulledImage) : Bytes :=
  match F.json.toVec (manifestValue seeds image) with
  | .ok bytes => bytes
  | .error _ => []

variable {seeds : ImageSeeds} {fuel : ℕ}

theorem convertLayers_layerOf (hc : F.codec.Lawful)
    (hQ : ∀ i j, Q (seeds.xattrs i j)) {archives : List Archive} {k : ℕ} {s s' : MmapStore} {ds}
    (hs : s.Sound F.codec) (h : convertLayers F seeds fuel k archives s = some (.ok ds, s')) :
    s'.Sound F.codec ∧ List.Forall₂ (LayerOf F Q) archives ds := by
  induction archives generalizing k s s' ds with
  | nil =>
    cases h
    exact ⟨hs, .nil⟩
  | cons archive archives ih =>
    obtain ⟨d, s1, rest, hl, hrest, rfl⟩ := convertLayers_cons_ok h
    obtain ⟨hs1, hd⟩ := convertLayer_layerOf hc (hQ k) hs hl
    obtain ⟨hs2, hall⟩ := ih hs1 hrest
    exact ⟨hs2, .cons hd hall⟩

/-- **What `convert` returns**: the digest of a manifest over the digests of its layers. -/
theorem convert_names (hc : F.codec.Lawful) (hQ : ∀ i j, Q (seeds.xattrs i j))
    {s s' : MmapStore} {d : Digest} (hs : s.Sound F.codec)
    (h : convert F seeds fuel image s = some (.ok d, s')) :
    ∃ ds, List.Forall₂ (LayerOf F Q) image.layers ds ∧
      F.codec.Names d ⟨.manifest, ds, manifestInline F seeds image⟩ := by
  obtain ⟨ds, s1, hls, hnode⟩ := convert_ok h
  obtain ⟨hs1, hall⟩ := convertLayers_layerOf hc hQ hs hls
  obtain ⟨-, -, hd⟩ := putNode_spec hc hs1 hnode
  exact ⟨ds, hall, hd.names⟩

theorem convert_of_no_layers {s : MmapStore} (h : image.layers = []) : convert F seeds fuel image s
      = some (putNode F.codec ⟨.manifest, [], manifestInline F seeds image⟩ s) := by
  rw [convert, h]
  rfl

def Converts (F : Formats) (seeds : ImageSeeds) (image : PulledImage) (s : MmapStore) (d : Digest) :
    Prop :=
  ∃ fuel s', convert F seeds fuel image s = some (.ok d, s')

theorem converts_of_map_fst {s : MmapStore} {d : Digest}
    (h : (convert F seeds fuel image s).map fst = some (.ok d)) : Converts F seeds image s d := by
  obtain ⟨r, hr, hfst⟩ := map_eq_some_iff.mp h
  exact ⟨fuel, r.2, by rw [hr, ← hfst]⟩

/-- Any two conversions of the image, into any two stores, return the same digest. -/
def Deterministic (F : Formats) (image : PulledImage) : Prop :=
  ∀ seeds seeds' s s' d d', s.Sound F.codec → s'.Sound F.codec → Converts F seeds image s d →
    Converts F seeds' image s' d' → d = d'

structure Convertible (F : Formats) (image : PulledImage) : Prop where
  converts : ∀ seeds, ∃ d, Converts F seeds image .new d
  serializes : ∀ seeds, ∃ b, F.json.toVec (manifestValue seeds image) = .ok b

theorem deterministic_of_oneOrder (hc : F.codec.Lawful) (h : image.OneOrder) :
    Deterministic F image := by
  rintro seeds seeds' s s' d d' hs hs' ⟨fuel, t, hd⟩ ⟨fuel', t', hd'⟩
  obtain ⟨ds, hds, hm⟩ := convert_names (Q := fun _ => True) hc (fun _ _ => trivial) hs hd
  obtain ⟨ds', hds', hm'⟩ := convert_names (Q := fun _ => True) hc (fun _ _ => trivial) hs' hd'
  have hlayers : ds = ds' := by
    refine eq_of_forall₂ (fun archive ha e e' he he' => ?_) hds.flip hds'.flip
    have he : LayerOf F (fun _ => True) archive e := he
    have he' : LayerOf F (fun _ => True) archive e' := he'
    exact he.congr hc he' (h.xattrs archive ha)
  have hinline : manifestInline F seeds image = manifestInline F seeds' image := by
    rw [manifestInline, manifestInline, manifestValue_eq_of_oneOrder h seeds seeds']
  rw [hlayers, hinline] at hm
  exact hm.digest_eq hm'

theorem oneOrder_of_deterministic (hc : F.codec.Lawful) (hj : F.json.Lawful)
    (himage : Convertible F image) (h : Deterministic F image) : image.OneOrder := by
  have hnew : new.Sound F.codec := sound_openOn_empty _ _ _
  -- The two conversions that visit all maps by `σ`, and by `σ'`.
  have hpair : ∀ σ σ' : Seed, manifestValue (.all σ) image = manifestValue (.all σ') image ∧
      ∀ archive ∈ image.layers, ∀ m ∈ Archive.members archive,
        Reached (Archive.members archive) m.parent → iterate σ m.xattrs = iterate σ' m.xattrs := by
    intro σ σ'
    obtain ⟨d, hd⟩ := himage.converts (.all σ)
    obtain ⟨d', hd'⟩ := himage.converts (.all σ')
    have heq := h _ _ _ _ d d' hnew hnew hd hd'
    subst heq
    obtain ⟨fuel, t, hd⟩ := hd
    obtain ⟨fuel', t', hd'⟩ := hd'
    obtain ⟨ds, hds, hm⟩ := convert_names (Q := (· = σ)) hc (fun _ _ => rfl) hnew hd
    obtain ⟨ds', hds', hm'⟩ := convert_names (Q := (· = σ')) hc (fun _ _ => rfl) hnew hd'
    have hnode := hm.node_eq hc hm'
    injection hnode with _ hlayers hinline
    subst hlayers
    refine ⟨?_, fun archive ha m hmem hreach => ?_⟩
    · obtain ⟨b, hb⟩ := himage.serializes (.all σ)
      obtain ⟨b', hb'⟩ := himage.serializes (.all σ')
      rw [manifestInline, manifestInline, hb, hb'] at hinline
      simp only at hinline
      exact hj.injective hb (hinline ▸ hb')
    · have hboth : Forall₂ (fun archive e => LayerOf F (· = σ) archive e ∧
          LayerOf F (· = σ') archive e) image.layers ds :=
        Forall₂.mp (fun archive e he he' => ⟨he, he'⟩) hds hds'
      obtain ⟨e, -, hl, hl'⟩ := forall₂_mem_left hboth ha
      exact hl.iterate_eq hc hj hl' hmem hreach
  have hmaps := fun σ σ' => manifestValue_all_inj (hpair σ σ').1
  exact
    { exposedPorts := fun config hconfig m hm =>
        oneKey_of_keys_eq fun σ σ' => (hmaps σ σ').1 config hconfig m hm
      volumes := fun config hconfig m hm =>
        oneKey_of_keys_eq fun σ σ' => (hmaps σ σ').2.1 config hconfig m hm
      annotations := fun m hm => oneKey_of_iterate_eq fun σ σ' => (hmaps σ σ').2.2.1 m hm
      subject := fun descriptor hd m hm =>
        oneKey_of_iterate_eq fun σ σ' => (hmaps σ σ').2.2.2 descriptor hd m hm
      xattrs := fun archive ha m hm hreach =>
        oneKey_of_iterate_eq fun σ σ' => (hpair σ σ').2 archive ha m hm hreach }

/-- **The digest of an image is a function of the image exactly if no map in it has two keys.** -/
theorem deterministic_iff_oneOrder (hc : F.codec.Lawful) (hj : F.json.Lawful)
    (himage : Convertible F image) : Deterministic F image ↔ image.OneOrder :=
  ⟨oneOrder_of_deterministic hc hj himage, deterministic_of_oneOrder hc⟩

end

/-! ## Images with ports -/

namespace Sample

def portsImage (ports : List Str) : PulledImage where
  layers := []
  config := {
    architecture := "amd64".toList
    os := "linux".toList
    config := some { exposedPorts := some (ports.map fun port => (port, .obj [])) } }

def http : Str := "80/tcp".toList
def https : Str := "443/tcp".toList

def onePort : PulledImage := portsImage [http]
def twoPorts : PulledImage := portsImage [http, https]

def onePortD : Digest := .ofNat 0x9f1f4e2c6fba8af12cb1e2e542cd7318d1ab8a677705e4959ad0addda6a9b81d
def httpFirstD : Digest := .ofNat 0xe7e6e9015372eaf3d99e0ba0f4aae0873b8d4d8b8da3be3fa87bda1b76a38621
def httpsFirstD : Digest := .ofNat 0x81d6afcbc234556a8768f4637c0703872e520a15f790f59da4eebea52bd3d74f

def portValues : List Value :=
  [manifestValue {} onePort, manifestValue (.all (keyFirst http)) twoPorts,
    manifestValue (.all (keyFirst https)) twoPorts]

def portRows : List (DagNode × Digest) :=
  (portValues.map fun v => ⟨.manifest, [], v.text⟩).zip [onePortD, httpFirstD, httpsFirstD]

def portFormats : Formats := ⟨.ofTable portRows, .ofTable portValues, .ascii⟩

theorem portFormats_codec : portFormats.codec.Lawful :=
  Codec.ofTable_lawful (by decide +kernel) (by decide +kernel) (by decide +kernel)

theorem portFormats_json : portFormats.json.Lawful :=
  SerdeJson.ofTable_lawful (by decide +kernel) (by decide +kernel)

theorem onePort_oneOrder : onePort.OneOrder where
  exposedPorts config hconfig m hm := by
    cases hconfig
    cases hm
    decide
  volumes config hconfig m hm := by
    cases hconfig
    cases hm
  annotations m hm := by cases hm
  subject descriptor hd := by cases hd
  xattrs archive ha := by cases ha

theorem onePort_convertible : Convertible portFormats onePort where
  converts seeds := by
    have hone : convert portFormats seeds 0 onePort .new = convert portFormats {} 0 onePort .new := by
      rw [convert_of_no_layers rfl, convert_of_no_layers rfl, manifestInline, manifestInline,
        manifestValue_eq_of_oneOrder onePort_oneOrder seeds {}]
    have hrun : (convert portFormats {} 0 onePort .new).map fst = some (.ok onePortD) := by
      decide +kernel
    rw [← hone] at hrun
    exact ⟨onePortD, converts_of_map_fst hrun⟩
  serializes seeds := by
    rw [manifestValue_eq_of_oneOrder onePort_oneOrder seeds {}]
    have hrun : portFormats.json.toVec (manifestValue {} onePort) = .ok (manifestValue {} onePort).text := by
      decide +kernel
    exact ⟨_, hrun⟩

end Sample

theorem twoPorts_two_digests :
    Converts Sample.portFormats (.all (keyFirst Sample.http)) Sample.twoPorts .new
        Sample.httpFirstD ∧
      Converts Sample.portFormats (.all (keyFirst Sample.https)) Sample.twoPorts .new
        Sample.httpsFirstD ∧
      Sample.httpFirstD ≠ Sample.httpsFirstD := by
  have hhttp : (convert portFormats (.all (keyFirst http)) 0 twoPorts .new).map
      fst = some (.ok httpFirstD) := by decide +kernel
  have hhttps : (convert portFormats (.all (keyFirst https)) 0 twoPorts .new).map
      fst = some (.ok httpsFirstD) := by decide +kernel
  exact ⟨converts_of_map_fst hhttp, converts_of_map_fst hhttps, by decide +kernel⟩

theorem deterministic_onePort :
    Sample.onePort.OneOrder ∧ Deterministic Sample.portFormats Sample.onePort :=
  ⟨onePort_oneOrder, (deterministic_iff_oneOrder portFormats_codec
    portFormats_json onePort_convertible).mpr onePort_oneOrder⟩

end Pullrun
