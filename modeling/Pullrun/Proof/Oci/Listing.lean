import Pullrun.Proof.Oci.Stored

/-!
# A converted layer, as a list

The nodes of a converted layer are a tree, but every walker of the runtime visits them in the same
order: the entries of a directory in archive order, and then, directory by directory, what is in
them.
-/

namespace Pullrun

open FileTree OciMaterializer List Prod

/-! ## Loops -/

namespace OciMaterializer

variable {κ β : Type} {body : β → Fs κ Attr → Option (Outcome κ)}

theorem forEach_append (as bs : List β) (fs : Fs κ Attr) :
    forEach body (as ++ bs) fs =
      match forEach body as fs with
      | none => none
      | some (.error e, fs) => some (.error e, fs)
      | some (.ok (), fs) => forEach body bs fs := by
  induction as generalizing fs with
  | nil => rfl
  | cons a as ih =>
    rw [cons_append, forEach, forEach]
    rcases body a fs with _ | ⟨_ | _, fs'⟩
    · rfl
    · rfl
    · exact ih fs'

theorem forEach_map {γ : Type} (f : γ → β) (l : List γ) (fs : Fs κ Attr) :
    forEach body (l.map f) fs = forEach (fun c => body (f c)) l fs := by
  induction l generalizing fs with
  | nil => rfl
  | cons c l ih =>
    rw [map_cons, forEach, forEach]
    rcases body (f c) fs with _ | ⟨_ | _, fs'⟩
    · rfl
    · rfl
    · exact ih fs'

theorem forEach_flatMap {γ : Type} {R : γ → β → Prop} {body' : γ → Fs κ Attr → Option (Outcome κ)}
    {δ : Type} {step : δ → Fs κ Attr → Option (Outcome κ)} {f : β → List δ} {cs : List γ}
    {bs : List β} (hR : List.Forall₂ R cs bs)
    (hbody : ∀ c b, R c b → ∀ fs, body' c fs = forEach step (f b) fs) (fs : Fs κ Attr) :
    forEach body' cs fs = forEach step (bs.flatMap f) fs := by
  induction hR generalizing fs with
  | nil => rfl
  | @cons c b cs bs hcb _ ih =>
    rw [flatMap_cons, forEach_append, forEach, hbody c b hcb]
    rcases forEach step (f b) fs with _ | ⟨_ | _, fs'⟩
    · rfl
    · rfl
    · exact ih fs'

end OciMaterializer

/-! ## The listing and the nodes that spell it out -/

theorem forall₂_mem_left {α β : Type} {R : α → β → Prop} {as : List α} {bs : List β}
    (h : List.Forall₂ R as bs) {a : α} (ha : a ∈ as) : ∃ b ∈ bs, R a b := by
  induction h with
  | nil => cases ha
  | @cons a' b as bs hab _ ih =>
    rcases mem_cons.mp ha with rfl | ha
    · exact ⟨b, mem_cons_self, hab⟩
    · obtain ⟨b', hb', hr⟩ := ih ha
      exact ⟨b', mem_cons_of_mem _ hb', hr⟩

theorem forall₂_mem_right {α β : Type} {R : α → β → Prop} {as : List α} {bs : List β}
    (h : List.Forall₂ R as bs) {b : β} (hb : b ∈ bs) : ∃ a ∈ as, R a b :=
  forall₂_mem_left (List.Forall₂.flip h) hb

theorem find?_of_mem {α : Type} {p : α → Bool} {as : List α} {a : α} (ha : a ∈ as) (hp : p a = true)
    (h : ∀ b ∈ as, p b = true → b = a) : as.find? p = some a := by
  cases hf : as.find? p with
  | none => exact absurd hp (find?_eq_none.mp hf a ha)
  | some b => rw [h b (mem_of_find?_eq_some hf) (find?_some hf)]

theorem forall₂_comp {α β γ : Type} {R : α → β → Prop} {S : β → γ → Prop} {T : α → γ → Prop}
    (hcomp : ∀ a b c, R a b → S b c → T a c) {as : List α} {bs : List β} {cs : List γ}
    (h : List.Forall₂ R as bs) (h' : List.Forall₂ S bs cs) : List.Forall₂ T as cs := by
  induction h generalizing cs with
  | nil =>
    cases h'
    exact .nil
  | cons hab _ ih =>
    cases h' with
    | cons hbc hrest => exact .cons (hcomp _ _ _ hab hbc) (ih hrest)

/-- The entries of a layer in visiting order, each with the path of its directory. -/
def listing (entries : List (Str × DirectoryEntry)) : ℕ → Str → List (Str × DirectoryEntry)
  | 0, _ => []
  | depth + 1, path =>
    ((entriesIn entries path).map fun e => (path, e)) ++
      (entriesIn entries path).flatMap fun e =>
        if e.isDir then listing entries depth (subPath path e.name) else []

/-- Under `d` there is a layer node for the directory `path`, with its tree and everything below,
    `depth` directories deep. -/
def IsLayer (F : Formats) (P : Digest → DagNode → Prop) (entries : List (Str × DirectoryEntry)) :
    ℕ → Str → Digest → Prop
  | 0, _, _ => False
  | depth + 1, path, d =>
    ∃ tree edges inline, P d ⟨.layer, [tree], F.text.utf8 path⟩ ∧
      DirectoryEntry.inlineBytes F.json (entriesIn entries path) = .ok inline ∧
      P tree ⟨.tree, edges, inline⟩ ∧
      List.Forall₂ (fun edge e =>
        if e.isDir = true then IsLayer F P entries depth (subPath path e.name) edge
        else edge = e.digest ∧ ∃ data, P edge (.blob data)) edges (entriesIn entries path)

/-- Under `tree` there is the tree node of the directory `path`, and everything below. -/
def IsTree (F : Formats) (P : Digest → DagNode → Prop) (entries : List (Str × DirectoryEntry))
    (depth : ℕ) (path : Str) (tree : Digest) : Prop :=
  ∃ edges inline, DirectoryEntry.inlineBytes F.json (entriesIn entries path) = .ok inline ∧
    P tree ⟨.tree, edges, inline⟩ ∧
    List.Forall₂ (fun edge e =>
      if e.isDir = true then IsLayer F P entries depth (subPath path e.name) edge
      else edge = e.digest ∧ ∃ data, P edge (.blob data)) edges (entriesIn entries path)

variable {entries : List (Str × DirectoryEntry)} {F : Formats}

theorem isLayer_succ_iff {P : Digest → DagNode → Prop} {depth : ℕ} {path : Str} {d : Digest} :
    IsLayer F P entries (depth + 1) path d ↔
      ∃ tree, P d ⟨.layer, [tree], F.text.utf8 path⟩ ∧ IsTree F P entries depth path tree := by
  constructor
  · rintro ⟨tree, edges, inline, hd, hin, ht, hedges⟩
    exact ⟨tree, hd, edges, inline, hin, ht, hedges⟩
  · rintro ⟨tree, hd, edges, inline, hin, ht, hedges⟩
    exact ⟨tree, edges, inline, hd, hin, ht, hedges⟩

theorem edge_mono {P Q : Digest → DagNode → Prop} (hPQ : ∀ d n, P d n → Q d n) {A B : Prop}
    (hAB : A → B) {e : DirectoryEntry} {edge : Digest}
    (h : if e.isDir = true then A else edge = e.digest ∧ ∃ data, P edge (.blob data)) :
    if e.isDir = true then B else edge = e.digest ∧ ∃ data, Q edge (.blob data) := by
  split
  · rename_i hdir
    rw [if_pos hdir] at h
    exact hAB h
  · rename_i hdir
    rw [if_neg hdir] at h
    obtain ⟨heq, data, hdata⟩ := h
    exact ⟨heq, data, hPQ _ _ hdata⟩

theorem IsLayer.mono {P Q : Digest → DagNode → Prop} (hPQ : ∀ d n, P d n → Q d n) {depth : ℕ}
    {path : Str} {d : Digest} (h : IsLayer F P entries depth path d) :
    IsLayer F Q entries depth path d := by
  induction depth generalizing path d with
  | zero => exact h.elim
  | succ depth ih =>
    obtain ⟨tree, edges, inline, hd, hin, ht, hedges⟩ := h
    refine ⟨tree, edges, inline, hPQ _ _ hd, hin, hPQ _ _ ht, hedges.imp fun edge e he => ?_⟩
    exact edge_mono hPQ ih he

/-! ## Materializing a listing -/

def materializeListed {κ : Type} (v : StoreView κ) (rootfs : Loc) (item : Str × DirectoryEntry)
    (fs : Fs κ Attr) : Option (Outcome κ) :=
  some (materializeEntry v rootfs item.1 item.2 fs)

section

variable {κ : Type} {F : Formats} {v : StoreView κ} {rootfs : Loc}
  {entries : List (Str × DirectoryEntry)} {fuel depth : ℕ} {tree d : Digest} {path : Str}

theorem StoreView.has_of_ok {n : DagNode} (h : v.getArchived d = .ok n) : v.has d = true := by
  rw [StoreView.has, h]

theorem entriesIn_wf (hwf : ∀ e ∈ entries, e.2.Wf) (path : Str) :
    ∀ e ∈ entriesIn entries path, e.Wf := by
  intro e he
  obtain ⟨item, hitem, rfl⟩ := mem_map.mp he
  exact hwf item (mem_filter.mp hitem).1

theorem materializeTree_tree (hj : F.json.Lawful) (hwf : ∀ e ∈ entries, e.2.Wf)
    (hlayers : ∀ path d, IsLayer F (fun d n => v.getArchived d = .ok n) entries depth path d →
      ∀ fuel, 2 * depth + 1 ≤ fuel → ∀ base (fs : Fs κ Attr),
        materializeTree F.json F.text v rootfs fuel d base fs =
          forEach (materializeListed v rootfs) (listing entries depth path) fs)
    (h : IsTree F (fun d n => v.getArchived d = .ok n) entries depth path tree)
    (hfuel : 2 * depth + 2 ≤ fuel) (fs : Fs κ Attr) :
    materializeTree F.json F.text v rootfs fuel tree path fs =
      forEach (materializeListed v rootfs) (listing entries (depth + 1) path) fs := by
  obtain ⟨edges, inline, hin, ht, hedges⟩ := h
  obtain ⟨fuel, rfl⟩ : ∃ k, fuel = k + 1 := ⟨fuel - 1, by omega⟩
  have hread : DirectoryEntry.fromInlineBytes F.json inline = entriesIn entries path :=
    DirectoryEntry.fromInlineBytes_inlineBytes hj (entriesIn_wf hwf path) hin
  -- An edge adds the listing of a subdirectory, or nothing.
  have hsub : ∀ fs, forEach (fun child fs =>
        if v.has child then materializeTree F.json F.text v rootfs fuel child path fs
        else some (.ok (), fs)) edges fs =
      forEach (materializeListed v rootfs) ((entriesIn entries path).flatMap fun e =>
        if e.isDir then listing entries depth (subPath path e.name) else []) fs := by
    refine forEach_flatMap hedges fun edge e he fs => ?_
    split at he
    · rename_i hdir
      have hhas : v.has edge = true := by
        cases depth with
        | zero => exact he.elim
        | succ depth =>
          obtain ⟨_, hedge, -⟩ := isLayer_succ_iff.mp he
          exact StoreView.has_of_ok hedge
      rw [if_pos hhas, if_pos hdir]
      exact hlayers _ _ he fuel (by omega) path fs
    · rename_i hdir
      obtain ⟨rfl, data, hdata⟩ := he
      obtain ⟨k, rfl⟩ : ∃ k, fuel = k + 1 := ⟨fuel - 1, by omega⟩
      rw [if_pos (StoreView.has_of_ok hdata), if_neg hdir, materializeTree, hdata]
      rfl
  have hbody : (fun e fs => some (materializeEntry v rootfs path e fs)) =
      fun e => materializeListed v rootfs (path, e) := rfl
  rw [materializeTree, ht]
  simp only [hread, hbody]
  rw [listing, forEach_append, forEach_map]
  rcases forEach (fun e => materializeListed v rootfs (path, e)) (entriesIn entries path) fs with
    _ | ⟨_ | _, fs'⟩
  · rfl
  · rfl
  · exact hsub fs'

theorem materializeTree_layer (hj : F.json.Lawful) (hx : F.text.Lawful)
    (hwf : ∀ e ∈ entries, e.2.Wf) (depth : ℕ) (path : Str) (d : Digest)
    (h : IsLayer F (fun d n => v.getArchived d = .ok n) entries depth path d) (fuel)
    (hfuel : 2 * depth + 1 ≤ fuel) (base : Str) (fs : Fs κ Attr) :
    materializeTree F.json F.text v rootfs fuel d base fs =
        forEach (materializeListed v rootfs) (listing entries depth path) fs := by
  induction depth generalizing path d fuel base fs with
  | zero => exact h.elim
  | succ depth ih =>
    obtain ⟨tree, hd, htree⟩ := isLayer_succ_iff.mp h
    obtain ⟨fuel, rfl⟩ : ∃ k, fuel = k + 1 := ⟨fuel - 1, by omega⟩
    rw [materializeTree, hd]
    simp only [hx path]
    rw [forEach, materializeTree_tree hj hwf ih htree (by omega)]
    rcases forEach (materializeListed v rootfs) (listing entries (depth + 1) path) fs with
      _ | ⟨_ | _, fs'⟩ <;> rfl

/-- **Materializing a converted directory is materializing its listing**, entry by entry. -/
theorem materializeTree_listing (hj : F.json.Lawful) (hx : F.text.Lawful) (hwf : ∀ e ∈ entries, e.2.Wf)
    (h : IsTree F (fun d n => v.getArchived d = .ok n) entries depth path tree)
    (hfuel : 2 * depth + 2 ≤ fuel) (fs : Fs κ Attr) :
    materializeTree F.json F.text v rootfs fuel tree path fs =
      forEach (materializeListed v rootfs) (listing entries (depth + 1) path) fs :=
  materializeTree_tree hj hwf (materializeTree_layer hj hx hwf depth) h hfuel fs

end

/-! ## Storing a listing -/

section

variable {F : Formats} {entries : List (Str × DirectoryEntry)} {s s' : MmapStore}

theorem putNode_spec (hc : F.codec.Lawful) (hs : s.Sound F.codec) {n : DagNode} {d : Digest}
    (h : putNode F.codec n s = (.ok d, s')) :
    s'.Sound F.codec ∧ s.Grown s' ∧ s'.Holds F.codec d n := by
  unfold putNode at h
  split at h
  · cases h
  rename_i digest s1 hp
  cases h
  obtain ⟨h1, h2, h3, -⟩ := MmapStore.putBlocking_spec hc hs hp
  exact ⟨h1, h2, h3⟩

def FilesHeld (F : Formats) (s : MmapStore) (es : List DirectoryEntry) : Prop :=
  ∀ e ∈ es, e.isDir = false → ∃ data, s.Holds F.codec e.digest (.blob data)

theorem FilesHeld.mono {es : List DirectoryEntry} (h : FilesHeld F s es) (hg : s.Grown s') :
    FilesHeld F s' es := by
  intro e he hdir
  obtain ⟨data, hdata⟩ := h e he hdir
  exact ⟨data, hdata.mono hg⟩

theorem childDigests_spec {depth : ℕ} {path : Str}
    {storeSub : Str → MmapStore → Option (Except ConvertError Digest × MmapStore)}
    (hsub : ∀ p (s s' : MmapStore) d, s.Sound F.codec →
      FilesHeld F s (entries.map snd) → storeSub p s = some (.ok d, s') →
      s'.Sound F.codec ∧ s.Grown s' ∧ IsLayer F (s'.Holds F.codec) entries depth p d)
    {es : List DirectoryEntry} {edges : List Digest} (hs : s.Sound F.codec)
    (hf : FilesHeld F s (entries.map snd)) (hsubset : es ⊆ entries.map snd)
    (h : childDigests storeSub path es s = some (.ok edges, s')) :
    s'.Sound F.codec ∧ s.Grown s' ∧
      List.Forall₂ (fun edge e =>
        if e.isDir = true then IsLayer F (s'.Holds F.codec) entries depth (subPath path e.name) edge
        else edge = e.digest ∧ ∃ data, s'.Holds F.codec edge (.blob data)) edges es := by
  fun_induction childDigests storeSub path es s generalizing edges with
  | case1 =>
    cases h
    exact ⟨hs, .refl _, .nil⟩
  | case2 | case3 | case4 | case5 => cases h
  | case6 e es s d s1 hr ds s2 hr2 ih =>
    cases h
    -- What the first entry contributes, in the store as it is then.
    have hfirst : s1.Sound F.codec ∧ s.Grown s1 ∧
        (if e.isDir = true then IsLayer F (s1.Holds F.codec) entries depth (subPath path e.name) d
          else d = e.digest ∧ ∃ data, s1.Holds F.codec d (.blob data)) := by
      split at hr
      · rename_i hdir
        rw [if_pos hdir]
        exact hsub _ s s1 d hs hf hr
      · rename_i hdir
        cases hr
        rw [if_neg hdir]
        exact ⟨hs, .refl _, rfl, hf e (hsubset mem_cons_self) (by simpa using hdir)⟩
    obtain ⟨hs1, hg1, hd⟩ := hfirst
    obtain ⟨hs2, hg2, hds⟩ := ih hs1 (hf.mono hg1) (fun x hx => hsubset (mem_cons_of_mem _ hx)) hr2
    have hkeep : ∀ d n, s1.Holds F.codec d n → s'.Holds F.codec d n := fun _ _ hh => hh.mono hg2
    exact ⟨hs2, hg1.trans hg2, .cons (edge_mono hkeep (·.mono hkeep) hd) hds⟩

/-- **`store_trees` stores the listing.** -/
theorem storeTrees_isLayer (hc : F.codec.Lawful) {depth : ℕ} {path : Str}
    {d : Digest} (hs : s.Sound F.codec) (hf : FilesHeld F s (entries.map snd))
    (h : storeTrees F entries depth path s = some (.ok d, s')) :
    s'.Sound F.codec ∧ s.Grown s' ∧ IsLayer F (s'.Holds F.codec) entries depth path d := by
  induction depth generalizing path s s' d with
  | zero => cases h
  | succ depth ih =>
    rw [storeTrees] at h
    have hsubset : entriesIn entries path ⊆ entries.map snd := by
      intro e he
      obtain ⟨item, hitem, rfl⟩ := mem_map.mp he
      exact mem_map.mpr ⟨item, (mem_filter.mp hitem).1, rfl⟩
    split at h
    · cases h
    · cases h
    rename_i edges s1 hr
    rw [Option.some.injEq] at h
    obtain ⟨hs1, hg1, hedges⟩ :=
      childDigests_spec (fun p s s' d hs hf h => ih hs hf h) hs hf hsubset hr
    unfold storeTree at h
    split at h
    · cases h
    rename_i inline hin
    split at h
    · cases h
    rename_i tree s2 ht
    obtain ⟨hs2, hg2, htree⟩ := putNode_spec hc hs1 ht
    obtain ⟨hs3, hg3, hlayer⟩ := putNode_spec hc hs2 h
    have hg : s1.Grown s' := hg2.trans hg3
    refine ⟨hs3, hg1.trans hg, tree, edges, inline, hlayer, hin, htree.mono hg3, ?_⟩
    have hkeep : ∀ d n, s1.Holds F.codec d n → s'.Holds F.codec d n := fun _ _ hh => hh.mono hg
    exact hedges.imp fun edge e he => edge_mono hkeep (·.mono hkeep) he

end

end Pullrun
