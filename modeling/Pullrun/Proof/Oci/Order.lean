import Pullrun.Proof.Oci.Converted

/-!
# The order in which a layer is walked

`order` is the listing of a layer (`Proof/Oci/Listing.lean`) in terms of places: the items of a
directory as they stand in the list, and then, directory by directory, what is below.
-/

namespace Pullrun

open FileTree List

/-- What is below a directory, in walking order. -/
def order {β : Type} (item : β → Item) (bs : List β) : ℕ → Loc → List β
  | 0, _ => []
  | depth + 1, q =>
    (bs.filter fun b => (item b).parent = q) ++
      (bs.filter fun b => (item b).parent = q).flatMap fun b =>
        if (item b).kind.isDir then order item bs depth (item b).loc else []

/-- Directories are at most so many levels deep below a place. -/
def Deep (items : List Item) : ℕ → Loc → Prop
  | 0, _ => False
  | depth + 1, q => ∀ i ∈ items, i.parent = q → i.kind.isDir = true → Deep items depth i.loc

structure EntriesListed (items : List Item) : Prop where
  ok : ∀ i ∈ items, i.Ok
  nodup : items.Nodup
  inj : ∀ i ∈ items, ∀ j ∈ items, i.loc = j.loc → i = j
  parents : ∀ i ∈ items, ∀ q, q <+: i.loc → q ≠ i.loc → q ≠ [] →
    ∃ d ∈ items, d.loc = q ∧ d.kind.isDir = true

theorem Layer.entries_inj {L : Layer} {i j : Item} (hi : i ∈ L.entries) (hj : j ∈ L.entries)
    (h : i.loc = j.loc) : i = j := by
  obtain ⟨hi, -, hireal⟩ := mem_entries.mp hi
  obtain ⟨hj, -, hjreal⟩ := mem_entries.mp hj
  refine inj_on_of_nodup_map L.distinct hi hj ?_
  rw [tarLoc_of_real hireal, tarLoc_of_real hjreal, h]

theorem Layer.listed (L : Layer) : EntriesListed L.entries where
  ok i hi := L.item_ok (mem_entries.mp hi).1
  nodup := ((Nodup.of_map _ L.distinct).filter _).filter _
  inj i hi j hj := entries_inj hi hj
  parents i hi q hq hne hnil := by
    obtain ⟨hitem, hkept, hreal⟩ := mem_entries.mp hi
    have htar := tarLoc_of_real hreal
    exact parents_kept hitem hkept (htar ▸ hq) (htar ▸ hne) hnil

/-! ## Members -/

section

variable {β : Type} {item : β → Item} {bs : List β}

theorem mem_of_mem_order (depth : ℕ) {q : Loc} {b : β} (hb : b ∈ order item bs depth q) : b ∈ bs := by
  induction depth generalizing q b with
  | zero => cases hb
  | succ depth ih =>
    rw [order, mem_append, mem_flatMap] at hb
    rcases hb with hb | ⟨c, -, hb⟩
    · exact (mem_filter.mp hb).1
    · split at hb
      · exact ih hb
      · cases hb

theorem map_order {γ : Type} {item : γ → Item} (g : β → γ) (depth : ℕ) (q : Loc) :
    (order (fun b => item (g b)) bs depth q).map g =
      order item (bs.map g) depth q := by
  induction depth generalizing q with
  | zero => rfl
  | succ depth ih =>
    have hfilter : ((bs.map g).filter fun c => (item c).parent = q) =
        (bs.filter fun b => (item (g b)).parent = q).map g := by
      rw [filter_map]
      rfl
    rw [order, order, hfilter, map_append, map_flatMap, flatMap_map]
    congr 1
    refine flatMap_congr fun b _ => ?_
    split
    · exact ih _
    · rfl

end

section

variable {items : List Item}

theorem mem_order (hlisted : EntriesListed items) :
    ∀ (depth : ℕ) {q : Loc}, Deep items depth q → ∀ {i : Item}, i ∈ items → q <+: i.parent →
      i ∈ order id items depth q := by
  intro depth
  induction depth with
  | zero => intro q h; exact h.elim
  | succ depth ih =>
    intro q hdeep i hi hq
    rw [order, mem_append, mem_flatMap]
    by_cases hparent : i.parent = q
    · exact .inl (mem_filter.mpr ⟨hi, decide_eq_true hparent⟩)
    -- It is below a directory of `q`.
    obtain ⟨rest, hrest⟩ := hq
    obtain ⟨n, rest, rfl⟩ := exists_cons_of_ne_nil
      (show rest ≠ [] by rintro rfl; exact hparent (by rw [← hrest, append_nil]))
    have hchild : q ++ [n] <+: i.parent := ⟨rest, by rw [← hrest]; simp⟩
    obtain ⟨d, hd, hloc, hdir⟩ := hlisted.parents i hi (q ++ [n])
      (hchild.trans i.loc.dropLast_prefix) (by
        intro he
        have hlen := hchild.length_le
        have := congrArg length (hlisted.ok i hi).loc_eq
        rw [he] at hlen
        rw [length_append] at this
        simp at this
        omega) (by simp)
    have hdq : d.parent = q := by simp [Item.parent, hloc]
    refine Or.inr ⟨d, mem_filter.mpr ⟨hd, decide_eq_true hdq⟩, ?_⟩
    simp only [id, hdir, if_true]
    exact ih (hdeep d hd hdq hdir) hi (hloc ▸ hchild)

end

/-! ## Directories first -/

/-- Each item is in a directory that is ready, or that comes before it. -/
def DirsFirst (ready : Loc → Prop) : List Item → Prop
  | [] => True
  | i :: items =>
    ready i.parent ∧ DirsFirst (fun q => ready q ∨ q = i.loc ∧ i.kind.isDir = true) items

namespace DirsFirst

variable {ready : Loc → Prop} {items : List Item}

theorem mono {ready' : Loc → Prop} (h : DirsFirst ready items) (hr : ∀ q, ready q → ready' q) :
    DirsFirst ready' items := by
  induction items generalizing ready ready' with
  | nil => trivial
  | cons i items ih => exact ⟨hr _ h.1, ih h.2 fun q hq => hq.imp_left (hr q)⟩

theorem of_ready (h : ∀ i ∈ items, ready i.parent) : DirsFirst ready items := by
  induction items generalizing ready with
  | nil => trivial
  | cons i items ih =>
    exact ⟨h i mem_cons_self, ih fun j hj => .inl (h j (mem_cons_of_mem _ hj))⟩

theorem append {more : List Item} (h : DirsFirst ready items)
    (hmore : DirsFirst (fun q => ready q ∨ ∃ i ∈ items, q = i.loc ∧ i.kind.isDir = true) more) :
    DirsFirst ready (items ++ more) := by
  induction items generalizing ready with
  | nil => exact hmore.mono fun q hq => hq.resolve_right (by simp)
  | cons i items ih =>
    refine ⟨h.1, ih h.2 (hmore.mono fun q hq => ?_)⟩
    rcases hq with hq | ⟨j, hj, hjq⟩
    · exact .inl (.inl hq)
    · rcases mem_cons.mp hj with rfl | hj
      · exact .inl (.inr hjq)
      · exact .inr ⟨j, hj, hjq⟩

theorem flatMap {β : Type} {f : β → List Item} {bs : List β}
    (h : ∀ b ∈ bs, DirsFirst ready (f b)) : DirsFirst ready (bs.flatMap f) := by
  induction bs with
  | nil => trivial
  | cons b bs ih =>
    rw [flatMap_cons]
    exact append (h b mem_cons_self)
      ((ih fun c hc => h c (mem_cons_of_mem _ hc)).mono fun q hq => .inl hq)

end DirsFirst

theorem order_dirsFirst {β : Type} (item : β → Item) (bs : List β) (depth : ℕ) (q : Loc) :
    DirsFirst (fun p => p = q) ((order item bs depth q).map item) := by
  induction depth generalizing q with
  | zero => trivial
  | succ depth ih =>
    rw [order, map_append, map_flatMap]
    refine DirsFirst.append (DirsFirst.of_ready ?_) (DirsFirst.flatMap fun c hc => ?_)
    · intro i hi
      obtain ⟨p, hp, rfl⟩ := mem_map.mp hi
      exact of_decide_eq_true (mem_filter.mp hp).2
    · split
      · rename_i hdir
        refine (ih (item c).loc).mono fun p hp => .inr ⟨item c, mem_map_of_mem hc, hp, hdir⟩
      · trivial

/-! ## The order is the listing -/

section

variable {F : Formats} {L : Layer} {s : MmapStore}
  {pairs : List (Item × (Str × DirectoryEntry))}

variable {p : Item × (Str × DirectoryEntry)}

variable (h : EntriesOf F L s pairs)
include h

theorem EntriesOf.mem_entries (hp : p ∈ pairs) : p.1 ∈ L.entries := by
  rw [← h.items]
  exact mem_map_of_mem hp

theorem EntriesOf.ok (hp : p ∈ pairs) : p.1.Ok :=
  L.item_ok (Layer.mem_entries.mp (h.mem_entries hp)).1

theorem EntriesOf.entriesIn_text {q : Loc} (hq : q.Ok) : entriesIn (pairs.map Prod.snd) q.text =
      (pairs.filter fun p => p.1.parent = q).map fun p => p.2.2 := by
  have hsame : (pairs.filter fun p => p.2.1 = q.text) = pairs.filter fun p => p.1.parent = q := by
    refine filter_congr fun p hp => decide_eq_decide.mpr ?_
    rw [(h.entryOf p hp).parent]
    exact ⟨text_injective (h.ok hp).parent_ok hq, congrArg Loc.text⟩
  rw [entriesIn, filter_map, map_map, ← hsame]
  rfl

theorem EntriesOf.subPath_name (hp : p ∈ pairs) {q : Loc}
    (hparent : p.1.parent = q) : subPath q.text p.2.2.name = p.1.loc.text := by
  subst hparent
  rw [(h.ok hp).loc_eq, (h.entryOf p hp).name, subPath]
  by_cases hnil : p.1.parent = []
  · rw [hnil]; rfl
  · rw [if_neg (Loc.text_ne_nil (h.ok hp).parent_ok hnil), Loc.text_concat hnil]

theorem order_map_snd (depth : ℕ) {q : Loc} (hq : q.Ok) :
    (order Prod.fst pairs depth q).map Prod.snd = listing (pairs.map Prod.snd) depth q.text := by
  induction depth generalizing q with
  | zero => rfl
  | succ depth ih =>
    rw [order, listing, h.entriesIn_text hq, map_append, map_map, flatMap_map,
      map_flatMap]
    congr 1
    · refine map_congr_left fun p hp => ?_
      obtain ⟨hmem, hparent⟩ := mem_filter.mp hp
      exact Prod.ext ((h.entryOf p hmem).parent.trans
        (congrArg Loc.text (of_decide_eq_true hparent))) rfl
    · refine flatMap_congr fun p hp => ?_
      obtain ⟨hmem, hparent⟩ := mem_filter.mp hp
      rw [(h.entryOf p hmem).isDir]
      split
      · rw [h.subPath_name hmem (of_decide_eq_true hparent)]
        exact ih (h.ok hmem).names
      · rfl

theorem IsTree.deep {P : Digest → DagNode → Prop} : ∀ (depth : ℕ) {q : Loc} {tree : Digest}, q.Ok →
      IsTree F P (pairs.map Prod.snd) depth q.text tree → Deep L.entries (depth + 1) q := by
  intro depth
  induction depth with
  | zero => ?_
  | succ depth ih => ?_
  all_goals
    intro q tree hq htree i hi hparent hdir
    obtain ⟨c, hc, rfl⟩ := mem_map.mp (h.items ▸ hi)
    obtain ⟨edges, inline, -, -, hedges⟩ := htree
    rw [h.entriesIn_text hq, forall₂_map_right_iff] at hedges
    obtain ⟨edge, -, hedge⟩ := forall₂_mem_right hedges
      (mem_filter.mpr ⟨hc, decide_eq_true hparent⟩)
    rw [if_pos ((h.entryOf c hc).isDir.trans hdir), h.subPath_name hc hparent] at hedge
  · exact hedge.elim
  · obtain ⟨subtree, -, hsub⟩ := isLayer_succ_iff.mp hedge
    exact ih (h.ok hc).names hsub

end

end Pullrun
