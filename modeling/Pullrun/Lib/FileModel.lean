import Pullrun.Lib.FileFrame
import Pullrun.Lib.FilePath

/-!
# A directory as a function

What a program makes of a directory is best stated without resolution, attributes and logs: a
`View` gives, for each relative place, what is there. `Shows s root U` says that this is what is
below `root`, that everything in it is in a directory, and that `root` is in place. On places whose
directories are there (`Under`) every call then does what its name says, as a point update of the
view.
-/

namespace FileTree

open List Function Loc Nodes

variable {κ α : Type}

theorem prefix_append_cases {q root rel : Loc} (h : q <+: root ++ rel) :
    q <+: root ∨ ∃ p, q = root ++ p ∧ p <+: rel := by
  rcases Nat.le_total q.length root.length with hle | hle
  · exact .inl (prefix_of_prefix_length_le h (prefix_append root rel) hle)
  · obtain ⟨p, rfl⟩ := prefix_of_prefix_length_le (prefix_append root rel) h hle
    exact .inr ⟨p, rfl, (prefix_append_right_inj root).mp h⟩

/-- What is at each place below a directory. -/
abbrev View (κ : Type) := Loc → Option (Inode κ Unit)

namespace View

def IsDir (U : View κ) (q : Loc) : Prop := q = [] ∨ U q = some (.dir ())

def Under (U : View κ) (rel : Loc) : Prop := ∀ q, q <+: rel → q ≠ rel → U.IsDir q

def Closed (U : View κ) : Prop := ∀ rel, U rel ≠ none → U.Under rel

variable {U : View κ} {rel q : Loc}

theorem IsDir.under_concat {n : Name} (h : U.IsDir q) (hq : U.Under q) :
    U.Under (q ++ [n]) := by
  intro p hp hne
  have hpq : p <+: q := by
    rcases prefix_concat_iff.mp hp with rfl | hp
    · exact absurd rfl hne
    · exact hp
  by_cases hpe : p = q
  · exact hpe ▸ h
  · exact hq p hpq hpe

theorem under_nil : U.Under [] := by
  intro q hq hne
  exact absurd (prefix_nil.mp hq) hne

theorem IsDir.under (h : U.IsDir q) (hc : U.Closed) : U.Under q := by
  rcases h with rfl | h
  · exact under_nil
  · exact hc q (by rw [h]; simp)

theorem Under.update (h : U.Under rel) (v : Option (Inode κ Unit)) :
    Under (update U rel v) rel := by
  intro q hq hne
  rcases h q hq hne with rfl | hdir
  · exact .inl rfl
  · exact .inr (by rw [update_of_ne hne]; exact hdir)

/-- Put something, in a directory that is there. What is not a directory has nothing below it. -/
theorem Closed.put {i : Inode κ Unit} (hc : U.Closed) (hu : U.Under rel)
    (hi : i = .dir () ∨ ∀ p, rel <+: p → p ≠ rel → U p = none) :
    Closed (update U rel (some i)) := by
  intro p hp q hq hne
  by_cases hpr : p = rel
  · subst hpr
    rcases hu q hq hne with rfl | hdir
    · exact .inl rfl
    · exact .inr (by rw [update_of_ne hne]; exact hdir)
  · rw [update_of_ne hpr] at hp
    by_cases hqr : q = rel
    · subst hqr
      rcases hi with rfl | hbelow
      · exact .inr (update_self ..)
      · exact absurd (hbelow p hq (fun h => hne h.symm)) hp
    · rcases hc p hp q hq hne with rfl | hdir
      · exact .inl rfl
      · exact .inr (by rw [update_of_ne hqr]; exact hdir)

theorem Closed.drop (hc : U.Closed) (hbelow : ∀ p, rel <+: p → p ≠ rel → U p = none) :
    Closed (update U rel none) := by
  intro p hp q hq hne
  have hpr : p ≠ rel := by
    rintro rfl
    rw [update_self] at hp
    exact hp rfl
  rw [update_of_ne hpr] at hp
  have hqr : q ≠ rel := by
    rintro rfl
    exact hp (hbelow p hq fun h => hne h.symm)
  rcases hc p hp q hq hne with rfl | hdir
  · exact .inl rfl
  · exact .inr (by rw [update_of_ne hqr]; exact hdir)

theorem Closed.none_below (hc : U.Closed) (h : U rel ≠ some (.dir ())) (hne : rel ≠ []) :
    ∀ p, rel <+: p → p ≠ rel → U p = none := by
  intro p hp hpr
  by_contra hsome
  rcases hc p hsome rel hp (fun h => hpr h.symm) with hnil | hdir
  · exact hne hnil
  · exact h hdir

end View

structure Shows (s : Fs κ α) (root : Loc) (U : View κ) : Prop where
  inPlace : s.nodes.InPlace root
  closed : U.Closed
  shows : ∀ rel, rel ≠ [] → (s.lookup (root ++ rel)).map Inode.shape = U rel

namespace Shows

variable {s s' : Fs κ α} {root : Loc} {U : View κ} {rel : Loc} {i : Inode κ Unit}

section

variable (h : Shows s root U)
include h

theorem lookup_none (hne : rel ≠ []) (hU : U rel = none) : s.lookup (root ++ rel) = none :=
  Option.map_eq_none_iff.mp ((h.shows rel hne).trans hU)

theorem lookup_some (hne : rel ≠ [])
    (hU : U rel = some i) : ∃ j, s.lookup (root ++ rel) = some j ∧ j.shape = i :=
  Option.map_eq_some_iff.mp ((h.shows rel hne).trans hU)

theorem isDir (hdir : U.IsDir rel) : s.nodes.isDir (root ++ rel) = true := by
  by_cases hne : rel = []
  · subst hne
    rw [append_nil]
    exact h.inPlace root (prefix_refl root)
  · obtain ⟨j, hj, hshape⟩ := h.lookup_some hne (hdir.resolve_left hne)
    cases j with
    | dir a =>
      unfold Nodes.isDir
      rw [Fs.lookup] at hj
      rw [hj]
    | file content a => cases hshape
    | symlink target => cases hshape

theorem inPlace_append (hdir : U.IsDir rel) : s.nodes.InPlace (root ++ rel) := by
  intro q hq
  rcases prefix_append_cases hq with hq | ⟨p, rfl, hp⟩
  · exact h.inPlace q hq
  · by_cases hpr : p = rel
    · exact hpr ▸ h.isDir hdir
    · exact h.isDir (hdir.under h.closed p hp hpr)

/-! ## Resolution -/

/-- **A place whose directories are there resolves to itself**, if no link is followed at the
    end. -/
theorem resolve (hu : U.Under rel) (last : Bool)
    (hlast : last = false ∨ ∀ target, U rel ≠ some (.symlink target)) :
    s.nodes.resolve last (path (root ++ rel)) = .ok (root ++ rel) := by
  by_cases hne : rel = []
  · subst hne
    rw [append_nil]
    exact Fs.resolve_inPlace last h.inPlace
  refine resolve_of_above (fun q hq hqne => ?_) (hlast.imp_right fun hlink => .inr ?_)
  · rcases prefix_append_cases hq with hroot | ⟨p, rfl, hp⟩
    · exact h.inPlace q hroot
    · exact h.isDir (hu p hp fun heq => hqne (heq ▸ rfl))
  · intro target hlk
    have hshows := h.shows rel hne
    rw [Fs.lookup, hlk] at hshows
    exact hlink target hshows.symm

theorem resolve_eq (hlinks : ∀ q target, q <+: rel → q ≠ rel → U q ≠ some (.symlink target)) {l : Loc}
    (hr : s.nodes.resolve false (path (root ++ rel)) = .ok l) : l = root ++ rel := by
  -- The resolution from `root ++ q` on, for what is left of `rel`.
  have hrest : ∀ {budget dir p l}, s.nodes.Resolves false budget dir p l → ∀ q rest,
      dir = root ++ q → p = path rest → q ++ rest = rel → l = root ++ rel := by
    intro budget dir p l hr
    induction hr with
    | nil =>
      rintro q rest rfl hp rfl
      rw [map_eq_nil_iff.mp hp.symm, append_nil]
    | up =>
      rintro q (_ | ⟨_, rest⟩) - hp
      · cases hp
      · cases hp
    | vacant | link =>
      rintro q rest rfl hp rfl
      obtain ⟨n, rfl, hn⟩ := map_eq_singleton_iff.mp hp.symm
      cases hn
      exact append_assoc ..
    | @follow _ _ n _ _ _ _ hlk hlast =>
      rintro q (_ | ⟨_, rest⟩) rfl hp hq
      · cases hp
      cases hp
      have hshows := h.shows (q ++ [n]) (by simp)
      rw [Fs.lookup, ← append_assoc, hlk] at hshows
      refine absurd hshows.symm (hlinks (q ++ [n]) _ ⟨rest, by simpa using hq⟩ ?_)
      rintro rfl
      exact hlast ⟨by simpa using hq, rfl⟩
    | @down _ _ n _ _ _ _ _ _ _ ih =>
      rintro q (_ | ⟨_, rest⟩) rfl hp hq
      · cases hp
      cases hp
      exact ih (q ++ [n]) rest (append_assoc ..) rfl (by simpa using hq)
  rw [Nodes.resolve, path_append, Nodes.namei_path h.inPlace] at hr
  exact hrest (namei_eq_ok.mp hr) [] rel (append_nil _).symm rfl rfl

/-! ## Calls

Each as a point update of the view. -/

theorem act (p : List Seg) (last : Bool) (hne : rel ≠ []) (new : Option (Inode κ α)) {nodes : Nodes κ α}
    (hnodes : ∀ l, nodes.lookup l = if l = root ++ rel then new else s.lookup l)
    (hclosed : View.Closed (update U rel (new.map Inode.shape))) :
    Shows (s.act p last (root ++ rel) nodes) root (update U rel (new.map Inode.shape)) where
  inPlace q hq := by
    have hql : q ≠ root ++ rel := by
      rintro rfl
      have hlen := hq.length_le
      rw [length_append] at hlen
      exact hne (length_eq_zero_iff.mp (by omega))
    change nodes.isDir q = true
    unfold Nodes.isDir
    rw [hnodes, if_neg hql]
    exact h.inPlace q hq
  closed := hclosed
  shows q hq := by
    change (nodes.lookup (root ++ q)).map Inode.shape = _
    rw [hnodes]
    by_cases hqr : q = rel
    · rw [hqr, if_pos rfl, update_self]
    · rw [if_neg (fun he => hqr (append_cancel_left he)), update_of_ne hqr]
      exact h.shows q hq

theorem set (p : List Seg) (last : Bool) (hu : U.Under rel) (hne : rel ≠ [])
    {i : Inode κ α} (hi : i.shape = .dir () ∨ ∀ q, rel <+: q → q ≠ rel → U q = none) :
    Shows (s.act p last (root ++ rel) (s.nodes.set (root ++ rel) i)) root
      (update U rel (some i.shape)) :=
  h.act p last hne (some i) (fun l => lookup_set _ _ l i) (h.closed.put hu hi)

theorem remove (p : List Seg) (last : Bool) (hne : rel ≠ [])
    (hbelow : ∀ q, rel <+: q → q ≠ rel → U q = none) :
    Shows (s.act p last (root ++ rel) (s.nodes.remove (root ++ rel))) root
      (update U rel none) :=
  h.act p last hne none (fun l => lookup_remove _ _ l) (h.closed.drop hbelow)

theorem mkdir [Inhabited α] (hu : U.Under rel) (hne : rel ≠ [])
    (hU : U rel = none) : ∃ s', s.mkdir (path (root ++ rel)) = .ok s' ∧
      Shows s' root (update U rel (some (.dir ()))) := by
  have hl : root ++ rel ≠ [] := by simp [hne]
  refine ⟨_, ?_, h.set (path (root ++ rel)) false hu hne (i := .dir default) (.inl rfl)⟩
  rw [Fs.mkdir, h.resolve hu false (.inl rfl)]
  simp only [h.lookup_none hne hU, if_neg hl]

theorem createDirAll [Inhabited α] (hu : U.Under rel) (hne : rel ≠ [])
    (hU : U rel = none ∨ U rel = some (.dir ())) :
    ∃ s', s.createDirAll (path (root ++ rel)) = (.ok (), s') ∧
      Shows s' root (update U rel (some (.dir ()))) := by
  rcases hU with hU | hU
  · obtain ⟨s', hs', hshows⟩ := h.mkdir hu hne hU
    refine ⟨s', ?_, hshows⟩
    obtain ⟨q, n, rfl⟩ := (eq_nil_or_concat rel).resolve_left hne
    rw [concat_eq_append] at hs' ⊢
    have hrev : (path (root ++ (q ++ [n]))).reverse = .name n :: (path (root ++ q)).reverse := by
      simp [path]
    have hback : (Seg.name n :: (path (root ++ q)).reverse).reverse =
        path (root ++ (q ++ [n])) := by
      rw [← hrev, reverse_reverse]
    rw [Fs.createDirAll, hrev, Fs.createDirAllRev]
    simp only [hback, hs']
  · refine ⟨s, Fs.createDirAll_inPlace (h.inPlace_append (.inr hU)), ?_⟩
    rw [← hU, update_eq_self]
    exact h

theorem write [Inhabited α] (hu : U.Under rel) (hne : rel ≠ []) (content : κ)
    (hU : U rel = none ∨ ∃ old, U rel = some (.file old ())) :
    ∃ s', s.write content (path (root ++ rel)) = .ok s' ∧
      Shows s' root (update U rel (some (.file content ()))) := by
  have hl : root ++ rel ≠ [] := by simp [hne]
  have hlink : ∀ target, U rel ≠ some (.symlink target) := by
    rcases hU with hU | ⟨old, hU⟩ <;> (intro target; rw [hU]; simp)
  have hdir : U rel ≠ some (.dir ()) := by
    rcases hU with hU | ⟨old, hU⟩ <;> (rw [hU]; simp)
  have hset : ∀ a : α, Shows (s.act (path (root ++ rel)) true (root ++ rel)
      (s.nodes.set (root ++ rel) (.file content a))) root
        (update U rel (some (.file content ()))) :=
    fun a => h.set _ true hu hne (i := .file content a) (.inr (h.closed.none_below hdir hne))
  rw [Fs.write, h.resolve hu true (.inr hlink)]
  rcases hU with hU | ⟨old, hU⟩
  · simp only [h.lookup_none hne hU, if_neg hl]
    exact ⟨_, rfl, hset default⟩
  · obtain ⟨j, hj, hshape⟩ := h.lookup_some hne hU
    cases j with
    | dir a => cases hshape
    | symlink target => cases hshape
    | file c a =>
      simp only [hj]
      exact ⟨_, rfl, hset a⟩

theorem symlink (hu : U.Under rel) (hne : rel ≠ []) {target : List Char}
    (htarget : target ≠ []) (hU : U rel = none) :
    ∃ s', s.symlink target (path (root ++ rel)) = .ok s' ∧
      Shows s' root (update U rel (some (.symlink target))) := by
  have hl : root ++ rel ≠ [] := by simp [hne]
  have hdir : U rel ≠ some (.dir ()) := by rw [hU]; simp
  refine ⟨_, ?_, h.set (path (root ++ rel)) false hu hne (i := .symlink target)
    (.inr (h.closed.none_below hdir hne))⟩
  rw [Fs.symlink, if_neg htarget, h.resolve hu false (.inl rfl)]
  simp only [h.lookup_none hne hU, if_neg hl]

theorem removeFile (hne : rel ≠ []) (hU : U rel = some i)
    (hi : i ≠ .dir ()) : ∃ s', s.removeFile (path (root ++ rel)) = .ok s' ∧
      Shows s' root (update U rel none) := by
  have hdir : U rel ≠ some (.dir ()) := by rw [hU]; simpa using hi
  have hu : U.Under rel := h.closed rel (by rw [hU]; simp)
  obtain ⟨j, hj, hshape⟩ := h.lookup_some hne hU
  refine ⟨_, ?_, h.remove (path (root ++ rel)) false hne (h.closed.none_below hdir hne)⟩
  rw [Fs.removeFile, h.resolve hu false (.inl rfl)]
  cases j with
  | dir a => exact absurd hshape.symm hi
  | file content a => simp only [hj]
  | symlink target => simp only [hj]

theorem removeFile_none (hu : U.Under rel) (hne : rel ≠ [])
    (hU : U rel = none) : s.removeFile (path (root ++ rel)) = .error .notFound := by
  rw [Fs.removeFile, h.resolve hu false (.inl rfl)]
  simp only [h.lookup_none hne hU]

theorem removeDir (hne : rel ≠ []) (hU : U rel = some (.dir ()))
    (hbelow : ∀ q, rel <+: q → q ≠ rel → U q = none) :
    ∃ s', s.removeDir (path (root ++ rel)) = .ok s' ∧
      Shows s' root (update U rel none) := by
  have hl : root ++ rel ≠ [] := by simp [hne]
  have hu : U.Under rel := h.closed rel (by rw [hU]; simp)
  obtain ⟨j, hj, hshape⟩ := h.lookup_some hne hU
  have hchildren : s.nodes.children (root ++ rel) = [] := by
    refine children_eq_nil_iff.mpr fun n => ?_
    rw [append_assoc]
    exact h.lookup_none (by simp) (hbelow (rel ++ [n]) (prefix_append _ _) (by simp))
  refine ⟨_, ?_, h.remove (path (root ++ rel)) false hne hbelow⟩
  rw [Fs.removeDir, h.resolve hu false (.inl rfl)]
  cases j with
  | dir a => simp only [hj, if_neg hl, if_pos hchildren]
  | file content a => cases hshape
  | symlink target => cases hshape

theorem none_below_of_removeDir (hu : U.Under rel)
    (hs' : s.removeDir (path (root ++ rel)) = .ok s') :
    ∀ q, rel <+: q → q ≠ rel → U q = none := by
  rintro q ⟨rest, rfl⟩ hq
  obtain ⟨n, rest, rfl⟩ := exists_cons_of_ne_nil
    (show rest ≠ [] by rintro rfl; exact hq (append_nil rel))
  by_contra hsome
  -- Its first component is in the directory.
  have hchild : U (rel ++ [n]) ≠ none := by
    by_cases hrest : rest = []
    · subst hrest; exact hsome
    · have hdir := h.closed _ hsome (rel ++ [n]) ⟨rest, by simp⟩ (by simpa using Ne.symm hrest)
      rw [hdir.resolve_left (by simp)]
      simp
  rw [Fs.removeDir, h.resolve hu false (.inl rfl)] at hs'
  simp only at hs'
  split at hs'
  · cases hs'
  · split at hs'
    · cases hs'
    · split at hs'
      · rename_i hchildren
        have hlook := children_eq_nil_iff.mp hchildren n
        have hshows := h.shows (rel ++ [n]) (by simp)
        rw [Fs.lookup, ← append_assoc, hlook] at hshows
        exact hchild hshows.symm
      · cases hs'
  · cases hs'

theorem removeDir_none (hu : U.Under rel) (hne : rel ≠ [])
    (hU : U rel = none) : s.removeDir (path (root ++ rel)) = .error .notFound := by
  rw [Fs.removeDir, h.resolve hu false (.inl rfl)]
  simp only [h.lookup_none hne hU]

end

theorem of_empty (hroot : s.nodes.InPlace root)
    (hempty : ∀ rel, rel ≠ [] → s.lookup (root ++ rel) = none) :
    Shows s root fun _ => none where
  inPlace := hroot
  closed rel h := absurd rfl h
  shows rel hne := by rw [hempty rel hne]; rfl

theorem of_shapes (h : Shows s root U)
    (hs : ∀ l, (s'.lookup l).map Inode.shape = (s.lookup l).map Inode.shape) :
    Shows s' root U where
  inPlace q hq := (isDir_of_shape (hs q)).trans (h.inPlace q hq)
  closed := h.closed
  shows rel hne := (hs _).trans (h.shows rel hne)

end Shows

end FileTree
