import Mathlib.Data.List.Basic

/-!
# A file tree and the calls that change it

The part of a POSIX file system that a program sees which creates, writes and removes files: a tree
of directories, regular files and symbolic links, and calls that name a place in it by a path. The
file contents `κ` and the attributes `α` (mode, owner, times) are arbitrary; no call looks into
them.

Two things make such a program hard to reason about, and both are modelled as the kernel does them.
A path is *resolved*: every symbolic link on the way is followed, `..` climbs, an absolute target
starts again at the top, and whether a link in the last place is followed depends on the call
(`resolve`). And a call that fails leaves a partial result behind: `createDirAll` is a loop of
`mkdir`s.

Permissions are not modelled: the calls are those of a process that may do everything. A trailing
slash of a path is dropped.

Every successful change is recorded in a log, with the tree before it and the place it was made at.
-/

namespace FileTree

open List Option

abbrev Name := List Char

/-- A place in the tree: the names from the top down. -/
abbrev Loc := List Name

/-! ## Paths -/

/-- A component of a path that does something. -/
inductive Seg
  | name (n : Name)
  | up
deriving DecidableEq

/-- Empty components and `.` do nothing. -/
def Seg.ofText (t : List Char) : Option Seg :=
  if t = [] ∨ t = ['.'] then none
  else if t = ['.', '.'] then some .up
  else some (.name t)

def segs (p : List Char) : List Seg := (p.splitOn '/').filterMap Seg.ofText

theorem segs_append_slash (p q : List Char) : segs (p ++ '/' :: q) = segs p ++ segs q := by
  rw [segs, splitOn, splitOnP_append_cons p q (by simp), filterMap_append]
  rfl

def isAbsolute (p : List Char) : Bool := p.head? == some '/'

/-- `dir.join(p)`: an absolute `p` replaces `dir`. -/
def join (dir : List Seg) (p : List Char) : List Seg :=
  if isAbsolute p then segs p else dir ++ segs p

def Loc.path (l : Loc) : List Seg := l.map .name

theorem Loc.path_append (l m : Loc) : Loc.path (l ++ m) = l.path ++ m.path := map_append

/-! ## Trees -/

inductive Inode (κ α : Type)
  | dir (attr : α)
  | file (content : κ) (attr : α)
  | symlink (target : List Char)
deriving DecidableEq

def Inode.shape {κ α : Type} : Inode κ α → Inode κ Unit
  | .dir _ => .dir ()
  | .file content _ => .file content ()
  | .symlink target => .symlink target

/-- What is at each place. The order of the list is the order in which directories are read. -/
abbrev Nodes (κ α : Type) := List (Loc × Inode κ α)

inductive Errno
  | notFound
  | notDir
  | alreadyExists
  | isDir
  | notEmpty
  | loop
  | busy
deriving DecidableEq

/-- Where the components of a path lead without following a link. -/
inductive Stop
  /-- The place the path names; it may be vacant. -/
  | arrive (loc : Loc)
  /-- A link, met in the directory `dir`, and what is left of the path after it. -/
  | follow (dir : Loc) (target : List Char) (rest : List Seg)
  | fail (e : Errno)
deriving DecidableEq

namespace Nodes

variable {κ α : Type} {t : Nodes κ α} {l : Loc}

/-- The top of the tree is a directory whether it is listed or not. -/
def isDir (t : Nodes κ α) (l : Loc) : Bool :=
  match t.lookup l with
  | some (.dir _) => true
  | some _ => false
  | none => l = []

/-- Take components from the directory `dir` on, up to the first link. `last` says whether a link
    in the last place counts. -/
def walk (t : Nodes κ α) (last : Bool) : Loc → List Seg → Stop
  | dir, [] => .arrive dir
  | dir, .up :: rest => if t.isDir dir then walk t last dir.dropLast rest else .fail .notDir
  | dir, .name n :: rest =>
    if t.isDir dir then
      match t.lookup (dir ++ [n]) with
      | none => if rest = [] then .arrive (dir ++ [n]) else .fail .notFound
      | some (.symlink target) =>
        if rest = [] ∧ last = false then .arrive (dir ++ [n]) else .follow dir target rest
      | some _ => walk t last (dir ++ [n]) rest
    else .fail .notDir

/-- Path resolution with at most `budget` links. -/
def namei (t : Nodes κ α) (last : Bool) : ℕ → Loc → List Seg → Except Errno Loc
  | 0, dir, p =>
    match t.walk last dir p with
    | .arrive l => .ok l
    | .fail e => .error e
    | .follow _ _ _ => .error .loop
  | budget + 1, dir, p =>
    match t.walk last dir p with
    | .arrive l => .ok l
    | .fail e => .error e
    | .follow dir target rest =>
      namei t last budget (if isAbsolute target then [] else dir) (segs target ++ rest)

/-- The kernel gives up at the forty-first link. -/
def resolve (t : Nodes κ α) (last : Bool) (p : List Seg) : Except Errno Loc := t.namei last 40 [] p

/-- How a resolution that succeeds goes, component by component. -/
inductive Resolves (t : Nodes κ α) (last : Bool) : ℕ → Loc → List Seg → Loc → Prop
  | nil {budget d} : Resolves t last budget d [] d
  | up {budget d p l} : t.isDir d = true → Resolves t last budget d.dropLast p l →
      Resolves t last budget d (.up :: p) l
  /-- Nothing is in the last place, -/
  | vacant {budget d n} : t.isDir d = true → t.lookup (d ++ [n]) = none →
      Resolves t last budget d [.name n] (d ++ [n])
  /-- or a link that does not count. -/
  | link {budget d n target} : t.isDir d = true → t.lookup (d ++ [n]) = some (.symlink target) →
      last = false → Resolves t last budget d [.name n] (d ++ [n])
  | follow {budget d n target p l} : t.isDir d = true →
      t.lookup (d ++ [n]) = some (.symlink target) → ¬ (p = [] ∧ last = false) →
      Resolves t last budget (if isAbsolute target then [] else d) (segs target ++ p) l →
      Resolves t last (budget + 1) d (.name n :: p) l
  | down {budget d n i p l} : t.isDir d = true → t.lookup (d ++ [n]) = some i →
      (∀ target, i ≠ .symlink target) → Resolves t last budget (d ++ [n]) p l →
      Resolves t last budget d (.name n :: p) l

theorem namei_eq (last : Bool) (budget : ℕ) (dir : Loc) (p : List Seg) :
    t.namei last budget dir p =
      match t.walk last dir p, budget with
      | .arrive l, _ => .ok l
      | .fail e, _ => .error e
      | .follow _ _ _, 0 => .error .loop
      | .follow d target rest, budget + 1 =>
        t.namei last budget (if isAbsolute target then [] else d) (segs target ++ rest) := by
  cases budget with
  | zero | succ budget => rw [namei]; cases t.walk last dir p <;> rfl

theorem namei_down {last : Bool} {budget : ℕ} {dir : Loc} {n : Name} {i : Inode κ α} {p : List Seg}
    (hd : t.isDir dir = true) (hlk : t.lookup (dir ++ [n]) = some i)
    (hi : ∀ target, i ≠ .symlink target) :
    t.namei last budget dir (.name n :: p) = t.namei last budget (dir ++ [n]) p := by
  rw [namei_eq, walk, if_pos hd, hlk]
  cases i with
  | symlink target => exact absurd rfl (hi target)
  | dir | file => exact (namei_eq ..).symm

theorem namei_eq_ok {last : Bool} {budget : ℕ} {dir : Loc} {p : List Seg} :
    t.namei last budget dir p = .ok l ↔ t.Resolves last budget dir p l := by
  constructor
  · induction budget using Nat.strongRecOn generalizing dir p with
    | ind budget ihb =>
      induction p generalizing dir with
      | nil =>
        intro h
        rw [namei_eq, walk] at h
        cases h
        exact .nil
      | cons seg p ih =>
        intro h
        have hd : t.isDir dir = true := by
          by_contra hd
          cases seg <;> rw [namei_eq, walk, if_neg hd] at h <;> cases h
        cases seg with
        | up =>
          rw [namei_eq, walk, if_pos hd, ← namei_eq] at h
          exact .up hd (ih h)
        | name n =>
          rw [namei_eq, walk, if_pos hd] at h
          cases hlk : t.lookup (dir ++ [n]) with
          | none =>
            by_cases hp : p = []
            · simp only [hlk, if_pos hp] at h
              cases h
              exact hp ▸ .vacant hd hlk
            · simp only [hlk, if_neg hp] at h
              cases h
          | some i =>
            cases i with
            | symlink target =>
              by_cases hp : p = [] ∧ last = false
              · simp only [hlk, if_pos hp] at h
                cases h
                exact hp.1 ▸ .link hd hlk hp.2
              · simp only [hlk, if_neg hp] at h
                cases budget with
                | zero => cases h
                | succ budget => exact .follow hd hlk hp (ihb budget (Nat.lt_succ_self _) h)
            | dir | file =>
              simp only [hlk] at h
              rw [← namei_eq] at h
              exact .down hd hlk nofun (ih h)
  · intro h
    induction h with
    | nil => rw [namei_eq, walk]
    | up hd _ ih => rw [namei_eq, walk, if_pos hd, ← namei_eq, ih]
    | vacant hd hlk => simp [namei_eq, walk, hd, hlk]
    | link hd hlk hlast => simp [namei_eq, walk, hd, hlk, hlast]
    | follow hd hlk hp _ ih =>
      rw [namei_eq, walk, if_pos hd, hlk]
      simp only [if_neg hp, ih]
    | down hd hlk hi _ ih => rw [namei_down hd hlk hi, ih]

def set (t : Nodes κ α) (l : Loc) (i : Inode κ α) : Nodes κ α :=
  (l, i) :: t.filter fun e => e.1 ≠ l

def remove (t : Nodes κ α) (l : Loc) : Nodes κ α := t.filter fun e => e.1 ≠ l

def prune (t : Nodes κ α) (l : Loc) : Nodes κ α := t.filter fun e => ¬ l <+: e.1

def children (t : Nodes κ α) (l : Loc) : List Name :=
  t.filterMap fun e =>
    match e.1.getLast? with
    | some n => if e.1.dropLast = l then some n else none
    | none => none

theorem isDir_of_shape {t' : Nodes κ α}
    (h : (t'.lookup l).map Inode.shape = (t.lookup l).map Inode.shape) : t'.isDir l = t.isDir l := by
  unfold isDir
  generalize t.lookup l = o at h ⊢
  generalize t'.lookup l = o' at h ⊢
  cases o with
  | none =>
    rw [map_none, map_eq_none_iff] at h
    rw [h]
  | some i =>
    obtain ⟨j, rfl, hj⟩ := map_eq_some_iff.mp h
    cases i <;> cases j <;> first | rfl | cases hj

theorem mem_children {n : Name} : n ∈ t.children l ↔ t.lookup (l ++ [n]) ≠ none := by
  have hentry : ∀ e : Loc × Inode κ α, (match e.1.getLast? with
      | some m => if e.1.dropLast = l then some m else none
      | none => none) = some n ↔ e.1 = l ++ [n] := by
    intro e
    rcases eq_nil_or_concat e.1 with hnil | ⟨q, m, hq⟩
    · simp [hnil]
    · rw [hq, concat_eq_append]
      simp only [getLast?_concat, dropLast_concat, append_singleton_inj]
      split
      · rename_i hql; simp [hql]
      · rename_i hql; simp [hql]
  unfold children
  rw [mem_filterMap, ne_eq, lookup_eq_none_iff]
  simp only [hentry, bne_iff_ne, ne_eq, not_forall, not_not, exists_prop]
  exact exists_congr fun e => and_congr_right fun _ => eq_comm

theorem children_eq_nil_iff : t.children l = [] ↔ ∀ n, t.lookup (l ++ [n]) = none := by
  rw [eq_nil_iff_forall_not_mem]
  exact forall_congr' fun n => by rw [mem_children, not_not]

/-! ### Looking things up after a change -/

theorem lookup_filter (t : Nodes κ α) (f : Loc → Bool) (l : Loc) :
    List.lookup l (t.filter fun e => f e.1) = if f l then t.lookup l else none := by
  induction t with
  | nil => cases f l <;> rfl
  | cons e t ih =>
    obtain ⟨m, i⟩ := e
    by_cases hm : l = m
    · subst hm
      by_cases hf : f l
      · simp [hf]
      · simp [hf, ih]
    · have hne : (l == m) = false := by simpa using hm
      by_cases hf : f m
      · simp only [filter_cons, hf, if_true, lookup_cons, hne, ih]
      · rw [filter_cons_of_neg (by simpa using hf), ih, lookup_cons, hne]

theorem lookup_remove (t : Nodes κ α) (l m : Loc) :
    List.lookup m (t.remove l) = if m = l then none else t.lookup m := by
  have h := lookup_filter t (fun x => decide (x ≠ l)) m
  by_cases hm : m = l <;> simpa [remove, hm] using h

theorem lookup_set (t : Nodes κ α) (l m : Loc) (i : Inode κ α) :
    List.lookup m (t.set l i) = if m = l then some i else t.lookup m := by
  have h := lookup_remove t l m
  unfold remove at h
  unfold set
  by_cases hm : m = l
  · subst hm; simp
  · have hne : (m == l) = false := by simpa using hm
    rw [lookup_cons, hne, if_neg hm]
    rw [if_neg hm] at h
    exact h

theorem lookup_prune (t : Nodes κ α) (l m : Loc) :
    List.lookup m (t.prune l) = if l <+: m then none else t.lookup m := by
  have h := lookup_filter t (fun x => decide (¬ l <+: x)) m
  by_cases hm : l <+: m <;> simpa [prune, hm] using h

end Nodes

/-! ## Calls -/

/-- A change that a call made: the tree before, the path, whether a link in the last place was
    followed, and the place. -/
structure Call (κ α : Type) where
  before : Nodes κ α
  path : List Seg
  follow : Bool
  loc : Loc
deriving DecidableEq

structure Fs (κ α : Type) where
  nodes : Nodes κ α
  log : List (Call κ α)
deriving DecidableEq

namespace Fs

variable {κ α : Type}

def lookup (s : Fs κ α) (l : Loc) : Option (Inode κ α) := s.nodes.lookup l

def act (s : Fs κ α) (path : List Seg) (follow : Bool) (loc : Loc) (nodes : Nodes κ α) : Fs κ α :=
  ⟨nodes, ⟨s.nodes, path, follow, loc⟩ :: s.log⟩

def mkdir [Inhabited α] (s : Fs κ α) (p : List Seg) : Except Errno (Fs κ α) :=
  match s.nodes.resolve false p with
  | .error e => .error e
  | .ok l =>
    match s.lookup l with
    | some _ => .error .alreadyExists
    | none =>
      if l = [] then .error .alreadyExists
      else .ok (s.act p false l (s.nodes.set l (.dir default)))

def removeFile (s : Fs κ α) (p : List Seg) : Except Errno (Fs κ α) :=
  match s.nodes.resolve false p with
  | .error e => .error e
  | .ok l =>
    match s.lookup l with
    | none => .error .notFound
    | some (.dir _) => .error .isDir
    | some _ => .ok (s.act p false l (s.nodes.remove l))

def removeDir (s : Fs κ α) (p : List Seg) : Except Errno (Fs κ α) :=
  match s.nodes.resolve false p with
  | .error e => .error e
  | .ok l =>
    match s.lookup l with
    | none => .error .notFound
    | some (.dir _) =>
      if l = [] then .error .busy
      else if s.nodes.children l = [] then .ok (s.act p false l (s.nodes.remove l))
      else .error .notEmpty
    | some _ => .error .notDir

/-- `symlink`. An empty target is refused. -/
def symlink (s : Fs κ α) (target : List Char) (p : List Seg) : Except Errno (Fs κ α) :=
  if target = [] then .error .notFound
  else
    match s.nodes.resolve false p with
    | .error e => .error e
    | .ok l =>
      match s.lookup l with
      | some _ => .error .alreadyExists
      | none =>
        if l = [] then .error .alreadyExists
        else .ok (s.act p false l (s.nodes.set l (.symlink target)))

/-- `open` for writing with creation and truncation, then writing. A file keeps its attributes. -/
def write [Inhabited α] (s : Fs κ α) (content : κ) (p : List Seg) : Except Errno (Fs κ α) :=
  match s.nodes.resolve true p with
  | .error e => .error e
  | .ok l =>
    match s.lookup l with
    | some (.dir _) => .error .isDir
    | some (.symlink _) => .error .loop
    | some (.file _ attr) => .ok (s.act p true l (s.nodes.set l (.file content attr)))
    | none =>
      if l = [] then .error .isDir
      else .ok (s.act p true l (s.nodes.set l (.file content default)))

/-- `remove_dir_all`: a link is removed itself, a directory with everything below it. -/
def removeDirAll (s : Fs κ α) (p : List Seg) : Except Errno (Fs κ α) :=
  match s.nodes.resolve false p with
  | .error e => .error e
  | .ok l =>
    match s.lookup l with
    | none => .error .notFound
    | some (.dir _) =>
      if l = [] then .error .busy else .ok (s.act p false l (s.nodes.prune l))
    | some (.symlink _) => .ok (s.act p false l (s.nodes.remove l))
    | some (.file _ _) => .error .notDir

/-- `chmod`, `chown`, `utimensat`, `setxattr`: change the attributes of what a path leads to. -/
def setAttr (s : Fs κ α) (f : α → α) (p : List Seg) : Except Errno (Fs κ α) :=
  match s.nodes.resolve true p with
  | .error e => .error e
  | .ok l =>
    match s.lookup l with
    | none => .error .notFound
    | some (.symlink _) => .error .loop
    | some (.dir attr) => .ok (s.act p true l (s.nodes.set l (.dir (f attr))))
    | some (.file content attr) => .ok (s.act p true l (s.nodes.set l (.file content (f attr))))

/-- `stat`: the attributes of what a path leads to. -/
def metadata (s : Fs κ α) (p : List Seg) : Except Errno α :=
  match s.nodes.resolve true p with
  | .error e => .error e
  | .ok l =>
    match s.lookup l with
    | none => .error .notFound
    | some (.symlink _) => .error .loop
    | some (.dir attr) => .ok attr
    | some (.file _ attr) => .ok attr

/-- `stat` and `read`: what a path leads to. -/
def stat (s : Fs κ α) (p : List Seg) : Except Errno (Inode κ α) :=
  match s.nodes.resolve true p with
  | .error e => .error e
  | .ok l =>
    match s.lookup l with
    | none => .error .notFound
    | some (.symlink _) => .error .loop
    | some i => .ok i

def isDirAt (s : Fs κ α) (p : List Seg) : Bool :=
  match s.nodes.resolve true p with
  | .error _ => false
  | .ok l => s.nodes.isDir l

def readDir (s : Fs κ α) (p : List Seg) : Except Errno (List Name) :=
  match s.nodes.resolve true p with
  | .error e => .error e
  | .ok l => if s.nodes.isDir l then .ok (s.nodes.children l) else .error .notDir

/-- What is left of `create_dir_all` when an attempt to make the directory failed with `e`. -/
def settle (s : Fs κ α) (p : List Seg) (e : Errno) : Except Errno Unit :=
  if s.isDirAt p then .ok () else .error e

/-- `create_dir_all` on the reversed path: try; make the parent if that is what is missing; try
    again. -/
def createDirAllRev [Inhabited α] (s : Fs κ α) : List Seg → Except Errno Unit × Fs κ α
  | [] => (.ok (), s)
  | seg :: above =>
    let p := (seg :: above).reverse
    match s.mkdir p with
    | .ok s => (.ok (), s)
    | .error .notFound =>
      match createDirAllRev s above with
      | (.error e, s) => (.error e, s)
      | (.ok (), s) =>
        match s.mkdir p with
        | .ok s => (.ok (), s)
        | .error e => (s.settle p e, s)
    | .error e => (s.settle p e, s)

def createDirAll [Inhabited α] (s : Fs κ α) (p : List Seg) : Except Errno Unit × Fs κ α :=
  s.createDirAllRev p.reverse

/-! ## What a call that succeeded did -/

variable {s s' : Fs κ α} {p : List Seg} {f : α → α}

theorem removeFile_ok (h : s.removeFile p = .ok s') :
    ∃ l i, s.nodes.resolve false p = .ok l ∧ s.lookup l = some i ∧ (∀ a, i ≠ .dir a) ∧
      s' = s.act p false l (s.nodes.remove l) := by
  revert h
  fun_cases removeFile s p with
  | case1 | case2 | case3 => rintro ⟨⟩
  | case4 l hl i hi hlk =>
    rintro ⟨⟩
    exact ⟨l, i, hl, hlk, hi, rfl⟩

theorem write_ok [Inhabited α] {content : κ} (h : s.write content p = .ok s') :
    ∃ l attr, s.nodes.resolve true p = .ok l ∧
      ((s.lookup l = none ∧ l ≠ []) ∨ ∃ old, s.lookup l = some (.file old attr)) ∧
      s' = s.act p true l (s.nodes.set l (.file content attr)) := by
  revert h
  fun_cases write s content p with
  | case1 | case2 | case3 | case5 => rintro ⟨⟩
  | case4 l hl old attr hlk =>
    rintro ⟨⟩
    exact ⟨l, attr, hl, .inr ⟨old, hlk⟩, rfl⟩
  | case6 l hl hlk hne =>
    rintro ⟨⟩
    exact ⟨l, default, hl, .inl ⟨hlk, hne⟩, rfl⟩

theorem removeDirAll_ok (h : s.removeDirAll p = .ok s') :
    ∃ l, s.nodes.resolve false p = .ok l ∧
      ((∃ a, s.lookup l = some (.dir a) ∧ l ≠ [] ∧ s' = s.act p false l (s.nodes.prune l)) ∨
        ∃ t, s.lookup l = some (.symlink t) ∧ s' = s.act p false l (s.nodes.remove l)) := by
  revert h
  fun_cases removeDirAll s p with
  | case1 | case2 | case3 | case6 => rintro ⟨⟩
  | case4 l hl a hlk hne =>
    rintro ⟨⟩
    exact ⟨l, hl, .inl ⟨a, hlk, hne, rfl⟩⟩
  | case5 l hl t hlk =>
    rintro ⟨⟩
    exact ⟨l, hl, .inr ⟨t, hlk, rfl⟩⟩

theorem setAttr_ok (h : s.setAttr f p = .ok s') :
    ∃ l, s.nodes.resolve true p = .ok l ∧
      ((∃ a, s.lookup l = some (.dir a) ∧ s' = s.act p true l (s.nodes.set l (.dir (f a)))) ∨
        ∃ content a, s.lookup l = some (.file content a) ∧
          s' = s.act p true l (s.nodes.set l (.file content (f a)))) := by
  revert h
  fun_cases setAttr s f p with
  | case1 | case2 | case3 => rintro ⟨⟩
  | case4 l hl a hlk =>
    rintro ⟨⟩
    exact ⟨l, hl, .inl ⟨a, hlk, rfl⟩⟩
  | case5 l hl content a hlk =>
    rintro ⟨⟩
    exact ⟨l, hl, .inr ⟨content, a, hlk, rfl⟩⟩

theorem setAttr_shape (h : s.setAttr f p = .ok s') (l : Loc) :
    (s'.lookup l).map Inode.shape = (s.lookup l).map Inode.shape := by
  have hset : ∀ (m : Loc) (i j : Inode κ α), s.lookup m = some i → j.shape = i.shape →
      (List.lookup l (s.nodes.set m j)).map Inode.shape = (s.lookup l).map Inode.shape := by
    intro m i j hi hshape
    rw [Nodes.lookup_set]
    by_cases hlm : l = m
    · subst hlm
      rw [if_pos rfl, hi, map_some, map_some, hshape]
    · rw [if_neg hlm]
      rfl
  obtain ⟨m, -, ⟨a, hm, rfl⟩ | ⟨content, a, hm, rfl⟩⟩ := setAttr_ok h
  · exact hset m _ _ hm rfl
  · exact hset m _ _ hm rfl

end Fs

end FileTree
