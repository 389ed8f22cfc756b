import Pullrun.Store.Disk

/-!
# Where the files live

A digest with the hex form `aabbcc…` owns the directory `aa/bb/cc…` of the store root. The
collector goes the other way: it walks the directory tree, and reads a digest off the path of every
`node.rkyv` it finds (`pullrun-gc/src/lib.rs`). This module has both directions, and
`walkStoreDir_holds`, which says that they fit: over any tree whose files are those of a disk, in
whatever order the file system lists them, the walk finds every stored node, once, and nothing
else.

A path is the list of its components; a path below the store root is written without the root.
-/

namespace Pullrun

open List

/-! ## From a digest to its files -/

def nodeRkyv : Str := ['n', 'o', 'd', 'e', '.', 'r', 'k', 'y', 'v']
def blobRaw : Str := ['b', 'l', 'o', 'b', '.', 'r', 'a', 'w']
def nodeRefcount : Str := ['n', 'o', 'd', 'e', '.', 'r', 'e', 'f', 'c', 'o', 'u', 'n', 't']
def opsDir : Str := ['o', 'p', 's']

def shardDir (d : Digest) : List Str :=
  [d.asHex.take 2, (d.asHex.drop 2).take 2, d.asHex.drop 4]

def pathFor (d : Digest) : List Str := shardDir d ++ [nodeRkyv]

def pathForBlob (d : Digest) : List Str := shardDir d ++ [blobRaw]

def refcountPath (d : Digest) : List Str := shardDir d ++ [nodeRefcount]

/-- The paths of all files below the root of a store. -/
def Disk.filePaths (k : Disk) : Multiset (List Str) :=
  k.nodes.keys.val.map pathFor + k.blobs.keys.val.map pathForBlob +
    k.refcounts.keys.val.map refcountPath + (k.ops.map fun l => [opsDir, l.opId])

/-! ## From the directory tree to the digests -/

/-- A directory, as `read_dir` lists it. -/
inductive Dir
  | nil
  | file (name : Str) (rest : Dir)
  | dir (name : Str) (inner : Dir) (rest : Dir)

def Dir.files : Dir → List (List Str)
  | .nil => []
  | .file name rest => [name] :: rest.files
  | .dir name inner rest => inner.files.map (name :: ·) ++ rest.files

/-- The files of the tree are those of the disk. Directories are not compared: the store leaves
    empty ones behind. -/
def Dir.Holds (t : Dir) (k : Disk) : Prop := (t.files : Multiset (List Str)) = k.filePaths

instance (t : Dir) (k : Disk) : Decidable (t.Holds k) :=
  inferInstanceAs (Decidable (_ = _))

/-- `digest_from_path`: the three components above the file name, joined. -/
def digestFromPath (path : List Str) : Option Digest :=
  match path.reverse with
  | _ :: tail :: mid :: head :: _ => (Digest.fromHex (head ++ mid ++ tail)).toOption
  | _ => none

/-- The directories `walk_store_dir` does not enter. -/
def skipped (name : Str) : Bool := name == opsDir || name.head? == some '.'

/-- `walk_store_dir`, below the absolute path `path`. -/
def walkStoreDir (path : List Str) : Dir → List Digest
  | .nil => []
  | .file name rest =>
    (if name = nodeRkyv then (digestFromPath (path ++ [name])).toList else []) ++
      walkStoreDir path rest
  | .dir name inner rest =>
    (if skipped name then [] else walkStoreDir (path ++ [name]) inner) ++ walkStoreDir path rest

/-! ## The two directions fit -/

/-- No directory on the way to the file is skipped. -/
def visible : List Str → Bool
  | [] => true
  | [_] => true
  | name :: rest => !skipped name && visible rest

/-- What the walk makes of the file at `p` below `path`. -/
def digestAt (path p : List Str) : Option Digest :=
  if visible p && p.getLast? == some nodeRkyv then digestFromPath (path ++ p) else none

theorem Dir.files_ne_nil {t : Dir} {p : List Str} (h : p ∈ t.files) : p ≠ [] := by
  induction t with
  | nil => exact absurd h (by simp [files])
  | file name rest ih =>
    rcases mem_cons.mp h with rfl | h
    · simp
    · exact ih h
  | dir name inner rest _ ih =>
    rcases mem_append.mp h with h | h
    · obtain ⟨q, -, rfl⟩ := mem_map.mp h
      simp
    · exact ih h

theorem digestAt_cons {path p : List Str} {name : Str} (hp : p ≠ []) :
    digestAt path (name :: p) = if skipped name then none else digestAt (path ++ [name]) p := by
  obtain ⟨q, r, rfl⟩ := exists_cons_of_ne_nil hp
  simp only [digestAt, visible, getLast?_cons_cons, append_assoc, singleton_append]
  cases skipped name <;> simp

theorem walkStoreDir_eq (path : List Str) (t : Dir) :
    walkStoreDir path t = t.files.filterMap (digestAt path) := by
  induction t generalizing path with
  | nil => rfl
  | file name rest ih =>
    have hone : (if name = nodeRkyv then (digestFromPath (path ++ [name])).toList else [])
        = (digestAt path [name]).toList := by
      by_cases h : name = nodeRkyv <;> simp [digestAt, visible, h]
    rw [walkStoreDir, Dir.files, hone, ih, filterMap_cons]
    cases digestAt path [name] <;> rfl
  | dir name inner rest ihi ihr =>
    rw [walkStoreDir, Dir.files, filterMap_append, ihr, ihi, filterMap_map]
    congr 1
    have hcons : ∀ p ∈ inner.files, (digestAt path ∘ (name :: ·)) p
        = if skipped name then none else digestAt (path ++ [name]) p :=
      fun p hp => digestAt_cons (Dir.files_ne_nil hp)
    rw [filterMap_congr hcons]
    cases skipped name <;> simp

theorem hexDigit_ne_special {n : ℕ} (h : n < 16) :
    Digest.hexDigit n ≠ 'o' ∧ Digest.hexDigit n ≠ '.' := by
  interval_cases n <;> decide

/-- Every character of a hex string is a nibble, so no shard directory is skipped. -/
theorem not_skipped_of_hex {s : Str} (h : ∀ ch ∈ s, ch ≠ 'o' ∧ ch ≠ '.') : skipped s = false := by
  cases s with
  | nil => rfl
  | cons ch s =>
    obtain ⟨ho, hdot⟩ := h ch mem_cons_self
    simp [skipped, opsDir, ho, hdot]

theorem mem_hexEncode {bs : Bytes} {ch : Char} (h : ch ∈ Digest.hexEncode bs) :
    ch ≠ 'o' ∧ ch ≠ '.' := by
  induction bs with
  | nil => exact absurd h (by simp [Digest.hexEncode])
  | cons b bs ih =>
    have hlt : b.toNat < 256 := b.toNat_lt
    rw [Digest.hexEncode, mem_cons, mem_cons] at h
    rcases h with rfl | rfl | h
    · exact hexDigit_ne_special (by omega)
    · exact hexDigit_ne_special (by omega)
    · exact ih h

theorem visible_shardDir (d : Digest) (name : Str) : visible (shardDir d ++ [name]) = true := by
  have hall : ∀ ch ∈ d.asHex, ch ≠ 'o' ∧ ch ≠ '.' := fun _ hch => mem_hexEncode hch
  have h1 : skipped (d.asHex.take 2) = false :=
    not_skipped_of_hex fun ch hch => hall ch (mem_of_mem_take hch)
  have h2 : skipped ((d.asHex.drop 2).take 2) = false :=
    not_skipped_of_hex fun ch hch => hall ch (mem_of_mem_drop (mem_of_mem_take hch))
  have h3 : skipped (d.asHex.drop 4) = false :=
    not_skipped_of_hex fun ch hch => hall ch (mem_of_mem_drop hch)
  simp [shardDir, visible, h1, h2, h3]

theorem shardDir_join (d : Digest) :
    d.asHex.take 2 ++ (d.asHex.drop 2).take 2 ++ d.asHex.drop 4 = d.asHex := by
  rw [append_assoc, show d.asHex.drop 4 = (d.asHex.drop 2).drop 2 by rw [drop_drop],
    take_append_drop, take_append_drop]

theorem digestFromPath_pathFor (root : List Str) (d : Digest) :
    digestFromPath (root ++ pathFor d) = some d := by
  simp only [digestFromPath, pathFor, shardDir, reverse_append, reverse_cons,
    reverse_nil, nil_append, cons_append, shardDir_join, Digest.fromHex_asHex]
  rfl

theorem digestAt_pathFor (root : List Str) (d : Digest) : digestAt root (pathFor d) = some d := by
  rw [digestAt, digestFromPath_pathFor, pathFor, visible_shardDir]
  simp

theorem digestAt_shardDir_ne (root : List Str) (d : Digest) {name : Str} (h : name ≠ nodeRkyv) :
    digestAt root (shardDir d ++ [name]) = none := by
  simp [digestAt, h]

theorem filterMap_eq_zero {α β : Type*} {g : α → Option β} (h : ∀ a, g a = none)
    (m : Multiset α) : m.filterMap g = 0 := by
  induction m using Multiset.induction_on with
  | empty => rfl
  | cons a m ih => rw [Multiset.filterMap_cons_none _ _ (h a), ih]

theorem walkStoreDir_holds {t : Dir} {k : Disk} (h : t.Holds k) (root : List Str) :
    (walkStoreDir root t : Multiset Digest) = k.nodes.keys.val := by
  have hnode : digestAt root ∘ pathFor = some := funext (digestAt_pathFor root)
  have hblob : ∀ d, (digestAt root ∘ pathForBlob) d = none :=
    fun d => digestAt_shardDir_ne root d (by decide)
  have hcount : ∀ d, (digestAt root ∘ refcountPath) d = none :=
    fun d => digestAt_shardDir_ne root d (by decide)
  have hops : ((k.ops.map fun l => [opsDir, l.opId] : List (List Str)) : Multiset _).filterMap
      (digestAt root) = 0 := by
    rw [← Multiset.map_coe, Multiset.filterMap_map]
    exact filterMap_eq_zero (fun l => (digestAt_cons (by simp)).trans rfl) _
  rw [walkStoreDir_eq, ← Multiset.filterMap_coe, h, Disk.filePaths]
  simp only [Multiset.filterMap_add, Multiset.filterMap_map, hnode, Multiset.filterMap_some,
    filterMap_eq_zero hblob, filterMap_eq_zero hcount, hops, add_zero]

end Pullrun
