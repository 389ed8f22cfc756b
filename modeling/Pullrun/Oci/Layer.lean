import Pullrun.Lib.FileModel
import Pullrun.Oci.Converter

/-!
# Well-formed layers and their union

What an image is meant to be, independently of how the runtime gets there. A layer of the OCI image
format lists directories, files and links, and markers that hide what is in the layers below: a
*whiteout* `.wh.x` hides `x`, an *opaque* marker `.wh..wh..opq` hides what is in its directory.
`Layer` is such a list, well-formed: names are proper names, no place is listed twice, the
directories above each entry are listed, and a hard link leads to a file of the layer.

`Layer.archive` is the tar archive of a layer, the converter's input. `union` is the file tree that a
stack of layers stands for: at each place there is what the topmost layer has that defines it, unless
a layer above hides it.
-/

namespace Pullrun

open FileTree

inductive ItemKind
  /-- A directory; its path in the archive may end with a slash. -/
  | dir (slash : Bool)
  | file (data : Bytes)
  | symlink (target : Str)
  /-- A second name of the file at a place. -/
  | hardLink (target : Loc)
  | whiteout
  | opaqueDir
deriving DecidableEq

namespace ItemKind

def isDir : ItemKind → Bool
  | .dir _ => true
  | _ => false

def isSymlink : ItemKind → Bool
  | .symlink _ => true
  | _ => false

def isHardLink : ItemKind → Bool
  | .hardLink _ => true
  | _ => false

def isReal : ItemKind → Bool
  | .whiteout | .opaqueDir => false
  | _ => true

end ItemKind

/-- An entry of a layer: the place it is about, what it is, and what else is in its header. -/
structure Item where
  loc : Loc
  kind : ItemKind
  mode : UInt32 := 0o644
  uid : UInt64 := 0
  gid : UInt64 := 0
  mtime : UInt64 := 0
  pax : List (Str × Bytes) := []
deriving DecidableEq

namespace Item

def parent (i : Item) : Loc := i.loc.dropLast

def name (i : Item) : Name := i.loc.getLast?.getD []

def tarLoc (i : Item) : Loc :=
  match i.kind with
  | .whiteout => i.parent ++ [whPrefix ++ i.name]
  | .opaqueDir => i.loc ++ [opaqueName]
  | _ => i.loc

def path (i : Item) : Str :=
  match i.kind with
  | .dir true => i.loc.text ++ ['/']
  | _ => i.tarLoc.text

def entryType (i : Item) : EntryType :=
  match i.kind with
  | .dir _ => .directory
  | .symlink _ => .symlink
  | .hardLink _ => .hardLink
  | _ => .regular

@[simp]
theorem entryType_directory (i : Item) : i.entryType = .directory ↔ i.kind.isDir = true := by
  unfold entryType ItemKind.isDir
  cases i.kind <;> simp

@[simp]
theorem entryType_symlink (i : Item) : i.entryType = .symlink ↔ i.kind.isSymlink = true := by
  unfold entryType ItemKind.isSymlink
  cases i.kind <;> simp

@[simp]
theorem entryType_hardLink (i : Item) : i.entryType = .hardLink ↔ i.kind.isHardLink = true := by
  unfold entryType ItemKind.isHardLink
  cases i.kind <;> simp

def data (i : Item) : Bytes :=
  match i.kind with
  | .file data => data
  | _ => []

def linkName (i : Item) : Option Str :=
  match i.kind with
  | .symlink target => some target
  | .hardLink target => some target.text
  | _ => none

def header (i : Item) : Header :=
  ⟨i.entryType, i.mode, UInt64.ofNat i.data.length, i.uid, i.gid, i.mtime, i.linkName⟩

@[simp]
theorem header_entryType (i : Item) : i.header.entryType = i.entryType := rfl

/-- The item hides what the layers below have at `p`. A file or a link hides what is below the
    directory that it replaces. -/
def hides (i : Item) (p : Loc) : Prop :=
  match i.kind with
  | .whiteout => i.loc <+: p
  | .dir _ => False
  | _ => i.loc <+: p ∧ i.loc ≠ p

instance (i : Item) (p : Loc) : Decidable (i.hides p) := by
  unfold hides
  split <;> infer_instance

def entry (i : Item) : LayerEntry := ⟨.ok i.path, .ok i.header, i.pax, .ok i.data⟩

end Item

structure Layer where
  items : List Item
  /-- Places have proper names; names with the whiteout prefix are reserved. -/
  names : ∀ i ∈ items, i.loc ≠ [] ∧ i.loc.Ok ∧ ∀ n ∈ i.loc, ¬ whPrefix <+: n
  distinct : (items.map Item.tarLoc).Nodup
  /-- The directories above an entry are listed. -/
  parents : ∀ i ∈ items, ∀ q, q <+: i.tarLoc → q ≠ i.tarLoc → q ≠ [] →
    ∃ d ∈ items, d.loc = q ∧ d.kind.isDir = true
  links : ∀ i ∈ items, ∀ target, i.kind = .symlink target →
    target ≠ [] ∧ '\x00' ∉ target
  hardLinks : ∀ i ∈ items, ∀ target, i.kind = .hardLink target →
    ∃ f ∈ items, f.loc = target ∧ ∃ data, f.kind = .file data

namespace Layer

def wellFormed (items : List Item) : Bool :=
  decide (∀ i ∈ items, i.loc ≠ [] ∧ i.loc.Ok ∧ ∀ n ∈ i.loc, ¬ whPrefix <+: n) &&
  decide (items.map Item.tarLoc).Nodup &&
  decide (∀ i ∈ items, ∀ q ∈ i.tarLoc.inits, q ≠ i.tarLoc → q ≠ [] →
    ∃ d ∈ items, d.loc = q ∧ d.kind.isDir = true) &&
  items.all fun i =>
    match i.kind with
    | .symlink target => target != [] && !target.contains '\x00'
    | .hardLink target => items.any fun f =>
        f.loc == target && (match f.kind with | .file _ => true | _ => false)
    | _ => true

def ofItems (items : List Item) (h : wellFormed items = true) : Layer where
  items := items
  names := by
    simp only [wellFormed, Bool.and_eq_true, decide_eq_true_eq] at h
    exact h.1.1.1
  distinct := by
    simp only [wellFormed, Bool.and_eq_true, decide_eq_true_eq] at h
    exact h.1.1.2
  parents := by
    simp only [wellFormed, Bool.and_eq_true, decide_eq_true_eq] at h
    exact fun i hi q hq => h.1.2 i hi q ((List.mem_inits q i.tarLoc).mpr hq)
  links := by
    simp only [wellFormed, Bool.and_eq_true, List.all_eq_true] at h
    intro i hi target htarget
    have hlink := h.2 i hi
    rw [htarget] at hlink
    simpa using hlink
  hardLinks := by
    simp only [wellFormed, Bool.and_eq_true, List.all_eq_true] at h
    intro i hi target htarget
    have hlink := h.2 i hi
    rw [htarget] at hlink
    obtain ⟨f, hf, hfile⟩ := List.any_eq_true.mp hlink
    rw [Bool.and_eq_true, beq_iff_eq] at hfile
    refine ⟨f, hf, hfile.1, ?_⟩
    cases hk : f.kind with
    | file data => exact ⟨data, rfl⟩
    | _ => rw [hk] at hfile; cases hfile.2

def archive (L : Layer) : Archive := L.items.map fun i => .ok i.entry

def fileAt (L : Layer) (p : Loc) : Bytes :=
  match L.items.find? fun i => i.loc = p ∧ i.kind.isReal with
  | some i => i.data
  | none => []

/-- The contents of an item: those of its file, if it is a hard link. -/
def contents (L : Layer) (i : Item) : Bytes :=
  match i.kind with
  | .hardLink target => L.fileAt target
  | _ => i.data

def shape (L : Layer) (i : Item) : Option (Inode Bytes Unit) :=
  match i.kind with
  | .dir _ => some (.dir ())
  | .symlink target => some (.symlink target)
  | .file _ | .hardLink _ => some (.file (L.contents i) ())
  | .whiteout | .opaqueDir => none

def at? (L : Layer) (p : Loc) : Option (Inode Bytes Unit) :=
  match L.items.find? fun i => i.loc = p ∧ i.kind.isReal with
  | some i => L.shape i
  | none => none

/-- `U` with the layer on top. -/
def onTop (L : Layer) (U : View Bytes) : View Bytes := fun p =>
  match L.at? p with
  | some i => some i
  | none => if ∃ i ∈ L.items, i.hides p then none else U p

end Layer

/-- **The file tree that a stack of layers stands for**, lowest layer first. -/
def union (layers : List Layer) : View Bytes := layers.foldl (fun U L => L.onTop U) fun _ => none

end Pullrun
