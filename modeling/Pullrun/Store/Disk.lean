import Mathlib.Data.Finmap
import Pullrun.Lib.Cascade
import Pullrun.Store.Node

/-!
# The files of a store

`pullrun-store/src/store.rs`. A digest owns one directory of the store, and in it at most three
files: `node.rkyv` (the serialized node), `blob.raw` (the content of a large file, kept beside its
node) and `node.refcount` (eight bytes, the reference count). `Disk` is these files, keyed by
digest; `Store/Layout.lean` says at which paths they live and that no two of them share one.

A reference count is kept as the number it encodes. It is a `u64` in the source; the count of a
digest is bounded by the increments made so far, so a wrap-around would need 2⁶⁴ file writes.
-/

namespace Pullrun

open Finmap

/-- Files of one kind, by the digest that owns them. -/
abbrev FileMap (α : Type) := Finmap fun _ : Digest => α

namespace FileMap

variable {α : Type}

theorem lookup_insert_if {κ : Type} [DecidableEq κ] (m : Finmap fun _ : κ => α) (d e : κ) (a : α) :
    lookup e (m.insert d a) = if e = d then some a else m.lookup e := by
  by_cases h : e = d
  · subst h; rw [if_pos rfl, lookup_insert]
  · rw [if_neg h, lookup_insert_of_ne _ h]

theorem lookup_erase_if {κ : Type} [DecidableEq κ] (m : Finmap fun _ : κ => α) (d e : κ) :
    lookup e (m.erase d) = if e = d then none else m.lookup e := by
  by_cases h : e = d
  · subst h; rw [if_pos rfl, lookup_erase]
  · rw [if_neg h, lookup_erase_ne h]

theorem mem_keys_iff {m : FileMap α} {d : Digest} : d ∈ m.keys ↔ (m.lookup d).isSome := by
  rw [mem_keys, lookup_isSome]

theorem erase_absent {m : FileMap α} {d : Digest} (h : m.lookup d = none) : m.erase d = m := by
  refine ext_lookup fun e => ?_
  rw [lookup_erase_if]
  split
  · rename_i he; rw [he, h]
  · rfl

end FileMap

/-- An op lock file: `ops/<op_id>` with its modification time (nanoseconds since the epoch) and
    its lines. -/
structure OpLockFile where
  opId : Str
  modified : ℕ
  lines : List Str
deriving DecidableEq

structure Disk where
  /-- `node.rkyv` -/
  nodes : FileMap Bytes
  /-- `blob.raw` -/
  blobs : FileMap Bytes
  /-- `node.refcount` -/
  refcounts : FileMap ℕ
  /-- `ops/*` -/
  ops : List OpLockFile

namespace Disk

def empty : Disk := ⟨∅, ∅, ∅, []⟩

def hasNode (k : Disk) (d : Digest) : Bool := (k.nodes.lookup d).isSome

def hasBlob (k : Disk) (d : Digest) : Bool := (k.blobs.lookup d).isSome

/-! ## Reference counts -/

/-- `get_refcount`: no file means zero. -/
def getRefcount (k : Disk) (d : Digest) : ℕ := (k.refcounts.lookup d).getD 0

/-- `set_refcount`: a zero count removes the file. -/
def setRefcount (k : Disk) (d : Digest) (count : ℕ) : Disk :=
  if count = 0 then { k with refcounts := k.refcounts.erase d }
  else { k with refcounts := k.refcounts.insert d count }

/-- `increment_refcount`: the new count, and the disk with it. -/
def incrementRefcount (k : Disk) (d : Digest) : ℕ × Disk :=
  let count := k.getRefcount d + 1
  (count, k.setRefcount d count)

def decrementRefcount (k : Disk) (d : Digest) : ℕ × Disk :=
  let new := k.getRefcount d - 1
  (new, k.setRefcount d new)

@[simp] theorem setRefcount_nodes (k : Disk) (d : Digest) (n : ℕ) :
    (k.setRefcount d n).nodes = k.nodes := by
  unfold setRefcount; split <;> rfl

@[simp] theorem setRefcount_blobs (k : Disk) (d : Digest) (n : ℕ) :
    (k.setRefcount d n).blobs = k.blobs := by
  unfold setRefcount; split <;> rfl

@[simp] theorem setRefcount_ops (k : Disk) (d : Digest) (n : ℕ) :
    (k.setRefcount d n).ops = k.ops := by
  unfold setRefcount; split <;> rfl

@[simp] theorem hasNode_setRefcount (k : Disk) (d e : Digest) (n : ℕ) :
    (k.setRefcount d n).hasNode e = k.hasNode e := by
  rw [hasNode, setRefcount_nodes, hasNode]

@[simp] theorem hasNode_incrementRefcount (k : Disk) (d e : Digest) :
    (k.incrementRefcount d).2.hasNode e = k.hasNode e := hasNode_setRefcount k d e _

theorem getRefcount_setRefcount (k : Disk) (d e : Digest) (n : ℕ) :
    (k.setRefcount d n).getRefcount e = if e = d then n else k.getRefcount e := by
  unfold setRefcount getRefcount
  split
  · rename_i h
    rw [FileMap.lookup_erase_if]
    split
    · rw [Option.getD_none, h]
    · rfl
  · rw [FileMap.lookup_insert_if]
    split <;> rfl

def Positive (k : Disk) : Prop := ∀ d, k.refcounts.lookup d ≠ some 0

variable {k : Disk} {c : Codec}

theorem Positive.of_eq {k' : Disk} (h : k.Positive) (he : k'.refcounts = k.refcounts) :
    k'.Positive := by
  intro d
  rw [he]
  exact h d

theorem Positive.setRefcount (h : k.Positive) (d : Digest) (n : ℕ) :
    (k.setRefcount d n).Positive := by
  intro e
  unfold Disk.setRefcount
  split
  · rw [FileMap.lookup_erase_if]
    split
    · simp
    · exact h e
  · rename_i hn
    rw [FileMap.lookup_insert_if]
    split
    · simpa using hn
    · exact h e

theorem Positive.isSome_iff (h : k.Positive) (d : Digest) :
    (k.refcounts.lookup d).isSome ↔ 0 < k.getRefcount d := by
  have := h d
  unfold getRefcount
  cases hl : k.refcounts.lookup d with
  | none => simp
  | some n =>
    rw [hl] at this
    simp only [Option.isSome_some, Option.getD_some, true_iff]
    exact Nat.pos_of_ne_zero fun hz => this (by rw [hz])

/-! ## Writing and removing files

`write_atomically` and `remove_file`, at the three paths of a digest. Removing a file that is not
there changes nothing; the source ignores the error. -/

def writeNode (k : Disk) (d : Digest) (b : Bytes) : Disk := { k with nodes := k.nodes.insert d b }
def writeBlob (k : Disk) (d : Digest) (b : Bytes) : Disk := { k with blobs := k.blobs.insert d b }
def removeNode (k : Disk) (d : Digest) : Disk := { k with nodes := k.nodes.erase d }
def removeBlob (k : Disk) (d : Digest) : Disk := { k with blobs := k.blobs.erase d }
def removeRefcount (k : Disk) (d : Digest) : Disk := { k with refcounts := k.refcounts.erase d }

theorem hasNode_writeNode (k : Disk) (d e : Digest) (b : Bytes) :
    (k.writeNode d b).hasNode e = true ↔ e = d ∨ k.hasNode e = true := by
  unfold hasNode writeNode
  rw [FileMap.lookup_insert_if]
  by_cases h : e = d <;> simp [h]

theorem hasNode_removeNode (k : Disk) (d e : Digest) :
    (k.removeNode d).hasNode e = true ↔ e ≠ d ∧ k.hasNode e = true := by
  unfold hasNode removeNode
  rw [FileMap.lookup_erase_if]
  by_cases h : e = d <;> simp [h]

theorem getRefcount_removeRefcount (k : Disk) (d e : Digest) :
    (k.removeRefcount d).getRefcount e = if e = d then 0 else k.getRefcount e := by
  unfold removeRefcount getRefcount
  rw [FileMap.lookup_erase_if]
  split <;> rfl

theorem Positive.removeRefcount (h : k.Positive) (d : Digest) : (k.removeRefcount d).Positive := by
  intro e
  change lookup e (k.refcounts.erase d) ≠ some 0
  rw [FileMap.lookup_erase_if]
  split
  · simp
  · exact h e

/-! ## The graph of a disk -/

/-- The edges a stored node's bytes validate to; none if the file is missing or invalid. -/
def edgesOf (c : Codec) (k : Disk) (d : Digest) : List Digest :=
  match k.nodes.lookup d with
  | none => []
  | some b =>
    match c.checkArchivedRoot b with
    | .ok n => n.edges
    | .error _ => []

theorem edgesOf_absent {d : Digest} (h : k.nodes.lookup d = none) : k.edgesOf c d = [] := by
  unfold edgesOf; rw [h]

theorem edgesOf_ok {d : Digest} {b : Bytes} {n : DagNode} (h : k.nodes.lookup d = some b)
    (hc : c.checkArchivedRoot b = .ok n) : k.edgesOf c d = n.edges := by
  unfold edgesOf; rw [h]; simp only [hc]

theorem edgesOf_congr {k' : Disk} (h : k.nodes = k'.nodes) (d : Digest) :
    k.edgesOf c d = k'.edgesOf c d := by
  unfold edgesOf; rw [h]

theorem edgesOf_writeNode (c : Codec) (k : Disk) (d e : Digest) (b : Bytes) {n : DagNode}
    (hc : c.checkArchivedRoot b = .ok n) :
    (k.writeNode d b).edgesOf c e = if e = d then n.edges else k.edgesOf c e := by
  unfold edgesOf writeNode
  simp only [FileMap.lookup_insert_if]
  by_cases h : e = d
  · simp only [h, if_true, hc]
  · simp only [h, if_false]

theorem edgesOf_removeNode (c : Codec) (k : Disk) (d e : Digest) :
    (k.removeNode d).edgesOf c e = if e = d then [] else k.edgesOf c e := by
  unfold edgesOf removeNode
  simp only [FileMap.lookup_erase_if]
  by_cases h : e = d
  · simp only [h, if_true]
  · simp only [h, if_false]

def graph (c : Codec) (k : Disk) : RefGraph Digest where
  stored := k.nodes.keys
  out := k.edgesOf c
  rc := k.getRefcount
  out_absent d hd := by
    refine edgesOf_absent ?_
    rw [Finmap.mem_keys] at hd
    exact Finmap.lookup_eq_none.mpr hd

@[simp] theorem graph_rc (c : Codec) (k : Disk) : (k.graph c).rc = k.getRefcount := rfl
@[simp] theorem graph_out (c : Codec) (k : Disk) : (k.graph c).out = k.edgesOf c := rfl

theorem mem_graph_stored {d : Digest} : d ∈ (k.graph c).stored ↔ k.hasNode d = true :=
  FileMap.mem_keys_iff

theorem graph_ext {G H : RefGraph Digest} (h1 : ∀ d, d ∈ G.stored ↔ d ∈ H.stored)
    (h2 : ∀ d, G.out d = H.out d) (h3 : ∀ d, G.rc d = H.rc d) : G = H := by
  have hs : G.stored = H.stored := Finset.ext h1
  have ho : G.out = H.out := funext h2
  have hr : G.rc = H.rc := funext h3
  cases G; cases H
  simp only at hs ho hr
  subst hs; subst ho; subst hr
  rfl

theorem graph_setRefcount (c : Codec) (k : Disk) (d : Digest) (n : ℕ) :
    (k.setRefcount d n).graph c = (k.graph c).setRc d n := by
  refine graph_ext (fun e => ?_) (fun e => ?_) (fun e => ?_)
  · rw [mem_graph_stored, RefGraph.setRc_stored, mem_graph_stored]
    simp only [hasNode, setRefcount_nodes]
  · exact edgesOf_congr (setRefcount_nodes k d n) e
  · rw [graph_rc, getRefcount_setRefcount, RefGraph.setRc_rc, graph_rc]

theorem inDeg_congr {k' : Disk} (h : k'.nodes = k.nodes) (d : Digest) :
    (k'.graph c).inDeg d = (k.graph c).inDeg d := by
  have hout : (k'.graph c).out = (k.graph c).out := funext (edgesOf_congr h)
  rw [RefGraph.inDeg, RefGraph.inDeg, hout]
  change ∑ p ∈ k'.nodes.keys, _ = ∑ p ∈ k.nodes.keys, _
  rw [h]

theorem empty_balanced (c : Codec) : (empty.graph c).Balanced fun _ => 0 := by
  intro d
  have hin : (empty.graph c).inDeg d = 0 := Finset.sum_empty
  rw [hin]
  rfl

end Disk

end Pullrun
