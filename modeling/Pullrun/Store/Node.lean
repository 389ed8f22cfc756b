import Pullrun.Store.Digest

/-!
# DAG nodes and the codec they are stored through

`pullrun-store/src/node.rs`, and the two libraries that stand between a node and the name of its
file: `rkyv` turns a node into bytes and back, `sha2` turns the bytes into the digest the file is
named after. Neither is part of the source, so both are parameters, gathered in one `Codec`. What
the store relies on is stated where it is relied on:

* `Codec.Encodes c n b` — `b` is what `rkyv::to_bytes` makes of `n`, and validating `b` gives `n`
  back;
* `Codec.Acyclic c ns` — no node of `ns` is its own proper ancestor, i.e. the hashes of the nodes
  contain no cycle. A node names its children by hash, so a cycle would need a preimage attack.
-/

namespace Pullrun

inductive NodeKind
  | blob
  | tree
  | layer
  | manifest
  | manifestList
  | whiteout
  | opaqueDir
deriving DecidableEq

structure DagNode where
  kind : NodeKind
  edges : List Digest
  inlineData : Bytes
deriving DecidableEq

structure Codec where
  /-- `rkyv::to_bytes::<_, 256>` -/
  toBytes : DagNode → Except String Bytes
  /-- `rkyv::check_archived_root::<DagNode>`: the validated view of a byte string, or the text of
      the validation error. -/
  checkArchivedRoot : Bytes → Except String DagNode
  sha256 : Bytes → Digest

namespace Codec

def Encodes (c : Codec) (n : DagNode) (b : Bytes) : Prop :=
  c.toBytes n = .ok b ∧ c.checkArchivedRoot b = .ok n

instance (c : Codec) (n : DagNode) (b : Bytes) : Decidable (c.Encodes n b) :=
  inferInstanceAs (Decidable (_ ∧ _))

def FaithfulOn (c : Codec) (ns : List DagNode) : Prop := ∀ n ∈ ns, ∃ b, c.Encodes n b

def digest? (c : Codec) (n : DagNode) : Option Digest :=
  match c.toBytes n with
  | .ok b => some (c.sha256 b)
  | .error _ => none

theorem Encodes.digest? {c : Codec} {n : DagNode} {b : Bytes} (h : c.Encodes n b) :
    c.digest? n = some (c.sha256 b) := by
  rw [Codec.digest?, h.1]

/-- `q` is a child that one of the listed nodes, stored under `p`, would have. -/
def Child (c : Codec) (ns : List DagNode) (p q : Digest) : Prop :=
  ∃ n ∈ ns, c.digest? n = some p ∧ q ∈ n.edges

/-- The hashes of the listed nodes contain no cycle. -/
def Acyclic (c : Codec) (ns : List DagNode) : Prop :=
  ∀ d, ¬ Relation.TransGen (c.Child ns) d d

theorem FaithfulOn.mono {c : Codec} {ns ms : List DagNode} (h : c.FaithfulOn ms) (hsub : ns ⊆ ms) :
    c.FaithfulOn ns :=
  fun n hn => h n (hsub hn)

theorem Acyclic.mono {c : Codec} {ns ms : List DagNode} (h : c.Acyclic ms) (hsub : ns ⊆ ms) :
    c.Acyclic ns := by
  refine fun d hd => h d (Relation.TransGen.mono ?_ _ _ hd)
  rintro p q ⟨n, hn, hp, hq⟩
  exact ⟨n, hsub hn, hp, hq⟩

theorem acyclic_of_rank {c : Codec} {ns : List DagNode} (rank : Digest → ℕ)
    (h : ∀ n ∈ ns, ∀ p, c.digest? n = some p → ∀ q ∈ n.edges, rank q < rank p) :
    c.Acyclic ns := by
  intro d hd
  have hlt : Relation.TransGen (fun a b : ℕ => b < a) (rank d) (rank d) :=
    hd.lift rank fun _ _ ⟨n, hn, hp, hq⟩ => h n hn _ hp _ hq
  rw [Relation.transGen_eq_self] at hlt
  exact Nat.lt_irrefl _ hlt

def CollisionFreeOn (c : Codec) (ns : List DagNode) : Prop :=
  ∀ n ∈ ns, ∀ m ∈ ns, c.digest? n = c.digest? m → n = m

end Codec

end Pullrun
