import Pullrun.Store.Node

/-!
# A codec for a few nodes

The theorems of this development hold for every `Codec`. To see one at work on a concrete store, or
to exhibit a run that goes wrong, a codec is needed that can be evaluated: `Codec.ofRows` lays a
node out as `rkyv` 0.7 does, and looks the SHA-256 of the result up in a table. On the nodes of the
table it is the real codec; a byte string that is not in the table does not validate.

The table below has two file nodes and three images that share the first of them.
-/

namespace Pullrun

def Digest.ofNat (n : ℕ) : Digest :=
  ⟨(List.range 32).map fun i => UInt8.ofNat (n / 256 ^ (31 - i)), by simp⟩

namespace Codec

/-- Little-endian `u32`, and `i32` in two's complement. -/
def le32 (n : ℤ) : Bytes :=
  let u := (n % 2 ^ 32).toNat
  (List.range 4).map fun i => UInt8.ofNat (u / 256 ^ i)

/-- The discriminant of an archived `NodeKind`. -/
def kindByte : NodeKind → UInt8
  | .blob => 0
  | .tree => 1
  | .layer => 2
  | .manifest => 3
  | .manifestList => 4
  | .whiteout => 5
  | .opaqueDir => 6

/-- The archive of a node: its edges, its inline data, padding to four bytes, and the root object —
    a relative pointer and a length for either vector, and the kind. -/
def archive (n : DagNode) : Bytes :=
  let edges := n.edges.flatMap (·.bytes)
  let body := edges ++ n.inlineData
  let body := body ++ List.replicate ((4 - body.length % 4) % 4) 0
  body ++ le32 (-body.length) ++ le32 n.edges.length ++ le32 (edges.length - (body.length + 8)) ++
    le32 n.inlineData.length ++ [kindByte n.kind, 0, 0, 0]

def ofRows (rows : List (DagNode × Digest)) : Codec where
  toBytes n := .ok (archive n)
  checkArchivedRoot b :=
    match rows.find? fun row => archive row.1 == b with
    | some row => .ok row.1
    | none => .error "invalid archive"
  sha256 b :=
    match rows.find? fun row => archive row.1 == b with
    | some row => row.2
    | none => Digest.ofNat 0

end Codec

namespace Sample

def leafD : Digest := .ofNat 0xcd53c7e6f684a92ef4281afc4b991c0ba96beb4bc6b7a90a677f50d1cefb939e
def otherD : Digest := .ofNat 0xfaacb4079cba7d49f4b779908e12db7a3a85127aad99d7c908cfe6faff407ce8
def imageAD : Digest := .ofNat 0xf757512821ba24800dd6ff0120918196a86d58b396c4ca9c000a635b5768419f
def imageBD : Digest := .ofNat 0x195b069829d565123f8f7e7cf52496359c9b753b781bb811ba96e9e4b480bc2d
def imageXD : Digest := .ofNat 0x6b9bbb07256ef64f53621ff253355775733cc57659966df11216581101c4dae3

def leaf : DagNode := ⟨.blob, [], [104, 105]⟩
def other : DagNode := ⟨.blob, [], [121, 111]⟩

def imageA : DagNode := ⟨.manifest, [leafD], [65]⟩
def imageB : DagNode := ⟨.manifest, [leafD], [66]⟩
def imageX : DagNode := ⟨.manifest, [leafD], [88]⟩

def nodes : List DagNode := [leaf, other, imageA, imageB, imageX]

def codec : Codec :=
  .ofRows [(leaf, leafD), (other, otherD), (imageA, imageAD), (imageB, imageBD), (imageX, imageXD)]

theorem codec_encodes : ∀ n ∈ nodes, codec.Encodes n (Codec.archive n) := by decide +kernel

theorem codec_faithfulOn : codec.FaithfulOn nodes :=
  fun n hn => ⟨_, codec_encodes n hn⟩

def rank (d : Digest) : ℕ := if d = leafD ∨ d = otherD then 0 else 1

theorem codec_acyclic : codec.Acyclic nodes := by
  have hrank : ∀ n ∈ nodes, ∀ p ∈ codec.digest? n, ∀ q ∈ n.edges, rank q < rank p := by
    decide +kernel
  exact Codec.acyclic_of_rank rank fun n hn p hp q hq => hrank n hn p hp q hq

end Sample

end Pullrun
