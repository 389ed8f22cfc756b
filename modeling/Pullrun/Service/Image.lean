import Pullrun.Store.Mmap
import Pullrun.Store.Sample

/-!
# Images as the converter stores them

`OciToDagConverter::convert` stores the nodes of an image one after the other with `put`: files
before the trees that list them, trees before their layer, layers before the manifest, whose digest
it returns. What the rest of the runtime relies on is that order and nothing else, so an `Image` is
a list of nodes in which every edge leads to an earlier node, and a last node, the manifest.

Each node comes with its serialized form: a node that does not serialize makes `put` fail before it
touches a file, and with it the pull.
-/

namespace Pullrun

/-- Every edge of a node leads to a digest in `stored` or to an earlier node. -/
def ChildrenFirst (c : Codec) : List Digest → List (DagNode × Bytes) → Prop
  | _, [] => True
  | stored, (node, bytes) :: rest =>
    (∀ edge ∈ node.edges, edge ∈ stored) ∧ ChildrenFirst c (c.sha256 bytes :: stored) rest

def ChildrenFirst.decide (c : Codec) :
    ∀ stored nodes, Decidable (ChildrenFirst c stored nodes)
  | _, [] => isTrue trivial
  | stored, (node, bytes) :: rest =>
    have := ChildrenFirst.decide c (c.sha256 bytes :: stored) rest
    inferInstanceAs (Decidable ((∀ edge ∈ node.edges, edge ∈ stored) ∧
      ChildrenFirst c (c.sha256 bytes :: stored) rest))

instance (c : Codec) (stored : List Digest) (nodes : List (DagNode × Bytes)) :
    Decidable (ChildrenFirst c stored nodes) := ChildrenFirst.decide c stored nodes

structure Image (c : Codec) where
  below : List (DagNode × Bytes)
  manifest : DagNode × Bytes
  encodes : ∀ p ∈ below ++ [manifest], c.Encodes p.1 p.2
  childrenFirst : ChildrenFirst c [] (below ++ [manifest])

namespace Image

variable {c : Codec}

def nodes (image : Image c) : List (DagNode × Bytes) := image.below ++ [image.manifest]

def root (image : Image c) : Digest := c.sha256 image.manifest.2

def digests (image : Image c) : List Digest := image.nodes.map fun p => c.sha256 p.2

theorem root_mem_digests (image : Image c) : image.root ∈ image.digests := by
  simp [digests, nodes, root]

end Image

/-- `convert`: store the nodes in order. -/
def MmapStore.convert (c : Codec) (s : MmapStore) (nodes : List (DagNode × Bytes)) : MmapStore :=
  nodes.foldl (fun s p => (s.put c p.1).2) s

namespace Sample

def onLeaf (manifest : DagNode) (h : manifest ∈ [imageA, imageB, imageX]) : Image codec where
  below := [(leaf, Codec.archive leaf)]
  manifest := (manifest, Codec.archive manifest)
  encodes := by
    have hall : ∀ m ∈ [imageA, imageB, imageX], ∀ p ∈ [(leaf, Codec.archive leaf)] ++
        [(m, Codec.archive m)], codec.Encodes p.1 p.2 := by decide +kernel
    exact hall manifest h
  childrenFirst := by
    have hall : ∀ m ∈ [imageA, imageB, imageX], ChildrenFirst codec []
        ([(leaf, Codec.archive leaf)] ++ [(m, Codec.archive m)]) := by decide +kernel
    exact hall manifest h

def A : Image codec := onLeaf imageA (by decide)
def B : Image codec := onLeaf imageB (by decide)
def X : Image codec := onLeaf imageX (by decide)

end Sample

end Pullrun
