import Pullrun.Service.Pull

/-!
# `remove_image`, step by step

`remove_image` looks its image up in `image_tags`, refuses if a workload runs on it, calls
`remove_tag`, and takes the tag out of the table. `remove_tag` lowers the count of the root under
`refcount_lock` and, if nothing is left of it, cascades: for each node of its queue it tests whether
the file exists, reads the edges, lowers the count of each of them — one lock at a time, queueing
those that reach zero — and deletes the three files of the node.

The node cache is left out. What `get_archived` returns for a digest whose file exists is what the
file validates to; the cache only saves the mapping.
-/

namespace Pullrun

/-- Where the cascade is with the node it has popped. -/
inductive Visit
  /-- `queue.pop_front()`, and whether the file exists -/
  | pop
  /-- `get_archived(&node)` -/
  | read (node : Digest)
  /-- `for child in &edges { decrement_refcount(child) .. }` -/
  | edges (node : Digest) (before left : List Digest)
  /-- `remove_file(&node_path)`, with the edges that were read -/
  | removeNode (node : Digest) (edges : List Digest)
  /-- `remove_file(&blob_path)` -/
  | removeBlob (node : Digest)
  /-- `remove_file(&rc_path)` -/
  | removeRefcount (node : Digest)
deriving DecidableEq

inductive RemoveStage
  | check
  /-- `decrement_refcount(root)` -/
  | root
  | cascade (queue deleted : List Digest) (visit : Visit)
  /-- `tags.retain(|k, _| k != &root_digest)` -/
  | untag
  | done
  | refused
deriving DecidableEq

structure Remove where
  root : Digest
  stage : RemoveStage
deriving DecidableEq

namespace Remove

def new (root : Digest) : Remove := ⟨root, .check⟩

/-- `if decrement_refcount(child)? == 0 { queue.push_back(child) }` -/
def enqueue (queue : List Digest) (child : Digest) (new : ℕ) : List Digest :=
  if new = 0 then queue ++ [child] else queue

def visitStep (c : Codec) (k : Disk) (queue deleted : List Digest) :
    Visit → RemoveStage × Disk
  | .pop =>
    match queue with
    | [] => (.untag, k)
    | node :: queue =>
      if node ∈ deleted then (.cascade queue deleted .pop, k)
      else if k.hasNode node then (.cascade queue (node :: deleted) (.read node), k)
      else (.cascade queue (node :: deleted) .pop, k)
  | .read node =>
    match k.nodes.lookup node with
    | none => (.cascade queue deleted (.edges node [] []), k)
    | some bytes =>
      match c.checkArchivedRoot bytes with
      | .ok archived => (.cascade queue deleted (.edges node [] archived.edges), k)
      | .error _ => (.untag, k)
  | .edges node before [] => (.cascade queue deleted (.removeNode node before), k)
  | .edges node before (child :: left) =>
    let (new, k) := k.decrementRefcount child
    (.cascade (enqueue queue child new) deleted (.edges node (before ++ [child]) left), k)
  | .removeNode node _ => (.cascade queue deleted (.removeBlob node), k.removeNode node)
  | .removeBlob node => (.cascade queue deleted (.removeRefcount node), k.removeBlob node)
  | .removeRefcount node => (.cascade queue deleted .pop, k.removeRefcount node)

def step (c : Codec) (workloads : List Digest) (f : Files) (r : Remove) : Option (Remove × Files) :=
  match r.stage with
  | .check =>
    if r.root ∈ f.imageTags ∧ r.root ∉ workloads then some ({ r with stage := .root }, f)
    else some ({ r with stage := .refused }, f)
  | .root =>
    let (remaining, k) := f.disk.decrementRefcount r.root
    let stage := if 0 < remaining then .untag else .cascade [r.root] [] .pop
    some ({ r with stage }, { f with disk := k })
  | .cascade queue deleted visit =>
    let (stage, k) := visitStep c f.disk queue deleted visit
    some ({ r with stage }, { f with disk := k })
  | .untag => some ({ r with stage := .done }, { f with imageTags := f.imageTags.erase r.root })
  | .done | .refused => none

def decrements (r : Remove) : Option Digest :=
  match r.stage with
  | .root => some r.root
  | .cascade _ _ (.edges _ _ (child :: _)) => some child
  | _ => none

inductive Steps (c : Codec) (workloads : List Digest) (f : Files) (r : Remove) :
    Remove → Files → Prop
  | check (hs : r.stage = .check) (ht : r.root ∈ f.imageTags) (hw : r.root ∉ workloads) :
      Steps c workloads f r { r with stage := .root } f
  | refuse (hs : r.stage = .check) : Steps c workloads f r { r with stage := .refused } f
  | shared (hs : r.stage = .root) (hpos : 0 < f.disk.getRefcount r.root - 1) :
      Steps c workloads f r { r with stage := .untag }
        { f with disk := (f.disk.decrementRefcount r.root).2 }
  | last (hs : r.stage = .root) (hzero : f.disk.getRefcount r.root - 1 = 0) :
      Steps c workloads f r { r with stage := .cascade [r.root] [] .pop }
        { f with disk := (f.disk.decrementRefcount r.root).2 }
  | finish (deleted : List Digest) (hs : r.stage = .cascade [] deleted .pop) :
      Steps c workloads f r { r with stage := .untag } f
  | skip (node : Digest) (queue deleted deleted' : List Digest)
      (hs : r.stage = .cascade (node :: queue) deleted .pop)
      (hd : node ∈ deleted ∧ deleted' = deleted ∨
        f.disk.hasNode node = false ∧ deleted' = node :: deleted) :
      Steps c workloads f r { r with stage := .cascade queue deleted' .pop } f
  | visit (node : Digest) (queue deleted : List Digest)
      (hs : r.stage = .cascade (node :: queue) deleted .pop) (hd : node ∉ deleted)
      (hk : f.disk.hasNode node = true) :
      Steps c workloads f r { r with stage := .cascade queue (node :: deleted) (.read node) } f
  | read (node : Digest) (queue deleted : List Digest)
      (hs : r.stage = .cascade queue deleted (.read node)) :
      Steps c workloads f r
        { r with stage := .cascade queue deleted (.edges node [] (f.disk.edgesOf c node)) } f
  | abort (node : Digest) (queue deleted : List Digest) (bytes : Bytes) (why : String)
      (hs : r.stage = .cascade queue deleted (.read node))
      (hb : f.disk.nodes.lookup node = some bytes) (hc : c.checkArchivedRoot bytes = .error why) :
      Steps c workloads f r { r with stage := .untag } f
  | decrement (node child : Digest) (before left queue deleted : List Digest)
      (hs : r.stage = .cascade queue deleted (.edges node before (child :: left))) :
      Steps c workloads f r
        ⟨r.root, .cascade (enqueue queue child (f.disk.getRefcount child - 1)) deleted
          (.edges node (before ++ [child]) left)⟩
        { f with disk := (f.disk.decrementRefcount child).2 }
  | counted (node : Digest) (before queue deleted : List Digest)
      (hs : r.stage = .cascade queue deleted (.edges node before [])) :
      Steps c workloads f r { r with stage := .cascade queue deleted (.removeNode node before) } f
  | removeNode (node : Digest) (edges queue deleted : List Digest)
      (hs : r.stage = .cascade queue deleted (.removeNode node edges)) :
      Steps c workloads f r { r with stage := .cascade queue deleted (.removeBlob node) }
        { f with disk := f.disk.removeNode node }
  | removeBlob (node : Digest) (queue deleted : List Digest)
      (hs : r.stage = .cascade queue deleted (.removeBlob node)) :
      Steps c workloads f r { r with stage := .cascade queue deleted (.removeRefcount node) }
        { f with disk := f.disk.removeBlob node }
  | removeRefcount (node : Digest) (queue deleted : List Digest)
      (hs : r.stage = .cascade queue deleted (.removeRefcount node)) :
      Steps c workloads f r { r with stage := .cascade queue deleted .pop }
        { f with disk := f.disk.removeRefcount node }
  | untag (hs : r.stage = .untag) :
      Steps c workloads f r { r with stage := .done }
        { f with imageTags := f.imageTags.erase r.root }

variable {c : Codec} {workloads : List Digest}

theorem steps_of_visitStep {f : Files} {r : Remove} {queue deleted : List Digest} {visit : Visit}
    (hs : r.stage = .cascade queue deleted visit) :
    Steps c workloads f r { r with stage := (visitStep c f.disk queue deleted visit).1 }
      { f with disk := (visitStep c f.disk queue deleted visit).2 } := by
  have hread : ∀ {node}, visit = .read node → Steps c workloads f r _ f := fun hv =>
    .read _ queue deleted (hs.trans (by rw [hv]))
  fun_cases visitStep c f.disk queue deleted visit with
  | case1 => exact .finish deleted hs
  | case2 node queue hd => exact .skip node queue deleted deleted hs (.inl ⟨hd, rfl⟩)
  | case3 node queue hd hk => exact .visit node queue deleted hs hd hk
  | case4 node queue hd hk => exact .skip node queue deleted _ hs (.inr ⟨Bool.eq_false_iff.mpr hk, rfl⟩)
  | case5 queue node hb =>
    have := hread rfl
    rw [Disk.edgesOf_absent hb] at this
    exact this
  | case6 queue node bytes hb archived hc =>
    have := hread rfl
    rw [Disk.edgesOf_ok hb hc] at this
    exact this
  | case7 queue node bytes hb why hc => exact .abort node queue deleted bytes why hs hb hc
  | case8 queue node before => exact .counted node before queue deleted hs
  | case9 queue node before child left new k hdec =>
    cases hdec
    exact .decrement node child before left queue deleted hs
  | case10 queue node edges => exact .removeNode node edges queue deleted hs
  | case11 queue node => exact .removeBlob node queue deleted hs
  | case12 queue node => exact .removeRefcount node queue deleted hs

theorem steps_of_step {f f' : Files} {r r' : Remove}
    (h : step c workloads f r = some (r', f')) : Steps c workloads f r r' f' := by
  revert h
  fun_cases step c workloads f r with
  | case1 hs ht => rintro ⟨⟩; exact .check hs ht.1 ht.2
  | case2 hs => rintro ⟨⟩; exact .refuse hs
  | case3 hs remaining k hdec stage =>
    rintro ⟨⟩
    cases hdec
    simp only [stage]
    split
    · exact .shared hs ‹_›
    · exact .last hs (Nat.eq_zero_of_not_pos ‹_›)
  | case4 queue deleted visit hs stage k hvisit =>
    rintro ⟨⟩
    obtain ⟨rfl, rfl⟩ := Prod.ext_iff.mp hvisit
    exact steps_of_visitStep hs
  | case5 hs => rintro ⟨⟩; exact .untag hs
  | case6 | case7 => rintro ⟨⟩

theorem Steps.root_eq {f f' : Files} {r r' : Remove} (h : Steps c workloads f r r' f') :
    r'.root = r.root := by
  cases h <;> rfl

end Remove

/-! ## Beside a pull -/

/-- A pull and a removal on one store. `workloads` are the images that workloads run on. -/
structure PullRemove (c : Codec) where
  files : Files
  workloads : List Digest
  pull : Pull c
  remove : Remove

namespace PullRemove

inductive Act
  | pull (now : ℕ)
  | remove

variable {c : Codec}

def start (files : Files) (workloads : List Digest) (image : Image c) (root : Digest) :
    PullRemove c :=
  ⟨files, workloads, .new image, .new root⟩

def step (w : PullRemove c) : Act → Option (PullRemove c)
  | .pull now =>
    match w.pull.step now w.files with
    | none => none
    | some (pull, files) => some { w with pull, files }
  | .remove =>
    match w.remove.step c w.workloads w.files with
    | none => none
    | some (remove, files) => some { w with remove, files }

end PullRemove

end Pullrun
