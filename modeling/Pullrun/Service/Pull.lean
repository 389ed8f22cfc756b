import Pullrun.Service.Put
import Pullrun.Store.OpLock

/-!
# `pull_image`, step by step

`pull_image` from the point where the image has been fetched: take an op lock, store the nodes in
the converter's order, insert the tag, raise the count of the root, release the lock. Each of these,
and each step of each `put`, is atomic; anything may happen in between.

What other requests see of it is `Files`: the files of the store, and `image_tags`, of which only
the keys matter here.
-/

namespace Pullrun

/-- What concurrent requests share: the files of the store and the keys of `image_tags`. -/
structure Files where
  disk : Disk
  imageTags : Finset Digest

def Files.ofImage {c : Codec} (image : Image c) : Files where
  disk :=
    (((MmapStore.openOn .empty none none).convert c image.nodes).disk.incrementRefcount image.root).2
  imageTags := {image.root}

inductive PullStage
  /-- `OpLock::new` -/
  | lock
  /-- A call of `put`, with the digests stored before it and the nodes still to be stored. -/
  | put (stored : List Digest) (call : PutCall) (rest : List (DagNode × Bytes))
  /-- `tags.insert(root_digest, image_ref)` -/
  | tag
  /-- `increment_refcount(&root_digest)` -/
  | count
  /-- `op_lock.complete()` -/
  | unlock
  | done
deriving DecidableEq

structure Pull (c : Codec) where
  image : Image c
  opId : Str
  stage : PullStage

namespace Pull

variable {c : Codec}

def new (image : Image c) : Pull c := ⟨image, [], .lock⟩

def next (stored : List Digest) : List (DagNode × Bytes) → PullStage
  | [] => .tag
  | p :: rest => .put stored (.new p) rest

def advance (c : Codec) (stored : List Digest) (call : PutCall)
    (rest : List (DagNode × Bytes)) : PullStage :=
  if call.stage = .count [] then next (call.digest c :: stored) rest else .put stored call rest

def step (now : ℕ) (f : Files) (p : Pull c) : Option (Pull c × Files) :=
  match p.stage with
  | .lock =>
    let (opId, k) := OpLock.new now f.disk
    some ({ p with opId, stage := next [] p.image.nodes }, { f with disk := k })
  | .put stored call rest =>
    match call.step c f.disk with
    | none => none
    | some (call', k) =>
      some ({ p with stage := advance c stored call' rest }, { f with disk := k })
  | .tag =>
    some ({ p with stage := .count }, { f with imageTags := insert p.image.root f.imageTags })
  | .count =>
    some ({ p with stage := .unlock }, { f with disk := (f.disk.incrementRefcount p.image.root).2 })
  | .unlock => some ({ p with stage := .done }, { f with disk := OpLock.remove p.opId f.disk })
  | .done => none

def increments (p : Pull c) : Option Digest :=
  match p.stage with
  | .put _ call _ => call.uncounted.head?
  | .count => some p.image.root
  | _ => none

inductive Steps (f : Files) (p : Pull c) : Pull c → Files → Prop
  | lock (opId : Str) (ops : List OpLockFile) (hs : p.stage = .lock) :
      Steps f p { p with opId, stage := next [] p.image.nodes }
        { f with disk := { f.disk with ops } }
  | put (stored : List Digest) (call call' : PutCall) (rest : List (DagNode × Bytes)) (k : Disk)
      (hs : p.stage = .put stored call rest) (h : call.Steps c f.disk call' k) :
      Steps f p { p with stage := advance c stored call' rest } { f with disk := k }
  | tag (hs : p.stage = .tag) :
      Steps f p { p with stage := .count } { f with imageTags := insert p.image.root f.imageTags }
  | count (hs : p.stage = .count) :
      Steps f p { p with stage := .unlock }
        { f with disk := (f.disk.incrementRefcount p.image.root).2 }
  | unlock (ops : List OpLockFile) (hs : p.stage = .unlock) :
      Steps f p { p with stage := .done } { f with disk := { f.disk with ops } }

theorem steps_of_step {now : ℕ} {f f' : Files} {p p' : Pull c}
    (h : step now f p = some (p', f')) : Steps f p p' f' := by
  revert h
  fun_cases step now f p with
  | case1 hs opId k hnew => rintro ⟨⟩; cases hnew; exact .lock _ _ hs
  | case2 | case7 => rintro ⟨⟩
  | case3 stored call rest hs call' k' hcall =>
    rintro ⟨⟩
    exact .put stored call call' rest k' hs (PutCall.steps_of_step hcall)
  | case4 hs => rintro ⟨⟩; exact .tag hs
  | case5 hs => rintro ⟨⟩; exact .count hs
  | case6 hs => rintro ⟨⟩; exact .unlock _ hs

theorem Steps.image_eq {f f' : Files} {p p' : Pull c} (h : Steps f p p' f') :
    p'.image = p.image := by
  cases h <;> rfl

end Pull

end Pullrun
