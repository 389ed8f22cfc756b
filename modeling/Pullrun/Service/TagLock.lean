import Pullrun.Lib.RwLock
import Pullrun.Store.Digest

/-!
# The lock of `image_tags`

`pullrun-runtime/src/service.rs`. `image_tags` is behind a `tokio::sync::RwLock`. What each image
request does to that lock is written here as its sequence of guards: a guard is taken where the
source calls `read().await` or `write().await` and given back where its scope ends.

How far a request comes is not decided by the lock, so it is part of the request. A request that
fails between two guards has a shorter script than one that succeeds.
-/

namespace Pullrun

namespace TagLock

open RwLock (Mode Act Task)

/-- A guard whose scope holds nothing that takes the lock again. -/
def guarded (m : Mode) : List Act := [.acquire m, .release m]

/-- `save_image_tags`: the table is serialized under a read guard. -/
def saveImageTags : List Act := guarded .read

/-- `{ let mut tags = self.image_tags.write().await; .. } .. self.save_image_tags().await`, as
    `pull_image`, `build_image`, `import_image` and `remove_image` have it. -/
def updateAndSave : List Act := guarded .write ++ saveImageTags

/-- How a request of `build_image`, `import_image` or `commit_image` ends. -/
inductive Outcome
  | failed
  | stored
deriving DecidableEq

inductive PullOutcome
  /-- The reference is a tag already, or the registry or the conversion fails. -/
  | localHitOrFailed
  /-- The image is tagged; the policy gate after it takes no guard. -/
  | tagged
deriving DecidableEq

inductive RemoveOutcome
  | invalidDigest
  | refused
  | removed
deriving DecidableEq

inductive Request
  | pullImage (outcome : PullOutcome)
  | buildImage (outcome : Outcome)
  | importImage (outcome : Outcome)
  | commitImage (tag : Str) (outcome : Outcome)
  | removeImage (outcome : RemoveOutcome)
  | listImages
  | gc
deriving DecidableEq

namespace Request

/-- `commit_image` after the image is stored. Without a tag the table is not touched. With one, the
    write guard is still in scope where `save_image_tags` is called. -/
def commitTag (tag : Str) : List Act :=
  if tag = [] then [] else [.acquire .write] ++ saveImageTags ++ [.release .write]

def script : Request → List Act
  | pullImage .localHitOrFailed => guarded .read
  | pullImage .tagged => guarded .read ++ updateAndSave
  | buildImage .failed | importImage .failed | commitImage _ .failed => []
  | buildImage .stored | importImage .stored => updateAndSave
  | commitImage tag .stored => commitTag tag
  | removeImage .invalidDigest => []
  | removeImage .refused => guarded .read
  | removeImage .removed => guarded .read ++ updateAndSave
  | listImages => guarded .read
  -- `enumerate_gc_roots`; the collection itself does not read the table
  | gc => guarded .read

def TagsCommit : Request → Prop
  | commitImage tag .stored => tag ≠ []
  | _ => False

end Request

def start (requests : List Request) : List Task := requests.map fun r => .new r.script

end TagLock

end Pullrun
