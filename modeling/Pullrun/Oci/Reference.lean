import Pullrun.Store.Digest

/-!
# Image references

How `pullrun-oci/src/puller.rs` takes an image reference apart, into a registry, a repository and a tag or
digest; and how `pullrun-oci/src/push.rs` and `pullrun-runtime/src/builder.rs` do, each on its own.
-/

namespace Pullrun

/-- `s.split_once(c)`: what stands before the first `c`, and what stands after it. -/
def splitOnce (c : Char) (s : Str) : Option (Str × Str) :=
  if c ∈ s then some (s.takeWhile (· ≠ c), (s.dropWhile (· ≠ c)).tail) else none

/-- What makes the first part of a reference the name of a registry. -/
def isHost (first : Str) : Bool := '.' ∈ first || ':' ∈ first || first = "localhost".toList

/-- `parts[0]` and `parts[1..].join("/")`, of a reference that has at least two parts and names its
    registry. -/
def splitHost (ref : Str) : Option (Str × Str) := (splitOnce '/' ref).filter fun p => isHost p.1

/-- `rest.splitn(2, ':')`, the second part with its default. -/
def splitTag (rest : Str) : Str × Str := (splitOnce ':' rest).getD (rest, "latest".toList)

def registry1 : Str := "registry-1.docker.io".toList
def dockerIo : Str := "docker.io".toList

def isDockerHub (registry : Str) : Bool := registry = registry1 || registry = dockerIo

namespace OciPuller

def registryFor (imageRef : Str) (explicitRegistry : Option Str) : Str :=
  match splitHost imageRef with
  | some (first, _) => first
  | none => explicitRegistry.getD registry1

def afterRegistry (imageRef : Str) : Str :=
  match splitHost imageRef with
  | some (_, rest) => rest
  | none => imageRef

/-- The name of a repository: an image of Docker Hub without a directory is in `library/`. -/
def inLibrary (registry name : Str) : Str :=
  if '/' ∈ name then name else if isDockerHub registry then "library/".toList ++ name else name

def imageParts (imageRef registry : Str) : Str × Str :=
  let segments := splitTag (afterRegistry imageRef)
  (inLibrary registry segments.1, segments.2)

end OciPuller

/-- `registry_for` of `pullrun-oci/src/push.rs`. -/
def OciPusher.registryFor (targetRef : Str) : Str × Str × Str :=
  match splitHost targetRef with
  | some (registry, rest) => (registry, splitTag rest)
  | none => (registry1, splitTag targetRef)

/-- `extract_registry` of `pullrun-runtime/src/builder.rs`. -/
def Builder.extractRegistry (imageRef : Str) : Str :=
  match splitHost imageRef with
  | some (first, _) => first
  | none => dockerIo

def Builder.extractImageRef (imageRef : Str) : Str :=
  match splitHost imageRef with
  | some (_, rest) => rest
  | none => imageRef

end Pullrun
