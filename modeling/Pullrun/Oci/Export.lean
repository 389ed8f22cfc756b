import Pullrun.Lib.FilePath
import Pullrun.Oci.Converter
import Pullrun.Oci.Materializer

/-!
# Layers as tar streams again

Two walkers turn a layer of the store back into a tar stream: that of `push.rs`, for a registry, and
that of `oci_layout.rs`, for an OCI layout directory. They are written apart and differ in which
edges they follow, in how they write a link, in the header they give a file and in where they read
its data.

A stream is the list of what was appended to the `tar::Builder`. The builder writes the header it is
given and then the data, without comparing the two, so an entry may say one size and have another.
Header fields that are not set are zero. Compression is left out.
-/

namespace Pullrun

/-- What `tar::Builder` makes of a path and of a link name, which may refuse them. -/
structure TarCrate where
  path : Str → Except String Str
  linkName : Str → Except String Str

/-- Paths of proper names are written as they are. -/
def TarCrate.Lawful (t : TarCrate) : Prop :=
  ∀ l : FileTree.Loc, l.Ok → l ≠ [] → t.path l.text = .ok l.text

structure Written where
  path : Str
  header : Header
  data : Bytes
deriving DecidableEq

/-- `OciError`, as far as the walkers raise it. -/
inductive ExportError
  | io (why : String)
  /-- `read node {d}: {e}` -/
  | readNode (d : Digest) (e : StoreError)
  /-- `read blob {d}: {e}` -/
  | readBlob (d : Digest) (e : StoreError)
  /-- `corrupt blob node {d}: {e}` -/
  | corruptBlob (d : Digest) (why : String)
deriving DecidableEq

def Header.newGnu : Header := ⟨.regular, 0, 0, 0, 0, 0, none⟩

namespace TarCrate

def appendData (t : TarCrate) (header : Header) (path : Str) (data : Bytes) :
    Except ExportError Written :=
  match t.path path with
  | .error why => .error (.io why)
  | .ok path => .ok ⟨path, header, data⟩

def appendLink (t : TarCrate) (header : Header) (path target : Str) : Except ExportError Written :=
  match t.path path, t.linkName target with
  | .ok path, .ok name => .ok ⟨path, { header with linkName := some name }, []⟩
  | .error why, _ => .error (.io why)
  | _, .error why => .error (.io why)

end TarCrate

/-- What a walk appends; `none` is a recursion that has not come to an end. -/
abbrev Appended := Option (Except ExportError (List Written))

def Appended.andThen (first next : Appended) : Appended :=
  match first with
  | some (.ok ws) =>
    match next with
    | some (.ok rest) => some (.ok (ws ++ rest))
    | r => r
  | r => r

def appendAll {β : Type} (body : β → Appended) : List β → Appended
  | [] => some (.ok [])
  | b :: bs => (body b).andThen (appendAll body bs)

/-! ## `push.rs` -/

namespace DagPusher

/-- One entry of a tree. A link is appended twice, the first time without its target. -/
def appendEntry (t : TarCrate) (v : StoreView Bytes) (basePath : Str) (entry : DirectoryEntry) :
    Except ExportError (List Written) :=
  let path := OciMaterializer.entryPath basePath entry.name
  if entry.isDir then
    match t.appendData { Header.newGnu with entryType := .directory, mode := entry.mode } path [] with
    | .error e => .error e
    | .ok w => .ok [w]
  else if entry.isSymlink then
    match entry.symlinkTarget with
    | none => .ok []
    | some target =>
      let header := { Header.newGnu with entryType := .symlink, mode := 0o777 }
      match t.appendData header path [] with
      | .error e => .error e
      | .ok w =>
        match t.appendLink header path target with
        | .error e => .error e
        | .ok w' => .ok [w, w']
  else
    match v.getArchived entry.digest with
    | .error (.corrupted _ why) => .error (.corruptBlob entry.digest why)
    | .error e => .error (.readBlob entry.digest e)
    | .ok node =>
      let mode := if entry.mode = 0 then 0o644 else entry.mode
      match t.appendData { Header.newGnu with
          mode := mode, size := UInt64.ofNat node.inlineData.length } path node.inlineData with
      | .error e => .error e
      | .ok w => .ok [w]

def isTree (v : StoreView Bytes) (child : Digest) : Bool :=
  match v.getArchived child with
  | .ok node => node.kind = .tree
  | .error _ => false

/-- `walk_tree_for_layer`: below a tree, only edges to trees are followed. -/
def walkTreeForLayer (t : TarCrate) (j : SerdeJson) (x : Text) (v : StoreView Bytes) :
    ℕ → Digest → Str → Appended
  | 0, _, _ => none
  | fuel + 1, nodeDigest, basePath =>
    match v.getArchived nodeDigest with
    | .error e => some (.error (.readNode nodeDigest e))
    | .ok node =>
      match node.kind with
      | .layer =>
        appendAll (fun child =>
          walkTreeForLayer t j x v fuel child (x.fromUtf8Lossy node.inlineData)) node.edges
      | .tree =>
        (appendAll (fun entry => some (appendEntry t v basePath entry))
          (DirectoryEntry.fromInlineBytes j node.inlineData)).andThen
        (appendAll (fun child =>
          if isTree v child then walkTreeForLayer t j x v fuel child basePath
          else some (.ok [])) node.edges)
      | _ => some (.ok [])

end DagPusher

/-! ## `oci_layout.rs` -/

namespace OciLayout

/-- One entry of a tree. The size in a file's header is that of the entry. -/
def appendEntry (t : TarCrate) (v : StoreView Bytes) (basePath : Str) (entry : DirectoryEntry) :
    Except ExportError (List Written) :=
  let path := OciMaterializer.entryPath basePath entry.name
  let header := { Header.newGnu with
    mode := entry.mode, mtime := entry.mtime.toUInt64, uid := entry.uid.toUInt64,
    gid := entry.gid.toUInt64 }
  if entry.isDir then
    match t.appendData { header with entryType := .directory } path [] with
    | .error e => .error e
    | .ok w => .ok [w]
  else if entry.isSymlink then
    match entry.symlinkTarget with
    | none => .ok []
    | some target =>
      match t.appendLink { Header.newGnu with entryType := .symlink, mode := 0o777 } path target with
      | .error e => .error e
      | .ok w => .ok [w]
  else
    match t.appendData { header with size := entry.size } path
        ((v.content entry.digest).getD []) with
    | .error e => .error e
    | .ok w => .ok [w]

/-- `walk_tree_for_layer`: every edge whose node is there is followed. -/
def walkTreeForLayer (t : TarCrate) (j : SerdeJson) (x : Text) (v : StoreView Bytes) :
    ℕ → Digest → Str → Appended
  | 0, _, _ => none
  | fuel + 1, nodeDigest, basePath =>
    match v.getArchived nodeDigest with
    | .error e => some (.error (.readNode nodeDigest e))
    | .ok node =>
      match node.kind with
      | .layer =>
        appendAll (fun child =>
          walkTreeForLayer t j x v fuel child (x.fromUtf8Lossy node.inlineData)) node.edges
      | .tree =>
        (appendAll (fun entry => some (appendEntry t v basePath entry))
          (DirectoryEntry.fromInlineBytes j node.inlineData)).andThen
        (appendAll (fun child =>
          if v.has child then walkTreeForLayer t j x v fuel child basePath
          else some (.ok [])) node.edges)
      | _ => some (.ok [])

end OciLayout

end Pullrun
