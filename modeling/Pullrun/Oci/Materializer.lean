import Pullrun.Lib.FileTree
import Pullrun.Oci.Entry
import Pullrun.Store.Mmap

/-!
# Writing an image to a directory

`pullrun-oci/src/materializer.rs`. An image is a manifest node with an edge to each layer, lowest
first. A layer's edges lead to whiteout nodes, which are applied first, and to trees; a tree lists
its entries in its inline data and has an edge for each of them, to a file's blob node or to the
layer node of a subdirectory, which carries the path of that directory itself.

The file system is `FileTree.Fs`, and every call resolves its path as the kernel does. Three groups
of calls are told apart as the source tells them apart: those whose error ends the materialization
(`?`), those whose error is dropped (`let _ =`), and the attribute calls, which are all of the second
kind and which all follow a link in the last place.
-/

namespace Pullrun

open FileTree

structure Attr where
  mode : UInt32 := 0
  uid : UInt32 := 0
  gid : UInt32 := 0
  mtime : Int64 := 0
  xattrs : List (Str × Bytes) := []
deriving DecidableEq, Inhabited

structure StoreView (κ : Type) where
  /-- `get_archived` -/
  getArchived : Digest → Except StoreError DagNode
  /-- What a regular file with this digest is filled with. -/
  content : Digest → Option κ

/-- `store.get(d).is_ok()`: a node file that does not validate can still be mapped. -/
def StoreView.has {κ : Type} (v : StoreView κ) (d : Digest) : Bool :=
  match v.getArchived d with
  | .error (.notFound _) => false
  | _ => true

/-- The blob file if there is one, else the inline data of the node. -/
def MmapStore.content (c : Codec) (s : MmapStore) (d : Digest) : Option Bytes :=
  match s.disk.blobs.lookup d with
  | some data => some data
  | none =>
    match (s.getArchived c d).1 with
    | .ok node => some node.inlineData
    | .error _ => none

def MmapStore.view (c : Codec) (s : MmapStore) : StoreView Bytes :=
  ⟨fun d => (s.getArchived c d).1, s.content c⟩

inductive MaterializeError
  | io (e : Errno)
  /-- `corrupt manifest node {d}: {e}` -/
  | corruptManifest (d : Digest) (e : StoreError)
  /-- `corrupt layer node {d}: {e}` -/
  | corruptLayer (d : Digest) (e : StoreError)
  /-- `corrupt whiteout node {d}: {e}` -/
  | corruptWhiteout (d : Digest) (e : StoreError)
  /-- `corrupt tree node {d}: {e}` -/
  | corruptTree (d : Digest) (e : StoreError)
deriving DecidableEq

namespace OciMaterializer

variable {κ : Type}

abbrev Outcome (κ : Type) := Except MaterializeError Unit × Fs κ Attr

/-- `let _ = call;` -/
def attempt (fs : Fs κ Attr) (r : Except Errno (Fs κ Attr)) : Fs κ Attr :=
  match r with
  | .ok fs' => fs'
  | .error _ => fs

/-- `call?` -/
def demand (fs : Fs κ Attr) (r : Except Errno (Fs κ Attr)) : Outcome κ :=
  match r with
  | .ok fs' => (.ok (), fs')
  | .error e => (.error (.io e), fs)

def forEach {β : Type} (body : β → Fs κ Attr → Option (Outcome κ)) :
    List β → Fs κ Attr → Option (Outcome κ)
  | [], fs => some (.ok (), fs)
  | b :: bs, fs =>
    match body b fs with
    | none => none
    | some (.error e, fs) => some (.error e, fs)
    | some (.ok (), fs) => forEach body bs fs

theorem forEach_rel {β : Type} {R : Fs κ Attr → Fs κ Attr → Prop} (hrefl : ∀ fs, R fs fs)
    (htrans : ∀ {fs fs' fs''}, R fs fs' → R fs' fs'' → R fs fs'')
    {body : β → Fs κ Attr → Option (Outcome κ)} {bs : List β}
    (hbody : ∀ b ∈ bs, ∀ fs r fs', body b fs = some (r, fs') → R fs fs') :
    ∀ {fs : Fs κ Attr} {r fs'}, forEach body bs fs = some (r, fs') → R fs fs' := by
  induction bs with
  | nil =>
    intro fs r fs' h
    cases h
    exact hrefl fs
  | cons b bs ih =>
    intro fs r fs' h
    rw [forEach] at h
    rcases hb : body b fs with _ | ⟨_ | _, fs1⟩
    · rw [hb] at h; cases h
    · rw [hb] at h
      cases h
      exact hbody b List.mem_cons_self fs _ _ hb
    · rw [hb] at h
      have h1 := hbody b List.mem_cons_self fs _ _ hb
      exact htrans h1 (ih (fun b' hb' => hbody b' (List.mem_cons_of_mem _ hb')) h)

/-! ## Attributes -/

/-- `set_owner`: only if the owner differs. -/
def setOwner (fs : Fs κ Attr) (p : List Seg) (uid gid : UInt32) : Fs κ Attr :=
  match fs.metadata p with
  | .error _ => fs
  | .ok stat =>
    if stat.uid ≠ uid ∨ stat.gid ≠ gid then
      attempt fs (fs.setAttr (fun a => { a with uid := uid, gid := gid }) p)
    else fs

def setMtime (fs : Fs κ Attr) (p : List Seg) (mtime : Int64) : Fs κ Attr :=
  if mtime < 0 then fs else attempt fs (fs.setAttr (fun a => { a with mtime := mtime }) p)

def setXattr (p : List Seg) (fs : Fs κ Attr) (x : Str × Bytes) : Fs κ Attr :=
  attempt fs (fs.setAttr (fun a => { a with xattrs := Value.insertKey a.xattrs x.1 x.2 }) p)

def modeOf (entry : DirectoryEntry) : UInt32 :=
  if entry.isDir then (if entry.mode = 0 then 0o755 else entry.mode)
  else if entry.isSymlink then 0o777
  else if entry.mode = 0 then 0o644
  else entry.mode

def applyUnixAttributes (fs : Fs κ Attr) (p : List Seg) (entry : DirectoryEntry) : Fs κ Attr :=
  let fs := attempt fs (fs.setAttr (fun a => { a with mode := modeOf entry }) p)
  let fs := setOwner fs p entry.uid entry.gid
  let fs := setMtime fs p entry.mtime
  entry.xattrs.foldl (setXattr p) fs

/-! ## Trees -/

/-- `if base_path.is_empty() { name } else { format!("{}/{}", base_path, name) }` -/
def entryPath (basePath name : Str) : Str :=
  if basePath = [] then name else basePath ++ '/' :: name

/-- A regular file: make its parent, then fill it. The mode that `std::fs::copy` takes over from a
    blob file is overwritten by the entry's own at once, and is left out. -/
def materializeFile (v : StoreView κ) (fullPath : List Seg) (entry : DirectoryEntry)
    (fs : Fs κ Attr) : Outcome κ :=
  match fs.createDirAll fullPath.dropLast with
  | (.error e, fs) => (.error (.io e), fs)
  | (.ok (), fs) =>
    match v.content entry.digest with
    | some data => demand fs (fs.write data fullPath)
    | none => (.ok (), fs)

/-- What an entry stands for, without its attributes. -/
def placeEntry (v : StoreView κ) (fullPath : List Seg) (entry : DirectoryEntry) (fs : Fs κ Attr) :
    Outcome κ :=
  if entry.isDir then
    match fs.createDirAll fullPath with
    | (.error e, fs) => (.error (.io e), fs)
    | (.ok (), fs) => (.ok (), fs)
  else if entry.isSymlink then
    match entry.symlinkTarget with
    | some target =>
      let fs := attempt fs (fs.removeFile fullPath)
      (.ok (), attempt fs (fs.symlink target fullPath))
    | none => (.ok (), fs)
  else materializeFile v fullPath entry fs

def materializeEntry (v : StoreView κ) (rootfs : Loc) (basePath : Str) (entry : DirectoryEntry)
    (fs : Fs κ Attr) : Outcome κ :=
  let fullPath := join rootfs.path (entryPath basePath entry.name)
  match placeEntry v fullPath entry fs with
  | (.error e, fs) => (.error e, fs)
  | (.ok (), fs) => (.ok (), applyUnixAttributes fs fullPath entry)

def materializeTree (j : SerdeJson) (x : Text) (v : StoreView κ) (rootfs : Loc) :
    ℕ → Digest → Str → Fs κ Attr → Option (Outcome κ)
  | 0, _, _, _ => none
  | fuel + 1, treeDigest, basePath, fs =>
    match v.getArchived treeDigest with
    | .error e => some (.error (.corruptTree treeDigest e), fs)
    | .ok node =>
      match node.kind with
      | .layer =>
        forEach (fun child => materializeTree j x v rootfs fuel child
          (x.fromUtf8Lossy node.inlineData)) node.edges fs
      | .tree =>
        match forEach (fun entry fs => some (materializeEntry v rootfs basePath entry fs))
            (DirectoryEntry.fromInlineBytes j node.inlineData) fs with
        | none => none
        | some (.error e, fs) => some (.error e, fs)
        | some (.ok (), fs) =>
          -- An edge to a digest that is not stored is skipped.
          forEach (fun child fs =>
            if v.has child then materializeTree j x v rootfs fuel child basePath fs
            else some (.ok (), fs)) node.edges fs
      | _ => some (.ok (), fs)

/-! ## Layers -/

def whiteoutPath (rootfs : Loc) (layerPath target : Str) : List Seg :=
  if layerPath = [] then join rootfs.path target
  else join (join rootfs.path layerPath) target

def clearChild (dirPath : List Seg) (name : Name) (fs : Fs κ Attr) : Option (Outcome κ) :=
  let path := dirPath ++ [.name name]
  if fs.isDirAt path then some (demand fs (fs.removeDirAll path))
  else some (demand fs (fs.removeFile path))

def applyOpaque (dirPath : List Seg) (fs : Fs κ Attr) : Option (Outcome κ) :=
  if fs.isDirAt dirPath then
    match fs.readDir dirPath with
    | .error e => some (.error (.io e), fs)
    | .ok names => forEach (clearChild dirPath) names fs
  else some (.ok (), fs)

/-- An explicit whiteout: a file is unlinked, and then a directory of that name is removed, if it
    is empty. -/
def applyDelete (fullPath : List Seg) (fs : Fs κ Attr) : Fs κ Attr :=
  let fs := attempt fs (fs.removeFile fullPath)
  attempt fs (fs.removeDir fullPath)

def applyWhiteout (x : Text) (v : StoreView κ) (rootfs : Loc) (layerPath : Str)
    (whiteout : Digest × Bool) (fs : Fs κ Attr) : Option (Outcome κ) :=
  match v.getArchived whiteout.1 with
  | .error e => some (.error (.corruptWhiteout whiteout.1 e), fs)
  | .ok node =>
    let path := whiteoutPath rootfs layerPath (x.fromUtf8Lossy node.inlineData)
    if whiteout.2 then applyOpaque path fs else some (.ok (), applyDelete path fs)

def whiteoutEdges (v : StoreView κ) (edges : List Digest) : List (Digest × Bool) :=
  edges.filterMap fun d =>
    match v.getArchived d with
    | .ok child =>
      match child.kind with
      | .whiteout => some (d, false)
      | .opaqueDir => some (d, true)
      | _ => none
    | .error _ => none

def treeEdges (v : StoreView κ) (edges : List Digest) : List Digest :=
  edges.filter fun d =>
    match v.getArchived d with
    | .ok child => child.kind ≠ .whiteout ∧ child.kind ≠ .opaqueDir
    | .error _ => true

/-- `materialize_layer`: whiteouts before the layer's own files. -/
def materializeLayer (j : SerdeJson) (x : Text) (v : StoreView κ) (rootfs : Loc) (fuel : ℕ)
    (layerDigest : Digest) (fs : Fs κ Attr) : Option (Outcome κ) :=
  match v.getArchived layerDigest with
  | .error e => some (.error (.corruptLayer layerDigest e), fs)
  | .ok node =>
    if node.kind = .layer then
      let layerPath := x.fromUtf8Lossy node.inlineData
      match forEach (applyWhiteout x v rootfs layerPath) (whiteoutEdges v node.edges) fs with
      | none => none
      | some (.error e, fs) => some (.error e, fs)
      | some (.ok (), fs) =>
        forEach (fun child => materializeTree j x v rootfs fuel child layerPath)
          (treeEdges v node.edges) fs
    else some (.ok (), fs)

def materializeInto (j : SerdeJson) (x : Text) (v : StoreView κ) (fuel : ℕ) (manifest : Digest)
    (targetDir : Loc) (fs : Fs κ Attr) : Option (Outcome κ) :=
  match fs.createDirAll targetDir.path with
  | (.error e, fs) => some (.error (.io e), fs)
  | (.ok (), fs) =>
    match v.getArchived manifest with
    | .error e => some (.error (.corruptManifest manifest e), fs)
    | .ok node => forEach (materializeLayer j x v targetDir fuel) node.edges fs

end OciMaterializer

end Pullrun
