import Pullrun.Oci.Dockerfile
import Pullrun.Oci.Export
import Pullrun.Oci.Layer
import Pullrun.Proof.Oci.Stored
import Pullrun.Store.Sample

/-!
# Formats that can be evaluated

As `Store/Sample.lean` for nodes: to run the converter and the walkers on a concrete image, JSON and
UTF-8 have to be functions. `Value.text` is the text `serde_json` writes for a value whose strings
need no escapes, and `SerdeJson.ofTable` reads back the listed values; `Codec.ofTable` is the codec
of a table that does not serialize anything else. Both meet the laws on the whole of what they
accept, so that the theorems apply to them. `Text.ascii` is UTF-8 on ASCII strings.

The table at the end has a few small images; the digests are those of the real SHA-256.
-/

namespace Pullrun

open List

/-! ## JSON text -/

namespace Value

def textOfInt : ℤ → Str
  | .ofNat n => Nat.toDigits 10 n
  | .negSucc n => '-' :: Nat.toDigits 10 (n + 1)

def quoted (s : Str) : Str := '"' :: s ++ ['"']

mutual

def chars : Value → Str
  | .null => "null".toList
  | .bool true => "true".toList
  | .bool false => "false".toList
  | .num n => textOfInt n
  | .str s => quoted s
  | .arr items => '[' :: charsOfItems items ++ [']']
  | .obj fields => '\x7b' :: charsOfFields fields ++ ['\x7d']

def charsOfItems : List Value → Str
  | [] => []
  | [v] => v.chars
  | v :: vs => v.chars ++ ',' :: charsOfItems vs

def charsOfFields : List (Str × Value) → Str
  | [] => []
  | [(k, v)] => quoted k ++ ':' :: v.chars
  | (k, v) :: vs => quoted k ++ ':' :: v.chars ++ ',' :: charsOfFields vs

end

def text (v : Value) : Bytes := v.chars.map fun ch => UInt8.ofNat ch.toNat

end Value

def SerdeJson.ofTable (vs : List Value) : SerdeJson where
  toVec v := if v ∈ vs then .ok v.text else .error "not in the table"
  fromSlice b :=
    match vs.find? fun v => v.text == b with
    | some v => .ok v
    | none => .error "expected value"

theorem SerdeJson.mem_of_ofTable {vs : List Value} {v : Value} {b : Bytes}
    (h : (ofTable vs).toVec v = .ok b) : v ∈ vs ∧ v.text = b := by
  unfold ofTable at h
  simp only at h
  split at h
  · rename_i hv
    cases h
    exact ⟨hv, rfl⟩
  · cases h

theorem SerdeJson.ofTable_lawful {vs : List Value} (hinj : (vs.map Value.text).Nodup)
    (htext : ∀ v ∈ vs, (10 : UInt8) ∉ v.text ∧ v.text ≠ []) : (ofTable vs).Lawful := by
  refine ⟨fun v b h => ?_, fun v b h => ?_, fun v b h => ?_⟩
  · obtain ⟨hv, rfl⟩ := mem_of_ofTable h
    unfold ofTable
    simp only
    cases hf : vs.find? fun w => w.text == v.text with
    | none =>
      have := find?_eq_none.mp hf v hv
      simp at this
    | some w =>
      have hw : w.text = v.text := by simpa using find?_some hf
      rw [inj_on_of_nodup_map hinj (mem_of_find?_eq_some hf) hv hw]
  · obtain ⟨hv, rfl⟩ := mem_of_ofTable h
    exact (htext v hv).1
  · obtain ⟨hv, rfl⟩ := mem_of_ofTable h
    exact (htext v hv).2

/-! ## Nodes -/

def Codec.ofTable (rows : List (DagNode × Digest)) : Codec where
  toBytes n := if n ∈ rows.map Prod.fst then .ok (archive n) else .error "not in the table"
  checkArchivedRoot := (ofRows rows).checkArchivedRoot
  sha256 := (ofRows rows).sha256

theorem Codec.ofTable_row {rows : List (DagNode × Digest)}
    (harchive : (rows.map fun row => archive row.1).Nodup) {n : DagNode} {b : Bytes}
    (h : (ofTable rows).toBytes n = .ok b) :
    ∃ row ∈ rows, row.1 = n ∧ (ofTable rows).checkArchivedRoot b = .ok row.1 ∧
      (ofTable rows).sha256 b = row.2 := by
  unfold ofTable at h
  simp only at h
  split at h
  · rename_i hn
    cases h
    obtain ⟨row, hmem, rfl⟩ := mem_map.mp hn
    have hfind : (rows.find? fun r => archive r.1 == archive row.1) = some row := by
      cases hf : rows.find? fun r => archive r.1 == archive row.1 with
      | none =>
        have := find?_eq_none.mp hf row hmem
        simp at this
      | some r =>
        have hr : archive r.1 = archive row.1 := by simpa using find?_some hf
        rw [inj_on_of_nodup_map harchive (mem_of_find?_eq_some hf) hmem hr]
    refine ⟨row, hmem, rfl, ?_, ?_⟩
    · simp only [ofTable, ofRows, hfind]
    · simp only [ofTable, ofRows, hfind]
  · cases h

theorem Codec.ofTable_lawful {rows : List (DagNode × Digest)}
    (harchive : (rows.map fun row => archive row.1).Nodup) (hdigest : (rows.map Prod.snd).Nodup)
    (hzero : ∀ row ∈ rows, row.2 ≠ zeroDigest) : (ofTable rows).Lawful := by
  refine ⟨fun n b h => ?_, fun n m b b' hn hm hd => ?_, fun n b h => ?_⟩
  · obtain ⟨row, -, rfl, hread, -⟩ := ofTable_row harchive h
    exact hread
  · obtain ⟨row, hmem, rfl, -, hsha⟩ := ofTable_row harchive hn
    obtain ⟨row', hmem', rfl, -, hsha'⟩ := ofTable_row harchive hm
    rw [hsha, hsha'] at hd
    rw [inj_on_of_nodup_map hdigest hmem hmem' hd]
  · obtain ⟨row, hmem, -, -, hsha⟩ := ofTable_row harchive h
    exact hsha ▸ hzero row hmem

/-! ## ASCII -/

namespace Text

/-- A character below 128 is its own byte; any other is escaped. -/
def encodeChar (ch : Char) : Bytes :=
  if ch.toNat < 128 then [UInt8.ofNat ch.toNat]
  else [255, UInt8.ofNat (ch.toNat / 65536), UInt8.ofNat (ch.toNat / 256), UInt8.ofNat ch.toNat]

def decode : Bytes → Str
  | [] => []
  | [b] => [Char.ofNat b.toNat]
  | [b, b₁] => Char.ofNat b.toNat :: decode [b₁]
  | [b, b₁, b₂] => Char.ofNat b.toNat :: decode [b₁, b₂]
  | b :: b₁ :: b₂ :: b₃ :: rest =>
    if b.toNat < 128 then Char.ofNat b.toNat :: decode (b₁ :: b₂ :: b₃ :: rest)
    else Char.ofNat (b₁.toNat * 65536 + b₂.toNat * 256 + b₃.toNat) :: decode rest

def ascii : Text := ⟨fun s => s.flatMap encodeChar, decode⟩

theorem decode_small {n : ℕ} (h : n < 128) (rest : Bytes) :
    decode (UInt8.ofNat n :: rest) = Char.ofNat n :: decode rest := by
  have hn : (UInt8.ofNat n).toNat = n := by
    rw [UInt8.toNat_ofNat']
    omega
  match rest with
  | [] => simp [decode, hn]
  | [b1] => simp [decode, hn]
  | [b1, b2] => simp [decode, hn]
  | b1 :: b2 :: b3 :: rest => rw [decode, hn, if_pos h]

theorem decode_encodeChar (ch : Char) (rest : Bytes) :
    decode (encodeChar ch ++ rest) = ch :: decode rest := by
  unfold encodeChar
  split
  · rename_i h
    rw [singleton_append, decode_small h, Char.ofNat_toNat]
  · rename_i h
    have hlt : ch.toNat < 16777216 := by
      have hvalid : ch.toNat < 0xd800 ∨ 0xdfff < ch.toNat ∧ ch.toNat < 0x110000 := ch.valid
      omega
    rw [cons_append, cons_append, cons_append, singleton_append, decode,
      if_neg (by decide)]
    have hsum : (UInt8.ofNat (ch.toNat / 65536)).toNat * 65536 +
        (UInt8.ofNat (ch.toNat / 256)).toNat * 256 + (UInt8.ofNat ch.toNat).toNat = ch.toNat := by
      rw [UInt8.toNat_ofNat', UInt8.toNat_ofNat', UInt8.toNat_ofNat']
      omega
    rw [hsum, Char.ofNat_toNat]

theorem ascii_lawful : ascii.Lawful := by
  intro s
  change decode (s.flatMap encodeChar) = s
  induction s with
  | nil => rfl
  | cons ch s ih => rw [flatMap_cons, decode_encodeChar, ih]

end Text

/-! ## A few images -/

namespace Sample

def tarHeader (entryType : EntryType) (mode : UInt32) (size : UInt64) (linkName : Option Str) :
    Header :=
  ⟨entryType, mode, size, 0, 0, 0, linkName⟩

def tarFile (path : Str) (data : Bytes) : Except String LayerEntry :=
  .ok ⟨.ok path, .ok (tarHeader .regular 0o644 (UInt64.ofNat data.length) none), [], .ok data⟩

def tarDir (path : Str) : Except String LayerEntry :=
  .ok ⟨.ok path, .ok (tarHeader .directory 0o755 0 none), [], .ok []⟩

def imageOf (layers : List Archive) : PulledImage where
  layers := layers
  config := { architecture := "amd64".toList, os := "linux".toList }

def oneFile : PulledImage := imageOf [[tarFile ['f'] leaf.inlineData]]
def deleted : PulledImage :=
  imageOf [[tarFile ['f'] leaf.inlineData], [tarFile ".wh.f".toList []]]
/-- A file in a directory, and a layer that deletes the directory. -/
def deletedDir : PulledImage :=
  imageOf [[tarDir ['d'], tarFile "d/f".toList leaf.inlineData], [tarFile ".wh.d".toList []]]
def fLayer : Layer := .ofItems [{ loc := [['f']], kind := .file leaf.inlineData }] (by decide)
def whFLayer : Layer := .ofItems [{ loc := [['f']], kind := .whiteout }] (by decide)
def dfLayer : Layer := .ofItems [{ loc := [['d']], kind := .dir false, mode := 0o755 },
  { loc := [['d'], ['f']], kind := .file leaf.inlineData }] (by decide)
def whDLayer : Layer := .ofItems [{ loc := [['d']], kind := .whiteout }] (by decide)

def emptyD : Digest := .ofNat 0xe2c13bfcd00e9ca055b08155a83f34251fca3302cc874a7efbee557cc27517d6
def fTreeD : Digest := .ofNat 0x65ae195f4fa230ca61910b15bc0452b119ae94b3c9c66adcac1fda484f774d71
def fLayerD : Digest := .ofNat 0x5fea8d93f07d8cc176b0cb80e4f797b39043ae4862a916705ff7a0ac9f459f53
def noTreeD : Digest := .ofNat 0x5ab1b8611a701b3c0564493c23b360c1561ec0c2c02929ac74f777fe3b01250a
def noLayerD : Digest := .ofNat 0xcea5178774d2b441d089e166449072e4b015946d8c57fdf67cefd4dd32e4542d
def whFD : Digest := .ofNat 0x0d6b8ce9a1e25abc812bbb3e3764e23c0f4de46562d08fa8a5d4884d859a1d10
def whFLayerD : Digest := .ofNat 0x62a3386fc06739d94a83009b5b223bbbeeede7dc4ad885ed4a205019b823f505
def dLayerD : Digest := .ofNat 0xd5cca6122816bcc3327f626e4ac2f18ec0f57c9810c808706c8324cf4465f8af
def dTreeD : Digest := .ofNat 0x7f9d135d09acd645edfa2b401d371182405605e81942d2292ac53ed1c01a5043
def rootLayerD : Digest := .ofNat 0x41aa028d142ad65ed0144fd0be9607b2b6bd39846665e5a9f515486ab077d817
def whDD : Digest := .ofNat 0x13ea22b593f2773d6723ed8775f47ffc361ffc8afb2940f712a8c5f3172463d7
def whDLayerD : Digest := .ofNat 0xe3cadfe960b9346fbc542fa05f6e819718f77c4707b856b8311bc6b8ad7770f3
def pTreeD : Digest := .ofNat 0x3a665674c62c8ba5b7dfd8d1152d94a7d119ef18efbb318051a52d1225ec47f8
def pLayerD : Digest := .ofNat 0x4e7aa29cb09e8c661937206359ff0405b618f4f1e5986909e187acc12d23100a
def oneFileD : Digest := .ofNat 0x442f9321a8408952fa08c89a918e88827a555ec0bae3331b8b3593d4fafabd29
def deletedD : Digest := .ofNat 0xa307bb2dbe145d05e81f19b754915f36566785bae3524f30a02c7875bb18093d
def nestedD : Digest := .ofNat 0xe1bebe803f42703b98025b6d4fdd60841e1f338de0a54669c95313420021552f
def deletedDirD : Digest := .ofNat 0x6ad6fd6c93d07ba000f4bf39676e49c35a4f259b93dd522bd177a73bc3566184
def committedTreeD : Digest :=
  .ofNat 0x1a7f09b47c56cedf7f541ce075e6702a967a71366a67c82c4dc0f75cf6ccab57
def committedLayerD : Digest :=
  .ofNat 0x2ab761127bc1beeab4b0f6858455f85e14a3379e41c0b93db2425edc28b2de4a
def committedD : Digest := .ofNat 0x66768f082cc8e3ace51b3df9facf71ca880c46ea88e02a0161abca0e07c93aca
def linkD : Digest := .ofNat 0x43f51319efaa7a3c6090cf95ef80122f9c277f614316bb60a11851f7b1ff8c9d

def fEntry : DirectoryEntry := ⟨['f'], leafD, 0o644, 2, 0, 0, 0, false, false, none, []⟩
def dEntry : DirectoryEntry := ⟨['d'], emptyD, 0o755, 0, 0, 0, 0, true, false, none, []⟩
def pEntry : DirectoryEntry :=
  ⟨['p'], emptyD, 0o777, 0, 0, 0, 0, false, true, some "/etc/passwd".toList, []⟩

/-- The line that a commit writes for the file. -/
def fLine : Value := entryLine ⟨['f'], false, leafD, 0o644, 2, []⟩ leafD

def lineOf (e : DirectoryEntry) : Bytes := e.toValue.text ++ [10]

def data : Value := (manifestData {} (imageOf [])).toValue {}

def rows : List (DagNode × Digest) :=
  [(leaf, leafD), (.blob [], emptyD),
    (⟨.tree, [leafD], lineOf fEntry⟩, fTreeD), (⟨.layer, [fTreeD], []⟩, fLayerD),
    (⟨.tree, [], []⟩, noTreeD), (⟨.layer, [noTreeD], []⟩, noLayerD),
    (⟨.whiteout, [], Text.ascii.utf8 ['f']⟩, whFD), (⟨.layer, [noTreeD, whFD], []⟩, whFLayerD),
    (⟨.layer, [fTreeD], Text.ascii.utf8 ['d']⟩, dLayerD),
    (⟨.tree, [dLayerD], lineOf dEntry⟩, dTreeD), (⟨.layer, [dTreeD], []⟩, rootLayerD),
    (⟨.whiteout, [], Text.ascii.utf8 ['d']⟩, whDD), (⟨.layer, [noTreeD, whDD], []⟩, whDLayerD),
    (⟨.tree, [emptyD], lineOf pEntry⟩, pTreeD), (⟨.layer, [pTreeD], []⟩, pLayerD),
    (⟨.manifest, [fLayerD], data.text⟩, oneFileD),
    (⟨.manifest, [fLayerD, whFLayerD], data.text⟩, deletedD),
    (⟨.manifest, [rootLayerD], data.text⟩, nestedD),
    (⟨.manifest, [rootLayerD, whDLayerD], data.text⟩, deletedDirD),
    (⟨.manifest, [pLayerD], data.text⟩, linkD),
    (⟨.tree, [leafD], fLine.text ++ [10]⟩, committedTreeD),
    (⟨.layer, [committedTreeD], Text.ascii.utf8 ['/']⟩, committedLayerD),
    (⟨.manifest, [committedLayerD], data.text⟩, committedD)]

def values : List Value := [fEntry.toValue, dEntry.toValue, pEntry.toValue, data, fLine]

def formats : Formats := ⟨.ofTable rows, .ofTable values, .ascii⟩

theorem formats_codec : formats.codec.Lawful :=
  Codec.ofTable_lawful (by decide +kernel) (by decide +kernel) (by decide +kernel)

theorem formats_json : formats.json.Lawful :=
  SerdeJson.ofTable_lawful (by decide +kernel) (by decide +kernel)

theorem formats_text : formats.text.Lawful := Text.ascii_lawful

def viewOf (nodes : List (DagNode × Digest)) : StoreView Bytes where
  getArchived d :=
    match nodes.find? fun row => row.2 = d with
    | some row => .ok row.1
    | none => .error (.notFound d)
  content d := (nodes.find? fun row => row.2 = d).map fun row => row.1.inlineData

/-- A file system with a file of its own, and the empty directory `/r`. -/
def host : FileTree.Fs Bytes Attr where
  nodes := [([['r']], .dir default), (["etc".toList], .dir default),
    (["etc".toList, "passwd".toList], .file [120] default)]
  log := []

theorem host_inPlace : host.nodes.InPlace [['r']] :=
  .of_inits (by decide +kernel)

theorem host_empty (rel : FileTree.Loc) (h : rel ≠ []) : host.lookup ([['r']] ++ rel) = none := by
  obtain ⟨name, rest, rfl⟩ := exists_cons_of_ne_nil h
  simp [host, FileTree.Fs.lookup, lookup_cons]

/-- A file system with a directory `/s` that has a file in it. -/
def source : FileTree.Fs Bytes Attr where
  nodes := [([['s']], .dir { mode := 0o755 }),
    ([['s'], ['f']], .file leaf.inlineData { mode := 0o644 })]
  log := []

/-- A tar writer that takes every path and link name as it is. -/
def tar : TarCrate := ⟨.ok, .ok⟩

theorem tar_lawful : tar.Lawful := fun _ _ _ => rfl

def noStore : MmapStore := .openOn .empty none none

theorem noStore_sound : noStore.Sound formats.codec := MmapStore.sound_openOn_empty _ _ _

/-- Convert an image into an empty store and materialize it into `/r`. -/
def materialize (image : PulledImage) : Option (OciMaterializer.Outcome Bytes) :=
  match convert formats {} 4 image noStore with
  | some (.ok manifest, s) => OciMaterializer.materializeInto formats.json formats.text
      (s.view formats.codec) 8 manifest [['r']] host
  | _ => none

end Sample

end Pullrun
