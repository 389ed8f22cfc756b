import Pullrun.Store.Digest

/-!
# The archive of an initramfs

`write_newc_entry`, `write_newc_symlink` and `write_newc_trailer` of `tools/build-initramfs/src/main.rs`,
and a reader of such archives. A writer pads each entry by itself, the reader to the next multiple of four
from the start of the archive; the two agree because every entry is a multiple of four bytes long.
-/

namespace Pullrun.Initramfs

/-- What is written of a file, a directory or a device. -/
structure Entry where
  name : Bytes
  ino : UInt32
  mode : UInt32
  rdevMajor : UInt32
  rdevMinor : UInt32
  data : Bytes
deriving DecidableEq

def digit (n : ℕ) : UInt8 := .ofNat (if n < 10 then 48 + n else 87 + n)

/-- `{:08x}`. -/
def hex (n : ℕ) : Bytes := [7, 6, 5, 4, 3, 2, 1, 0].map fun i => digit (n / 16 ^ i % 16)

def magic : Bytes := [48, 55, 48, 55, 48, 49]

def header (ino mode filesize rdevMajor rdevMinor namesize : ℕ) : Bytes :=
  magic ++ [ino, mode, 0, 0, 1, 0, filesize, 0, 0, rdevMajor, rdevMinor, namesize, 0].flatMap hex

def pad (total : ℕ) : Bytes := List.replicate ((4 - total % 4) % 4) 0

def writeNewcEntry (e : Entry) : Bytes :=
  header e.ino.toNat e.mode.toNat (e.data.length % 2 ^ 32) e.rdevMajor.toNat e.rdevMinor.toNat
      ((e.name.length + 1) % 2 ^ 32) ++
    (e.name ++ [0] ++ pad (110 + e.name.length + 1)) ++ (e.data ++ pad e.data.length)

def symlink (name : Bytes) (ino : UInt32) (target : Bytes) : Entry :=
  ⟨name, ino, 0o120000 ||| 0o777, 0, 0, target⟩

def writeNewcSymlink (name : Bytes) (ino : UInt32) (target : Bytes) : Bytes :=
  writeNewcEntry (symlink name ino target)

inductive Item
  | entry (e : Entry)
  | symlink (name : Bytes) (ino : UInt32) (target : Bytes)

def Item.written : Item → Bytes
  | .entry e => writeNewcEntry e
  | .symlink name ino target => writeNewcSymlink name ino target

/-- What a reader is to find. -/
def Item.toEntry : Item → Entry
  | .entry e => e
  | .symlink name ino target => Initramfs.symlink name ino target

/-- `TRAILER!!!` -/
def trailerName : Bytes := [84, 82, 65, 73, 76, 69, 82, 33, 33, 33]

def writeNewcTrailer : Bytes :=
  header 0 0o100000 0 0 0 (trailerName.length + 1) ++ (trailerName ++ [0] ++ pad (110 + trailerName.length + 1))

def trailer : Entry := ⟨trailerName, 0, 0o100000, 0, 0, []⟩

/-! ## The reader -/

def digitVal (b : UInt8) : Option ℕ :=
  if 48 ≤ b ∧ b ≤ 57 then some (b.toNat - 48)
  else if 97 ≤ b ∧ b ≤ 102 then some (b.toNat - 87)
  else if 65 ≤ b ∧ b ≤ 70 then some (b.toNat - 55)
  else none

def next (n : ℕ) (rest : Bytes) : Option (Bytes × Bytes) :=
  if n ≤ rest.length then some (rest.take n, rest.drop n) else none

def numbers : ℕ → Bytes → Option (List ℕ × Bytes)
  | 0, rest => some ([], rest)
  | k + 1, rest => do
    let (digits, rest) ← next 8 rest
    let values ← digits.mapM digitVal
    let (ns, rest) ← numbers k rest
    some (values.foldl (fun n v => n * 16 + v) 0 :: ns, rest)

/-- As many bytes, and those up to the next multiple of four from the start of an archive of `size`
bytes. -/
def nextPadded (size n : ℕ) (rest : Bytes) : Option (Bytes × Bytes) := do
  let (bytes, rest) ← next n rest
  let (_, rest) ← next ((4 - (size - rest.length) % 4) % 4) rest
  some (bytes, rest)

def readEntry (size : ℕ) (rest : Bytes) : Option (Entry × Bytes) := do
  let (m, rest) ← next 6 rest
  guard (m = magic)
  match ← numbers 13 rest with
  | ([ino, mode, _, _, _, _, filesize, _, _, rdevMajor, rdevMinor, namesize, _], rest) =>
    let (name, rest) ← nextPadded size namesize rest
    let (data, rest) ← nextPadded size filesize rest
    some (⟨name.takeWhile (· ≠ 0), .ofNat ino, .ofNat mode, .ofNat rdevMajor, .ofNat rdevMinor, data⟩, rest)
  | _ => none

/-- The entries up to the trailer, the trailer, and what is left after it. -/
def readEntries (size : ℕ) : ℕ → Bytes → Option (List Entry × Entry × Bytes)
  | 0, _ => none
  | fuel + 1, rest => do
    let (e, rest) ← readEntry size rest
    if e.name = trailerName then some ([], e, rest)
    else
      let (es, last) ← readEntries size fuel rest
      some (e :: es, last)

def readArchive (archive : Bytes) : Option (List Entry × Entry × Bytes) :=
  readEntries archive.length archive.length archive

/-! ## What was written is read -/

theorem next_append (a rest : Bytes) : next a.length (a ++ rest) = some (a, rest) := by
  simp [next]

theorem digitVal_digit {n : ℕ} (h : n < 16) : digitVal (digit n) = some n := by
  interval_cases n <;> rfl

theorem numbers_hex {ns : List ℕ} (h : ∀ n ∈ ns, n < 2 ^ 32) (rest : Bytes) :
    numbers ns.length (ns.flatMap hex ++ rest) = some (ns, rest) := by
  induction ns with
  | nil => rfl
  | cons n ns ih =>
    rw [List.forall_mem_cons] at h
    have hvalues : (hex n).mapM digitVal = some ([7, 6, 5, 4, 3, 2, 1, 0].map fun i => n / 16 ^ i % 16) := by
      simp [hex, digitVal_digit, Nat.mod_lt]
    rw [List.flatMap_cons, List.append_assoc, List.length_cons, numbers]
    have hnext : next 8 (hex n ++ (ns.flatMap hex ++ rest)) = _ := next_append (hex n) _
    simp [hnext, hvalues, ih h.2]
    omega

/-- The padding of a part of `total` bytes that begins at a multiple of four. -/
theorem nextPadded_append {size off total : ℕ} {a rest : Bytes} (hoff : off % 4 = 0)
    (hsize : size = off + total + (pad total).length + rest.length) :
    nextPadded size a.length (a ++ pad total ++ rest) = some (a, rest) := by
  have hpad : (4 - (size - ((pad total).length + rest.length)) % 4) % 4 = (pad total).length := by
    simp only [pad, List.length_replicate] at hsize ⊢
    omega
  rw [nextPadded, List.append_assoc, next_append]
  simp [hpad, next_append]

theorem length_writeNewcEntry (e : Entry) : (writeNewcEntry e).length =
    110 + e.name.length + 1 + (pad (110 + e.name.length + 1)).length +
      (e.data.length + (pad e.data.length).length) := by
  simp [writeNewcEntry, header, magic, hex]
  omega

/-- A writable entry: a header has room for its sizes, and its name has no NUL. -/
def Fits (e : Entry) : Prop :=
  0 ∉ e.name ∧ e.name.length + 1 < 2 ^ 32 ∧ e.data.length < 2 ^ 32

instance (e : Entry) : Decidable (Fits e) := inferInstanceAs (Decidable (_ ∧ _))

theorem readEntry_written {e : Entry} (he : Fits e) {size off : ℕ} (rest : Bytes) (hoff : off % 4 = 0)
    (hsize : size = off + (writeNewcEntry e).length + rest.length) :
    readEntry size (writeNewcEntry e ++ rest) = some (e, rest) := by
  obtain ⟨hnul, hname, hdata⟩ := he
  rw [length_writeNewcEntry] at hsize
  have hmagic : ∀ rest, next 6 (magic ++ rest) = some (magic, rest) := next_append magic
  have hnumbers := @numbers_hex [e.ino.toNat, e.mode.toNat, 0, 0, 1, 0, e.data.length, 0, 0,
    e.rdevMajor.toNat, e.rdevMinor.toNat, e.name.length + 1, 0] (by
      simpa using ⟨e.ino.toNat_lt, e.mode.toNat_lt, hdata, e.rdevMajor.toNat_lt, e.rdevMinor.toNat_lt, hname⟩)
  have hpadded : nextPadded size (e.name.length + 1) (e.name ++ [0] ++ pad (110 + e.name.length + 1) ++
      (e.data ++ pad e.data.length ++ rest)) = some (e.name ++ [0], e.data ++ pad e.data.length ++ rest) := by
    rw [show e.name.length + 1 = (e.name ++ [0]).length by simp]
    refine nextPadded_append hoff ?_
    simp only [List.length_append]
    omega
  have hoff' : (off + (110 + e.name.length + 1 + (pad (110 + e.name.length + 1)).length)) % 4 = 0 := by
    simp only [pad, List.length_replicate]
    omega
  have hrest : nextPadded size e.data.length (e.data ++ pad e.data.length ++ rest) = some (e.data, rest) :=
    nextPadded_append hoff' (by omega)
  rw [writeNewcEntry, header, Nat.mod_eq_of_lt hname, Nat.mod_eq_of_lt hdata, List.append_assoc,
    List.append_assoc, List.append_assoc, readEntry, hmagic]
  have htake : (e.name ++ [0]).takeWhile (· ≠ 0) = e.name := by
    rw [List.takeWhile_append_of_pos fun b hb => by simpa using ne_of_mem_of_not_mem hb hnul]
    simp
  simp only [List.length_cons, List.length_nil, Nat.reduceAdd] at hnumbers
  simp only [Option.bind_eq_bind, Option.bind_some, guard, if_pos, hnumbers, Option.pure_def, hpadded, hrest,
    htake, UInt32.ofNat_toNat]

/-! ## The archive -/

theorem Item.written_eq (i : Item) : i.written = writeNewcEntry i.toEntry := by
  cases i <;> rfl

theorem readEntries_written {size : ℕ} {items : List Item}
    (h : ∀ i ∈ items, Fits i.toEntry ∧ i.toEntry.name ≠ trailerName) {fuel off : ℕ}
    (hfuel : items.length < fuel) (hoff : off % 4 = 0)
    (hsize : size = off + (items.flatMap Item.written ++ writeNewcTrailer).length) :
    readEntries size fuel (items.flatMap Item.written ++ writeNewcTrailer) =
      some (items.map Item.toEntry, trailer, []) := by
  induction items generalizing fuel off with
  | nil =>
    obtain ⟨fuel, rfl⟩ := Nat.exists_eq_succ_of_ne_zero (Nat.ne_of_gt hfuel)
    have htrailer : writeNewcTrailer = writeNewcEntry trailer := by decide
    rw [htrailer, List.flatMap_nil, List.nil_append] at hsize ⊢
    have hread := readEntry_written (e := trailer) (by decide) [] hoff (by simpa using hsize)
    rw [List.append_nil] at hread
    simp [readEntries, hread, show trailer.name = trailerName from rfl]
  | cons i items ih =>
    rw [List.forall_mem_cons] at h
    obtain ⟨fuel, rfl⟩ := Nat.exists_eq_succ_of_ne_zero (Nat.ne_of_gt (Nat.zero_lt_of_lt hfuel))
    rw [List.flatMap_cons, i.written_eq, List.append_assoc] at hsize ⊢
    rw [List.length_append] at hsize
    have hread := readEntry_written h.1.1 _ hoff (hsize.trans (Nat.add_assoc ..).symm)
    have hoff' : (off + (writeNewcEntry i.toEntry).length) % 4 = 0 := by
      rw [length_writeNewcEntry]
      simp only [pad, List.length_replicate]
      omega
    have hrest := ih h.2 (Nat.lt_of_succ_lt_succ hfuel) hoff' (hsize.trans (Nat.add_assoc ..).symm)
    simp [readEntries, hread, h.1.2, hrest]

theorem length_archive (items : List Item) :
    items.length < (items.flatMap Item.written ++ writeNewcTrailer).length := by
  induction items with
  | nil => simp [writeNewcTrailer, header, magic]
  | cons i items ih =>
    rw [List.flatMap_cons, List.append_assoc, List.length_append, i.written_eq, length_writeNewcEntry,
      List.length_cons]
    omega

/-- **A reader of the archive finds what was written, in order, and then the trailer**, with nothing left
after it. -/
theorem readArchive_written {items : List Item}
    (h : ∀ i ∈ items, 0 ∉ i.toEntry.name ∧ i.toEntry.name ≠ trailerName ∧
      i.toEntry.name.length < 2 ^ 32 - 1 ∧ i.toEntry.data.length < 2 ^ 32 - 1) :
    readArchive (items.flatMap Item.written ++ writeNewcTrailer) =
      some (items.map Item.toEntry, trailer, []) := by
  refine readEntries_written ?_ (length_archive items) rfl (Nat.zero_add _).symm
  intro i hi
  obtain ⟨hnul, htrailer, hname, hdata⟩ := h i hi
  exact ⟨⟨hnul, by omega, by omega⟩, htrailer⟩

/-- A directory, a file of three bytes in it, and a link. -/
def threeItems : List Item :=
  [.entry ⟨[100], 1, 0o40755, 0, 0, []⟩, .entry ⟨[100, 47, 102], 2, 0o100644, 0, 0, [1, 2, 3]⟩,
    .symlink [105] 3 [100, 47, 102]]

theorem readArchive_link :
    (∀ i ∈ threeItems, 0 ∉ i.toEntry.name ∧ i.toEntry.name ≠ trailerName ∧
      i.toEntry.name.length < 2 ^ 32 - 1 ∧ i.toEntry.data.length < 2 ^ 32 - 1) ∧
    readArchive (threeItems.flatMap Item.written ++ writeNewcTrailer) =
      some (threeItems.map Item.toEntry, trailer, []) :=
  ⟨by decide, readArchive_written (by decide)⟩

end Pullrun.Initramfs
