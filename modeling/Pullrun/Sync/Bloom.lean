import Pullrun.Lib.Cursor
import Pullrun.Store.Digest

/-!
# Bloom filters

`pullrun-sync/src/bloom.rs`. The two hashes of an item come from SHA-256 over its text, which is a
parameter. A call that panics has no result: a remainder by zero, an index out of range and a failed
assertion are `none`.
-/

namespace Pullrun.Sync

/-- `m.div_ceil(64)` -/
def wordCount (m : ℕ) : ℕ := (m + 63) / 64

/-- `BloomFilter`. In the source `m` has 64 bits and `k` has 32. -/
structure BloomFilter where
  bits : List (BitVec 64)
  k : ℕ
  m : ℕ
  numItems : ℕ
deriving DecidableEq

abbrev HashPair := Str → BitVec 64 × BitVec 64

/-- `g_i`. The sum is multiplied as a whole; the comment has only the index multiplied. -/
def gI (h : BitVec 64 × BitVec 64) (m i : ℕ) : Option ℕ :=
  if m = 0 then none else some (((h.1 + BitVec.ofNat 64 i) * h.2).toNat % m)

namespace BloomFilter

def new (m k : ℕ) : BloomFilter := ⟨List.replicate (wordCount m) 0, k, m, 0⟩

/-- `self.bits[word] |= 1u64 << offset` -/
def setBit (h : BitVec 64 × BitVec 64) (m : ℕ) (bits : List (BitVec 64)) (i : ℕ) :
    Option (List (BitVec 64)) :=
  match gI h m i with
  | none => none
  | some bit =>
    if bit / 64 < bits.length then
      some (bits.modify (bit / 64) (· ||| BitVec.twoPow 64 (bit % 64)))
    else none

def insert (hash : HashPair) (f : BloomFilter) (item : Str) : Option BloomFilter :=
  ((List.range f.k).foldlM (setBit (hash item) f.m) f.bits).map fun bits =>
    { f with bits, numItems := f.numItems + 1 }

/-- The loop of `contains`, which ends at the first bit that is not set. -/
def containsFrom (h : BitVec 64 × BitVec 64) (f : BloomFilter) : List ℕ → Option Bool
  | [] => some true
  | i :: rest =>
    match gI h f.m i with
    | none => none
    | some bit =>
      match f.bits[bit / 64]? with
      | none => none
      | some word => if word.getLsbD (bit % 64) then containsFrom h f rest else some false

def contains (hash : HashPair) (f : BloomFilter) (item : Str) : Option Bool :=
  containsFrom (hash item) f (List.range f.k)

/-- `merge`, of the second into the first. The sizes are compared in words. -/
def merge (f g : BloomFilter) : Option BloomFilter :=
  if f.bits.length = g.bits.length ∧ f.k = g.k then
    some { f with
      bits := List.zipWith (· ||| ·) f.bits g.bits
      numItems := max f.numItems g.numItems }
  else none

/-- `to_le_bytes` and `from_le_bytes` -/
def toLe (width n : ℕ) : Bytes := (Cursor.toBytes width n).reverse
def ofLe (bs : Bytes) : ℕ := Cursor.ofBytes bs.reverse

def toBytes (f : BloomFilter) : Bytes :=
  toLe 8 f.m ++ toLe 4 f.k ++ f.bits.flatMap fun w => toLe 8 w.toNat

/-- `from_bytes`: the filter, and how many bytes it took. -/
def fromBytes (data : Bytes) : Option (BloomFilter × ℕ) :=
  if data.length < 12 then none
  else
    let m := ofLe (data.take 8)
    let k := ofLe ((data.drop 8).take 4)
    let expectedLen := 12 + wordCount m * 8
    if data.length < expectedLen then none
    else
      let bits := (List.range (wordCount m)).map fun i =>
        BitVec.ofNat 64 (ofLe ((data.drop (12 + i * 8)).take 8))
      some (⟨bits, k, m, 0⟩, expectedLen)

end BloomFilter

end Pullrun.Sync
