import Mathlib.Data.UInt
import Mathlib.Tactic.IntervalCases

/-!
# Digests and their hex form

`pullrun-store/src/lib.rs`. A digest is 32 bytes; everywhere outside the process — file names, tar
entry names, the tag table — it is written as 64 lowercase hex characters. `fromHex` is more
liberal than `asHex`: it strips one `sha256:` prefix and takes either letter case, so it is a left
inverse of `asHex` (`fromHex_asHex`) and not a bijection.

Strings are lists of characters throughout: the source slices hex strings at fixed offsets and
compares path components, and both are list operations.
-/

namespace Pullrun

/-- A string of the source, as its characters. -/
abbrev Str := List Char

/-- A byte string. -/
abbrev Bytes := List UInt8

/-- `Digest([u8; 32])`. -/
structure Digest where
  bytes : Bytes
  len : bytes.length = 32
deriving DecidableEq

namespace Digest

@[ext]
theorem ext {a b : Digest} (h : a.bytes = b.bytes) : a = b := by
  cases a; cases b; cases h; rfl

/-! ## `hex::encode` and `hex::decode` -/

def hexDigit (n : ℕ) : Char :=
  if n < 10 then Char.ofNat (48 + n) else Char.ofNat (87 + n)

def hexVal (c : Char) : Option ℕ :=
  if '0' ≤ c ∧ c ≤ '9' then some (c.toNat - 48)
  else if 'a' ≤ c ∧ c ≤ 'f' then some (c.toNat - 87)
  else if 'A' ≤ c ∧ c ≤ 'F' then some (c.toNat - 55)
  else none

def hexEncode : Bytes → Str
  | [] => []
  | b :: bs => hexDigit (b.toNat / 16) :: hexDigit (b.toNat % 16) :: hexEncode bs

/-- `hex::FromHexError`, as far as decoding a whole string can raise it. -/
inductive FromHexError
  | oddLength
  | invalidHexCharacter (c : Char) (index : ℕ)
deriving DecidableEq

/-- The two characters at `index` and `index + 1`, as one byte. -/
def hexByte (index : ℕ) (hi lo : Char) : Except FromHexError UInt8 :=
  match hexVal hi, hexVal lo with
  | none, _ => .error (.invalidHexCharacter hi index)
  | some _, none => .error (.invalidHexCharacter lo (index + 1))
  | some h, some l => .ok (UInt8.ofNat (h * 16 + l))

/-- Decoding from position `index` on; the caller has checked that the length is even. -/
def hexDecodeFrom : ℕ → Str → Except FromHexError Bytes
  | _, [] => .ok []
  | _, [_] => .error .oddLength
  | index, hi :: lo :: rest =>
    match hexByte index hi lo with
    | .error e => .error e
    | .ok b =>
      match hexDecodeFrom (index + 2) rest with
      | .error e => .error e
      | .ok bs => .ok (b :: bs)

def hexDecode (s : Str) : Except FromHexError Bytes :=
  if s.length % 2 ≠ 0 then .error .oddLength else hexDecodeFrom 0 s

theorem hexVal_hexDigit {n : ℕ} (h : n < 16) : hexVal (hexDigit n) = some n := by
  interval_cases n <;> decide

theorem hexByte_hexDigit (i : ℕ) (b : UInt8) :
    hexByte i (hexDigit (b.toNat / 16)) (hexDigit (b.toNat % 16)) = .ok b := by
  have hlt : b.toNat < 256 := b.toNat_lt
  rw [hexByte, hexVal_hexDigit (by omega), hexVal_hexDigit (by omega)]
  have : b.toNat / 16 * 16 + b.toNat % 16 = b.toNat := by omega
  simp only [this, UInt8.ofNat_toNat]

theorem hexDecodeFrom_hexEncode (i : ℕ) (bs : Bytes) :
    hexDecodeFrom i (hexEncode bs) = .ok bs := by
  induction bs generalizing i with
  | nil => rfl
  | cons b bs ih => rw [hexEncode, hexDecodeFrom, hexByte_hexDigit]; simp only [ih]

theorem length_hexEncode (bs : Bytes) : (hexEncode bs).length = 2 * bs.length := by
  induction bs with
  | nil => rfl
  | cons b bs ih => simp only [hexEncode, List.length_cons, ih]; omega

theorem hexDecode_hexEncode (bs : Bytes) : hexDecode (hexEncode bs) = .ok bs := by
  rw [hexDecode, length_hexEncode, if_neg (by omega), hexDecodeFrom_hexEncode]

/-! ## `Digest::from_hex` and `Digest::as_hex` -/

/-- What `from_hex` puts into its error text. -/
inductive ParseError
  /-- `invalid hex digest: {e}` -/
  | invalidHex (e : FromHexError)
  /-- `digest must be 32 bytes, got {n}` -/
  | wrongLength (n : ℕ)
deriving DecidableEq

def sha256Colon : Str := ['s', 'h', 'a', '2', '5', '6', ':']

/-- `s.strip_prefix(p)`. -/
def stripPrefix (p s : Str) : Option Str :=
  if p.isPrefixOf s then some (s.drop p.length) else none

def asHex (d : Digest) : Str := hexEncode d.bytes

def fromHex (s : Str) : Except ParseError Digest :=
  match hexDecode ((stripPrefix sha256Colon s).getD s) with
  | .error e => .error (.invalidHex e)
  | .ok bs => if h : bs.length = 32 then .ok ⟨bs, h⟩ else .error (.wrongLength bs.length)

theorem hexDigit_ne {n : ℕ} (h : n < 16) : hexDigit n ≠ 's' ∧ hexDigit n ≠ 'p' := by
  interval_cases n <;> decide

theorem stripPrefix_append (p s : Str) : stripPrefix p (p ++ s) = some s := by
  rw [stripPrefix, if_pos (List.isPrefixOf_iff_prefix.mpr (List.prefix_append p s)), List.drop_left]

/-- A hex string never carries the prefix: its first character is a nibble. -/
theorem stripPrefix_hexEncode (bs : Bytes) : stripPrefix sha256Colon (hexEncode bs) = none := by
  cases bs with
  | nil => rfl
  | cons b bs =>
    have hlt : b.toNat < 256 := b.toNat_lt
    have hne : hexDigit (b.toNat / 16) ≠ 's' := (hexDigit_ne (by omega)).1
    have : sha256Colon.isPrefixOf (hexEncode (b :: bs)) = false := by
      rw [hexEncode, sha256Colon, List.isPrefixOf]
      simp only [Bool.and_eq_false_iff, beq_eq_false_iff_ne]
      exact .inl (Ne.symm hne)
    rw [stripPrefix, this]
    rfl

theorem fromHex_asHex (d : Digest) : fromHex d.asHex = .ok d := by
  rw [fromHex, asHex, stripPrefix_hexEncode, Option.getD_none, hexDecode_hexEncode]
  simp only [d.len, dite_true]

theorem asHex_injective : Function.Injective asHex := by
  intro a b h
  have : Except.ok (ε := ParseError) a = .ok b := by
    rw [← fromHex_asHex a, ← fromHex_asHex b, h]
  injection this

end Digest

end Pullrun
