import Pullrun.Store.Digest

/-!
# JSON values, and `serde_json` between them and text

The runtime writes structures as JSON and reads them back, sometimes a different structure than the
one that was written. What `serde` derives — which fields are written under which names, which may
be missing when they are read — is modelled on values; the text format in between is `serde_json`'s,
a parameter (`SerdeJson`).

A `HashMap` with string keys is the list of its entries in iteration order.
-/

namespace Pullrun

/-- A JSON value. Objects keep the order and the repetitions of their keys. -/
inductive Value
  | null
  | bool (b : Bool)
  | num (n : ℤ)
  | str (s : Str)
  | arr (items : List Value)
  | obj (fields : List (Str × Value))

namespace Value

/-! ## Equality can be tested -/

mutual

def beq : Value → Value → Bool
  | .null, .null => true
  | .bool a, .bool b => a == b
  | .num a, .num b => a == b
  | .str a, .str b => a == b
  | .arr a, .arr b => beqItems a b
  | .obj a, .obj b => beqFields a b
  | _, _ => false

def beqItems : List Value → List Value → Bool
  | [], [] => true
  | v :: vs, w :: ws => v.beq w && beqItems vs ws
  | _, _ => false

def beqFields : List (Str × Value) → List (Str × Value) → Bool
  | [], [] => true
  | (k, v) :: vs, (l, w) :: ws => k == l && v.beq w && beqFields vs ws
  | _, _ => false

end

mutual

theorem eq_of_beq : ∀ v w : Value, v.beq w = true → v = w
  | .null, w, h => by cases w <;> simp_all [beq]
  | .bool a, w, h => by cases w <;> simp_all [beq]
  | .num a, w, h => by cases w <;> simp_all [beq]
  | .str a, w, h => by cases w <;> simp_all [beq]
  | .arr a, w, h => by
    cases w with
    | arr b => rw [beq] at h; rw [eq_of_beqItems a b h]
    | _ => simp [beq] at h
  | .obj a, w, h => by
    cases w with
    | obj b => rw [beq] at h; rw [eq_of_beqFields a b h]
    | _ => simp [beq] at h

theorem eq_of_beqItems : ∀ vs ws : List Value, beqItems vs ws = true → vs = ws
  | [], ws, h => by cases ws <;> simp_all [beqItems]
  | v :: vs, ws, h => by
    cases ws with
    | nil => simp [beqItems] at h
    | cons w ws =>
      rw [beqItems, Bool.and_eq_true] at h
      rw [eq_of_beq v w h.1, eq_of_beqItems vs ws h.2]

theorem eq_of_beqFields : ∀ vs ws : List (Str × Value), beqFields vs ws = true → vs = ws
  | [], ws, h => by cases ws <;> simp_all [beqFields]
  | (k, v) :: vs, ws, h => by
    cases ws with
    | nil => simp [beqFields] at h
    | cons w ws =>
      obtain ⟨l, w⟩ := w
      rw [beqFields, Bool.and_eq_true, Bool.and_eq_true, beq_iff_eq] at h
      rw [h.1.1, eq_of_beq v w h.1.2, eq_of_beqFields vs ws h.2]

end

mutual

theorem beq_refl : ∀ v : Value, v.beq v = true
  | .null | .bool _ | .num _ | .str _ => by simp [beq]
  | .arr a => by rw [beq]; exact beqItems_refl a
  | .obj a => by rw [beq]; exact beqFields_refl a

theorem beqItems_refl : ∀ vs : List Value, beqItems vs vs = true
  | [] => by rw [beqItems]
  | v :: vs => by rw [beqItems, beq_refl v, beqItems_refl vs]; rfl

theorem beqFields_refl : ∀ vs : List (Str × Value), beqFields vs vs = true
  | [] => by rw [beqFields]
  | (k, v) :: vs => by rw [beqFields, beq_refl v, beqFields_refl vs]; simp

end

instance : DecidableEq Value := fun v w =>
  decidable_of_iff (v.beq w = true) ⟨eq_of_beq v w, fun h => h ▸ beq_refl v⟩

/-! ## Reading a value

What `serde` accepts for a field of each type. A `None` is written as `null`, or not written at
all; reading takes both. -/

def asStr : Value → Option Str
  | .str s => some s
  | _ => none

def asBool : Value → Option Bool
  | .bool b => some b
  | _ => none

def asInt (lo hi : ℤ) : Value → Option ℤ
  | .num n => if lo ≤ n ∧ n < hi then some n else none
  | _ => none

def asU32 (v : Value) : Option UInt32 := (v.asInt 0 (2 ^ 32)).map fun n => UInt32.ofNat n.toNat
def asU64 (v : Value) : Option UInt64 := (v.asInt 0 (2 ^ 64)).map fun n => UInt64.ofNat n.toNat
def asI64 (v : Value) : Option Int64 := (v.asInt (-2 ^ 63) (2 ^ 63)).map Int64.ofInt
def asU8 (v : Value) : Option UInt8 := (v.asInt 0 256).map fun n => UInt8.ofNat n.toNat

/-- `Option<String>`, from a field that is there. -/
def asOptStr : Value → Option (Option Str)
  | .null => some none
  | v => v.asStr.map some

def asDigest (v : Value) : Option Digest :=
  match v.asStr with
  | some s =>
    match Digest.fromHex s with
    | .ok d => some d
    | .error _ => none
  | none => none

def readAll {α β : Type} (f : α → Option β) : List α → Option (List β)
  | [] => some []
  | a :: as =>
    match f a, readAll f as with
    | some b, some bs => some (b :: bs)
    | _, _ => none

/-- `Vec<u8>` -/
def asBytes : Value → Option Bytes
  | .arr items => readAll asU8 items
  | _ => none

/-- Insert into a map: an existing key keeps its place. -/
def insertKey {V : Type} (m : List (Str × V)) (k : Str) (v : V) : List (Str × V) :=
  if (m.map Prod.fst).contains k then m.map fun e => if e.1 = k then (k, v) else e
  else m ++ [(k, v)]

def mapOf {V : Type} (entries : List (Str × V)) : List (Str × V) :=
  entries.foldl (fun m e => insertKey m e.1 e.2) []

/-- `HashMap<String, _>` -/
def asMap {V : Type} (f : Value → Option V) : Value → Option (List (Str × V))
  | .obj fields => (readAll (fun e : Str × Value => (f e.2).map fun v => (e.1, v)) fields).map mapOf
  | _ => none

/-- The value of a field. Unknown fields are ignored; a field that is given twice is an error. -/
def field (fields : List (Str × Value)) (name : Str) : Option (Option Value) :=
  match fields.filter fun e => e.1 = name with
  | [] => some none
  | [e] => some (some e.2)
  | _ => none

def required {α : Type} (fields : List (Str × Value)) (name : Str) (f : Value → Option α) :
    Option α :=
  match field fields name with
  | some (some v) => f v
  | _ => none

def optional {α : Type} (fields : List (Str × Value)) (name : Str) (missing : α)
    (f : Value → Option α) : Option α :=
  match field fields name with
  | some (some v) => f v
  | some none => some missing
  | none => none

/-! ## Writing a value -/

def ofOptStr : Option Str → Value
  | none => .null
  | some s => .str s

def ofBytes (b : Bytes) : Value := .arr (b.map fun x => .num x.toNat)

def ofMap {V : Type} (f : V → Value) (m : List (Str × V)) : Value :=
  .obj (m.map fun e => (e.1, f e.2))

end Value

/-! ## The text format -/

/-- `serde_json::to_vec` and `serde_json::from_slice`, on values. -/
structure SerdeJson where
  toVec : Value → Except String Bytes
  fromSlice : Bytes → Except String Value

/-- What is relied on: text that was written is read back as the value it was written for, and
    compact JSON has no raw line feed. -/
structure SerdeJson.Lawful (j : SerdeJson) : Prop where
  reads : ∀ v b, j.toVec v = .ok b → j.fromSlice b = .ok v
  noNewline : ∀ v b, j.toVec v = .ok b → (10 : UInt8) ∉ b
  nonempty : ∀ v b, j.toVec v = .ok b → b ≠ []

theorem SerdeJson.Lawful.injective {j : SerdeJson} (h : j.Lawful) {v w : Value} {b : Bytes}
    (hv : j.toVec v = .ok b) (hw : j.toVec w = .ok b) : v = w := by
  have := (h.reads v b hv).symm.trans (h.reads w b hw)
  injection this

/-! ## Strings and bytes -/

/-- `str::as_bytes` and `String::from_utf8_lossy`. -/
structure Text where
  utf8 : Str → Bytes
  fromUtf8Lossy : Bytes → Str

/-- Nothing is lost of a string. -/
def Text.Lawful (x : Text) : Prop := ∀ s, x.fromUtf8Lossy (x.utf8 s) = s

end Pullrun
