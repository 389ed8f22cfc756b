import Pullrun.Oci.Json

/-!
# Directory entries in a tree node

`pullrun-oci/src/converter.rs`. The inline data of a tree node lists what is in a directory, one
entry a line, each line a JSON object. `toInlineBytes` writes an entry and its line feed;
`fromInlineBytes` reads a whole node, and **drops every line it cannot read**: a line that is not
JSON, or that lacks a field, is as if it were not there.

What is written by the one is read by the other (`fromInlineBytes_inlineBytes`).
-/

namespace Pullrun

open Prod List

/-- `DirectoryEntry`, and `SerializedEntry`, which has the same fields. -/
structure DirectoryEntry where
  name : Str
  digest : Digest
  mode : UInt32
  size : UInt64
  uid : UInt32
  gid : UInt32
  mtime : Int64
  isDir : Bool
  isSymlink : Bool
  symlinkTarget : Option Str
  xattrs : List (Str × Bytes)
deriving DecidableEq

namespace DirectoryEntry

/-! ## The names of the fields -/

def fName : Str := ['n', 'a', 'm', 'e']
def fDigest : Str := ['d', 'i', 'g', 'e', 's', 't']
def fMode : Str := ['m', 'o', 'd', 'e']
def fSize : Str := ['s', 'i', 'z', 'e']
def fUid : Str := ['u', 'i', 'd']
def fGid : Str := ['g', 'i', 'd']
def fMtime : Str := ['m', 't', 'i', 'm', 'e']
def fIsDir : Str := ['i', 's', '_', 'd', 'i', 'r']
def fIsSymlink : Str := ['i', 's', '_', 's', 'y', 'm', 'l', 'i', 'n', 'k']
def fSymlinkTarget : Str :=
  ['s', 'y', 'm', 'l', 'i', 'n', 'k', '_', 't', 'a', 'r', 'g', 'e', 't']
def fXattrs : Str := ['x', 'a', 't', 't', 'r', 's']

def toValue (e : DirectoryEntry) : Value :=
  .obj [(fName, .str e.name), (fDigest, .str e.digest.asHex), (fMode, .num e.mode.toNat),
    (fSize, .num e.size.toNat), (fUid, .num e.uid.toNat), (fGid, .num e.gid.toNat),
    (fMtime, .num e.mtime.toInt), (fIsDir, .bool e.isDir), (fIsSymlink, .bool e.isSymlink),
    (fSymlinkTarget, .ofOptStr e.symlinkTarget), (fXattrs, .ofMap .ofBytes e.xattrs)]

/-- `#[derive(Deserialize)]`: the option and the map marked `#[serde(default)]` may be missing. -/
def ofFields (fields : List (Str × Value)) : Option DirectoryEntry := do
  let name ← Value.required fields fName Value.asStr
  let digest ← Value.required fields fDigest Value.asDigest
  let mode ← Value.required fields fMode Value.asU32
  let size ← Value.required fields fSize Value.asU64
  let uid ← Value.required fields fUid Value.asU32
  let gid ← Value.required fields fGid Value.asU32
  let mtime ← Value.required fields fMtime Value.asI64
  let isDir ← Value.required fields fIsDir Value.asBool
  let isSymlink ← Value.required fields fIsSymlink Value.asBool
  let symlinkTarget ← Value.optional fields fSymlinkTarget none Value.asOptStr
  let xattrs ← Value.optional fields fXattrs [] (Value.asMap Value.asBytes)
  pure ⟨name, digest, mode, size, uid, gid, mtime, isDir, isSymlink, symlinkTarget, xattrs⟩

def ofValue : Value → Option DirectoryEntry
  | .obj fields => ofFields fields
  | _ => none

/-! ## Lines -/

/-- `to_inline_bytes`. An entry that does not serialize is a panic. -/
def toInlineBytes (j : SerdeJson) (e : DirectoryEntry) : Except String Bytes :=
  match j.toVec e.toValue with
  | .ok b => .ok (b ++ [10])
  | .error why => .error why

def inlineBytes (j : SerdeJson) : List DirectoryEntry → Except String Bytes
  | [] => .ok []
  | e :: es =>
    match e.toInlineBytes j, inlineBytes j es with
    | .ok line, .ok rest => .ok (line ++ rest)
    | .error why, _ => .error why
    | _, .error why => .error why

def ofLine (j : SerdeJson) (line : Bytes) : Option DirectoryEntry :=
  if line = [] then none
  else
    match j.fromSlice line with
    | .ok v => ofValue v
    | .error _ => none

def fromInlineBytes (j : SerdeJson) (data : Bytes) : List DirectoryEntry :=
  (data.splitOn 10).filterMap (ofLine j)

/-! ## Reading back

Field by field, what is written for a type is read as that type. -/

/-- An entry whose attribute map has each name once, as a map has. -/
def Wf (e : DirectoryEntry) : Prop := (e.xattrs.map Prod.fst).Nodup

end DirectoryEntry

namespace Value

theorem asU32_num (x : UInt32) : asU32 (.num x.toNat) = some x := by
  have hlt : x.toNat < 2 ^ 32 := x.toNat_lt
  have hin : (0 : ℤ) ≤ x.toNat ∧ (x.toNat : ℤ) < 2 ^ 32 := by omega
  rw [asU32, asInt, if_pos hin]
  simp

theorem asU64_num (x : UInt64) : asU64 (.num x.toNat) = some x := by
  have hlt : x.toNat < 2 ^ 64 := x.toNat_lt
  have hin : (0 : ℤ) ≤ x.toNat ∧ (x.toNat : ℤ) < 2 ^ 64 := by omega
  rw [asU64, asInt, if_pos hin]
  simp

theorem asU8_num (x : UInt8) : asU8 (.num x.toNat) = some x := by
  have hlt : x.toNat < 2 ^ 8 := x.toNat_lt
  have hin : (0 : ℤ) ≤ x.toNat ∧ (x.toNat : ℤ) < 256 := by omega
  simp [asU8, asInt, hin]

theorem asI64_num (x : Int64) : asI64 (.num x.toInt) = some x := by
  have hin : -2 ^ 63 ≤ x.toInt ∧ x.toInt < 2 ^ 63 := ⟨x.le_toInt, x.toInt_lt⟩
  rw [asI64, asInt, if_pos hin]
  simp

theorem asDigest_asHex (d : Digest) : asDigest (.str d.asHex) = some d := by
  simp [asDigest, asStr, Digest.fromHex_asHex]

theorem asOptStr_ofOptStr (o : Option Str) : asOptStr (.ofOptStr o) = some o := by
  cases o <;> rfl

theorem readAll_map {α β : Type} (f : α → Option β) (g : β → α) (h : ∀ b, f (g b) = some b)
    (bs : List β) : readAll f (bs.map g) = some bs := by
  induction bs with
  | nil => rfl
  | cons b bs ih => rw [map_cons, readAll, h, ih]

theorem asBytes_ofBytes (b : Bytes) : asBytes (.ofBytes b) = some b :=
  readAll_map asU8 (fun x => .num x.toNat) asU8_num b

variable {V : Type} {m : List (Str × V)}

theorem foldl_insertKey {entries : List (Str × V)} (h : ((m ++ entries).map fst).Nodup) :
    entries.foldl (fun m e => insertKey m e.1 e.2) m = m ++ entries := by
  induction entries generalizing m with
  | nil => rw [append_nil]; rfl
  | cons e entries ih =>
    have hnot : e.1 ∉ m.map fst := by
      rw [map_append, map_cons, nodup_append] at h
      intro hmem
      exact h.2.2 _ hmem _ mem_cons_self rfl
    have hins : insertKey m e.1 e.2 = m ++ [e] := by
      rw [insertKey, if_neg (by rw [contains_iff_mem]; exact hnot)]
    rw [foldl_cons, hins, ih (by rw [append_assoc]; exact h), append_assoc]
    rfl

theorem lookup_replace_ne (m : List (Str × V)) {k l : Str} (v : V) (h : l ≠ k) :
    (m.map fun e => if e.1 = k then (k, v) else e).lookup l = m.lookup l := by
  have hne : (l == k) = false := by simpa using h
  induction m with
  | nil => rfl
  | cons e m ih =>
    obtain ⟨k', w⟩ := e
    by_cases hk : k' = k
    · subst hk
      simp only [map_cons, if_true, lookup_cons, hne, ih]
    · simp only [map_cons, if_neg hk, lookup_cons, ih]

theorem lookup_insertKey (m : List (Str × V)) (k l : Str) (v : V) :
    (insertKey m k v).lookup l = if l = k then some v else m.lookup l := by
  unfold insertKey
  split
  · rename_i hk
    rw [contains_iff_mem] at hk
    induction m with
    | nil => cases hk
    | cons e m ih =>
      obtain ⟨k', w⟩ := e
      by_cases hkk : k' = k
      · subst hkk
        by_cases hl : l = k'
        · subst hl; simp
        · have hne : (l == k') = false := by simpa using hl
          simp only [map_cons, if_true, lookup_cons, hne, lookup_replace_ne m v hl, if_neg hl]
      · have hmem : k ∈ m.map fst := by
          rcases mem_cons.mp hk with h | h
          · exact absurd h.symm hkk
          · exact h
        simp only [map_cons, if_neg hkk, lookup_cons]
        by_cases hl : l = k'
        · subst hl
          simp [hkk]
        · have hne : (l == k') = false := by simpa using hl
          simp only [hne, ih hmem]
  · rename_i hk
    by_cases hl : l = k
    · subst hl
      have hnone : m.lookup l = none := by
        rw [lookup_eq_none_iff]
        intro e he
        have hne : l ≠ e.1 := by
          rintro rfl
          exact hk (contains_iff_mem.mpr (mem_map_of_mem he))
        simpa using hne
      simp [lookup_append, hnone]
    · have hne : (l == k) = false := by simpa using hl
      simp [lookup_append, lookup_cons, hne, hl]

theorem map_fst_replace (m : List (Str × V)) (k : Str) (v : V) :
    (m.map fun e => if e.1 = k then (k, v) else e).map fst = m.map fst := by
  rw [List.map_map]
  refine List.map_congr_left fun e _ => ?_
  simp only [Function.comp_apply]
  split
  · rename_i he; exact he.symm
  · rfl

theorem insertKey_nodup (h : (m.map fst).Nodup) (k : Str) (v : V) :
    ((insertKey m k v).map fst).Nodup := by
  unfold insertKey
  split
  · rw [map_fst_replace]
    exact h
  · rename_i hk
    rw [contains_iff_mem] at hk
    rw [map_append]
    exact nodup_append.mpr ⟨h, by simp, by
      intro a ha b hb
      rw [map_singleton, mem_singleton] at hb
      rintro rfl
      have hak : a = k := hb
      exact hk (hak ▸ ha)⟩

theorem mem_keys_insertKey (m : List (Str × V)) (k : Str) (v : V) (l : Str) :
    l ∈ (insertKey m k v).map fst ↔ l ∈ m.map fst ∨ l = k := by
  unfold insertKey
  split
  · rename_i hk
    rw [map_fst_replace]
    refine ⟨.inl, ?_⟩
    rintro (h | rfl)
    · exact h
    · exact contains_iff_mem.mp hk
  · rw [map_append, mem_append, map_singleton, mem_singleton]

theorem mem_keys_mapOf (entries : List (Str × V)) (l : Str) :
    l ∈ (mapOf entries).map fst ↔ l ∈ entries.map fst := by
  unfold mapOf
  have hfold : ∀ m : List (Str × V),
      l ∈ (entries.foldl (fun m e => insertKey m e.1 e.2) m).map fst ↔
        l ∈ m.map fst ∨ l ∈ entries.map fst := by
    induction entries with
    | nil => intro m; simp
    | cons e entries ih =>
      intro m
      rw [foldl_cons, ih, mem_keys_insertKey, map_cons, mem_cons, or_assoc]
  rw [hfold []]
  simp

theorem mapOf_nodup (entries : List (Str × V)) : ((mapOf entries).map fst).Nodup := by
  unfold mapOf
  have hfold : ∀ m : List (Str × V), (m.map fst).Nodup →
      ((entries.foldl (fun m e => insertKey m e.1 e.2) m).map fst).Nodup := by
    induction entries with
    | nil => exact fun m hm => hm
    | cons e entries ih => exact fun m hm => ih _ (insertKey_nodup hm e.1 e.2)
  exact hfold [] (by simp)

theorem mapOf_of_nodup {entries : List (Str × V)} (h : (entries.map fst).Nodup) :
    mapOf entries = entries :=
  (foldl_insertKey (by rw [nil_append]; exact h)).trans (nil_append _)

theorem asMap_ofMap {f : Value → Option V} {g : V → Value} (hfg : ∀ v, f (g v) = some v)
    (hm : (m.map fst).Nodup) : asMap f (.ofMap g m) = some m := by
  have hall := readAll_map (fun e : Str × Value => (f e.2).map fun v => (e.1, v))
    (fun e : Str × V => (e.1, g e.2)) (by intro e; simp [hfg]) m
  unfold ofMap asMap
  simp only
  rw [hall, Option.map_some, mapOf_of_nodup hm]

end Value

namespace DirectoryEntry

theorem ofValue_toValue {e : DirectoryEntry} (h : e.Wf) : ofValue e.toValue = some e := by
  have hx : Value.asMap Value.asBytes (.ofMap .ofBytes e.xattrs) = some e.xattrs :=
    Value.asMap_ofMap Value.asBytes_ofBytes h
  unfold toValue ofValue ofFields
  simp [Value.required, Value.optional, Value.field, fName, fDigest, fMode, fSize, fUid, fGid,
    fMtime, fIsDir, fIsSymlink, fSymlinkTarget, fXattrs, Value.asU32_num, Value.asU64_num,
    Value.asI64_num, Value.asDigest_asHex, Value.asOptStr_ofOptStr, hx, Value.asStr, Value.asBool]

theorem fromInlineBytes_line (j : SerdeJson) {b : Bytes} (hb : (10 : UInt8) ∉ b) (rest : Bytes) :
    fromInlineBytes j (b ++ 10 :: rest) = (ofLine j b).toList ++ fromInlineBytes j rest := by
  have hline : b.splitOn 10 = [b] := by
    have := @splitOn_intercalate UInt8 [b] _ _ 10 (by simpa using hb) (by simp)
    simpa using this
  have hsplit : (b ++ 10 :: rest).splitOn 10 = [b] ++ rest.splitOn 10 := by
    rw [← hline, splitOn, splitOnP_append_cons b rest (by simp)]
    rfl
  rw [fromInlineBytes, hsplit, singleton_append, filterMap_cons]
  cases ofLine j b with
  | none => rfl
  | some e => rfl

theorem fromInlineBytes_nil (j : SerdeJson) : fromInlineBytes j [] = [] := by
  simp [fromInlineBytes, ofLine]

theorem inlineBytes_cons_ok {j : SerdeJson} {e : DirectoryEntry} {es : List DirectoryEntry}
    {data : Bytes} : inlineBytes j (e :: es) = .ok data ↔ ∃ b rest, j.toVec e.toValue = .ok b ∧
      inlineBytes j es = .ok rest ∧ data = b ++ 10 :: rest := by
  rw [inlineBytes, toInlineBytes]
  cases j.toVec e.toValue with
  | error why => simp
  | ok b =>
    cases inlineBytes j es with
    | error why => simp
    | ok rest => simp [eq_comm]

theorem fromInlineBytes_inlineBytes {j : SerdeJson} (hj : j.Lawful) {es : List DirectoryEntry}
    (hes : ∀ e ∈ es, e.Wf) {data : Bytes} (h : inlineBytes j es = .ok data) :
    fromInlineBytes j data = es := by
  induction es generalizing data with
  | nil =>
    injection h with h
    rw [← h, fromInlineBytes_nil]
  | cons e es ih =>
    obtain ⟨b, rest, hv, hrest, rfl⟩ := inlineBytes_cons_ok.mp h
    rw [fromInlineBytes_line j (hj.noNewline _ _ hv), ofLine, if_neg (hj.nonempty _ _ hv), hj.reads _ _ hv,
      ih (fun e' he' => hes e' (mem_cons_of_mem _ he')) hrest]
    simp only [ofValue_toValue (hes e mem_cons_self)]
    rfl

theorem inlineBytes_append {j : SerdeJson} {es es' : List DirectoryEntry} {data' : Bytes}
    (hser : ∀ e ∈ es, ∃ b, j.toVec e.toValue = .ok b) (h' : inlineBytes j es' = .ok data') :
    ∃ data, inlineBytes j es = .ok data ∧ inlineBytes j (es ++ es') = .ok (data ++ data') := by
  induction es with
  | nil => exact ⟨[], rfl, h'⟩
  | cons e es ih =>
    obtain ⟨b, hb⟩ := hser e mem_cons_self
    obtain ⟨data, hdata, hall⟩ := ih fun e' he' => hser e' (mem_cons_of_mem _ he')
    refine ⟨b ++ 10 :: data, inlineBytes_cons_ok.mpr ⟨b, data, hb, hdata, rfl⟩, ?_⟩
    exact inlineBytes_cons_ok.mpr ⟨b, data ++ data', hb, hall, by simp⟩

end DirectoryEntry

end Pullrun
