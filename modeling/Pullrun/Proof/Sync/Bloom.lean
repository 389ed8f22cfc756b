import Pullrun.Sync.Bloom

/-!
# What a filter answers

A filter that some items were inserted into has the bits of these and no others (`built`).
-/

namespace Pullrun.Sync

open List

def hasBit (bits : List (BitVec 64)) (c : ℕ) : Bool := (bits.getD (c / 64) 0).getLsbD (c % 64)

def positions (h : BitVec 64 × BitVec 64) (k m : ℕ) : List ℕ :=
  (range k).map fun i => ((h.1 + BitVec.ofNat 64 i) * h.2).toNat % m

variable {bits : List (BitVec 64)} {hash : HashPair} {h : BitVec 64 × BitVec 64} {m k : ℕ}

/-! ## The bits -/

theorem word_lt (hm : 0 < m) (n : ℕ) : n % m / 64 < wordCount m := by
  have hlt := Nat.mod_lt n hm
  unfold wordCount
  omega

theorem hasBit_modify {bit : ℕ} (hb : bit / 64 < bits.length) (c : ℕ) :
    hasBit (bits.modify (bit / 64) (· ||| BitVec.twoPow 64 (bit % 64))) c = true ↔
      hasBit bits c = true ∨ c = bit := by
  unfold hasBit
  rw [getD_eq_getElem?_getD, getD_eq_getElem?_getD, getElem?_modify]
  by_cases hword : bit / 64 = c / 64
  · have hlt : c / 64 < bits.length := hword ▸ hb
    rw [getElem?_eq_getElem hlt]
    simp only [hword, if_true, Option.map_eq_map, Option.map_some, Option.getD_some, BitVec.getLsbD_or,
      BitVec.getLsbD_twoPow, Bool.or_eq_true, Bool.and_eq_true, decide_eq_true_eq]
    refine or_congr Iff.rfl ⟨fun hoff => ?_, fun hc => ?_⟩ <;> omega
  · have hne : c ≠ bit := fun hc => hword (hc ▸ rfl)
    simp [hword, hne]

namespace BloomFilter

variable {f g : BloomFilter}

theorem foldlM_setBit {is : List ℕ} (hm : 0 < m ∨ is = []) (hlen : bits.length = wordCount m) :
    ∃ bits', is.foldlM (setBit h m) bits = some bits' ∧ bits'.length = wordCount m ∧
      ∀ c, hasBit bits' c = true ↔ hasBit bits c = true ∨
        c ∈ is.map fun i => ((h.1 + BitVec.ofNat 64 i) * h.2).toNat % m := by
  induction is generalizing bits with
  | nil => exact ⟨bits, rfl, hlen, fun c => by simp⟩
  | cons i is ih =>
    have hm := hm.resolve_right (cons_ne_nil i is)
    have hbit := hlen ▸ word_lt hm ((h.1 + BitVec.ofNat 64 i) * h.2).toNat
    obtain ⟨bits', hrun, hlen', hbits⟩ := ih (.inl hm) ((length_modify ..).trans hlen)
    refine ⟨bits', ?_, hlen', fun c => ?_⟩
    · rw [foldlM_cons, setBit, gI, if_neg hm.ne']
      exact (congrArg (· >>= _) (if_pos hbit)).trans hrun
    · rw [hbits, hasBit_modify hbit, map_cons, mem_cons, or_assoc]

theorem hasBit_new (m k c : ℕ) : hasBit (new m k).bits c = false := by
  rw [hasBit, new, getD_eq_getElem?_getD, getElem?_replicate]
  split <;> exact BitVec.getLsbD_zero

theorem built (hash : HashPair) (hm : 0 < m ∨ k = 0) (items : List Str) :
    ∃ f, items.foldlM (insert hash) (new m k) = some f ∧ f.k = k ∧ f.m = m ∧
      f.bits.length = wordCount m ∧
      ∀ c, hasBit f.bits c = true ↔ ∃ item ∈ items, c ∈ positions (hash item) k m := by
  induction items using reverseRecOn with
  | nil => exact ⟨_, rfl, rfl, rfl, length_replicate, fun c => by simp [hasBit_new]⟩
  | append_singleton items item ih =>
    obtain ⟨f, hf, hfk, hfm, hlen, hbits⟩ := ih
    obtain ⟨bits', hrun, hlen', hbits'⟩ :=
      foldlM_setBit (h := hash item) (hm.imp_right fun hk => range_eq_nil.mpr hk) hlen
    refine ⟨{ f with bits := bits', numItems := f.numItems + 1 }, ?_, hfk, hfm, hlen', fun c => ?_⟩
    · rw [foldlM_append, hf]
      change (insert hash f item >>= pure) = _
      rw [bind_pure, insert, hfk, hfm, hrun, Option.map_some]
    · rw [hbits', hbits]
      simp [or_and_right, exists_or, positions]

theorem containsFrom_eq {is : List ℕ} (hm : 0 < f.m ∨ is = []) (hlen : f.bits.length = wordCount f.m) :
    containsFrom h f is = some ((is.map fun i => ((h.1 + BitVec.ofNat 64 i) * h.2).toNat % f.m).all
      (hasBit f.bits)) := by
  induction is with
  | nil => rfl
  | cons i is ih =>
    have hm := hm.resolve_right (cons_ne_nil i is)
    have hbit := hlen ▸ word_lt hm ((h.1 + BitVec.ofNat 64 i) * h.2).toNat
    rw [containsFrom, gI, if_neg hm.ne']
    simp only [getElem?_eq_getElem hbit, map_cons, all_cons, hasBit, getD_eq_getElem?_getD,
      Option.getD_some]
    split
    · rename_i hset
      rw [ih (.inl hm), hset, Bool.true_and]
    · rename_i hclear
      rw [Bool.eq_false_iff.mpr hclear, Bool.false_and]

theorem contains_eq (hm : 0 < f.m ∨ f.k = 0) (hlen : f.bits.length = wordCount f.m) (item : Str) :
    f.contains hash item = some ((positions (hash item) f.k f.m).all (hasBit f.bits)) :=
  containsFrom_eq (hm.imp_right fun hk => range_eq_nil.mpr hk) hlen

/-! ## Bytes that a peer sends -/

/-- **Looking up an item does not panic exactly if there is a bit to look at**, or none has to be. -/
theorem contains_total_iff {data : Bytes} {n : ℕ} (hdata : fromBytes data = some (f, n)) (hash : HashPair) :
    (∀ item, (f.contains hash item).isSome) ↔ f.m ≠ 0 ∨ f.k = 0 := by
  have hlen : f.bits.length = wordCount f.m := by
    unfold fromBytes at hdata
    split at hdata
    · cases hdata
    · dsimp only at hdata
      split at hdata <;> cases hdata
      rw [length_map, length_range]
  constructor
  · intro htotal
    by_contra hnot
    obtain ⟨hm, hk⟩ := not_or.mp hnot
    obtain ⟨k, hk⟩ := Nat.exists_eq_succ_of_ne_zero hk
    have hsome := htotal []
    rw [contains, hk, range_succ_eq_map, containsFrom, gI, if_pos (not_not.mp hm)] at hsome
    cases hsome
  · intro hm item
    rw [contains_eq (hm.imp_left Nat.pos_of_ne_zero) hlen]
    rfl

theorem empty_filter_panics : fromBytes [0, 0, 0, 0, 0, 0, 0, 0, 1, 0, 0, 0] = some (⟨[], 1, 0, 0⟩, 12) ∧
    contains (fun _ => (0, 0)) ⟨[], 1, 0, 0⟩ [] = none := by
  decide +kernel

theorem contains_total_one :
    fromBytes [1, 0, 0, 0, 0, 0, 0, 0, 1, 0, 0, 0, 7, 0, 0, 0, 0, 0, 0, 0] = some (⟨[7], 1, 1, 0⟩, 20) ∧
      ∀ item, (contains (fun _ => (0, 0)) ⟨[7], 1, 1, 0⟩ item).isSome := by
  refine (and_iff_left_of_imp fun hdata => ?_).mpr (by decide +kernel)
  exact (contains_total_iff hdata _).mpr (.inl (by decide))

/-! ## The bytes of a filter -/

theorem length_toLe (width n : ℕ) : (toLe width n).length = width := by
  rw [toLe, length_reverse, Cursor.length_toBytes]

theorem ofLe_toLe {width n : ℕ} (h : n < 256 ^ width) : ofLe (toLe width n) = n := by
  rw [ofLe, toLe, reverse_reverse, Cursor.ofBytes_toBytes h]

theorem words_at {tail : Bytes} {i : ℕ} {w : BitVec 64} (hw : bits[i]? = some w) :
    (((bits.flatMap fun w => toLe 8 w.toNat) ++ tail).drop (i * 8)).take 8 = toLe 8 w.toNat := by
  induction bits generalizing i with
  | nil => cases hw
  | cons w' rest ih =>
    cases i with
    | zero =>
      cases hw
      rw [flatMap_cons, append_assoc, zero_mul, drop_zero, take_left' (length_toLe 8 _)]
    | succ i =>
      rw [flatMap_cons, append_assoc, Nat.succ_mul, Nat.add_comm, ← drop_drop,
        drop_left' (length_toLe 8 _), ih hw]

theorem fromBytes_toBytes (hm : f.m < 256 ^ 8) (hk : f.k < 256 ^ 4)
    (hlen : f.bits.length = wordCount f.m) (tail : Bytes) :
    fromBytes (f.toBytes ++ tail) = some ({ f with numItems := 0 }, f.toBytes.length) := by
  have hsize : f.toBytes.length = 12 + wordCount f.m * 8 := by
    simp [toBytes, length_flatMap, length_toLe, hlen]
    omega
  have hhead : (f.toBytes ++ tail).take 8 = toLe 8 f.m := by
    rw [toBytes, append_assoc, append_assoc, take_left' (length_toLe 8 _)]
  have hmid : ((f.toBytes ++ tail).drop 8).take 4 = toLe 4 f.k := by
    rw [toBytes, append_assoc, append_assoc, drop_left' (length_toLe 8 _), take_left' (length_toLe 4 _)]
  have hrest : ∀ i, (f.toBytes ++ tail).drop (12 + i) =
      ((f.bits.flatMap fun w => toLe 8 w.toNat) ++ tail).drop i := by
    intro i
    rw [toBytes, append_assoc, ← drop_drop, drop_left' (by rw [length_append, length_toLe, length_toLe])]
  have hbits : (range (wordCount f.m)).map (fun i => BitVec.ofNat 64
      (ofLe ((((f.bits.flatMap fun w => toLe 8 w.toNat) ++ tail).drop (i * 8)).take 8))) = f.bits := by
    refine ext_getElem? fun i => ?_
    rw [getElem?_map, ← hlen]
    by_cases hi : i < f.bits.length
    · have hword : (f.bits[i]).toNat < 256 ^ 8 := (f.bits[i]).isLt
      rw [getElem?_range hi, getElem?_eq_getElem hi, Option.map_some, words_at (getElem?_eq_getElem hi),
        ofLe_toLe hword, BitVec.ofNat_toNat, BitVec.setWidth_eq]
    · rw [getElem?_eq_none (by simpa using hi), getElem?_eq_none (by simpa using hi)]
      rfl
  unfold fromBytes
  simp only [length_append, hsize, hhead, hmid, ofLe_toLe hm, ofLe_toLe hk, hrest, hbits]
  rw [if_neg (by omega), if_neg (by omega)]

/-- **A filter answers the same when it has come through its bytes**, and yes for what was inserted. -/
theorem decoded_contains (hash : HashPair) (hm : 1 ≤ m) (hm' : m < 2 ^ 64) (hk : k < 2 ^ 32)
    (items : List Str) :
    ∃ f, items.foldlM (insert hash) (new m k) = some f ∧ ∀ tail,
      ∃ g, fromBytes (f.toBytes ++ tail) = some (g, f.toBytes.length) ∧
        (∀ x, (g.contains hash x).isSome ∧ g.contains hash x = f.contains hash x) ∧
        ∀ item ∈ items, g.contains hash item = some true := by
  obtain ⟨f, hf, rfl, rfl, hlen, hbits⟩ := built (k := k) hash (.inl hm) items
  have hg : ∀ x, contains hash { f with numItems := 0 } x =
      some ((positions (hash x) f.k f.m).all (hasBit f.bits)) := contains_eq (.inl hm) hlen
  refine ⟨f, hf, fun tail => ⟨_, fromBytes_toBytes hm' hk hlen tail, fun x => ?_, fun item hitem => ?_⟩⟩
  · rw [hg, contains_eq (.inl hm) hlen]
    exact ⟨rfl, rfl⟩
  · rw [hg, Option.some.injEq, all_eq_true]
    exact fun c hc => (hbits c).mpr ⟨item, hitem, hc⟩

theorem decoded_contains_one : ∃ f, [['a']].foldlM (insert fun _ => (65, 1)) (new 66 2) = some f ∧
    ∃ g, fromBytes (f.toBytes ++ [9]) = some (g, f.toBytes.length) ∧
      g.contains (fun _ => (65, 1)) ['a'] = some true := by
  obtain ⟨f, hf, hdecoded⟩ :=
    decoded_contains (m := 66) (k := 2) (fun _ => (65, 1)) (by decide) (by decide) (by decide) [['a']]
  obtain ⟨g, hg, -, hitems⟩ := hdecoded [9]
  exact ⟨f, hf, g, hg, hitems _ (mem_singleton_self _)⟩

/-! ## Merging -/

theorem hasBit_zipWith {bits' : List (BitVec 64)} (hlen : bits.length = bits'.length) (c : ℕ) :
    hasBit (zipWith (· ||| ·) bits bits') c = true ↔ hasBit bits c = true ∨ hasBit bits' c = true := by
  unfold hasBit
  by_cases hc : c / 64 < bits.length
  · have hc' := hlen ▸ hc
    simp [getElem?_zipWith, getElem?_eq_getElem hc, getElem?_eq_getElem hc']
  · have hc' := hlen ▸ hc
    rw [not_lt] at hc hc'
    simp [getElem?_zipWith, getElem?_eq_none hc, getElem?_eq_none hc']

theorem of_built {items : List Str} (hf : items.foldlM (insert hash) (new m k) = some f) :
    f.k = k ∧ f.m = m ∧ f.bits.length = wordCount m ∧
      (∀ c, hasBit f.bits c = true ↔ ∃ item ∈ items, c ∈ positions (hash item) k m) ∧
      (items = [] ∨ 0 < m ∨ k = 0) := by
  by_cases hset : 0 < m ∨ k = 0
  · obtain ⟨f', hf', hspec⟩ := built hash hset items
    cases hf.symm.trans hf'
    exact ⟨hspec.1, hspec.2.1, hspec.2.2.1, hspec.2.2.2, .inr hset⟩
  · obtain ⟨hm, hk⟩ := not_or.mp hset
    obtain ⟨k, rfl⟩ := Nat.exists_eq_succ_of_ne_zero hk
    cases items with
    | nil =>
      cases hf
      exact ⟨rfl, rfl, length_replicate, fun c => by simp [hasBit_new], .inl rfl⟩
    | cons item items =>
      rw [foldlM_cons, insert, new, range_succ_eq_map, foldlM_cons, setBit, gI,
        if_pos (Nat.eq_zero_of_not_pos hm)] at hf
      cases hf

/-- **After a merge everything is still found exactly if** the items of the second filter are looked
    for where it has bits set for an item, modulo its own size, or the first has one. -/
theorem merge_keeps_iff {n k' : ℕ} {items others : List Str} {merged : BloomFilter}
    (hf : items.foldlM (insert hash) (new m k) = some f)
    (hg : others.foldlM (insert hash) (new n k') = some g) (hmerge : f.merge g = some merged) :
    (∀ item ∈ items ++ others, merged.contains hash item = some true) ↔
      ∀ item ∈ others, ∀ c ∈ positions (hash item) k m,
        (∃ x ∈ items, c ∈ positions (hash x) k m) ∨ ∃ x ∈ others, c ∈ positions (hash x) k n := by
  obtain ⟨hfk, hfm, hflen, hfbits, hfset⟩ := of_built hf
  obtain ⟨hgk, -, hglen, hgbits, hgset⟩ := of_built hg
  obtain ⟨⟨hlen, hk⟩, hmerge⟩ := Option.ite_none_right_eq_some.mp hmerge
  have hkk : k' = k := hgk.symm.trans (hk.symm.trans hfk)
  subst hkk
  obtain ⟨hmk, hmm, hbits⟩ : merged.k = k' ∧ merged.m = m ∧
      merged.bits = zipWith (· ||| ·) f.bits g.bits := by
    cases hmerge
    exact ⟨hfk, hfm, rfl⟩
  by_cases hm : 0 < m ∨ k' = 0
  · have hcontains : ∀ item, merged.contains hash item = some true ↔ ∀ c ∈ positions (hash item) k' m,
        (∃ x ∈ items, c ∈ positions (hash x) k' m) ∨ ∃ x ∈ others, c ∈ positions (hash x) k' n := by
      intro item
      have hwords : merged.bits.length = wordCount merged.m := by
        rw [hbits, length_zipWith, ← hlen, Nat.min_self, hflen, hmm]
      rw [contains_eq (by rwa [hmm, hmk]) hwords, Option.some.injEq, all_eq_true, hmk, hmm, hbits]
      simp only [hasBit_zipWith hlen, hfbits, hgbits]
    simp only [hcontains, mem_append]
    constructor
    · exact fun hall item hitem => hall item (.inr hitem)
    · rintro hothers item (hitem | hitem)
      · exact fun c hc => .inl ⟨item, hitem, hc⟩
      · exact hothers item hitem
  · -- Neither filter has a bit, and nothing was inserted into either.
    have hn : ¬ (0 < n ∨ k' = 0) := by
      have hwords : wordCount m = wordCount n := hflen.symm.trans (hlen.trans hglen)
      unfold wordCount at hwords
      omega
    rw [hfset.resolve_right hm, hgset.resolve_right hn]
    simp

theorem merged_item_lost : ∃ f g merged, [].foldlM (insert fun _ => (65, 1)) (new 66 1) = some f ∧
    [['a']].foldlM (insert fun _ => (65, 1)) (new 65 1) = some g ∧ f.merge g = some merged ∧
    merged.contains (fun _ => (65, 1)) ['a'] = some false :=
  ⟨⟨[0, 0], 1, 66, 0⟩, ⟨[1, 0], 1, 65, 1⟩, ⟨[1, 0], 1, 66, 1⟩, by decide +kernel⟩

theorem merged_item_kept : contains (fun _ => (65, 1)) ⟨[1, 0], 1, 65, 1⟩ ['a'] = some true := by
  have hf : [].foldlM (insert fun _ => (65, 1)) (new 65 1) = some ⟨[0, 0], 1, 65, 0⟩ := rfl
  have hg : [['a']].foldlM (insert fun _ => (65, 1)) (new 65 1) = some ⟨[1, 0], 1, 65, 1⟩ := by
    decide +kernel
  exact (merge_keeps_iff hf hg rfl).mpr (fun item hitem _ hc => .inr ⟨item, hitem, hc⟩) _ (by simp)

end BloomFilter

end Pullrun.Sync
