import Mathlib.Data.UInt

/-!
# Reading off the front of a byte string

A `Cursor` consumes a byte string from its front and may fail. What is to be shown of a reader is
that it undoes a writer wherever the written bytes stand: `Reads c bs a` says that `c`, on any string
that begins with `bs`, returns `a` and leaves what follows `bs`. Readers are put together with `>>=`,
written bytes with `++`, and `Reads` goes along with both.
-/

/-- A reader of bytes, with errors in `ε`. -/
abbrev Cursor (ε α : Type) := StateT (List UInt8) (Except ε) α

namespace Cursor

open List

variable {ε α β : Type}

/-! ## Words -/

def ofBytes (bs : List UInt8) : ℕ := bs.foldl (fun n b => n * 256 + b.toNat) 0

def toBytes : ℕ → ℕ → List UInt8
  | 0, _ => []
  | width + 1, n => toBytes width (n / 256) ++ [UInt8.ofNat n]

@[simp]
theorem length_toBytes (width n : ℕ) : (toBytes width n).length = width := by
  induction width generalizing n with
  | zero => rfl
  | succ width ih => rw [toBytes, length_append, ih, length_singleton]

theorem ofBytes_append_singleton (bs : List UInt8) (b : UInt8) :
    ofBytes (bs ++ [b]) = ofBytes bs * 256 + b.toNat := by
  rw [ofBytes, foldl_append]
  rfl

theorem ofBytes_toBytes {width n : ℕ} (h : n < 256 ^ width) : ofBytes (toBytes width n) = n := by
  induction width generalizing n with
  | zero =>
    rw [pow_zero] at h
    have hn : n = 0 := by omega
    rw [hn]
    rfl
  | succ width ih =>
    have hdiv : n / 256 < 256 ^ width := by
      rw [pow_succ] at h
      exact Nat.div_lt_of_lt_mul (by rwa [mul_comm])
    rw [toBytes, ofBytes_append_singleton, ih hdiv, UInt8.toNat_ofNat']
    omega

/-! ## Readers -/

def remaining : Cursor ε ℕ := fun bs => .ok (bs.length, bs)

def take (n : ℕ) (short : ε) : Cursor ε (List UInt8) := fun bs =>
  if n ≤ bs.length then .ok (bs.take n, bs.drop n) else .error short

def rest : Cursor ε (List UInt8) := fun bs => .ok (bs, [])

/-- The next `width` bytes as a number. -/
def word (width : ℕ) (short : ε) : Cursor ε ℕ := do
  let bs ← take width short
  pure (ofBytes bs)

def fail (e : ε) : Cursor ε α := fun _ => .error e

def times : ℕ → Cursor ε α → Cursor ε (List α)
  | 0, _ => pure []
  | n + 1, c => do
    let a ← c
    let as ← times n c
    pure (a :: as)

/-! ## What a reader undoes -/

def Reads (c : Cursor ε α) (bs : List UInt8) (a : α) : Prop :=
  ∀ tail, c.run (bs ++ tail) = .ok (a, tail)

theorem Reads.pure (a : α) : Reads (ε := ε) (Pure.pure a) [] a := fun _ => rfl

variable {c : Cursor ε α} {f : α → Cursor ε β} {bs : List UInt8} {a : α} {b : β}

theorem Reads.bind {bs' : List UInt8} (hc : Reads c bs a) (hf : Reads (f a) bs' b) :
    Reads (c >>= f) (bs ++ bs') b := by
  intro tail
  rw [StateT.run_bind, append_assoc, hc]
  exact hf tail

theorem Reads.last (hc : Reads c bs a) (hf : Reads (f a) [] b) : Reads (c >>= f) bs b := by
  rw [← append_nil bs]
  exact hc.bind hf

theorem Reads.map (hc : Reads c bs a) (g : α → β) : Reads (c >>= fun a => Pure.pure (g a)) bs (g a) :=
  hc.last (Reads.pure (g a))

theorem Reads.peek (h : ∀ tail, ∃ a, c.run (bs ++ tail) = .ok (a, bs ++ tail) ∧
      (f a).run (bs ++ tail) = .ok (b, tail)) :
    Reads (c >>= f) bs b := by
  intro tail
  obtain ⟨a, hc, hf⟩ := h tail
  rw [StateT.run_bind, hc]
  exact hf

theorem reads_take (bs : List UInt8) (short : ε) : Reads (take bs.length short) bs bs := by
  intro tail
  change (if bs.length ≤ (bs ++ tail).length then
    Except.ok ((bs ++ tail).take bs.length, (bs ++ tail).drop bs.length) else .error short) = _
  rw [if_pos (by rw [length_append]; omega), take_left, drop_left]

theorem reads_word {width n : ℕ} (h : n < 256 ^ width) (short : ε) :
    Reads (word width short) (toBytes width n) n := by
  have htake := reads_take (toBytes width n) short
  rw [length_toBytes] at htake
  have hmap := htake.map ofBytes
  rw [ofBytes_toBytes h] at hmap
  exact hmap

theorem reads_times {write : α → List UInt8} {as : List α} (h : ∀ a ∈ as, Reads c (write a) a) :
    Reads (times as.length c) (as.flatMap write) as := by
  induction as with
  | nil =>
    exact Reads.pure []
  | cons a as ih =>
    rw [flatMap_cons]
    refine (h a mem_cons_self).bind ?_
    exact (ih fun a' ha' => h a' (mem_cons_of_mem _ ha')).map fun as => a :: as

end Cursor
