import Pullrun.Store.Disk

/-!
# Operation locks

`pullrun-store/src/op_lock.rs`. A lock is a file `ops/<op_id>`; its existence is the signal, and a
lock whose file was last modified more than an hour ago counts for nothing. The clock is an
argument, in nanoseconds since the epoch; a lock from the future has age zero, as in the source.
-/

namespace Pullrun

namespace OpLock

/-- `format!("{n:020x}")` after `op_`. -/
def generateOpId (nanos : ℕ) : Str :=
  let digits := Nat.toDigits 16 nanos
  ['o', 'p', '_'] ++ List.replicate (20 - digits.length) '0' ++ digits

/-- `OpLock::new`: `File::create` empties a file of the same name. -/
def new (now : ℕ) (k : Disk) : Str × Disk :=
  let opId := generateOpId now
  (opId, { k with ops := k.ops.filter (·.opId ≠ opId) ++ [⟨opId, now, []⟩] })

/-- `OpLock::remove`, which is also what dropping a lock does. -/
def remove (opId : Str) (k : Disk) : Disk := { k with ops := k.ops.filter (·.opId ≠ opId) }

/-- One hour. -/
def staleAfter : ℕ := 3600 * 1000000000

end OpLock

/-- The characters `str::trim` removes. -/
def isWhiteSpace (ch : Char) : Bool :=
  let n := ch.toNat
  (9 ≤ n && n ≤ 13) || n == 0x20 || n == 0x85 || n == 0xA0 || n == 0x1680 ||
    (0x2000 ≤ n && n ≤ 0x200A) || n == 0x2028 || n == 0x2029 || n == 0x202F || n == 0x205F ||
    n == 0x3000

def trim (s : Str) : Str := ((s.dropWhile isWhiteSpace).reverse.dropWhile isWhiteSpace).reverse

def readOpLock (l : OpLockFile) : List Str := (l.lines.map trim).filter (· ≠ [])

def isOpLockStale (now : ℕ) (l : OpLockFile) : Bool := decide (OpLock.staleAfter < now - l.modified)

def listFreshOpLocks (now : ℕ) (k : Disk) : List (Str × List Str) :=
  (k.ops.filter fun l => !isOpLockStale now l).map fun l => (l.opId, readOpLock l)

def cleanStaleOpLocks (now : ℕ) (k : Disk) : List (Str × List Str) × Disk :=
  (listFreshOpLocks now k, { k with ops := k.ops.filter fun l => !isOpLockStale now l })

end Pullrun
