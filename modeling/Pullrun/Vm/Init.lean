import Pullrun.Store.Digest

/-!
# The `/init` of a machine

`shell_quote`, `merge_command` and the script that `materialize_ext4_rootfs` of `pullrun-vm/src/ext4.rs`
writes for an image that has no `/init`. What the shell makes of the script is `split`, which follows the
quoting rules of POSIX and has no answer where the shell would do more than split: a text with an answer
has no expansion, no operator and no second command.
-/

namespace Pullrun.Vm

def quote : Char := Char.ofNat 39

/-- `arg.replace('\'', "'\\''")`. -/
def escaped (arg : Str) : Str := arg.flatMap fun c => if c = quote then [quote, '\\', quote, quote] else [c]

def shellQuote (arg : Str) : Str := quote :: (escaped arg ++ [quote])

def mergeCommand (entrypoint cmd : List Str) : List Str :=
  if entrypoint = [] then cmd else entrypoint ++ cmd

/-- What `/init` runs: `manifest` has the entrypoint and the command of the image, if its manifest can
be read. -/
def shellArgs : Option (List Str × List Str) → List Str
  | none => ["/bin/sh".toList]
  | some (entrypoint, cmd) =>
    if mergeCommand entrypoint cmd = [] then ["/bin/sh".toList] else mergeCommand entrypoint cmd

def initContent (manifest : Option (List Str × List Str)) : Str :=
  "#!/bin/sh\nexec".toList ++ (shellArgs manifest).flatMap (fun arg => ' ' :: shellQuote arg) ++ ['\n']

/-! ## The shell -/

/-- The characters that mean more to the shell than themselves, outside of quotes. -/
def special : Str := "|&;<>()$`\"*?[#~=%!\x7b\x7d".toList

/-- Where the shell is: outside of quotes, inside of them, after a backslash. -/
inductive Mode
  | plain
  | quoted
  | escaped

/-- The words of one command that ends with the text. `word` is the word begun, if one is. -/
def split (word : Option Str) : Mode → Str → Option (List Str)
  | .plain, [] => some word.toList
  | .quoted, [] | .escaped, [] => none
  | .quoted, c :: rest =>
    if c = quote then split word .plain rest else split (some (word.getD [] ++ [c])) .quoted rest
  | .escaped, c :: rest => split (if c = '\n' then word else some (word.getD [] ++ [c])) .plain rest
  | .plain, c :: rest =>
    if c = quote then split (some (word.getD [])) .quoted rest
    else if c = '\\' then split word .escaped rest
    else if c = ' ' ∨ c = '\t' then (split none .plain rest).map (word.toList ++ ·)
    else if c = '\n' then if rest = [] then some word.toList else none
    else if c ∈ special then none
    else split (some (word.getD [] ++ [c])) .plain rest

def fromSecondLine (text : Str) : Str := (text.dropWhile (· ≠ '\n')).drop 1

theorem split_escaped (arg word rest : Str) :
    split (some word) .quoted (escaped arg ++ quote :: rest) = split (some (word ++ arg)) .plain rest := by
  induction arg generalizing word with
  | nil => simp [escaped, split]
  | cons c arg ih =>
    have hstep : split (some word) .quoted (escaped (c :: arg) ++ quote :: rest) =
        split (some (word ++ [c])) .quoted (escaped arg ++ quote :: rest) := by
      by_cases hc : c = quote
      · -- the quotation is closed, the quote stands after a backslash, and it is opened again
        simp [escaped, split, hc, quote]
      · simp [escaped, split, hc]
    rw [hstep, ih, List.append_assoc]
    rfl

theorem split_args (args : List Str) (word : Str) :
    split (some word) .plain (args.flatMap (fun arg => ' ' :: shellQuote arg) ++ ['\n']) =
      some (word :: args) := by
  induction args generalizing word with
  | nil => simp [split, quote]
  | cons arg args ih =>
    rw [List.flatMap_cons, List.append_assoc, shellQuote, List.cons_append, List.cons_append, split,
      if_neg (by decide), if_neg (by decide), if_pos (.inl rfl), List.append_assoc, split, if_pos rfl,
      List.singleton_append, Option.getD_none, split_escaped, List.nil_append, ih]
    rfl

/-- **The shell reads the script as `exec` and the arguments of the image, each as it is there**, or as
`exec /bin/sh` if the image has none. -/
theorem split_initContent (entrypoint cmd : List Str) :
    split none .plain (fromSecondLine (initContent (some (entrypoint, cmd)))) =
      some ("exec".toList :: if entrypoint = [] ∧ cmd = [] then ["/bin/sh".toList] else entrypoint ++ cmd) := by
  have hargs : shellArgs (some (entrypoint, cmd)) =
      if entrypoint = [] ∧ cmd = [] then ["/bin/sh".toList] else entrypoint ++ cmd := by
    rw [shellArgs]
    generalize "/bin/sh".toList = sh
    cases entrypoint <;> simp [mergeCommand]
  rw [← hargs, ← split_args]
  rfl

end Pullrun.Vm
