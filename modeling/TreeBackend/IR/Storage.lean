import TreeBackend.Text.Numeral

/-!
# Where a temporary lives

Most temporaries are registers in waiting.  Three kinds are not: the result of
the last call, which sits in the accumulator, the arguments of the running
function, which sit above its frame, and the static fields, which sit in the
data section.  A temporary says which it is by its name, and `Storage.ofTemp`
reads it: the reserved names win over the mark of a static field.
-/

namespace TreeBackend

namespace Reserved

/-- The temporary that holds the result of the last call. -/
def result : String := "_RET"

/-- What the name of an argument temporary starts with. -/
def argumentStem : String := "_ARG"

/-- The allocation routine of the run-time system, which takes its one argument
in the accumulator. -/
def allocate : String := "__malloc"

/-- Where a run-time check goes that fails. -/
def trap : String := "__exception"

/-- Where the process starts. -/
def start : String := "_start"

/-- The symbols every artifact imports, whether or not it uses them. -/
def runtime : List String := [trap, allocate]

/-- The temporary of the `n`th argument. -/
def argument (n : Nat) : String := argumentStem ++ toString n

/-- Which argument a temporary of this name is, if it is one. -/
def argument? (name : String) : Option Nat :=
  (Text.after? argumentStem.toList name.toList).bind Text.numeral64?

end Reserved

/-- Where a temporary lives. -/
inductive Storage where
  | result
  | argument (index : Nat)
  | field (symbol : String)
  | register (name : String)
deriving DecidableEq, Repr

/-- Where the temporary of a given name lives. -/
def Storage.ofTemp (name : String) (isGlobal : Bool) : Storage :=
  if name = Reserved.result then .result
  else match Reserved.argument? name with
    | some n => .argument n
    | none => if isGlobal then .field name else .register name

end TreeBackend
