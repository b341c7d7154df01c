import TreeBackend.IR.Canonical
import TreeBackend.IR.Lowering
import TreeBackend.Program.Assembly

/-!
# Compilation

From units to assembly: all units are lowered, then checked if the options say
so, then assembled.  The first cause for refusing the program ends it.

`compile` keeps the ids that lowering hands out, and `compileWrapped` what is left
of them in 32 bits.  Where the supplies of the units fit, the two are the same.
-/

namespace TreeBackend

/-- Compiles a program. -/
def compile (units : List SourceUnit) (o : Options := {}) : Except CompileError Program := do
  let canonical ← units.mapM SourceUnit.canonicalize
  if o.verify then
    canonical.forM CanonicalUnit.check
  emit o canonical

/-- Compiles a program whose ids come from counters of 32 bits. -/
def compileWrapped (units : List SourceUnit) (o : Options := {}) : Except CompileError Program := do
  let canonical ← units.mapM SourceUnit.canonicalize
  let canonical := canonical.map CanonicalUnit.wrapped
  if o.verify then
    canonical.forM CanonicalUnit.check
  emit o canonical

end TreeBackend
