import TreeBackend.Allocation.Home
import TreeBackend.Allocation.Written

/-!
# A slot for each register

The plain allocator: every virtual register lives in a slot of its own, numbered
in the order of first appearance.  Nothing stays in a machine register between
two instructions, so calls need no care.
-/

namespace TreeBackend

/-- The virtual registers of a list of instructions, in the order of first appearance. -/
def virtualsIn (code : List Instr) : List VirtualReg := (code.flatMap Instr.virtuals).eraseDups

/-- A slot for each virtual register. -/
def slotHomes (code : List Instr) : Homes :=
  ((virtualsIn code).zipIdx 1).map fun (v, n) => (v, .slot n)

/-- Allocates a slot for each virtual register. -/
def allocateSlots (code : List Instr) : Except CompileError Allocation := do
  checkWritten code
  let homes := slotHomes code
  let housed ← code.mapM homes.house
  pure { code := housed.flatten, slots := homes.length }

end TreeBackend
