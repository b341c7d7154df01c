import TreeBackend.IR.Storage
import TreeBackend.Tile.Table

/-!
# Templates

The instructions that stand for one node, given the registers that hold the
values of its children.  A value is left in `Reg.dest`.

A division first checks its divisor, and goes to the trap when it is zero.
-/

namespace TreeBackend

/-- The operand that a temporary is. -/
def Storage.operand : Storage → Operand
  | .result => .phys .accumulator
  | .argument n => .mem (.frame (Frame.argumentOffset n))
  | .field s => .mem (.ofSymbol s)
  | .register x => .reg (.temp x)

namespace BinOp

/-- The operators whose template overwrites the register of the left operand. -/
def overwritesLeft : BinOp → Bool
  | .sub | .and | .or => true
  | _ => false

/-- Computes into the left register, then moves to the destination. -/
def overwriting (op : AluOp) (a b : Reg) : List Instr :=
  [.alu op a (.reg b), .mov (.reg .dest) (.reg a)]

/-- Divides after a check, and takes the quotient or the remainder. -/
def division (a b : Reg) (result : PhysReg) : List Instr :=
  [.cmp (.reg b) (.imm 0), .jcc .eq Reserved.trap, .mov (.phys .eax) (.reg a), .cdq,
    .idiv (.reg b), .mov (.reg .dest) (.phys result)]

/-- Compares, and widens the outcome. -/
def comparison (cond : Cond) (a b : Reg) : List Instr :=
  [.cmp (.reg a) (.reg b), .setcc cond, .movzx .dest]

/-- The instructions of an operator on two registers. -/
def template (a b : Reg) : BinOp → List Instr
  | .add => [.lea .dest { base := some a, index := some b }]
  | .sub => overwriting .sub a b
  | .and => overwriting .and a b
  | .or => overwriting .or a b
  | .mul => [.mov (.phys .eax) (.reg a), .imul (.reg b), .mov (.reg .dest) (.phys .eax)]
  | .div => division a b .accumulator
  | .mod => division a b .remainder
  | .eq => comparison .eq a b
  | .neq => comparison .ne a b
  | .lt => comparison .lt a b
  | .gt => comparison .gt a b
  | .leq => comparison .le a b
  | .geq => comparison .ge a b

end BinOp

/-- Takes the arguments of a call off the stack again. -/
def dropArguments (count : Nat) : List Instr :=
  if count = 0 then []
  else [.alu .add (.phys .stackPointer) (.imm (Int32.ofNat count * Frame.wordBytes))]

end TreeBackend
