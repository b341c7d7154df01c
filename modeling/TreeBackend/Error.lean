import TreeBackend.IR.Printer
import TreeBackend.IR.Storage
import TreeBackend.X86.Printer

/-!
# What can go wrong

The causes for which a program is refused, each with what a reader needs to find
it, and the sentence that reports it.
-/

namespace TreeBackend

/-- Why a tree is not canonical.  The check of a tree and the selection of code
each have their own word for the two kinds of expression that must not be there. -/
inductive NonCanonical where
  | eseqInExpression
  | callInExpression
  /-- Selection met a statement inside an expression. -/
  | eseqSelected
  /-- Selection met a call inside an expression. -/
  | callSelected
  | argumentNotTemp
deriving DecidableEq, Repr

def NonCanonical.text : NonCanonical → String
  | eseqInExpression => "ESEQ survived canonicalization"
  | callInExpression => "call used as an expression"
  | eseqSelected => "ESEQ reached the tiler"
  | callSelected => "call used as an expression reached the tiler"
  | argumentNotTemp => "call argument is not a temporary"

/-- A cause for refusing a program. -/
inductive CompileError where
  | notCanonical (reason : NonCanonical) (node : Expr)
  /-- The target of a move is neither a temporary nor a memory cell. -/
  | invalidTarget (target : Expr)
  /-- A move that has such a target. -/
  | invalidMove (move : Stmt)
  /-- A node has a descendant of its own id. -/
  | repeatedNode (id : NodeId)
  /-- No tile has been made for a node that is to be laid out. -/
  | unknownNode (id : NodeId)
  /-- A register is read before it is written, or has no home. -/
  | unwritten (reg : VirtualReg)
  /-- More operands of an instruction live in slots than there are scratch registers. -/
  | outOfScratch (instr : Instr) (count : Nat)
  /-- The allocation routine is called with another number of arguments than one. -/
  | allocationArity (count : Nat)
  /-- The entry point asked for is no function of the program. -/
  | unknownEntry (label : String)
  | repeatedFunction (label : String)
  /-- The program has no function at all. -/
  | noEntry

/-- The sentence that reports a cause. -/
def CompileError.message : CompileError → String
  | notCanonical reason node => "Non-canonical IR (" ++ reason.text ++ "): " ++ node.text
  | invalidTarget target => "Move target must be a Temp or Mem: " ++ target.text
  | invalidMove move => "Move target must be a Temp or Mem: " ++ move.text
  | repeatedNode id => "Node " ++ id.text ++ " was tiled more than once"
  | unknownNode id => "No tile recorded for node " ++ id.text
  | unwritten reg => "Temporary " ++ reg.label ++ " was never initialized!"
  | outOfScratch instr count =>
    "Instruction `" ++ instr.body ++ "` needs " ++ toString count ++ " spill registers, at most "
      ++ toString PhysReg.scratch.length ++ " are available"
  | allocationArity count =>
    Reserved.allocate ++ " takes exactly one argument, got " ++ toString count
  | unknownEntry label => "Entry point " ++ label ++ " is not defined in any unit"
  | repeatedFunction label => "Function " ++ label ++ " is defined more than once"
  | noEntry => "No function to use as the entry point"

end TreeBackend
