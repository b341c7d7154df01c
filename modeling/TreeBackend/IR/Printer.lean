import TreeBackend.IR.Unit
import TreeBackend.Text.Quoted

/-!
# The written form of trees

Trees are written as parenthesised forms, an operator and then its operands, one
space before each.  Ids are not written, and neither is whether a name is global;
a static field is marked as one.
-/

namespace TreeBackend

/-- An id as messages name it. -/
def NodeId.text (n : NodeId) : String := "#" ++ toString n.val

namespace BinOp

def mnemonic : BinOp → String
  | .add => "ADD"
  | .sub => "SUB"
  | .mul => "MUL"
  | .div => "DIV"
  | .mod => "MOD"
  | .and => "AND"
  | .or => "OR"
  | .eq => "EQ"
  | .neq => "NEQ"
  | .lt => "LT"
  | .gt => "GT"
  | .leq => "LEQ"
  | .geq => "GEQ"

end BinOp

mutual

/-- The written form of an expression. -/
def Expr.text : Expr → String
  | .binop _ op l r => "(" ++ op.mnemonic ++ " " ++ l.text ++ " " ++ r.text ++ ")"
  | .call _ t args => "(CALL " ++ t.text ++ Expr.textAll args ++ ")"
  | .const _ v => "(CONST " ++ toString v.toInt ++ ")"
  | .eseq _ s e => "(ESEQ " ++ s.text ++ " " ++ e.text ++ ")"
  | .mem _ a => "(MEM " ++ a.text ++ ")"
  | .name _ l _ => "(NAME " ++ l ++ ")"
  | .temp _ x true => "(TEMP " ++ x ++ " global)"
  | .temp _ x false => "(TEMP " ++ x ++ ")"

/-- The written form of a statement. -/
def Stmt.text : Stmt → String
  | .call _ t args => "(CALL_STMT " ++ t.text ++ Expr.textAll args ++ ")"
  | .cjump _ c t f => "(CJUMP " ++ c.text ++ " " ++ t ++ " " ++ f ++ ")"
  | .comment _ s => "(COMMENT " ++ Text.quote s ++ ")"
  | .exp _ e => "(EXP " ++ e.text ++ ")"
  | .jump _ t => "(JUMP " ++ t.text ++ ")"
  | .label _ l => "(LABEL " ++ l ++ ")"
  | .move _ t s => "(MOVE " ++ t.text ++ " " ++ s.text ++ ")"
  | .ret _ none => "(RETURN)"
  | .ret _ (some e) => "(RETURN " ++ e.text ++ ")"
  | .seq _ body => "(SEQ" ++ Stmt.textAll body ++ ")"

/-- The written forms of a list of expressions, a space before each. -/
def Expr.textAll : List Expr → String
  | [] => ""
  | e :: rest => " " ++ e.text ++ Expr.textAll rest

/-- The written forms of a list of statements, a space before each. -/
def Stmt.textAll : List Stmt → String
  | [] => ""
  | s :: rest => " " ++ s.text ++ Stmt.textAll rest

end

/-- One line for each piece of a unit: start statements, initialisers, functions. -/
def CanonicalUnit.text (u : CanonicalUnit) : String :=
  "UNIT " ++ u.name ++ "\n"
    ++ String.join (u.start.map fun s => "  START " ++ s.text ++ "\n")
    ++ String.join (u.inits.map fun s => "  INIT " ++ s.text ++ "\n")
    ++ String.join (u.functions.map fun f =>
        "  FUNC " ++ f.label ++ "(" ++ toString f.params ++ ") " ++ f.body.text ++ "\n")

end TreeBackend
