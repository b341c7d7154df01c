import TreeBackend.Error

/-!
# Canonical trees

A tree is canonical when no statement stands inside an expression, every call is
a statement, the arguments of a call are temporaries, and a move goes to a
temporary or to a memory cell.  The check walks a tree from left to right and
reports the first node that breaks one of these rules.
-/

namespace TreeBackend

/-- Whether an expression is canonical, or the first node of it that is not. -/
def Expr.checkCanonical : Expr → Except CompileError Unit
  | .const .. | .name .. | .temp .. => .ok ()
  | .binop _ _ l r => do l.checkCanonical; r.checkCanonical
  | .mem _ a => a.checkCanonical
  | e@(.eseq ..) => .error (.notCanonical .eseqInExpression e)
  | e@(.call ..) => .error (.notCanonical .callInExpression e)

/-- Whether all arguments are temporaries, or the first that is not. -/
def checkArguments : List Expr → Except CompileError Unit
  | [] => .ok ()
  | a :: rest =>
    if a.isTemp then checkArguments rest else .error (.notCanonical .argumentNotTemp a)

mutual

/-- Whether a statement is canonical, or the first node of it that is not. -/
def Stmt.checkCanonical : Stmt → Except CompileError Unit
  | .label .. | .comment .. | .ret _ none => .ok ()
  | .cjump _ e _ _ | .exp _ e | .jump _ e | .ret _ (some e) => e.checkCanonical
  | .move _ (.temp ..) source => source.checkCanonical
  | .move _ (.mem _ a) source => do a.checkCanonical; source.checkCanonical
  | m@(.move ..) => .error (.invalidMove m)
  | .seq _ body => Stmt.checkAll body
  | .call _ target args => do target.checkCanonical; checkArguments args

/-- Checks statements one after the other. -/
def Stmt.checkAll : List Stmt → Except CompileError Unit
  | [] => .ok ()
  | s :: rest => do s.checkCanonical; Stmt.checkAll rest

end

/-- Whether all trees of a unit are canonical: the bodies of its functions, then
what runs at the start. -/
def CanonicalUnit.check (u : CanonicalUnit) : Except CompileError Unit := do
  Stmt.checkAll (u.functions.map Function.body)
  Stmt.checkAll u.startup

end TreeBackend
