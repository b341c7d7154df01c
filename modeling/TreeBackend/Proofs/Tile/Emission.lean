import TreeBackend.Tile.Selection

/-!
# The code of a tree, without a table

`Expr.emit` and `Stmt.emit` say directly which code a node comes to, when no node is
met twice: the number of the next register goes in, and code together with the
number after it comes out.  `Proofs/Tile/LayOut.lean` shows that the tiles of a
tree, laid out, are this code.
-/

namespace TreeBackend

/-- What the code of an expression amounts to: the register that holds the value
already, if there is one, else code that puts the value into a register that is yet
to be named; and the number of the next register to make up. -/
structure Emission where
  held? : Option Reg
  code : Reg → List Instr
  next : Nat

namespace Emission

/-- The code that puts the value into a register. -/
def into (e : Emission) (target : Reg) : List Instr :=
  match e.held? with
  | some r => if r = target then [] else [.mov (.reg target) (.reg r)]
  | none => e.code target

/-- A register that has the value. -/
def register (e : Emission) : Reg := e.held?.getD (.fresh e.next)

/-- The code that makes it so. -/
def before (e : Emission) : List Instr := e.into e.register

/-- The number of the next register, once that register is taken. -/
def after (e : Emission) : Nat := if e.held?.isSome then e.next else e.next + 1

end Emission

/-- The register that an expression is. -/
def Expr.held? : Expr → Option Reg
  | .temp _ x g =>
    match Storage.ofTemp x g with
    | .register x => some (.temp x)
    | _ => none
  | _ => none

/-- The code of an expression. -/
def Expr.emit : Expr → Nat → Emission
  | .const _ v, n => { held? := none, code d := [.mov (.reg d) (.imm v)], next := n }
  | .name _ l _, n => { held? := none, code d := [.mov (.reg d) (.label l)], next := n }
  | .temp id x g, n =>
    { held? := (Expr.temp id x g).held?
      code d := [.mov (.reg d) (Storage.ofTemp x g).operand]
      next := n }
  | .mem _ a, n =>
    let a := a.emit n
    { held? := none
      code d := a.before ++ [.mov (.reg d) (.mem (.ofReg a.register))]
      next := a.after }
  | .binop _ op l r, n =>
    let left := l.emit (if op.overwritesLeft then n + 1 else n)
    let a := if op.overwritesLeft then .fresh n else left.register
    let right := r.emit (if op.overwritesLeft then left.next else left.after)
    let b := right.register
    { held? := none
      code d := left.into a ++ right.before ++ (op.template a b).map (·.mapRegs (Reg.fill d))
      next := right.after }
  | .eseq .., n | .call .., n => { held? := none, code _ := [], next := n }

/-- The code of an operator whose template leaves its left operand alone. -/
theorem Expr.emit_keeping {id : NodeId} {op : BinOp} (h : op.overwritesLeft = false) (l r : Expr)
    (n : Nat) : (Expr.binop id op l r).emit n =
      let left := l.emit n
      let right := r.emit left.after
      { held? := none
        code d := left.before ++ right.before ++
          (op.template left.register right.register).map (·.mapRegs (Reg.fill d))
        next := right.after } := by
  simp only [Expr.emit, h, Bool.false_eq_true, if_false]
  rfl

/-- The code of an operator whose template works on a copy of its left operand. -/
theorem Expr.emit_overwriting {id : NodeId} {op : BinOp} (h : op.overwritesLeft = true)
    (l r : Expr) (n : Nat) : (Expr.binop id op l r).emit n =
      let left := l.emit (n + 1)
      let right := r.emit left.next
      { held? := none
        code d := left.into (.fresh n) ++ right.before ++
          (op.template (.fresh n) right.register).map (·.mapRegs (Reg.fill d))
        next := right.after } := by
  simp only [Expr.emit, h, if_true]

/-- Where a jump or a call goes, the code that finds it, and the number of the next
register. -/
def Expr.emitDestination : Expr → Nat → List Instr × Operand × Nat
  | .name _ l _, n => ([], .label l, n)
  | e, n => ((e.emit n).before, .reg (e.emit n).register, (e.emit n).after)

/-- A destination that is no name is computed into a register. -/
theorem Expr.emitDestination_of_unnamed {e : Expr} (h : e.name? = none) (n : Nat) :
    e.emitDestination n = ((e.emit n).before, .reg (e.emit n).register, (e.emit n).after) := by
  cases e with
  | name => cases h
  | _ => rfl

/-- The code that pushes arguments, the last one first. -/
def Expr.emitPushes : List Expr → Nat → List Instr × Nat
  | [], n => ([], n)
  | a :: rest, n =>
    let later := Expr.emitPushes rest n
    let a := a.emit later.2
    (later.1 ++ a.before ++ [.push (.reg a.register)], a.after)

namespace Stmt

/-- The code of a move to a temporary. -/
def emitWrite (source : Emission) : Storage → List Instr × Nat
  | .result => (source.into (.phys .accumulator), source.next)
  | .register x => (source.into (.temp x), source.next)
  | place => (source.before ++ [.mov place.operand (.reg source.register)], source.after)

/-- The code of a call. -/
def emitCall (target : Expr) (args : List Expr) (n : Nat) : List Instr × Nat :=
  if target.name? = some Reserved.allocate then
    match args with
    | [size] =>
      ((size.emit n).into (.phys .accumulator) ++ [.call (.label Reserved.allocate)],
        (size.emit n).next)
    | _ => ([], n)
  else
    let pushes := Expr.emitPushes args n
    let there := target.emitDestination pushes.2
    (pushes.1 ++ there.1 ++ .call there.2.1 :: dropArguments args.length, there.2.2)

end Stmt

mutual

/-- The code of a statement, and the number of the next register. -/
def Stmt.emit : Stmt → Nat → List Instr × Nat
  | .move _ (.temp _ x g) source, n => Stmt.emitWrite (source.emit n) (Storage.ofTemp x g)
  | .move _ (.mem _ a) source, n =>
    let v := source.emit n
    let a := a.emit v.after
    (v.before ++ a.before ++ [.mov (.mem (.ofReg a.register)) (.reg v.register)], a.after)
  | .move .., n => ([], n)
  | .ret _ none, n => (Instr.epilogue, n)
  | .ret _ (some e), n => ((e.emit n).into (.phys .accumulator) ++ Instr.epilogue, (e.emit n).next)
  | .call _ target args, n => Stmt.emitCall target args n
  | .cjump _ c t _, n =>
    let c := c.emit n
    (c.before ++ [.test c.register c.register, .jcc .ne t], c.after)
  | .jump _ target, n =>
    let there := target.emitDestination n
    (there.1 ++ [.jmp there.2.1], there.2.2)
  | .label _ l, n => ([.label l], n)
  | .comment _ text, n => ([.comment text], n)
  | .exp _ e, n => ((e.emit (n + 1)).into (.fresh n), (e.emit (n + 1)).next)
  | .seq _ body, n => Stmt.emitAll body n

/-- The code of statements, one after the other. -/
def Stmt.emitAll : List Stmt → Nat → List Instr × Nat
  | [], n => ([], n)
  | s :: rest, n =>
    let first := s.emit n
    let more := Stmt.emitAll rest first.2
    (first.1 ++ more.1, more.2)

end

end TreeBackend
