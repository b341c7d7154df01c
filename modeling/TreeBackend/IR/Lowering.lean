import TreeBackend.Error

/-!
# Lowering to canonical trees

Lowering takes every effect out of the expressions: an expression becomes the
statements that have to run first and an expression that only computes.  A value
that is computed before an effect and wanted after it is parked in a made-up
temporary in between, so that evaluation still goes from left to right.

Nodes that keep their shape keep their id.  A run that fails still uses up the
ids and names it drew.
-/

namespace TreeBackend

/-- A computation that draws ids and names and may refuse its tree. -/
abbrev Lowering := EStateM CompileError Supply

namespace Lowering

/-- Makes a node. -/
def make {α : Type} (node : NodeId → α) : Lowering α := modifyGet (Supply.make · node)

/-- Reads a local temporary. -/
def read (name : String) : Lowering Expr := make (Expr.temp · name false)

/-- Parks a value in a made-up temporary: the name of the temporary, and the move
that fills it. -/
def park (value : Expr) : Lowering (String × Stmt) := do
  let name ← modifyGet Supply.takeTemp
  let target ← read name
  let fill ← make (Stmt.move · target value)
  pure (name, fill)

/-- Parks a value and reads it back at once. -/
def pin (value : Expr) : Lowering (Stmt × Expr) := do
  let (name, fill) ← park value
  let again ← read name
  pure (fill, again)

end Lowering

mutual

/-- The statements an expression has to run first, and what is left to compute. -/
def Expr.lower : Expr → Lowering (List Stmt × Expr)
  | e@(.const ..) | e@(.name ..) | e@(.temp ..) => pure ([], e)
  | .binop id op l r => do
    let (before, l) ← l.lower
    let (between, r) ← r.lower
    if between.isEmpty then
      pure (before, .binop id op l r)
    else
      let (fill, l) ← Lowering.pin l
      pure (before ++ fill :: between, .binop id op l r)
  | .mem id a => do
    let (before, a) ← a.lower
    pure (before, .mem id a)
  | .call id target args => do
    let (before, temps) ← Expr.lowerArguments args
    let (more, target) ← target.lower
    let result ← Lowering.read Reserved.result
    pure (before ++ more ++ [.call id target temps], result)
  | .eseq _ s e => do
    let before ← s.lower
    let (more, e) ← e.lower
    pure (before ++ more, e)

/-- The statements that evaluate arguments from left to right, each into a
temporary of its own, and those temporaries. -/
def Expr.lowerArguments : List Expr → Lowering (List Stmt × List Expr)
  | [] => pure ([], [])
  | a :: rest => do
    let (before, value) ← a.lower
    let (fill, temp) ← Lowering.pin value
    let (more, temps) ← Expr.lowerArguments rest
    pure (before ++ fill :: more, temp :: temps)

/-- The canonical statements that do what a statement does. -/
def Stmt.lower : Stmt → Lowering (List Stmt)
  | s@(.label ..) | s@(.comment ..) | s@(.ret _ none) => pure [s]
  | .cjump id c t f => do
    let (before, c) ← c.lower
    pure (before ++ [.cjump id c t f])
  | .exp id e => do
    let (before, residue) ← e.lower
    pure (if residue.isLeaf then before else before ++ [.exp id residue])
  | .jump id target => do
    let (before, target) ← target.lower
    pure (before ++ [.jump id target])
  | .ret id (some e) => do
    let (before, e) ← e.lower
    pure (before ++ [.ret id (some e)])
  | .seq _ body => Stmt.lowerAll body
  | .call id target args => do
    let (before, temps) ← Expr.lowerArguments args
    let (more, target) ← target.lower
    pure (before ++ more ++ [.call id target temps])
  | .move id target@(.temp ..) source => do
    let (before, source) ← source.lower
    pure (before ++ [.move id target source])
  | .move id (.mem cell a) source => do
    let (before, a) ← a.lower
    let (address, fillAddress) ← Lowering.park a
    let (between, source) ← source.lower
    let (value, fillValue) ← Lowering.park source
    let a ← Lowering.read address
    let source ← Lowering.read value
    pure (before ++ fillAddress :: between ++ [fillValue, .move id (.mem cell a) source])
  | .move _ target _ => throw (.invalidTarget target)

/-- The canonical statements of a list of statements, in order. -/
def Stmt.lowerAll : List Stmt → Lowering (List Stmt)
  | [] => pure []
  | s :: rest => do
    let first ← s.lower
    let more ← Stmt.lowerAll rest
    pure (first ++ more)

end

/-- The canonical tree of a statement.  A sequence stays one, under its id; any
other statement stays single if it can, and else becomes a new sequence. -/
def Stmt.canonical (s : Stmt) : Lowering Stmt := do
  let body ← s.lower
  match s, body with
  | .seq id _, _ => pure (.seq id body)
  | _, [single] => pure single
  | _, _ => Lowering.make (Stmt.seq · body)

/-- The statement that initialises a field: its value, then a store into it. -/
def Field.canonical (f : Field) : Lowering Stmt := do
  let (before, value) ← f.init.lower
  let target ← Lowering.make (Expr.temp · f.name true)
  let store ← Lowering.make (Stmt.move · target value)
  Lowering.make (Stmt.seq · (before ++ [store]))

def Function.canonical (f : Function) : Lowering Function := do
  let body ← f.body.canonical
  pure { f with body }

/-- The canonical unit of a unit: functions first, then fields, then start
statements, all from one supply. -/
def SourceUnit.canonical (u : SourceUnit) : Lowering CanonicalUnit := do
  let functions ← u.functions.mapM Function.canonical
  let inits ← u.fields.mapM Field.canonical
  let start ← u.start.mapM Stmt.canonical
  pure { name := u.name, functions, fields := u.fields.map Field.name, inits, start }

/-- The canonical unit of a unit, lowered with its own supply. -/
def SourceUnit.canonicalize (u : SourceUnit) : Except CompileError CanonicalUnit :=
  match u.canonical.run u.supply with
  | .ok unit _ => .ok unit
  | .error e _ => .error e

/-- What lowering a unit leaves of its supply, whether it goes well or not. -/
def SourceUnit.supplyLeft (u : SourceUnit) : Supply :=
  match u.canonical.run u.supply with
  | .ok _ left | .error _ left => left

end TreeBackend
