import TreeBackend.Tile.Template

/-!
# Instruction selection

`Expr.tile` and `Stmt.tile` make the tile of a node after those of its children,
and enter it into the table.  A node is selected once: meeting its id again gives
the tile that is there, while a node whose own child has its id is refused.

`Stmt.tileBody` lays the result out.  A run that fails keeps the tiles it made.
-/

namespace TreeBackend

/-- A computation that makes tiles and may refuse its tree. -/
abbrev Tiling := EStateM CompileError TileTable

namespace Tiling

/-- Makes up a register. -/
def freshReg : Tiling Reg :=
  modifyGet fun t => (.fresh t.nextFresh, { t with nextFresh := t.nextFresh + 1 })

/-- Enters the tile of a node, which must not be there yet. -/
def enter (id : NodeId) (tile : Tile) : Tiling NodeId := do
  if (← get).contains id then throw (.repeatedNode id)
  modify (·.insert id tile)
  pure id

/-- The tile of a node that is made only if the table has none. -/
def once (id : NodeId) (make : Tiling Tile) : Tiling NodeId := do
  if (← get).contains id then pure id else enter id (← make)

/-- A tile of some pieces. -/
def coded (pieces : List Tile.Piece) : Tiling Tile := do pure ((← get).tileOf pieces)

/-- A tile of instructions alone. -/
def plain (code : List Instr) : Tiling Tile := coded (code.map .instr)

/-- A register that has the value of a node, and the pieces that put it there. -/
def operand (node : NodeId) : Tiling (List Tile.Piece × Reg) := do
  match ((← get).find? node).bind Tile.register? with
  | some r => pure ([], r)
  | none =>
    let r ← freshReg
    pure ([.value node r], r)

/-- The pieces that put the value of a node into a register. -/
def into (node : NodeId) (target : Reg) : Tiling (List Tile.Piece) := do
  match ((← get).find? node).bind Tile.register? with
  | some r => pure (if r = target then [] else [.instr (.mov (.reg target) (.reg r))])
  | none => pure [.value node target]

end Tiling

open Tiling

/-- Makes the tile of an expression. -/
def Expr.tile : Expr → Tiling NodeId
  | .const id v => once id (plain [.mov (.reg .dest) (.imm v)])
  | .name id l _ => once id (plain [.mov (.reg .dest) (.label l)])
  | .temp id x g => once id (
    match Storage.ofTemp x g with
    | .register x => pure (.held (.temp x))
    | place => plain [.mov (.reg .dest) place.operand])
  | .mem id a => once id do
    let (before, a) ← operand (← a.tile)
    coded (before ++ [.instr (.mov (.reg .dest) (.mem (.ofReg a)))])
  | .binop id op l r => once id do
    let (first, a) ←
      if op.overwritesLeft then do
        let a ← freshReg
        let first ← into (← l.tile) a
        pure (first, a)
      else do
        operand (← l.tile)
    let (second, b) ← operand (← r.tile)
    coded (first ++ second ++ (op.template a b).map .instr)
  | e@(.eseq id _ _) => once id (throw (.notCanonical .eseqSelected e))
  | e@(.call id _ _) => once id (throw (.notCanonical .callSelected e))

namespace Expr

/-- An operand that has the value of an expression, and the pieces that put it there. -/
def tileOperand (e : Expr) : Tiling (List Tile.Piece × Reg) := do operand (← e.tile)

/-- The pieces that put the value of an expression into a register. -/
def tileInto (e : Expr) (target : Reg) : Tiling (List Tile.Piece) := do into (← e.tile) target

/-- Where a jump or a call goes: to the label itself, or to the address in a register. -/
def tileDestination : Expr → Tiling (List Tile.Piece × Operand)
  | .name _ l _ => pure ([], .label l)
  | e => do
    let (before, r) ← e.tileOperand
    pure (before, .reg r)

/-- Refuses an argument that is not a temporary. -/
def requireTemp (e : Expr) : Tiling Unit :=
  if e.isTemp then pure () else throw (.notCanonical .argumentNotTemp e)

/-- Pushes the arguments of a call, the last one first. -/
def tilePushes : List Expr → Tiling (List Tile.Piece)
  | [] => pure []
  | a :: rest => do
    let later ← tilePushes rest
    a.requireTemp
    let (before, r) ← a.tileOperand
    pure (later ++ before ++ [.instr (.push (.reg r))])

end Expr

namespace Stmt

/-- The pieces of a move, by where it goes. -/
def tileMove (source : Expr) : Expr → Tiling (List Tile.Piece)
  | .temp _ x g =>
    match Storage.ofTemp x g with
    | .result => source.tileInto (.phys .accumulator)
    | .register x => source.tileInto (.temp x)
    | place => do
      let (before, v) ← source.tileOperand
      pure (before ++ [.instr (.mov place.operand (.reg v))])
  | .mem _ a => do
    let (before, v) ← source.tileOperand
    let (more, a) ← a.tileOperand
    pure (before ++ more ++ [.instr (.mov (.mem (.ofReg a)) (.reg v))])
  | target => throw (.invalidTarget target)

/-- The pieces of a call of the allocation routine. -/
def tileAllocation : List Expr → Tiling (List Tile.Piece)
  | [size] => do
    size.requireTemp
    let before ← size.tileInto (.phys .accumulator)
    pure (before ++ [.instr (.call (.label Reserved.allocate))])
  | args => throw (.allocationArity args.length)

/-- The pieces of a call: pushes, the call itself, and taking the arguments off again. -/
def tileCall (target : Expr) (args : List Expr) : Tiling (List Tile.Piece) := do
  if target.name? = some Reserved.allocate then
    tileAllocation args
  else
    let pushes ← Expr.tilePushes args
    let (before, callee) ← target.tileDestination
    pure (pushes ++ before ++ (Instr.call callee :: dropArguments args.length).map .instr)

end Stmt

mutual

/-- Makes the tile of a statement. -/
def Stmt.tile : Stmt → Tiling NodeId
  | .move id target source => once id do coded (← Stmt.tileMove source target)
  | .ret id none => once id (plain Instr.epilogue)
  | .ret id (some e) => once id do
    let before ← e.tileInto (.phys .accumulator)
    coded (before ++ Instr.epilogue.map .instr)
  | .call id target args => once id do coded (← Stmt.tileCall target args)
  | .cjump id c t _ => once id do
    let (before, c) ← c.tileOperand
    coded (before ++ [.instr (.test c c), .instr (.jcc .ne t)])
  | .jump id target => once id do
    let (before, there) ← target.tileDestination
    coded (before ++ [.instr (.jmp there)])
  | .label id l => once id (plain [.label l])
  | .comment id text => once id (plain [.comment text])
  | .exp id e => once id do
    let unused ← freshReg
    coded (← e.tileInto unused)
  | .seq id body => once id do
    let children ← Stmt.tileAll body
    coded (children.map .run)

/-- Makes the tiles of statements, one after the other. -/
def Stmt.tileAll : List Stmt → Tiling (List NodeId)
  | [] => pure []
  | s :: rest => do
    let first ← s.tile
    let more ← Stmt.tileAll rest
    pure (first :: more)

end

/-- Selects the code of a statement. -/
def Stmt.tileBody (s : Stmt) : Tiling (List Instr) := do
  let root ← s.tile
  ofExcept ((← get).layOut root)

end TreeBackend
