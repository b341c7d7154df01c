import TreeBackend.Error
import TreeBackend.X86.Frame

/-!
# Tiles

A tile is the code of one node.  It names the tiles of the node's children
instead of holding their code, and it leaves the register that receives its
value open, as `Reg.dest`.  The tile of a temporary that is a register holds no
code at all: it says which register, and whoever needs the value reads that.

A `TileTable` holds the tiles made so far, the newest first.  A tile names only
tiles made before it, so laying one out, `TileTable.layOut`, looks only further
down the table for what it names, and ends.
-/

namespace TreeBackend

/-- A piece of a tile: an instruction, the code of an expression whose value goes
to a register, or the code of a statement. -/
inductive Tile.Piece where
  | instr (i : Instr)
  | value (node : NodeId) (target : Reg)
  | run (node : NodeId)
deriving DecidableEq

/-- The tile of a node: the register that already holds its value, or code
together with the number of machine instructions in it, children included.  The
number is counted in a 64-bit word, which wraps around. -/
inductive Tile where
  | held (r : Reg)
  | code (pieces : List Tile.Piece) (cost : UInt64)
deriving DecidableEq

namespace Tile

def pieces : Tile → List Piece
  | held _ => []
  | code ps _ => ps

def cost : Tile → UInt64
  | held _ => 0
  | code _ n => n

/-- The register that holds the value of the node without any code. -/
def register? : Tile → Option Reg
  | held r => some r
  | code .. => none

end Tile

/-- The tiles made so far, the newest first, and the number of the next register
to make up. -/
structure TileTable where
  tiles : List (NodeId × Tile) := []
  nextFresh : Nat := 0

/-- The register itself, or another one in place of the open destination. -/
def Reg.fill (target : Reg) : Reg → Reg
  | .dest => target
  | r => r

namespace TileTable

def find? (t : TileTable) (id : NodeId) : Option Tile := t.tiles.lookup id

def contains (t : TileTable) (id : NodeId) : Bool := (t.find? id).isSome

/-- The number of machine instructions a node takes, as its tile counts them. -/
def cost? (t : TileTable) (id : NodeId) : Option UInt64 := (t.find? id).map Tile.cost

/-- The number of machine instructions a piece takes; an unknown node takes none. -/
def pieceCost (t : TileTable) : Tile.Piece → UInt64
  | .instr i => if i.isExecutable then 1 else 0
  | .value node _ | .run node => (t.cost? node).getD 0

/-- A tile of some pieces, with its cost. -/
def tileOf (t : TileTable) (pieces : List Tile.Piece) : Tile :=
  .code pieces (pieces.foldr (fun p n => t.pieceCost p + n) 0)

def insert (t : TileTable) (id : NodeId) (tile : Tile) : TileTable :=
  { t with tiles := (id, tile) :: t.tiles }

/-- Forgets all tiles, since ids are those of one unit only.  Made-up registers
go on being numbered from where they were. -/
def forget (t : TileTable) : TileTable := { t with tiles := [] }

/-- The code of a node, its value going to `target`. -/
def layOutFrom : List (NodeId × Tile) → NodeId → Reg → Except CompileError (List Instr)
  | [], id, _ => .error (.unknownNode id)
  | (key, tile) :: older, id, target =>
    if key = id then do
      let parts ← tile.pieces.mapM fun
        | .instr i => .ok [i.mapRegs (Reg.fill target)]
        | .value node inner => layOutFrom older node (Reg.fill target inner)
        | .run node => layOutFrom older node .dest
      pure parts.flatten
    else layOutFrom older id target

/-- The code of a node, with its destination left open. -/
def layOut (t : TileTable) (id : NodeId) : Except CompileError (List Instr) :=
  layOutFrom t.tiles id .dest

end TileTable

end TreeBackend
