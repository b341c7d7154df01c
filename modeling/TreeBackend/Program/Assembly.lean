import TreeBackend.Allocation.Scan
import TreeBackend.Allocation.SlotEach
import TreeBackend.Options.Basic
import TreeBackend.Program.Artifact
import TreeBackend.Program.Symbols
import TreeBackend.Tile.Selection
import TreeBackend.X86.Peephole

/-!
# Assembling a program

A program becomes one artifact for each unit, with the code of its functions, and
a startup artifact, which holds the static fields, runs what the units want run
at the start, calls the entry point and exits with its result.

The functions are allocated one by one.  What runs at the start is selected unit
by unit, while ids are those of the unit, and allocated as one body; to keep the
temporaries of different units apart, they are prefixed with the unit's name.
-/

namespace TreeBackend

/-! ### The code around a body -/

/-- Enters a function: makes a frame with room for its slots. -/
def prologue (slots : Nat) : List Instr :=
  [.push (.phys .framePointer), .mov (.phys .framePointer) (.phys .stackPointer)] ++
    if slots = 0 then []
    else [.alu .sub (.phys .stackPointer) (.imm (Int32.ofNat slots * Frame.wordBytes))]

/-- The number of the system call that ends the process. -/
def exitCall : Int32 := 1

/-- Leaves the frame of the startup code, calls the entry point and exits with its
result. -/
def exitSequence (entry : String) : List Instr :=
  [.mov (.phys .stackPointer) (.phys .framePointer), .pop (.phys .framePointer),
    .call (.label entry), .mov (.phys .ebx) (.phys .eax), .mov (.phys .eax) (.imm exitCall), .int80]

/-- Whether the last instruction, comments apart, returns. -/
def endsInReturn (code : List Annotated) : Bool :=
  ((code.reverse.find? (!·.instr.isComment)).map (·.instr.isRet)).getD false

/-- Allocates as the options say. -/
def Options.allocate (o : Options) (code : List Instr) : Except CompileError Allocation :=
  match o.allocator with
  | .basic => allocateSlots code
  | .linearScan => allocateScan code

/-- Tidies up if the options say so. -/
def Options.tidy (o : Options) (code : List Annotated) : List Annotated :=
  if o.peephole then Peephole.tidy code else code

/-! ### Units -/

/-- The lines of a function. -/
def Function.assemble (o : Options) (f : Function) : Tiling (List Line) := do
  let selected ← f.body.tileBody
  let allocated ← ofExcept (o.allocate selected)
  let closed :=
    if endsInReturn allocated.code then allocated.code
    else allocated.code ++ Instr.epilogue.map fun i => { instr := i }
  pure (.blank :: .entry f.label :: Line.ofCode (prologue allocated.slots)
    ++ (o.tidy closed).map .code)

/-- The name of a unit's temporary in the startup code: it starts with the name of
the unit and a point. -/
def scopedName (unit name : String) : String :=
  if (unit ++ ".").toList.isPrefixOf name.toList then name else unit ++ "." ++ name

/-- A register of a unit in the startup code. -/
def Reg.scoped (unit : String) : Reg → Reg
  | .virt (.temp x) => .temp (scopedName unit x)
  | r => r

/-- The code that a unit wants run at the start. -/
def CanonicalUnit.selectStartup (u : CanonicalUnit) : Tiling (List Instr) := do
  let code ← u.startup.mapM Stmt.tileBody
  pure (code.flatten.map (Instr.mapRegs (Reg.scoped u.name)))

/-- The artifact of a unit, and the code that it wants run at the start. -/
def CanonicalUnit.assemble (o : Options) (u : CanonicalUnit) : Tiling (UnitLines × List Instr) := do
  modify TileTable.forget
  let functions ← u.functions.mapM (Function.assemble o)
  let startup ← u.selectStartup
  let lines := .segment ".text" :: .blank :: u.exports.map .offer ++ u.imports.map .need
    ++ functions.flatten
  pure ({ name := u.name, lines }, startup)

/-! ### The whole program -/

/-- The first label of a list that an earlier place of the list has too. -/
def firstRepeated? (seen : List String) : List String → Option String
  | [] => none
  | l :: rest => if seen.contains l then some l else firstRepeated? (l :: seen) rest

/-- The entry point of a program with the given functions: the one asked for, or
the first. -/
def entryOf (functions : List String) (asked : Option String) : Except CompileError String :=
  match firstRepeated? [] functions with
  | some l => .error (.repeatedFunction l)
  | none =>
    match asked, functions with
    | some l, _ => if functions.contains l then .ok l else .error (.unknownEntry l)
    | none, first :: _ => .ok first
    | none, [] => .error .noEntry

/-- The lines of the startup artifact. -/
def startupLines (fields imports : List String) (slots : Nat) (body : List Annotated)
    (entry : String) : List Line :=
  .segment ".data" :: fields.map .cell
    ++ .blank :: .segment ".text" :: fields.map .offer
    ++ .offer Reserved.start :: imports.map .need
    ++ .blank :: .entry Reserved.start :: Line.ofCode (prologue slots)
    ++ body.map .code
    ++ Line.ofCode (exitSequence entry)

/-- The artifacts of canonical units. -/
def assembleUnits (o : Options) (units : List CanonicalUnit) : Tiling Assembly := do
  let entry ← ofExcept (entryOf (units.flatMap CanonicalUnit.exports) o.entry)
  let assembled ← units.mapM (CanonicalUnit.assemble o)
  let startup ← ofExcept (o.allocate (assembled.flatMap Prod.snd))
  let fields := units.flatMap CanonicalUnit.fields
  let imports := startupImports (units.flatMap CanonicalUnit.startup) fields entry
  pure {
    units := assembled.map Prod.fst
    startup := startupLines fields imports startup.slots (o.tidy startup.code) entry }

/-- Assembles a program of canonical units, taken as they are. -/
def assemble (o : Options) (units : List CanonicalUnit) : Except CompileError Assembly :=
  match (assembleUnits o units).run {} with
  | .ok a _ => .ok a
  | .error e _ => .error e

/-- The texts of a program of canonical units, taken as they are. -/
def emit (o : Options) (units : List CanonicalUnit) : Except CompileError Program :=
  (assemble o units).map (Assembly.render o.comments)

end TreeBackend
