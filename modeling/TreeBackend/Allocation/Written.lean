import TreeBackend.Error

/-!
# Written before read

Both allocators ask that every virtual register be written, somewhere further up
in the list, before an instruction reads it.
-/

namespace TreeBackend

namespace Instr

/-- The virtual registers an instruction reads. -/
def virtualUses (i : Instr) : List VirtualReg := i.uses.filterMap Reg.virt?

/-- The virtual registers an instruction writes. -/
def virtualDefs (i : Instr) : List VirtualReg := i.defs.filterMap Reg.virt?

end Instr

/-- Refuses the first read of a register that is not among those written so far. -/
def checkWrittenFrom (written : List VirtualReg) : List Instr → Except CompileError Unit
  | [] => .ok ()
  | i :: rest =>
    match i.virtualUses.find? (!written.contains ·) with
    | some v => .error (.unwritten v)
    | none => checkWrittenFrom (i.virtualDefs ++ written) rest

/-- Refuses the first read of a register that no earlier instruction writes. -/
def checkWritten (code : List Instr) : Except CompileError Unit := checkWrittenFrom [] code

end TreeBackend
