import TreeBackend.Error
import TreeBackend.X86.Frame

/-!
# Homes

A virtual register lives in a machine register or in a slot of the frame.
`Homes.house` puts an instruction on the homes of its registers: registers are
replaced by the ones they live in, and a slot is brought to one of three scratch
registers before an instruction that reads it, and put back after one that
writes it.
-/

namespace TreeBackend

/-- Where a virtual register lives. -/
inductive Home where
  | reg (p : PhysReg)
  | slot (n : Nat)
deriving DecidableEq, Repr

def Home.slot? : Home → Option Nat
  | slot n => some n
  | reg _ => none

/-- Where each virtual register lives. -/
abbrev Homes := List (VirtualReg × Home)

/-- A slot that one instruction works on, and the scratch register it stands in. -/
structure Visit where
  reg : VirtualReg
  slot : Nat
  scratch : PhysReg
deriving DecidableEq

namespace Visit

def load (v : Visit) : Annotated where
  instr := .loadFrame v.scratch (Frame.slotOffset v.slot)
  note := some ("restore " ++ v.reg.label)

def store (v : Visit) : Annotated where
  instr := .storeFrame (Frame.slotOffset v.slot) v.scratch
  note := some ("spill " ++ v.reg.label)

end Visit

namespace Homes

/-- The registers of a list that live in slots, and those slots.  Refuses the
first register without a home. -/
def slotted (homes : Homes) : List VirtualReg → Except CompileError (List (VirtualReg × Nat))
  | [] => .ok []
  | v :: rest =>
    match homes.lookup v with
    | none => .error (.unwritten v)
    | some (.reg _) => slotted homes rest
    | some (.slot n) => return (v, n) :: (← slotted homes rest)

/-- The slots an instruction works on, each with a scratch register of its own. -/
def visits (homes : Homes) (i : Instr) : Except CompileError (List Visit) := do
  let slots ← homes.slotted i.virtuals
  if PhysReg.scratch.length < slots.length then
    throw (.outOfScratch i slots.length)
  pure (slots.zipWith (fun s p => { reg := s.1, slot := s.2, scratch := p }) PhysReg.scratch)

/-- The machine register that stands for a register in an instruction. -/
def place (homes : Homes) (visits : List Visit) : Reg → Reg
  | .virt v =>
    match homes.lookup v with
    | some (.reg p) => .phys p
    | _ =>
      match visits.find? (·.reg = v) with
      | some visit => .phys visit.scratch
      | none => .virt v
  | r => r

/-- An instruction on the homes of its registers. -/
def house (homes : Homes) (i : Instr) : Except CompileError (List Annotated) := do
  let visits ← homes.visits i
  let loads := visits.filter (Reg.virt ·.reg ∈ i.uses)
  let stores := visits.filter (Reg.virt ·.reg ∈ i.defs)
  let here : Annotated := { instr := i.mapRegs (homes.place visits) }
  pure (loads.map Visit.load ++ here :: stores.map Visit.store)

end Homes

/-- Code on machine registers only, and the number of slots its frame needs. -/
structure Allocation where
  code : List Annotated
  slots : Nat
deriving DecidableEq

end TreeBackend
