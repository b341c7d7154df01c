/-!
# Registers

The eight general registers of the 32-bit machine, and the virtual registers
that code names before it has been given real ones.  `Reg.dest` stands for the
destination of the code around it, and is gone once tiles have been laid out.
-/

namespace TreeBackend

/-- A general register of the machine. -/
inductive PhysReg where
  | eax | ebx | ecx | edx | esi | edi | esp | ebp
deriving DecidableEq, Repr

namespace PhysReg

/-- All registers, in the order in which they are listed everywhere. -/
def all : List PhysReg := [eax, ebx, ecx, edx, esi, edi, esp, ebp]

/-- Where results are returned, and where multiplication and division happen. -/
def accumulator : PhysReg := eax

/-- Where a division leaves its remainder. -/
def remainder : PhysReg := edx

def stackPointer : PhysReg := esp

def framePointer : PhysReg := ebp

/-- The registers that may hold a value from one instruction to the next, best first. -/
def allocatable : List PhysReg := [ebx, edx, eax]

/-- The registers that bring a value from its slot to one instruction and back.
None of them holds anything between two instructions. -/
def scratch : List PhysReg := [ecx, esi, edi]

/-- The registers that a call may overwrite.  No function preserves any of the
allocatable ones for its caller. -/
def callerSaved : List PhysReg := allocatable

/-- The two registers that hold the stack together; they are never given to a value. -/
def isFrame : PhysReg → Bool
  | esp | ebp => true
  | _ => false

def name : PhysReg → String
  | eax => "eax"
  | ebx => "ebx"
  | ecx => "ecx"
  | edx => "edx"
  | esi => "esi"
  | edi => "edi"
  | esp => "esp"
  | ebp => "ebp"

end PhysReg

/-- A register that code asks for and that has yet to be given a place: the
temporary of a name, or one made up for a value in passing. -/
inductive VirtualReg where
  | temp (name : String)
  | fresh (n : Nat)
deriving DecidableEq, Repr

/-- A register as an instruction mentions it. -/
inductive Reg where
  | phys (p : PhysReg)
  | virt (v : VirtualReg)
  | dest
deriving DecidableEq, Repr

namespace Reg

def temp (name : String) : Reg := .virt (.temp name)

def fresh (n : Nat) : Reg := .virt (.fresh n)

def virt? : Reg → Option VirtualReg
  | virt v => some v
  | _ => none

def phys? : Reg → Option PhysReg
  | phys p => some p
  | _ => none

def isPhys (r : Reg) : Bool := r.phys?.isSome

end Reg

end TreeBackend
