import TreeBackend.X86.Register

/-!
# Instructions

The part of the instruction set that compiled programs use, with labels and
comments among the instructions.  Registers may be virtual.

`Instr.regs` lists the registers an instruction mentions and `Instr.mapRegs`
replaces them: `Instr.regs_mapRegs`.  `Instr.uses` and `Instr.defs` say which
registers it reads and writes, those it does not mention included: a
multiplication reads and writes the accumulator, a return reads it, a call leaves
its result there.
-/

namespace TreeBackend

/-- A memory operand: the sum of a symbol, two registers and a displacement. -/
structure MemRef where
  symbol : Option String := none
  base : Option Reg := none
  index : Option Reg := none
  disp : Int32 := 0
deriving DecidableEq

namespace MemRef

/-- The word a register points to. -/
def ofReg (r : Reg) : MemRef := { base := some r }

/-- The word at a symbol. -/
def ofSymbol (s : String) : MemRef := { symbol := some s }

/-- The word at an offset from the frame pointer. -/
def frame (offset : Int32) : MemRef :=
  { base := some (.phys .framePointer), disp := offset }

/-- The registers an address is made of. -/
def regs (m : MemRef) : List Reg := m.base.toList ++ m.index.toList

def mapRegs (f : Reg → Reg) (m : MemRef) : MemRef :=
  { m with base := m.base.map f, index := m.index.map f }

@[simp] theorem regs_mapRegs (f : Reg → Reg) (m : MemRef) : (m.mapRegs f).regs = m.regs.map f := by
  cases m with
  | mk s b i d => cases b <;> cases i <;> rfl

theorem mapRegs_congr {f g : Reg → Reg} (m : MemRef) (h : ∀ r ∈ m.regs, f r = g r) :
    m.mapRegs f = m.mapRegs g := by
  cases m with
  | mk s b i d => cases b <;> cases i <;> simp_all [mapRegs, regs]

@[simp] theorem mapRegs_id (m : MemRef) : m.mapRegs id = m := by simp [mapRegs]

end MemRef

/-- An operand of an instruction. -/
inductive Operand where
  | reg (r : Reg)
  | mem (m : MemRef)
  | imm (value : Int32)
  | label (name : String)
deriving DecidableEq

namespace Operand

def isMem : Operand → Bool
  | mem _ => true
  | _ => false

def isReg : Operand → Bool
  | reg _ => true
  | _ => false

def regs : Operand → List Reg
  | reg r => [r]
  | mem m => m.regs
  | imm _ | label _ => []

def mapRegs (f : Reg → Reg) : Operand → Operand
  | reg r => reg (f r)
  | mem m => mem (m.mapRegs f)
  | imm v => imm v
  | label l => label l

/-- A machine register as an operand. -/
def phys (p : PhysReg) : Operand := reg (.phys p)

@[simp] theorem regs_mapRegs (f : Reg → Reg) (op : Operand) :
    (op.mapRegs f).regs = op.regs.map f := by
  cases op <;> simp [mapRegs, regs]

theorem mapRegs_congr {f g : Reg → Reg} (op : Operand) (h : ∀ r ∈ op.regs, f r = g r) :
    op.mapRegs f = op.mapRegs g := by
  cases op with
  | reg r => rw [mapRegs, mapRegs, h r (by simp [regs])]
  | mem m => rw [mapRegs, mapRegs, m.mapRegs_congr h]
  | imm v => rfl
  | label l => rfl

@[simp] theorem mapRegs_id (op : Operand) : op.mapRegs id = op := by cases op <;> simp [mapRegs]

end Operand

/-- The outcome of a comparison that a branch or a `setcc` asks for. -/
inductive Cond where
  | eq | ne | lt | gt | le | ge
deriving DecidableEq, Repr

/-- The two-operand operations that overwrite their left operand. -/
inductive AluOp where
  | add | sub | and | or
deriving DecidableEq, Repr

/-- An instruction, a label or a comment. -/
inductive Instr where
  | mov (dst src : Operand)
  | lea (dst : Reg) (address : MemRef)
  | push (src : Operand)
  | pop (dst : Reg)
  /-- Overwrites `dst` with the operation on `dst` and `src`. -/
  | alu (op : AluOp) (dst : Reg) (src : Operand)
  /-- Multiplies the accumulator, the high half going to `edx`. -/
  | imul (src : Operand)
  /-- Divides `edx:eax`, the quotient going to `eax` and the remainder to `edx`. -/
  | idiv (src : Operand)
  /-- Extends the sign of `eax` through `edx`. -/
  | cdq
  | cmp (a b : Operand)
  | test (a b : Reg)
  /-- Sets the low byte of `eax` to the outcome of the last comparison. -/
  | setcc (cond : Cond)
  /-- Widens the low byte of `eax`. -/
  | movzx (dst : Reg)
  | jmp (target : Operand)
  | jcc (cond : Cond) (label : String)
  | call (target : Operand)
  | ret
  /-- A system call: its number in `eax`, its argument in `ebx`. -/
  | int80
  | label (name : String)
  | comment (text : String)
deriving DecidableEq

namespace Instr

/-- Labels and comments stand for no machine code. -/
def isExecutable : Instr → Bool
  | label _ | comment _ => false
  | _ => true

def isComment : Instr → Bool
  | comment _ => true
  | _ => false

def isCall : Instr → Bool
  | call _ => true
  | _ => false

def isRet : Instr → Bool
  | ret => true
  | _ => false

/-- The label a direct jump or a branch may go to. -/
def jumpTarget? : Instr → Option String
  | jmp (.label l) => some l
  | jcc _ l => some l
  | _ => none

/-- The registers an instruction mentions, in the order of its operands and as
often as it mentions them. -/
def regs : Instr → List Reg
  | mov dst src => dst.regs ++ src.regs
  | cmp a b => a.regs ++ b.regs
  | lea dst address => dst :: address.regs
  | alu _ dst src => dst :: src.regs
  | push op | imul op | idiv op | jmp op | call op => op.regs
  | pop dst | movzx dst => [dst]
  | test a b => [a, b]
  | cdq | setcc _ | jcc _ _ | ret | int80 | label _ | comment _ => []

/-- Replaces each register an instruction mentions. -/
def mapRegs (f : Reg → Reg) : Instr → Instr
  | mov dst src => mov (dst.mapRegs f) (src.mapRegs f)
  | cmp a b => cmp (a.mapRegs f) (b.mapRegs f)
  | lea dst address => lea (f dst) (address.mapRegs f)
  | alu op dst src => alu op (f dst) (src.mapRegs f)
  | push op => push (op.mapRegs f)
  | imul op => imul (op.mapRegs f)
  | idiv op => idiv (op.mapRegs f)
  | jmp op => jmp (op.mapRegs f)
  | call op => call (op.mapRegs f)
  | pop dst => pop (f dst)
  | movzx dst => movzx (f dst)
  | test a b => test (f a) (f b)
  | cdq => cdq
  | setcc c => setcc c
  | jcc c l => jcc c l
  | ret => ret
  | int80 => int80
  | label l => label l
  | comment t => comment t

/-- Whether every register an instruction mentions is one of the machine. -/
def isAllocated (i : Instr) : Bool := i.regs.all Reg.isPhys

/-- The registers an instruction reads, the implicit ones first and each with all
its mentions. -/
def reads : Instr → List Reg
  | mov dst src => src.regs ++ if dst.isMem then dst.regs else []
  | lea _ address => address.regs
  | push src => src.regs
  | alu _ dst src => dst :: src.regs
  | imul src => .phys .eax :: src.regs
  | idiv src => .phys .eax :: .phys .edx :: src.regs
  | cdq | movzx _ | ret => [.phys .eax]
  | cmp a b => a.regs ++ b.regs
  | test a b => [a, b]
  | jmp target | call target => target.regs
  | int80 => [.phys .eax, .phys .ebx]
  | pop _ | setcc _ | jcc _ _ | label _ | comment _ => []

/-- The registers an instruction reads, each once. -/
def uses (i : Instr) : List Reg := i.reads.eraseDups

/-- The registers an instruction writes. -/
def defs : Instr → List Reg
  | mov (.reg dst) _ | lea dst _ | pop dst | alu _ dst _ | movzx dst => [dst]
  | imul _ | idiv _ => [.phys .eax, .phys .edx]
  | cdq => [.phys .edx]
  | setcc _ | call _ => [.phys .eax]
  | _ => []

/-- The virtual registers an instruction reads or writes, each once. -/
def virtuals (i : Instr) : List VirtualReg := ((i.uses ++ i.defs).filterMap Reg.virt?).eraseDups

/-! ### Mentions, reads and writes -/

theorem regs_mapRegs (f : Reg → Reg) (i : Instr) : (i.mapRegs f).regs = i.regs.map f := by
  cases i <;> simp [mapRegs, regs]

theorem mapRegs_congr {f g : Reg → Reg} (i : Instr) (h : ∀ r ∈ i.regs, f r = g r) :
    i.mapRegs f = i.mapRegs g := by
  cases i
  all_goals
    simp only [regs, List.mem_append, List.mem_cons, List.not_mem_nil, or_false] at h
    simp only [mapRegs]
  all_goals grind [Operand.mapRegs_congr, MemRef.mapRegs_congr]

theorem mapRegs_id (i : Instr) : i.mapRegs id = i := by
  cases i <;> simp [mapRegs]

@[simp] theorem mem_uses {r : Reg} {i : Instr} : r ∈ i.uses ↔ r ∈ i.reads := List.mem_eraseDups

theorem mem_virtuals {v : VirtualReg} {i : Instr} :
    v ∈ i.virtuals ↔ .virt v ∈ i.reads ∨ .virt v ∈ i.defs := by
  have hvirt (r : Reg) : r.virt? = some v ↔ r = .virt v := by cases r <;> simp [Reg.virt?]
  simp [virtuals, hvirt]

/-! ### Common instructions -/

/-- Puts a register into a word of the frame. -/
def storeFrame (offset : Int32) (src : PhysReg) : Instr := mov (.mem (.frame offset)) (.phys src)

/-- Fetches a word of the frame into a register. -/
def loadFrame (dst : PhysReg) (offset : Int32) : Instr := mov (.phys dst) (.mem (.frame offset))

/-- Leaves a function: drops its frame and returns. -/
def epilogue : List Instr :=
  [mov (.phys .stackPointer) (.phys .framePointer), pop (.phys .framePointer), ret]

end Instr

/-- An instruction and, when the allocator put it there, why. -/
structure Annotated where
  instr : Instr
  note : Option String := none
deriving DecidableEq

end TreeBackend
