import TreeBackend.X86.Instr

/-!
# The written form of instructions

Instructions are written in the syntax of the assembler, indented by four
spaces, and labels at the margin.  A memory operand needs its size spelled out
where no register beside it shows the size.
-/

namespace TreeBackend

def VirtualReg.text : VirtualReg → String
  | .temp x => "%" ++ x
  | .fresh n => "%r" ++ toString n

/-- What messages and notes call a virtual register: a temporary by its bare name. -/
def VirtualReg.label : VirtualReg → String
  | .temp x => x
  | .fresh n => (VirtualReg.fresh n).text

def Reg.text : Reg → String
  | .phys p => p.name
  | .virt v => v.text
  | .dest => "%dest"

/-- The parts of an address with plus signs between them. -/
def MemRef.sum (m : MemRef) : String := " + ".intercalate (m.symbol.toList ++ m.regs.map Reg.text)

/-- An address in brackets.  A displacement follows with its sign, unless it is
zero; an address with nothing before it is the displacement alone. -/
def MemRef.text (m : MemRef) : String :=
  let d := m.disp.toInt
  let body :=
    if m.sum.isEmpty then toString d
    else if 0 < d then m.sum ++ " + " ++ toString d
    else if d < 0 then m.sum ++ " - " ++ toString (-d)
    else m.sum
  "[" ++ body ++ "]"

def Operand.text : Operand → String
  | .reg r => r.text
  | .mem m => m.text
  | .imm v => toString v.toInt
  | .label l => l

/-- The mnemonic ending of a condition. -/
def Cond.suffix : Cond → String
  | .eq => "e"
  | .ne => "nz"
  | .lt => "l"
  | .gt => "g"
  | .le => "le"
  | .ge => "ge"

def AluOp.mnemonic : AluOp → String
  | .add => "add"
  | .sub => "sub"
  | .and => "and"
  | .or => "or"

/-- The size of a lone memory operand. -/
def Operand.sized (op : Operand) : String := if op.isMem then "dword " ++ op.text else op.text

/-- Two operands, with the size in front when one is in memory and the other is
not a register. -/
def Operand.pair (a b : Operand) : String :=
  let unsized := (a.isMem && !b.isReg) || (b.isMem && !a.isReg)
  (if unsized then "dword " else "") ++ a.text ++ ", " ++ b.text

namespace Instr

/-- An instruction without its indentation. -/
def body : Instr → String
  | mov dst src => "mov " ++ dst.pair src
  | lea dst address => "lea " ++ dst.text ++ ", " ++ address.text
  | push src => "push " ++ src.sized
  | pop dst => "pop " ++ dst.text
  | alu op dst src => op.mnemonic ++ " " ++ dst.text ++ ", " ++ src.text
  | imul src => "imul " ++ src.sized
  | idiv src => "idiv " ++ src.sized
  | cdq => "cdq"
  | cmp a b => "cmp " ++ a.pair b
  | test a b => "test " ++ a.text ++ ", " ++ b.text
  | setcc c => "set" ++ c.suffix ++ " al"
  | movzx dst => "movzx " ++ dst.text ++ ", al"
  | jmp target => "jmp " ++ target.text
  | jcc c l => "j" ++ c.suffix ++ " " ++ l
  | call target => "call " ++ target.text
  | ret => "ret"
  | int80 => "int 0x80"
  | label l => l ++ ":"
  | comment t => "; " ++ t

/-- An instruction as a line of assembly. -/
def text : Instr → String
  | label l => (label l).body
  | i => "    " ++ i.body

end Instr

end TreeBackend
