import TreeBackend.Proofs.Semantics.World
import TreeBackend.X86.Instr

/-!
# The machine

What instructions do.  A `Machine` has a register for every name that code may
use, two flags, and memory in separate pieces: the frame, by offsets from the frame
pointer, the stack, by addresses, and the world that functions share.  What others
see of a run is the list of `Action`s in `Machine.trace`.

`Instr.exec` runs one instruction and says where control goes next.  A call finds
its arguments among the words pushed before it, puts its result into the
accumulator, and leaves in every other register of the machine but the frame's two
whatever the callee likes; no virtual register is touched.

`runAll` runs a list of instructions up to the first that does not go on to the
next.
-/

namespace TreeBackend

/-- What others see of a run of code. -/
inductive Action where
  | push (word : Word)
  /-- A call.  Only the allocation routine looks for its argument in the accumulator. -/
  | call (callee : Target) (size : Option Word)
  | store (cell : Cell) (word : Word)
  | system (number argument : Word)
deriving DecidableEq

/-- What a comparison leaves behind: whether its result is zero, and whether it is
negative, the overflow taken into account. -/
structure Flags where
  zero : Bool
  less : Bool
deriving DecidableEq

/-- What code cannot see from within: the addresses of symbols, what a callee and
the system do after what has happened so far, and whether quotients wrap. -/
structure Platform where
  address : String → Word
  call : List Action → World → Reply
  system : List Action → World → Reply
  /-- What a callee leaves in a register that it may overwrite. -/
  leaves : List Action → PhysReg → Word
  /-- The flags after a call, a multiplication or a division. -/
  stray : List Action → Flags
  wraps : Bool

/-- The state of a run of code. -/
@[ext]
structure Machine where
  regs : Reg → Word
  flags : Flags
  /-- The frame, by offsets from the frame pointer. -/
  frame : Word → Word
  /-- The stack, by addresses. -/
  stack : Word → Word
  world : World
  trace : List Action
  /-- Which branches have been taken. -/
  decisions : List Bool

/-- Where control goes after an instruction. -/
inductive Flow where
  | next
  | goto (target : Target)
  | ret
  /-- A division that the machine refuses, or a move into what holds no word. -/
  | fault
deriving DecidableEq

namespace Flags

/-- The flags that tell of the sign of a word. -/
def ofWord (w : Word) : Flags := { zero := w = 0, less := w < 0 }

/-- The flags that a comparison leaves. -/
def compare (a b : Word) : Flags := { zero := a = b, less := a < b }

end Flags

/-- Whether the last comparison came out as asked. -/
def Cond.holds (f : Flags) : Cond → Bool
  | .eq => f.zero
  | .ne => !f.zero
  | .lt => f.less
  | .ge => !f.less
  | .le => f.less || f.zero
  | .gt => !(f.less || f.zero)

namespace AluOp

/-- The result of an operation. -/
def eval (a b : Word) : AluOp → Word
  | .add => a + b
  | .sub => a - b
  | .and => a &&& b
  | .or => a ||| b

/-- The flags that an operation leaves. -/
def flags (a b : Word) : AluOp → Flags
  | .add => { zero := a + b = 0, less := a.toInt + b.toInt < 0 }
  | .sub => Flags.compare a b
  | .and => Flags.ofWord (a &&& b)
  | .or => Flags.ofWord (a ||| b)

end AluOp

namespace Machine

/-- Puts a word into a register. -/
def set (m : Machine) (r : Reg) (w : Word) : Machine := { m with regs := assign m.regs r w }

def setFlags (m : Machine) (f : Flags) : Machine := { m with flags := f }

def note (m : Machine) (a : Action) : Machine := { m with trace := m.trace ++ [a] }

/-- The address that a memory operand comes to, its symbol left out. -/
def offset (m : Machine) (r : MemRef) : Word := (r.regs.map m.regs).foldr (· + ·) r.disp

/-- The cell that a memory operand is.  Offsets from the frame pointer alone are in
the frame, and those from the stack pointer alone are on the stack. -/
def cell (m : Machine) (r : MemRef) : Cell :=
  match r.symbol with
  | some s => .data s (m.offset r)
  | none =>
    if r.regs = [.phys .framePointer] then .frame r.disp
    else if r.regs = [.phys .stackPointer] then .stack (m.offset r)
    else .heap (m.offset r)

/-- The word in a cell. -/
def peek (m : Machine) : Cell → Word
  | .frame o => m.frame o
  | .data s o => m.world.data s o
  | .heap a => m.world.heap a
  | .stack a => m.stack a

/-- The machine with another word in a cell. -/
def fill (m : Machine) (w : Word) : Cell → Machine
  | .frame o => { m with frame := assign m.frame o w }
  | .data s o => { m with world := m.world.setData s o w }
  | .heap a => { m with world := m.world.setHeap a w }
  | .stack a => { m with stack := assign m.stack a w }

/-- Stores a word into a cell, and notes it if others can see it. -/
def poke (m : Machine) (c : Cell) (w : Word) : Machine :=
  { m.fill w c with trace := m.trace ++ if c.isVisible then [.store c w] else [] }

/-- The value of an operand. -/
def value (p : Platform) (m : Machine) : Operand → Word
  | .reg r => m.regs r
  | .mem r => m.peek (m.cell r)
  | .imm v => v
  | .label l => p.address l

/-- Where an operand of a jump or a call leads. -/
def target (p : Platform) (m : Machine) : Operand → Target
  | .label l => .label l
  | op => .address (m.value p op)

/-- What a call finds in the accumulator, if it looks there. -/
def size? (m : Machine) (callee : Target) : Option Word :=
  if callee = .label Reserved.allocate then some (m.regs (.phys .accumulator)) else none

/-- The registers after a call. -/
def regsAfter (p : Platform) (trace : List Action) (result : Word) (regs : Reg → Word) :
    Reg → Word
  | .phys .eax => result
  | .phys q => if q.isFrame then regs (.phys q) else p.leaves trace q
  | r => regs r

/-- Calls a function. -/
def call (p : Platform) (m : Machine) (callee : Target) : Machine :=
  let m := m.note (.call callee (m.size? callee))
  let reply := p.call m.trace m.world
  { m with
    regs := regsAfter p m.trace reply.result m.regs
    flags := p.stray m.trace
    world := reply.world }

/-- Makes room for a word on the stack and puts it there. -/
def push (m : Machine) (w : Word) : Machine :=
  let top := m.regs (.phys .stackPointer) - Frame.wordBytes
  { m.set (.phys .stackPointer) top with stack := assign m.stack top w }.note (.push w)

/-- Takes a word off the stack. -/
def pop (m : Machine) (dst : Reg) : Machine :=
  let top := m.regs (.phys .stackPointer)
  (m.set (.phys .stackPointer) (top + Frame.wordBytes)).set dst (m.stack top)

/-- The dividend in `edx:eax`. -/
def dividend (m : Machine) : Int :=
  (m.regs (.phys .edx)).toInt * 4294967296 + (m.regs (.phys .eax)).toBitVec.toNat

section
variable (m : Machine) (w : Word) {r q : Reg}

@[simp] theorem regs_set_self : (m.set r w).regs r = w := assign_self _ _

theorem regs_set_of_ne (h : q ≠ r) : (m.set r w).regs q = m.regs q := assign_of_ne _ _ h

@[simp] theorem regs_setFlags (f : Flags) : (m.setFlags f).regs = m.regs := rfl

@[simp] theorem flags_setFlags (f : Flags) : (m.setFlags f).flags = f := rfl

@[simp] theorem flags_set : (m.set r w).flags = m.flags := rfl

end

end Machine

namespace Instr

/-- Runs an instruction. -/
def exec (p : Platform) (m : Machine) : Instr → Flow × Machine
  | mov (.reg dst) src => (.next, m.set dst (m.value p src))
  | mov (.mem dst) src => (.next, m.poke (m.cell dst) (m.value p src))
  | mov (.imm _) _ | mov (.label _) _ => (.fault, m)
  | lea dst r => (.next, m.set dst ((r.symbol.map p.address).getD 0 + m.offset r))
  | push src => (.next, m.push (m.value p src))
  | pop dst => (.next, m.pop dst)
  | alu op dst src =>
    let a := m.regs dst
    let b := m.value p src
    (.next, (m.set dst (op.eval a b)).setFlags (op.flags a b))
  | imul src =>
    let a := m.regs (.phys .eax)
    let b := m.value p src
    let high := Word.ofInt (a.toInt * b.toInt / 4294967296)
    (.next, ((m.set (.phys .eax) (a * b)).set (.phys .edx) high).setFlags (p.stray m.trace))
  | idiv src =>
    match Word.divide p.wraps m.dividend (m.value p src) with
    | some (q, r) =>
      (.next, ((m.set (.phys .eax) q).set (.phys .edx) r).setFlags (p.stray m.trace))
    | none => (.fault, m)
  | cdq => (.next, m.set (.phys .edx) (if m.regs (.phys .eax) < 0 then -1 else 0))
  | cmp a b => (.next, m.setFlags (Flags.compare (m.value p a) (m.value p b)))
  | test a b => (.next, m.setFlags (Flags.ofWord (m.regs a &&& m.regs b)))
  | setcc c =>
    (.next, m.set (.phys .eax) ((m.regs (.phys .eax)).withLow (Word.ofBool (c.holds m.flags))))
  | movzx dst => (.next, m.set dst (m.regs (.phys .eax)).low)
  | jmp there => (.goto (m.target p there), m)
  | jcc c l =>
    let taken := c.holds m.flags
    (if taken then .goto (.label l) else .next, { m with decisions := m.decisions ++ [taken] })
  | call callee => (.next, m.call p (m.target p callee))
  | ret => (.ret, m)
  | int80 =>
    let m := m.note (.system (m.regs (.phys .eax)) (m.regs (.phys .ebx)))
    let reply := p.system m.trace m.world
    (.next, { m.set (.phys .eax) reply.result with world := reply.world })
  | label _ | comment _ => (.next, m)

section
variable {p : Platform} {m : Machine} {divisor : Operand} {q r : Word}

theorem exec_idiv_of_some
    (h : Word.divide p.wraps m.dividend (m.value p divisor) = some (q, r)) :
    (idiv divisor).exec p m =
      (.next, ((m.set (.phys .eax) q).set (.phys .edx) r).setFlags (p.stray m.trace)) := by
  simp only [exec, h]

theorem exec_idiv_of_none (h : Word.divide p.wraps m.dividend (m.value p divisor) = none) :
    (idiv divisor).exec p m = (.fault, m) := by
  simp only [exec, h]

end

end Instr

/-- Runs instructions in order, up to the first that does not go on to the next. -/
def runAll (p : Platform) : List Instr → Machine → Flow × Machine
  | [], m => (.next, m)
  | i :: rest, m =>
    match i.exec p m with
    | (.next, m') => runAll p rest m'
    | stopped => stopped

section
variable {p : Platform} {m m' : Machine}

theorem runAll_cons {i : Instr} {rest : List Instr} (h : i.exec p m = (.next, m')) :
    runAll p (i :: rest) m = runAll p rest m' := by
  rw [runAll, h]

theorem runAll_append {a b : List Instr} (h : runAll p a m = (.next, m')) :
    runAll p (a ++ b) m = runAll p b m' := by
  induction a generalizing m with
  | nil =>
    cases h
    rfl
  | cons i rest ih =>
    rw [List.cons_append, runAll]
    rw [runAll] at h
    cases hi : i.exec p m with
    | mk f m₁ =>
      rw [hi] at h
      cases f with
      | next => exact ih h
      | _ => cases h

theorem runAll_append_stop {a b : List Instr} {f : Flow} (h : runAll p a m = (f, m'))
    (hf : f ≠ .next) : runAll p (a ++ b) m = (f, m') := by
  induction a generalizing m with
  | nil =>
    cases h
    exact absurd rfl hf
  | cons i rest ih =>
    rw [List.cons_append, runAll]
    rw [runAll] at h
    cases hi : i.exec p m with
    | mk g m₁ =>
      rw [hi] at h
      cases g with
      | next => exact ih h
      | _ => exact h

end

end TreeBackend
