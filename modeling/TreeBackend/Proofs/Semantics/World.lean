import TreeBackend.IR.Storage
import TreeBackend.IR.Tree
import TreeBackend.X86.Frame

/-!
# What a program does to the world

The notions that the meaning of a tree and the meaning of code share: words, the
cells a program stores into, the places it calls and jumps to, and the world
that a call may change.

Words are 32 bits wide and signed.  `Word.divide` is the division of the
machine: its quotient may not fit a word, and then the machine either keeps the
low bits or refuses.  Which of the two it does is left open everywhere.
-/

namespace TreeBackend

abbrev Word := Int32

namespace Word

/-- What is left of a number when only 32 bits of it are kept. -/
def ofInt (n : Int) : Word := Int32.ofInt n

/-- Whether a number is the value of a word. -/
def fits (n : Int) : Bool := Int32.minValue.toInt ≤ n && n ≤ Int32.maxValue.toInt

/-- Quotient and remainder, rounding toward zero.  There are none for a zero
divisor, and none for a quotient that is no word unless quotients wrap. -/
def divide (wraps : Bool) (dividend : Int) (divisor : Word) : Option (Word × Word) :=
  let quotient := dividend.tdiv divisor.toInt
  if divisor ≠ 0 ∧ (wraps || fits quotient) then
    some (ofInt quotient, ofInt (dividend.tmod divisor.toInt))
  else none

/-- The outcome of a comparison as a word. -/
def ofBool (b : Bool) : Word := if b then 1 else 0

/-- The low byte. -/
def low (w : Word) : Word := w &&& 255

/-- All but the low byte. -/
def high (w : Word) : Word := w &&& ~~~255

/-- The word with another low byte. -/
def withLow (w byte : Word) : Word := low byte ||| high w

theorem low_withLow (w byte : Word) : low (withLow w byte) = low byte := by
  rw [← Int32.toBitVec_inj]
  simp only [low, high, withLow, Int32.toBitVec_and, Int32.toBitVec_or, Int32.toBitVec_not]
  generalize (255 : Int32).toBitVec = mask
  ext i hi
  simp only [BitVec.getElem_and, BitVec.getElem_or, BitVec.getElem_not]
  cases mask[i] <;> simp

theorem high_withLow (w byte : Word) : high (withLow w byte) = high w := by
  rw [← Int32.toBitVec_inj]
  simp only [low, high, withLow, Int32.toBitVec_and, Int32.toBitVec_or, Int32.toBitVec_not]
  generalize (255 : Int32).toBitVec = mask
  ext i hi
  simp only [BitVec.getElem_and, BitVec.getElem_or, BitVec.getElem_not]
  cases mask[i] <;> simp

end Word

/-- A place that code stores words into. -/
inductive Cell where
  /-- At an offset from the frame pointer. -/
  | frame (offset : Word)
  /-- At an offset from a symbol. -/
  | data (symbol : String) (offset : Word)
  | heap (address : Word)
  | stack (address : Word)
deriving DecidableEq

/-- The words below the frame pointer are the function's own.  Nobody else sees
what is stored there. -/
def Cell.isVisible : Cell → Bool
  | frame offset => 0 ≤ offset
  | data .. | heap _ | stack _ => true

/-- Where a call or a jump goes. -/
inductive Target where
  | label (name : String)
  | address (word : Word)
deriving DecidableEq

/-- The memory that functions share. -/
@[ext]
structure World where
  data : String → Word → Word
  heap : Word → Word

/-- What a callee leaves behind. -/
structure Reply where
  result : Word
  world : World

/-- Replaces one value of a function. -/
def assign {α : Type} [DecidableEq α] (f : α → Word) (a : α) (w : Word) : α → Word :=
  fun b => if b = a then w else f b

section
variable {α : Type} [DecidableEq α] (f : α → Word) {a b : α} (w : Word)

@[simp] theorem assign_self : assign f a w a = w := if_pos rfl

theorem assign_of_ne (h : b ≠ a) : assign f a w b = f b := if_neg h

end

namespace World

/-- Stores a word at an offset from a symbol. -/
def setData (m : World) (symbol : String) (offset w : Word) : World :=
  { m with data := fun s o => if s = symbol ∧ o = offset then w else m.data s o }

/-- Stores a word at an address. -/
def setHeap (m : World) (address w : Word) : World := { m with heap := assign m.heap address w }

end World

end TreeBackend
