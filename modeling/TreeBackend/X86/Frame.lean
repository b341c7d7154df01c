/-!
# The frame of a function

A function finds its arguments above the frame pointer, past the saved frame
pointer and the return address, and keeps its slots below it.  Slots are numbered
from `1` and arguments from `0`.  Offsets are 32-bit words, as the machine adds
them.
-/

namespace TreeBackend.Frame

/-- The bytes of a word: of a slot, and of an argument. -/
def wordBytes : Int32 := 4

/-- The offset of a slot from the frame pointer. -/
def slotOffset (slot : Nat) : Int32 := -(Int32.ofNat slot) * wordBytes

/-- The offset of an argument from the frame pointer. -/
def argumentOffset (index : Nat) : Int32 := (Int32.ofNat index + 2) * wordBytes

end TreeBackend.Frame
