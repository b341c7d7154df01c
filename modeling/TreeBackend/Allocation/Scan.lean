import TreeBackend.Allocation.Home
import TreeBackend.Allocation.Written
import TreeBackend.Allocation.Liveness

/-!
# Allocation by one scan

The allocator that keeps values in registers.  Intervals are visited by their
start.  Each takes the first register that no interval still running holds and
that no window of the register's own forbids; failing that, the least slot that
no interval still running holds.

A call may overwrite every register it likes, so those that hold a value across
it are saved to slots of their own before it and fetched again after it.
-/

namespace TreeBackend

/-- An interval and the home its register has been given. -/
structure Placement where
  interval : Interval
  home : Home
deriving DecidableEq

namespace Placement

/-- Whether a placement still holds its home at a position. -/
def lastsTo (p : Placement) (pos : Nat) : Bool := pos ≤ p.interval.span.last

/-- The least positive number that is not in a list. -/
def leastFree (held : List Nat) : Nat :=
  ((List.range' 1 (held.length + 1)).find? (!held.contains ·)).getD (held.length + 1)

/-- Among one number more than a list is long, some number is not in the list. -/
theorem find?_leastFree (held : List Nat) :
    (List.range' 1 (held.length + 1)).find? (!held.contains ·) = some (leastFree held) := by
  unfold leastFree
  cases h : (List.range' 1 (held.length + 1)).find? (!held.contains ·) with
  | some n => rfl
  | none =>
    have hsub : List.range' 1 (held.length + 1) ⊆ held := fun n hn => by
      simpa using List.find?_eq_none.mp h n hn
    have hlen := (List.nodup_range' 1).length_le_of_subset hsub
    rw [List.length_range'] at hlen
    omega

theorem leastFree_not_mem (held : List Nat) : leastFree held ∉ held := by
  simpa using List.find?_some (find?_leastFree held)

theorem leastFree_pos (held : List Nat) : 0 < leastFree held := by
  have := List.mem_of_find?_eq_some (find?_leastFree held)
  simp at this
  omega

theorem mem_of_lt_leastFree {held : List Nat} {n : Nat} (hpos : 0 < n) (h : n < leastFree held) :
    n ∈ held := by
  have := (List.find?_range'_eq_some.mp (find?_leastFree held)).2.2 n hpos h
  simpa using this

/-- The home of an interval, beside those that are still held. -/
def choose (live : Liveness) (held : List Placement) (s : Span) : Home :=
  let free (p : PhysReg) : Bool :=
    !(held.map Placement.home).contains (.reg p) && !live.conflicts p s.first s.last
  match PhysReg.allocatable.find? free with
  | some p => .reg p
  | none => .slot (leastFree (held.filterMap (·.home.slot?)))

/-- Places intervals one after the other, beside those that are still held. -/
def placeFrom (live : Liveness) (held : List Placement) : List Interval → List Placement
  | [] => []
  | iv :: rest =>
    let running := held.filter (·.lastsTo iv.span.first)
    let p : Placement := { interval := iv, home := choose live running iv.span }
    p :: placeFrom live (p :: running) rest

end Placement

namespace Interval

/-- The order in which intervals are placed: by their start, then by their end. -/
def le (a b : Interval) : Bool :=
  a.span.first < b.span.first || (a.span.first == b.span.first && a.span.last ≤ b.span.last)

end Interval

/-- Gives every interval a home.  The result is in the order of placement. -/
def Liveness.place (live : Liveness) : List Placement :=
  Placement.placeFrom live [] (live.intervals.mergeSort Interval.le)

/-- The homes that placements give. -/
def homesOf (placed : List Placement) : Homes := placed.map fun p => (p.interval.reg, p.home)

/-- The greatest slot that placements use. -/
def slotsOf (placed : List Placement) : Nat :=
  (placed.filterMap (·.home.slot?)).foldr max 0

/-- The registers that hold a value across a position and that a call there may
overwrite, in the order of the machine. -/
def savedAt (placed : List Placement) (pos : Nat) : List PhysReg :=
  PhysReg.all.filter fun p =>
    PhysReg.callerSaved.contains p &&
      placed.any fun q =>
        q.home = .reg p && q.interval.span.first < pos && pos < q.interval.span.last

/-- A machine register and the slot that keeps it during a call. -/
structure Save where
  reg : PhysReg
  slot : Nat
deriving DecidableEq

namespace Save

def store (s : Save) : Annotated where
  instr := .storeFrame (Frame.slotOffset s.slot) s.reg
  note := some ("save " ++ s.reg.name)

def load (s : Save) : Annotated where
  instr := .loadFrame s.reg (Frame.slotOffset s.slot)
  note := some ("restore " ++ s.reg.name)

end Save

/-- The saves around a call, in the slots past those of the placements. -/
def savesAt (placed : List Placement) (pos : Nat) : List Save :=
  ((savedAt placed pos).zipIdx (slotsOf placed + 1)).map fun (p, n) => { reg := p, slot := n }

/-- An instruction on the homes of its registers; a call between its saves. -/
def housePlaced (placed : List Placement) (i : Instr) (pos : Nat) :
    Except CompileError (List Annotated) := do
  let housed ← (homesOf placed).house i
  if i.isCall then
    let saves := savesAt placed pos
    pure (saves.map Save.store ++ housed ++ saves.map Save.load)
  else pure housed

/-- The greatest number of registers that one call needs saved. -/
def mostSaved (placed : List Placement) (code : List Instr) : Nat :=
  (code.zipIdx.map fun (i, pos) => if i.isCall then (savedAt placed pos).length else 0).foldr max 0

/-- Allocates registers and slots by one scan over the intervals. -/
def allocateScan (code : List Instr) : Except CompileError Allocation := do
  checkWritten code
  let placed := ((Liveness.ofCode code).settle code).place
  let housed ← code.zipIdx.mapM fun (i, pos) => housePlaced placed i pos
  pure { code := housed.flatten, slots := slotsOf placed + mostSaved placed code }

end TreeBackend
