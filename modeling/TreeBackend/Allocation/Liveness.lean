import TreeBackend.X86.Instr

/-!
# Live intervals and windows

How long each register is needed, by positions in a list of instructions.  A
virtual register has one interval, from its first mention to its last.  A machine
register has windows: a write that does not read the register opens one, and
every read stretches the newest.

Linear order is not the order of execution when a jump goes back: a value that is
live at the label is live at the jump too.  `Liveness.settle` stretches intervals
until no jump leads into the middle of one from beyond its end.
-/

namespace TreeBackend

/-- A stretch of positions, both ends included. -/
structure Span where
  first : Nat
  last : Nat
  ordered : first ≤ last := by omega
deriving DecidableEq

namespace Span

/-- One position. -/
def point (pos : Nat) : Span := { first := pos, last := pos }

/-- Whether some position of the span lies between two given ones. -/
def meets (s : Span) (first last : Nat) : Bool := s.first ≤ last && first ≤ s.last

def contains (s : Span) (pos : Nat) : Bool := s.first ≤ pos && pos ≤ s.last

/-- The span, stretched to a later position. -/
def reach (s : Span) (pos : Nat) : Span :=
  { first := s.first, last := max s.last pos, ordered := by have := s.ordered; omega }

end Span

/-- The positions at which a virtual register is in use. -/
structure Interval where
  reg : VirtualReg
  span : Span
deriving DecidableEq

/-- How long registers are in use: intervals in the order in which their registers
first appear, and for each machine register its windows in ascending order. -/
structure Liveness where
  intervals : List Interval
  windows : List (PhysReg × List Span)
deriving DecidableEq

namespace Liveness

/-- Notes a mention of a virtual register. -/
def touch (pos : Nat) : List Interval → VirtualReg → List Interval
  | [], v => [{ reg := v, span := .point pos }]
  | iv :: rest, v =>
    if iv.reg = v then { iv with span := iv.span.reach pos } :: rest else iv :: touch pos rest v

/-- Notes the mentions in a list of instructions that starts at a position. -/
def intervalsFrom (found : List Interval) (pos : Nat) : List Instr → List Interval
  | [] => found
  | i :: rest => intervalsFrom (i.virtuals.foldl (touch pos) found) (pos + 1) rest

/-- Notes what an instruction does to a machine register, the newest window first. -/
def note (p : PhysReg) (pos : Nat) (i : Instr) (found : List Span) : List Span :=
  if Reg.phys p ∈ i.uses then
    match found with
    | newest :: older => newest.reach pos :: older
    | [] => [.point pos]
  else if Reg.phys p ∈ i.defs then .point pos :: found
  else found

/-- The windows of a machine register, the newest first, with those of a list of
instructions that starts at a position. -/
def windowsFrom (p : PhysReg) (found : List Span) (pos : Nat) : List Instr → List Span
  | [] => found
  | i :: rest => windowsFrom p (note p pos i found) (pos + 1) rest

/-- The windows of a machine register.  Stack and frame pointer have none. -/
def windowsIn (code : List Instr) (p : PhysReg) : List Span :=
  if p.isFrame then [] else (windowsFrom p [] 0 code).reverse

/-- The intervals and windows of a list of instructions. -/
def ofCode (code : List Instr) : Liveness where
  intervals := intervalsFrom [] 0 code
  windows := PhysReg.all.map fun p => (p, windowsIn code p)

/-- The interval of a virtual register. -/
def interval? (live : Liveness) (v : VirtualReg) : Option Interval :=
  live.intervals.find? (·.reg = v)

/-- The windows of a machine register. -/
def windowsOf (live : Liveness) (p : PhysReg) : List Span := (live.windows.lookup p).getD []

/-- Whether a machine register is in use somewhere between two positions. -/
def conflicts (live : Liveness) (p : PhysReg) (first last : Nat) : Bool :=
  (live.windowsOf p).any (·.meets first last)

end Liveness

/-! ### Jumps that lead back -/

/-- A jump from one position to a label at another. -/
structure Edge where
  source : Nat
  target : Nat
deriving DecidableEq

namespace Edge

/-- The position of the last definition of a label, in a list that starts at a position. -/
def positionFrom? (l : String) (pos : Nat) : List Instr → Option Nat
  | [] => none
  | i :: rest =>
    match positionFrom? l (pos + 1) rest with
    | some later => some later
    | none => if i = .label l then some pos else none

/-- The jumps of a list that starts at a position, to labels of the whole code. -/
def edgesFrom (code : List Instr) (pos : Nat) : List Instr → List Edge
  | [] => []
  | i :: rest =>
    match i.jumpTarget?.bind (positionFrom? · 0 code) with
    | some target => { source := pos, target } :: edgesFrom code (pos + 1) rest
    | none => edgesFrom code (pos + 1) rest

/-- The jumps of a list of instructions whose labels are in the list. -/
def ofCode (code : List Instr) : List Edge := edgesFrom code 0 code

/-- How far a span from `first` to `last` has to go once a jump is looked at. -/
def stretch (first last : Nat) (e : Edge) : Nat :=
  if first ≤ e.target ∧ e.target ≤ last then max last e.source else last

/-- How far it has to go once all jumps have been looked at in turn. -/
def sweep (edges : List Edge) (first last : Nat) : Nat := edges.foldl (stretch first) last

/-- The last position from which a jump comes. -/
def horizon (edges : List Edge) : Nat := edges.foldr (fun e far => max e.source far) 0

theorem le_stretch (first last : Nat) (e : Edge) : last ≤ stretch first last e := by
  unfold stretch; split <;> omega

theorem le_sweep (edges : List Edge) (first last : Nat) : last ≤ sweep edges first last := by
  induction edges generalizing last with
  | nil => exact Nat.le_refl _
  | cons e rest ih => exact Nat.le_trans (le_stretch first last e) (ih _)

theorem sweep_le (edges : List Edge) (first last : Nat) :
    sweep edges first last ≤ max last (horizon edges) := by
  induction edges generalizing last with
  | nil => exact Nat.le_max_left _ _
  | cons e rest ih =>
    have hstep : stretch first last e ≤ max last e.source := by unfold stretch; split <;> omega
    have hrest := ih (stretch first last e)
    simp only [sweep, horizon, List.foldl_cons, List.foldr_cons] at hrest ⊢
    omega

/-- How far a span has to go until no jump stretches it further. -/
def settle (edges : List Edge) (first last : Nat) : Nat :=
  if sweep edges first last = last then last else settle edges first (sweep edges first last)
termination_by horizon edges - last
decreasing_by
  have hle := le_sweep edges first last
  have hmax := sweep_le edges first last
  omega

theorem le_settle (edges : List Edge) (first last : Nat) : last ≤ settle edges first last := by
  fun_induction settle edges first last with
  | case1 => exact Nat.le_refl _
  | case2 last _ ih => exact Nat.le_trans (le_sweep edges first last) ih

/-- No jump stretches a settled span further. -/
theorem sweep_settle (edges : List Edge) (first last : Nat) :
    sweep edges first (settle edges first last) = settle edges first last := by
  fun_induction settle edges first last with
  | case1 last h => exact h
  | case2 last _ ih => exact ih

end Edge

/-- The span, stretched until no jump stretches it further. -/
def Span.settle (edges : List Edge) (s : Span) : Span where
  first := s.first
  last := Edge.settle edges s.first s.last
  ordered := Nat.le_trans s.ordered (Edge.le_settle edges s.first s.last)

/-- Stretches every interval until no jump leads into the middle of one from
beyond its end. -/
def Liveness.settle (live : Liveness) (code : List Instr) : Liveness :=
  let edges := Edge.ofCode code
  { live with intervals := live.intervals.map fun iv => { iv with span := iv.span.settle edges } }

end TreeBackend
