/-!
# Options

What a user can choose about a compilation.
-/

namespace TreeBackend

/-- How virtual registers are given homes: a slot for each, or by one scan. -/
inductive AllocatorKind where
  | basic
  | linearScan
deriving DecidableEq, Repr

/-- The choices of a user. -/
structure Options where
  allocator : AllocatorKind := .linearScan
  /-- Whether comments are written. -/
  comments : Bool := true
  /-- Whether lowered trees are checked to be canonical. -/
  verify : Bool := true
  /-- Whether allocated code is tidied up. -/
  peephole : Bool := true
  /-- The function that the startup code calls: the first one, unless named. -/
  entry : Option String := none
deriving DecidableEq, Repr

end TreeBackend
