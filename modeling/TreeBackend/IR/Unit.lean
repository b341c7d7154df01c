import TreeBackend.IR.Supply

/-!
# Compilation units

What one class of the source program contributes: functions, static fields with
their initial values, and statements to run at the start.  A `SourceUnit` keeps
the supply its trees were built from, so that lowering can go on handing out ids
and names.  A `CanonicalUnit` is what lowering leaves: each initial value has
become a statement that stores it into its field.
-/

namespace TreeBackend

/-- A function: its label, how many parameters it takes, and its body. -/
structure Function where
  label : String
  params : Nat
  body : Stmt

/-- A static field and its initial value. -/
structure Field where
  name : String
  init : Expr

/-- A unit as its producer hands it over.  Fields are initialised in the order
they are listed in. -/
structure SourceUnit where
  name : String
  functions : List Function
  fields : List Field
  start : List Stmt
  supply : Supply

/-- A unit of canonical trees: `inits` holds one statement for each field. -/
structure CanonicalUnit where
  name : String
  functions : List Function
  fields : List String
  inits : List Stmt
  start : List Stmt

/-- What runs at the start: first the start statements, then the initialisers. -/
def CanonicalUnit.startup (u : CanonicalUnit) : List Stmt := u.start ++ u.inits

/-- The unit with the ids that counters of 32 bits give its nodes.  Lowering hands
ids on and does not look at them, so they may wrap around after it. -/
def CanonicalUnit.wrapped (u : CanonicalUnit) : CanonicalUnit where
  name := u.name
  functions := u.functions.map fun f => { f with body := f.body.mapIds NodeId.wrapped }
  fields := u.fields
  inits := u.inits.map (Stmt.mapIds NodeId.wrapped)
  start := u.start.map (Stmt.mapIds NodeId.wrapped)

end TreeBackend
