import TreeBackend.IR.Tree

/-!
# Supplies of ids and names

A unit hands out the identities of its nodes and the names of the temporaries
and labels it makes up from one `Supply`: three counters and a scope.  A made-up
temporary is named `scope.tN` and a made-up label `scope.LN`, so that supplies
of different units do not share names.

Each `take` returns what it hands out together with the supply that is left.
The counters go on without end, so that nothing is ever handed out again.  They
stand for counters of 32 bits, which begin again with zero when they have counted
to `Supply.limit`: the two agree as long as the supply `Fits`, and `NodeId.wrapped`
is what a 32-bit counter hands out in the place of an id.
-/

namespace TreeBackend

/-- What a unit has left to hand out. -/
structure Supply where
  scope : String
  nextNode : Nat := 0
  nextTemp : Nat := 0
  nextLabel : Nat := 0
deriving DecidableEq, Repr

namespace Supply

/-- How many numbers a counter of 32 bits tells apart. -/
def limit : Nat := 4294967296

/-- No counter has passed what 32 bits hold. -/
structure Fits (s : Supply) : Prop where
  node : s.nextNode < limit
  temp : s.nextTemp < limit
  label : s.nextLabel < limit

instance (s : Supply) : Decidable s.Fits :=
  decidable_of_iff (s.nextNode < limit ∧ s.nextTemp < limit ∧ s.nextLabel < limit)
    ⟨fun ⟨hn, ht, hl⟩ => ⟨hn, ht, hl⟩, fun ⟨hn, ht, hl⟩ => ⟨hn, ht, hl⟩⟩

/-- The name of the `n`th temporary made up in a scope. -/
def tempName (scope : String) (n : Nat) : String := scope ++ ".t" ++ toString n

/-- The name of the `n`th label made up in a scope. -/
def labelName (scope : String) (n : Nat) : String := scope ++ ".L" ++ toString n

def takeId (s : Supply) : NodeId × Supply := (⟨s.nextNode⟩, { s with nextNode := s.nextNode + 1 })

def takeTemp (s : Supply) : String × Supply :=
  (tempName s.scope s.nextTemp, { s with nextTemp := s.nextTemp + 1 })

def takeLabel (s : Supply) : String × Supply :=
  (labelName s.scope s.nextLabel, { s with nextLabel := s.nextLabel + 1 })

/-- Makes a node, under the next id. -/
def make {α : Type} (s : Supply) (node : NodeId → α) : α × Supply :=
  (node s.takeId.1, s.takeId.2)

end Supply

/-- The id that a counter of 32 bits hands out in the place of an id. -/
def NodeId.wrapped (id : NodeId) : NodeId := ⟨id.val % Supply.limit⟩

end TreeBackend
