import TreeBackend.Proofs.Semantics.World

/-!
# The meaning of trees

Evaluation goes strictly from left to right.  An operator takes its left operand
before its right one, a call its arguments from first to last and then its
target, and a store into memory its address before its value.  A statement inside
an expression runs before the expression around it goes on.

A run starts from a `Store` and goes on until it is done or leaves by an `Exit`:
a division by zero, a return, or a jump out of the tree.  What others can see of
it is the list of `Event`s in `Store.trace`.  A callee is a function of that list
and of the world, and may change the world as it likes (`Host.call`).
-/

namespace TreeBackend

/-- What others see of a run. -/
inductive Event where
  | call (callee : Target) (args : List Word)
  | store (cell : Cell) (value : Word)
deriving DecidableEq

/-- What a tree cannot see from within: the addresses of labels, what a callee
does after what has happened so far, and whether quotients wrap. -/
structure Host where
  address : String → Word
  call : List Event → World → Reply
  wraps : Bool

/-- How a run leaves a tree before its end. -/
inductive Exit where
  /-- A division by zero. -/
  | trap
  /-- A quotient that is no word. -/
  | overflow
  | returned (value : Option Word)
  | jumped (target : Target)
  /-- A move to what is neither a temporary nor a memory cell. -/
  | invalid
deriving DecidableEq

/-- What a run reads and writes.  Arguments are found by their offsets from the
frame pointer. -/
@[ext]
structure Store where
  registers : String → Word
  result : Word
  arguments : Word → Word
  world : World
  trace : List Event

namespace Store

/-- The value of a temporary. -/
def read (s : Store) : Storage → Word
  | .result => s.result
  | .argument n => s.arguments (Frame.argumentOffset n)
  | .field x => s.world.data x 0
  | .register x => s.registers x

def note (s : Store) (e : Event) : Store := { s with trace := s.trace ++ [e] }

/-- Notes a store that others can see. -/
def noteStore (s : Store) (c : Cell) (w : Word) : Store :=
  { s with trace := s.trace ++ if c.isVisible then [.store c w] else [] }

/-- Gives a temporary a value. -/
def write (s : Store) (w : Word) : Storage → Store
  | .result => { s with result := w }
  | .argument n =>
    { s with arguments := assign s.arguments (Frame.argumentOffset n) w }.noteStore
      (.frame (Frame.argumentOffset n)) w
  | .field x => { s with world := s.world.setData x 0 w }.noteStore (.data x 0) w
  | .register x => { s with registers := assign s.registers x w }

/-- Stores a word into memory. -/
def poke (s : Store) (address w : Word) : Store :=
  { s with world := s.world.setHeap address w }.noteStore (.heap address) w

/-- Calls a function: its result goes to the temporary of results. -/
def call (s : Store) (host : Host) (callee : Target) (args : List Word) : Store :=
  let s := s.note (.call callee args)
  let reply := host.call s.trace s.world
  { s with result := reply.result, world := reply.world }

end Store

/-- A run that ends with a value or leaves the tree. -/
abbrev Eval := EStateM Exit Store

/-- The value of an operator. -/
def BinOp.eval (wraps : Bool) (a b : Word) : BinOp → Eval Word
  | .add => pure (a + b)
  | .sub => pure (a - b)
  | .mul => pure (a * b)
  | .and => pure (a &&& b)
  | .or => pure (a ||| b)
  | .div => quotient Prod.fst
  | .mod => quotient Prod.snd
  | .eq => pure (Word.ofBool (a = b))
  | .neq => pure (Word.ofBool (a ≠ b))
  | .lt => pure (Word.ofBool (a < b))
  | .gt => pure (Word.ofBool (b < a))
  | .leq => pure (Word.ofBool (a ≤ b))
  | .geq => pure (Word.ofBool (b ≤ a))
where
  /-- One of the two results of a division. -/
  quotient (part : Word × Word → Word) : Eval Word :=
    if b = 0 then throw .trap
    else match Word.divide wraps a.toInt b with
      | some results => pure (part results)
      | none => throw .overflow

/-- The word that a target is. -/
def Target.word (host : Host) : Target → Word
  | .label l => host.address l
  | .address w => w

mutual

/-- What an expression yields: the label whose address it is, or a word. -/
def Expr.eval (host : Host) : Expr → Eval Target
  | .const _ v => pure (.address v)
  | .name _ l _ => pure (.label l)
  | .temp _ x g => do pure (.address ((← get).read (Storage.ofTemp x g)))
  | .binop _ op l r => do
    let a ← l.eval host
    let b ← r.eval host
    .address <$> op.eval host.wraps (a.word host) (b.word host)
  | .mem _ a => do
    let address ← a.eval host
    pure (.address ((← get).world.heap (address.word host)))
  | .eseq _ s e => do
    s.exec host
    e.eval host
  | .call _ target args => do
    let values ← Expr.evalAll host args
    let callee ← target.eval host
    modify (·.call host callee values)
    pure (.address (← get).result)

/-- The values of expressions, from the first to the last. -/
def Expr.evalAll (host : Host) : List Expr → Eval (List Word)
  | [] => pure []
  | e :: rest => do
    let v ← e.eval host
    let vs ← Expr.evalAll host rest
    pure (v.word host :: vs)

/-- Runs a statement. -/
def Stmt.exec (host : Host) : Stmt → Eval Unit
  | .label .. | .comment .. => pure ()
  | .exp _ e => do
    let _ ← e.eval host
  | .move _ (.temp _ x g) source => do
    let v ← source.eval host
    modify (·.write (v.word host) (Storage.ofTemp x g))
  | .move _ (.mem _ a) source => do
    let address ← a.eval host
    let v ← source.eval host
    modify (·.poke (address.word host) (v.word host))
  | .move .. => throw .invalid
  | .call _ target args => do
    let values ← Expr.evalAll host args
    let callee ← target.eval host
    modify (·.call host callee values)
  | .ret _ none => throw (.returned none)
  | .ret _ (some e) => do
    let v ← e.eval host
    throw (.returned (some (v.word host)))
  | .jump _ target => do
    let there ← target.eval host
    throw (.jumped there)
  | .cjump _ cond onTrue _ => do
    let c ← cond.eval host
    if c.word host ≠ 0 then throw (.jumped (.label onTrue))
  | .seq _ body => Stmt.execAll host body

/-- Runs statements one after the other. -/
def Stmt.execAll (host : Host) : List Stmt → Eval Unit
  | [] => pure ()
  | s :: rest => do
    s.exec host
    Stmt.execAll host rest

end

end TreeBackend
