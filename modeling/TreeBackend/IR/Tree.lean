/-!
# Trees

The intermediate language: expressions that yield one 32-bit word, and
statements run for their effect.  Statements nest inside expressions through
`Expr.eseq`, and calls may stand anywhere in an expression; the canonical trees
of `IR/Canonical.lean` are the ones where neither happens.

Every node carries a `NodeId`.  Two nodes may look alike and still be different
nodes, and it is the id that tells them apart: selection remembers its work by
id, and lowering keeps the id of each node whose shape it keeps.
-/

namespace TreeBackend

/-- The identity of a node within its compilation unit. -/
structure NodeId where
  val : Nat
deriving DecidableEq, Repr

/-- The operators of the language.  The last six compare, and yield `1` or `0`. -/
inductive BinOp where
  | add | sub | mul | div | mod | and | or
  | eq | neq | lt | gt | leq | geq
deriving DecidableEq, Repr

namespace BinOp

def isComparison : BinOp → Bool
  | .eq | .neq | .lt | .gt | .leq | .geq => true
  | .add | .sub | .mul | .div | .mod | .and | .or => false

end BinOp

mutual

/-- An expression.  `name` is the address of a label, `temp` a named variable: a
static field when `isGlobal`, else an argument, the result of the last call or
a local register, as `Storage.ofTemp` says. -/
inductive Expr where
  | binop (id : NodeId) (op : BinOp) (left right : Expr)
  | call (id : NodeId) (target : Expr) (args : List Expr)
  | const (id : NodeId) (value : Int32)
  | eseq (id : NodeId) (first : Stmt) (value : Expr)
  | mem (id : NodeId) (address : Expr)
  | name (id : NodeId) (label : String) (isGlobal : Bool)
  | temp (id : NodeId) (name : String) (isGlobal : Bool)

/-- A statement.  `cjump` goes to `onTrue` when its condition is not zero and
falls through otherwise: whoever builds the tree puts `onFalse` next. -/
inductive Stmt where
  | call (id : NodeId) (target : Expr) (args : List Expr)
  | cjump (id : NodeId) (cond : Expr) (onTrue onFalse : String)
  | comment (id : NodeId) (text : String)
  | exp (id : NodeId) (value : Expr)
  | jump (id : NodeId) (target : Expr)
  | label (id : NodeId) (name : String)
  | move (id : NodeId) (target source : Expr)
  | ret (id : NodeId) (value : Option Expr)
  | seq (id : NodeId) (body : List Stmt)

end

namespace Expr

def id : Expr → NodeId
  | .binop id .. | .call id .. | .const id _ | .eseq id .. => id
  | .mem id _ | .name id .. | .temp id .. => id

/-- The same node under another identity. -/
def withId (id : NodeId) : Expr → Expr
  | .binop _ op l r => .binop id op l r
  | .call _ t args => .call id t args
  | .const _ v => .const id v
  | .eseq _ s e => .eseq id s e
  | .mem _ a => .mem id a
  | .name _ l g => .name id l g
  | .temp _ x g => .temp id x g

/-- A leaf computes nothing and has no effect. -/
def isLeaf : Expr → Bool
  | .const .. | .name .. | .temp .. => true
  | .binop .. | .call .. | .eseq .. | .mem .. => false

/-- The name of a temporary and whether it is a static field. -/
def temp? : Expr → Option (String × Bool)
  | .temp _ x g => some (x, g)
  | _ => none

/-- The label whose address the expression is. -/
def name? : Expr → Option String
  | .name _ l _ => some l
  | _ => none

def isTemp (e : Expr) : Bool := e.temp?.isSome

end Expr

namespace Stmt

def id : Stmt → NodeId
  | .call id .. | .cjump id .. | .comment id _ | .exp id _ | .jump id _ | .label id _ | .move id ..
  | .ret id _ | .seq id _ => id

/-- The same node under another identity. -/
def withId (id : NodeId) : Stmt → Stmt
  | .call _ t args => .call id t args
  | .cjump _ c t f => .cjump id c t f
  | .comment _ text => .comment id text
  | .exp _ e => .exp id e
  | .jump _ t => .jump id t
  | .label _ l => .label id l
  | .move _ t s => .move id t s
  | .ret _ e => .ret id e
  | .seq _ body => .seq id body

def isSeq : Stmt → Bool
  | .seq .. => true
  | _ => false

end Stmt

/-! ### The nodes of a tree, in preorder -/

mutual

/-- The ids of an expression: the node itself, then its children from left to right. -/
def Expr.ids : Expr → List NodeId
  | .binop id _ l r => id :: (l.ids ++ r.ids)
  | .call id t args => id :: (t.ids ++ Expr.idsAll args)
  | .const id _ | .name id .. | .temp id .. => [id]
  | .eseq id s e => id :: (s.ids ++ e.ids)
  | .mem id a => id :: a.ids

/-- The ids of a statement: the node itself, then its children from left to right. -/
def Stmt.ids : Stmt → List NodeId
  | .call id t args => id :: (t.ids ++ Expr.idsAll args)
  | .cjump id c _ _ => id :: c.ids
  | .comment id _ | .label id _ | .ret id none => [id]
  | .exp id e | .jump id e | .ret id (some e) => id :: e.ids
  | .move id t s => id :: (t.ids ++ s.ids)
  | .seq id body => id :: Stmt.idsAll body

/-- The ids of a list of expressions, one tree after the other. -/
def Expr.idsAll : List Expr → List NodeId
  | [] => []
  | e :: rest => e.ids ++ Expr.idsAll rest

/-- The ids of a list of statements, one tree after the other. -/
def Stmt.idsAll : List Stmt → List NodeId
  | [] => []
  | s :: rest => s.ids ++ Stmt.idsAll rest

end

/-! ### Trees under other ids -/

mutual

/-- The same expression with other ids. -/
def Expr.mapIds (f : NodeId → NodeId) : Expr → Expr
  | .binop id op l r => .binop (f id) op (l.mapIds f) (r.mapIds f)
  | .call id t args => .call (f id) (t.mapIds f) (Expr.mapIdsAll f args)
  | .const id v => .const (f id) v
  | .eseq id s e => .eseq (f id) (s.mapIds f) (e.mapIds f)
  | .mem id a => .mem (f id) (a.mapIds f)
  | .name id l g => .name (f id) l g
  | .temp id x g => .temp (f id) x g

/-- The same statement with other ids. -/
def Stmt.mapIds (f : NodeId → NodeId) : Stmt → Stmt
  | .call id t args => .call (f id) (t.mapIds f) (Expr.mapIdsAll f args)
  | .cjump id c l l' => .cjump (f id) (c.mapIds f) l l'
  | .comment id text => .comment (f id) text
  | .exp id e => .exp (f id) (e.mapIds f)
  | .jump id t => .jump (f id) (t.mapIds f)
  | .label id l => .label (f id) l
  | .move id t s => .move (f id) (t.mapIds f) (s.mapIds f)
  | .ret id none => .ret (f id) none
  | .ret id (some e) => .ret (f id) (some (e.mapIds f))
  | .seq id body => .seq (f id) (Stmt.mapIdsAll f body)

/-- The same expressions with other ids. -/
def Expr.mapIdsAll (f : NodeId → NodeId) : List Expr → List Expr
  | [] => []
  | e :: rest => e.mapIds f :: Expr.mapIdsAll f rest

/-- The same statements with other ids. -/
def Stmt.mapIdsAll (f : NodeId → NodeId) : List Stmt → List Stmt
  | [] => []
  | s :: rest => s.mapIds f :: Stmt.mapIdsAll f rest

end

@[simp] theorem Expr.id_withId (n : NodeId) (e : Expr) : (e.withId n).id = n := by cases e <;> rfl

@[simp] theorem Stmt.id_withId (n : NodeId) (s : Stmt) : (s.withId n).id = n := by cases s <;> rfl

end TreeBackend
