import TreeBackend.IR.Tree

/-!
# The nodes of a tree

All nodes of a tree as one list, in the order in which lowering comes to them: a node before its
children, the operands of an operator from left to right, the arguments of a call before its target,
and the target of a move before its source.

* `Expr.nodes`, `Stmt.nodes`: the nodes of an expression and of a statement.
* `Stmt.nodes_eq_cons`: the first of them is the root.
-/

namespace TreeBackend

/-- A node of a tree. -/
inductive Node where
  | expr (e : Expr)
  | stmt (s : Stmt)

mutual

/-- The nodes of an expression. -/
def Expr.nodes : Expr → List Node
  | e@(.const ..) | e@(.name ..) | e@(.temp ..) => [.expr e]
  | e@(.binop _ _ l r) => .expr e :: (l.nodes ++ r.nodes)
  | e@(.mem _ a) => .expr e :: a.nodes
  | e@(.call _ target args) => .expr e :: (Expr.nodesAll args ++ target.nodes)
  | e@(.eseq _ s value) => .expr e :: (s.nodes ++ value.nodes)

/-- The nodes of a statement. -/
def Stmt.nodes : Stmt → List Node
  | s@(.label ..) | s@(.comment ..) | s@(.ret _ none) => [.stmt s]
  | s@(.cjump _ e _ _) | s@(.exp _ e) | s@(.jump _ e) | s@(.ret _ (some e)) => .stmt s :: e.nodes
  | s@(.move _ target source) => .stmt s :: (target.nodes ++ source.nodes)
  | s@(.call _ target args) => .stmt s :: (Expr.nodesAll args ++ target.nodes)
  | s@(.seq _ body) => .stmt s :: Stmt.nodesAll body

/-- The nodes of a list of expressions, one tree after the other. -/
def Expr.nodesAll : List Expr → List Node
  | [] => []
  | e :: rest => e.nodes ++ Expr.nodesAll rest

/-- The nodes of a list of statements, one tree after the other. -/
def Stmt.nodesAll : List Stmt → List Node
  | [] => []
  | s :: rest => s.nodes ++ Stmt.nodesAll rest

end

/-- The root of a statement comes first. -/
theorem Stmt.nodes_eq_cons (s : Stmt) : s.nodes = .stmt s :: s.nodes.tail := by
  cases s with
  | ret id value => cases value <;> simp [Stmt.nodes]
  | _ => simp [Stmt.nodes]

theorem Stmt.mem_nodesAll {n : Node} {body : List Stmt} :
    n ∈ Stmt.nodesAll body ↔ ∃ s ∈ body, n ∈ s.nodes := by
  induction body with
  | nil => simp [Stmt.nodesAll]
  | cons s rest ih => simp [Stmt.nodesAll, ih]

end TreeBackend
