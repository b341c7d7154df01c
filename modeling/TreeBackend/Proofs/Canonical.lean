import TreeBackend.IR.Canonical

/-!
# What the check of trees accepts

`Expr.Canonical` and `Stmt.Canonical` say that the check of `IR/Canonical.lean`
accepts a tree, with one lemma for each kind of node that says what this asks of the
node's children.  The check does not count arguments; `Stmt.AllocatesSingly` says
that every call of the allocation routine has one.
-/

namespace TreeBackend

theorem Except.seq_eq_ok {x y : Except CompileError Unit} :
    (do x; y) = .ok () ↔ x = .ok () ∧ y = .ok () := by
  cases x with
  | error e => simp [bind, Except.bind]
  | ok u => simp [bind, Except.bind]

namespace Expr

/-- The check accepts the expression. -/
def Canonical (e : Expr) : Prop := e.checkCanonical = .ok ()

variable {id : NodeId}

theorem canonical_of_isTemp {e : Expr} (h : e.isTemp) : e.Canonical := by
  cases e with
  | temp => rfl
  | _ => cases h

@[simp] theorem canonical_binop {op : BinOp} {l r : Expr} :
    (Expr.binop id op l r).Canonical ↔ l.Canonical ∧ r.Canonical := Except.seq_eq_ok

@[simp] theorem canonical_mem {a : Expr} : (Expr.mem id a).Canonical ↔ a.Canonical := Iff.rfl

theorem not_canonical_eseq {s : Stmt} {e : Expr} : ¬ (Expr.eseq id s e).Canonical :=
  fun h => nomatch h

theorem not_canonical_call {target : Expr} {args : List Expr} :
    ¬ (Expr.call id target args).Canonical := fun h => nomatch h

end Expr

theorem checkArguments_eq_ok {args : List Expr} :
    checkArguments args = .ok () ↔ ∀ a ∈ args, a.isTemp := by
  induction args with
  | nil => simp [checkArguments]
  | cons a rest ih =>
    rw [checkArguments, List.forall_mem_cons, ← ih]
    by_cases ha : a.isTemp
    · rw [if_pos ha]
      exact ⟨fun h => ⟨ha, h⟩, And.right⟩
    · rw [if_neg ha]
      exact ⟨(nomatch ·), fun h => absurd h.1 ha⟩

namespace Stmt

/-- The check accepts the statement. -/
def Canonical (s : Stmt) : Prop := s.checkCanonical = .ok ()

variable {id : NodeId}

@[simp] theorem canonical_move_temp {cell : NodeId} {x : String} {g : Bool} {source : Expr} :
    (Stmt.move id (.temp cell x g) source).Canonical ↔ source.Canonical := Iff.rfl

@[simp] theorem canonical_move_mem {cell : NodeId} {a source : Expr} :
    (Stmt.move id (.mem cell a) source).Canonical ↔ a.Canonical ∧ source.Canonical :=
  Except.seq_eq_ok

/-- A move goes to a temporary or to a memory cell. -/
theorem Canonical.target {target source : Expr} (h : (Stmt.move id target source).Canonical) :
    (∃ cell x g, target = .temp cell x g) ∨ ∃ cell a, target = .mem cell a := by
  cases target with
  | temp cell x g => exact Or.inl ⟨cell, x, g, rfl⟩
  | mem cell a => exact Or.inr ⟨cell, a, rfl⟩
  | _ => cases h

@[simp] theorem canonical_ret {e : Expr} : (Stmt.ret id (some e)).Canonical ↔ e.Canonical :=
  Iff.rfl

@[simp] theorem canonical_exp {e : Expr} : (Stmt.exp id e).Canonical ↔ e.Canonical :=
  Iff.rfl

@[simp] theorem canonical_jump {e : Expr} : (Stmt.jump id e).Canonical ↔ e.Canonical :=
  Iff.rfl

@[simp] theorem canonical_cjump {e : Expr} {t f : String} :
    (Stmt.cjump id e t f).Canonical ↔ e.Canonical := Iff.rfl

@[simp] theorem canonical_call {target : Expr} {args : List Expr} :
    (Stmt.call id target args).Canonical ↔ target.Canonical ∧ ∀ a ∈ args, a.isTemp := by
  rw [← checkArguments_eq_ok]
  exact Except.seq_eq_ok

/-- The check accepts all of the statements. -/
theorem checkAll_eq_ok {body : List Stmt} :
    checkAll body = .ok () ↔ ∀ s ∈ body, s.Canonical := by
  induction body with
  | nil => exact iff_of_true rfl (List.forall_mem_nil _)
  | cons s rest ih =>
    rw [List.forall_mem_cons, ← ih]
    exact Except.seq_eq_ok

@[simp] theorem canonical_seq {body : List Stmt} :
    (Stmt.seq id body).Canonical ↔ ∀ s ∈ body, s.Canonical := checkAll_eq_ok

end Stmt

/-! ### Calls of the allocation routine -/

/-- The label that a target is once the statements in front of it have run. -/
def Expr.callee? : Expr → Option String
  | .name _ l _ => some l
  | .eseq _ _ e => e.callee?
  | _ => none

theorem Expr.callee?_of_canonical {e : Expr} (h : e.Canonical) : e.callee? = e.name? := by
  cases e with
  | eseq => exact absurd h not_canonical_eseq
  | _ => rfl

mutual

/-- Every call of the allocation routine in the expression has one argument. -/
def Expr.AllocatesSingly : Expr → Prop
  | .const .. | .name .. | .temp .. => True
  | .binop _ _ l r => l.AllocatesSingly ∧ r.AllocatesSingly
  | .mem _ a => a.AllocatesSingly
  | .eseq _ s e => s.AllocatesSingly ∧ e.AllocatesSingly
  | .call _ target args =>
    (target.callee? = some Reserved.allocate → args.length = 1) ∧ target.AllocatesSingly ∧
      Expr.AllocateSingly args

/-- Every call of the allocation routine in the statement has one argument. -/
def Stmt.AllocatesSingly : Stmt → Prop
  | .label .. | .comment .. | .ret _ none => True
  | .cjump _ e _ _ | .exp _ e | .jump _ e | .ret _ (some e) => e.AllocatesSingly
  | .move _ target source => target.AllocatesSingly ∧ source.AllocatesSingly
  | .call _ target args =>
    (target.callee? = some Reserved.allocate → args.length = 1) ∧ target.AllocatesSingly ∧
      Expr.AllocateSingly args
  | .seq _ body => Stmt.AllocateSingly body

/-- So it is in all of the expressions. -/
def Expr.AllocateSingly : List Expr → Prop
  | [] => True
  | e :: rest => e.AllocatesSingly ∧ Expr.AllocateSingly rest

/-- So it is in all of the statements. -/
def Stmt.AllocateSingly : List Stmt → Prop
  | [] => True
  | s :: rest => s.AllocatesSingly ∧ Stmt.AllocateSingly rest

end

theorem Stmt.allocateSingly_iff {body : List Stmt} :
    Stmt.AllocateSingly body ↔ ∀ s ∈ body, s.AllocatesSingly := by
  induction body with
  | nil => simp [Stmt.AllocateSingly]
  | cons s rest ih => rw [Stmt.AllocateSingly, List.forall_mem_cons, ih]

theorem Expr.allocateSingly_iff {args : List Expr} :
    Expr.AllocateSingly args ↔ ∀ e ∈ args, e.AllocatesSingly := by
  induction args with
  | nil => simp [Expr.AllocateSingly]
  | cons e rest ih => rw [Expr.AllocateSingly, List.forall_mem_cons, ih]

end TreeBackend
