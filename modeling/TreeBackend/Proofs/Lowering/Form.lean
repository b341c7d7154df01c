import TreeBackend.Proofs.Canonical
import TreeBackend.Proofs.Tile.Emission

/-!
# The form of lowered trees

What selection relies on besides canonical form.  The result of a call stands in the
accumulator, where the code of most operators works too, so a tree that reads it has
to read it before anything else, and right after the call.

* `Expr.ResultFirst`: nothing is computed before the result of a call is read.
* `Stmt.Lowered`: a statement of the form that lowering leaves.
* `Stmt.LoweredAll`: such statements in order, the result of a call being read by the
  next statement only.
-/

namespace TreeBackend

mutual

/-- Where the temporaries of an expression live. -/
def Expr.places : Expr → List Storage
  | .const .. | .name .. => []
  | .temp _ x g => [Storage.ofTemp x g]
  | .binop _ _ l r => l.places ++ r.places
  | .mem _ a => a.places
  | .eseq _ s e => s.places ++ e.places
  | .call _ target args => target.places ++ Expr.placesAll args

/-- Where the temporaries of a statement live. -/
def Stmt.places : Stmt → List Storage
  | .label .. | .comment .. | .ret _ none => []
  | .cjump _ e _ _ | .exp _ e | .jump _ e | .ret _ (some e) => e.places
  | .move _ target source => target.places ++ source.places
  | .call _ target args => target.places ++ Expr.placesAll args
  | .seq _ body => Stmt.placesAll body

/-- Where the temporaries of expressions live. -/
def Expr.placesAll : List Expr → List Storage
  | [] => []
  | e :: rest => e.places ++ Expr.placesAll rest

/-- Where the temporaries of statements live. -/
def Stmt.placesAll : List Stmt → List Storage
  | [] => []
  | s :: rest => s.places ++ Stmt.placesAll rest

end

/-- Nothing is computed before the result of a call is read. -/
def Expr.ResultFirst : Expr → Prop
  | .binop _ _ l r =>
    l.ResultFirst ∧ r.ResultFirst ∧ (.result ∈ r.places → l.isLeaf ∧ .result ∉ l.places)
  | .mem _ a => a.ResultFirst
  | _ => True

/-- An expression that selection takes over as it is. -/
structure Expr.Lowered (e : Expr) : Prop where
  canonical : e.Canonical
  resultFirst : e.ResultFirst

/-- A register that holds an expression is a temporary, and the expression is its name. -/
theorem Expr.held?_eq_some {e : Expr} {r : Reg} (h : e.held? = some r) :
    ∃ id x g y, e = .temp id x g ∧ Storage.ofTemp x g = .register y ∧ r = .temp y := by
  cases e with
  | temp id x g =>
    rw [held?] at h
    cases hplace : Storage.ofTemp x g with
    | register y =>
      rw [hplace] at h
      exact ⟨id, x, g, y, rfl, hplace, (Option.some.inj h).symm⟩
    | _ =>
      rw [hplace] at h
      cases h
  | _ => cases h

/-- A temporary that is a register. -/
def Expr.IsRegister (e : Expr) : Prop := ∃ x, e.held? = some (.temp x)

theorem Expr.IsRegister.result_notMem {e : Expr} (h : e.IsRegister) : .result ∉ e.places := by
  obtain ⟨x, hx⟩ := h
  obtain ⟨id, y, g, z, rfl, hplace, -⟩ := held?_eq_some hx
  rw [places, hplace]
  simp

theorem Expr.result_notMem_placesAll {args : List Expr} (h : ∀ a ∈ args, a.IsRegister) :
    .result ∉ Expr.placesAll args := by
  induction args with
  | nil => simp [placesAll]
  | cons a rest ih =>
    obtain ⟨ha, hrest⟩ := List.forall_mem_cons.mp h
    rw [placesAll, List.mem_append, not_or]
    exact ⟨ha.result_notMem, ih hrest⟩

namespace Stmt

/-- A statement of the form that lowering leaves. -/
def Lowered : Stmt → Prop
  | .label .. | .comment .. | .ret _ none => True
  | .cjump _ e _ _ | .exp _ e | .jump _ e | .ret _ (some e) => e.Lowered
  | .move _ (.temp _ x g) source => Storage.ofTemp x g ≠ .result ∧ source.Lowered
  | .move _ (.mem _ a) source => a.IsRegister ∧ source.IsRegister
  | .move .. | .seq .. => False
  | .call _ target args =>
    target.Lowered ∧ (∀ a ∈ args, a.IsRegister) ∧
      (target.name? = some Reserved.allocate → args.length = 1)

def isCall : Stmt → Bool
  | .call .. => true
  | _ => false

end Stmt

/-! ### Lowered trees are canonical -/

theorem Expr.IsRegister.isTemp {e : Expr} (h : e.IsRegister) : e.isTemp := by
  obtain ⟨x, hx⟩ := h
  cases e with
  | temp => rfl
  | _ => cases hx

theorem Expr.allocatesSingly_of_canonical : ∀ {e : Expr}, e.Canonical → e.AllocatesSingly
  | .const .., _ | .name .., _ | .temp .., _ => by rw [AllocatesSingly]; trivial
  | .binop .., h => by
    rw [AllocatesSingly]
    exact ⟨allocatesSingly_of_canonical (canonical_binop.mp h).1,
      allocatesSingly_of_canonical (canonical_binop.mp h).2⟩
  | .mem .., h => by
    rw [AllocatesSingly]
    exact allocatesSingly_of_canonical (canonical_mem.mp h)
  | .eseq .., h => absurd h not_canonical_eseq
  | .call .., h => absurd h not_canonical_call

theorem Stmt.Lowered.canonical {s : Stmt} (h : s.Lowered) : s.Canonical := by
  cases s with
  | label | comment => rfl
  | ret id value =>
    cases value with
    | none => rfl
    | some e => exact canonical_ret.mpr (Expr.Lowered.canonical h)
  | cjump => exact canonical_cjump.mpr (Expr.Lowered.canonical h)
  | exp => exact canonical_exp.mpr (Expr.Lowered.canonical h)
  | jump => exact canonical_jump.mpr (Expr.Lowered.canonical h)
  | seq => exact absurd h (by simp [Lowered])
  | call => exact canonical_call.mpr ⟨h.1.canonical, fun a ha => (h.2.1 a ha).isTemp⟩
  | move id target source =>
    cases target with
    | temp => exact canonical_move_temp.mpr h.2.canonical
    | mem => exact canonical_move_mem.mpr ⟨Expr.canonical_of_isTemp h.1.isTemp,
        Expr.canonical_of_isTemp h.2.isTemp⟩
    | _ => exact absurd h (by simp [Lowered])

/-- In a canonical tree, only a call may call the allocation routine wrongly, or a sequence
that has one. -/
theorem Stmt.Canonical.allocatesSingly {s : Stmt} (hc : s.Canonical)
    (hcall : ∀ id target args, s ≠ .call id target args) (hseq : s.isSeq = false) :
    s.AllocatesSingly := by
  cases s with
  | label | comment =>
    rw [AllocatesSingly]
    trivial
  | ret id value =>
    cases value with
    | none =>
      rw [AllocatesSingly]
      trivial
    | some e =>
      rw [AllocatesSingly]
      exact Expr.allocatesSingly_of_canonical (canonical_ret.mp hc)
  | cjump =>
    rw [AllocatesSingly]
    exact Expr.allocatesSingly_of_canonical (canonical_cjump.mp hc)
  | exp =>
    rw [AllocatesSingly]
    exact Expr.allocatesSingly_of_canonical (canonical_exp.mp hc)
  | jump =>
    rw [AllocatesSingly]
    exact Expr.allocatesSingly_of_canonical (canonical_jump.mp hc)
  | seq => cases hseq
  | call id target args => exact absurd rfl (hcall id target args)
  | move id target source =>
    rw [AllocatesSingly]
    rcases hc.target with ⟨cell, x, g, rfl⟩ | ⟨cell, a, rfl⟩
    · rw [Expr.AllocatesSingly]
      exact ⟨trivial, Expr.allocatesSingly_of_canonical (canonical_move_temp.mp hc)⟩
    · rw [Expr.AllocatesSingly]
      obtain ⟨ha, hsource⟩ := canonical_move_mem.mp hc
      exact ⟨Expr.allocatesSingly_of_canonical ha, Expr.allocatesSingly_of_canonical hsource⟩

theorem Stmt.Lowered.allocatesSingly {s : Stmt} (h : s.Lowered) : s.AllocatesSingly := by
  cases s with
  | seq => exact absurd h (by simp [Lowered])
  | call id target args =>
    rw [AllocatesSingly, Expr.callee?_of_canonical h.1.canonical, Expr.allocateSingly_iff]
    exact ⟨h.2.2, Expr.allocatesSingly_of_canonical h.1.canonical, fun a ha =>
      Expr.allocatesSingly_of_canonical (Expr.canonical_of_isTemp (h.2.1 a ha).isTemp)⟩
  | _ => exact h.canonical.allocatesSingly (fun _ _ _ h => by cases h) rfl

end TreeBackend
