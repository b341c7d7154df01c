import TreeBackend.Proofs.Lowering.Closure
import TreeBackend.Proofs.Lowering.Shape

/-!
# The effects of a tree

`Stmt.effects` lists what a tree does besides computing values, in the order of evaluation
and with its jumps: an effect stands in the list once, wherever control may go.  Calls,
stores, and all statements that steer control are effects; a move to a temporary that is no
field is none.

* `Expr.effects_of_canonical`: a canonical expression has no effect.
* `Stmt.lower_effects`, `Stmt.canonical_effects`: **lowering keeps the effects of a tree.**
-/

namespace TreeBackend

/-- Something that a program does besides computing values.  Jumps and calls say which label
they go to, if they go to one. -/
inductive Effect where
  | label (name : String)
  | comment (text : String)
  | jump (target : Option String)
  | branch (target : String)
  | ret
  | call (target : Option String)
  /-- A store into a static field. -/
  | field (name : String)
  /-- A store to an address. -/
  | store
deriving DecidableEq

mutual

/-- The effects of an expression, from left to right.  A call evaluates its arguments before
its target. -/
def Expr.effects : Expr → List Effect
  | .const .. | .name .. | .temp .. => []
  | .binop _ _ l r => l.effects ++ r.effects
  | .mem _ a => a.effects
  | .eseq _ s e => s.effects ++ e.effects
  | .call _ target args => Expr.effectsAll args ++ target.effects ++ [.call target.callee?]

/-- The effects of a statement: those of its operands, and then its own. -/
def Stmt.effects : Stmt → List Effect
  | .label _ l => [.label l]
  | .comment _ text => [.comment text]
  | .jump _ target => target.effects ++ [.jump target.callee?]
  | .cjump _ c t _ => c.effects ++ [.branch t]
  | .ret _ none => [.ret]
  | .ret _ (some e) => e.effects ++ [.ret]
  | .exp _ e => e.effects
  | .call _ target args => Expr.effectsAll args ++ target.effects ++ [.call target.callee?]
  | .move _ (.temp _ x g) source => source.effects ++ if g then [.field x] else []
  | .move _ (.mem _ a) source => a.effects ++ source.effects ++ [.store]
  | .move _ target source => target.effects ++ source.effects
  | .seq _ body => Stmt.effectsAll body

/-- The effects of expressions, one after the other. -/
def Expr.effectsAll : List Expr → List Effect
  | [] => []
  | e :: rest => e.effects ++ Expr.effectsAll rest

/-- The effects of statements, one after the other. -/
def Stmt.effectsAll : List Stmt → List Effect
  | [] => []
  | s :: rest => s.effects ++ Stmt.effectsAll rest

end

@[simp] theorem Stmt.effectsAll_nil : Stmt.effectsAll [] = [] := by rw [Stmt.effectsAll]

@[simp] theorem Stmt.effectsAll_cons (s : Stmt) (rest : List Stmt) :
    Stmt.effectsAll (s :: rest) = s.effects ++ Stmt.effectsAll rest := by rw [Stmt.effectsAll]

@[simp] theorem Stmt.effectsAll_append (a b : List Stmt) :
    Stmt.effectsAll (a ++ b) = Stmt.effectsAll a ++ Stmt.effectsAll b := by
  induction a with
  | nil => rfl
  | cons s rest ih => rw [List.cons_append, effectsAll_cons, effectsAll_cons, ih, List.append_assoc]

theorem Stmt.effectsAll_eq_flatMap (body : List Stmt) :
    Stmt.effectsAll body = body.flatMap Stmt.effects := by
  induction body with
  | nil => rfl
  | cons s rest ih => rw [effectsAll_cons, List.flatMap_cons, ih]

/-! ## Canonical expressions -/

theorem Expr.effects_of_canonical : ∀ {e : Expr}, e.Canonical → e.effects = []
  | .const .., _ | .name .., _ | .temp .., _ => by rw [effects]
  | .binop .., h => by
    rw [effects, effects_of_canonical (canonical_binop.mp h).1,
      effects_of_canonical (canonical_binop.mp h).2, List.append_nil]
  | .mem .., h => by rw [effects, effects_of_canonical (canonical_mem.mp h)]
  | .eseq .., h => absurd h not_canonical_eseq
  | .call .., h => absurd h not_canonical_call

theorem Expr.effectsAll_of_canonical {args : List Expr} (h : ∀ a ∈ args, a.Canonical) :
    Expr.effectsAll args = [] := by
  induction args with
  | nil => rw [effectsAll]
  | cons a rest ih =>
      obtain ⟨ha, hrest⟩ := List.forall_mem_cons.mp h
      rw [effectsAll, effects_of_canonical ha, ih hrest, List.append_nil]

/-! ## Lowering -/

/-- Parking a value is no effect. -/
theorem Supply.effects_fill (σ : Supply) {value : Expr} (h : value.Canonical) :
    (σ.fill value).effects = [] := by
  rw [fill, Stmt.effects, Expr.effects_of_canonical h]
  rfl

section
variable {σ σ' : Supply}

/-- What is left of an expression has no effect. -/
theorem Expr.lower_quiet {e e' : Expr} {before : List Stmt}
    (h : e.lower σ = .ok (before, e') σ') : e'.effects = [] :=
  effects_of_canonical (Expr.lower_single e h).2

/-- Where a call or a jump goes is kept. -/
theorem Expr.lower_callee {e e' : Expr} {before : List Stmt}
    (h : e.lower σ = .ok (before, e') σ') : e'.callee? = e.callee? := by
  rw [callee?_of_canonical (Expr.lower_single e h).2, Expr.lower_name e h]

theorem Expr.lowerArguments_quiet {args temps : List Expr} {before : List Stmt}
    (h : Expr.lowerArguments args σ = .ok (before, temps) σ') : Expr.effectsAll temps = [] :=
  effectsAll_of_canonical fun a ha =>
    canonical_of_isTemp ((Expr.lowerArguments_single args h).2 a ha).isTemp

end

mutual

/-- **Lowering an expression keeps its effects**: they are those of the statements that run
first. -/
theorem Expr.lower_effects : ∀ (e : Expr) {σ σ' : Supply} {before : List Stmt} {e' : Expr},
    e.lower σ = .ok (before, e') σ' → Stmt.effectsAll before = e.effects
  | .const .., σ, σ', before, e', h | .name .., σ, σ', before, e', h
  | .temp .., σ, σ', before, e', h => by
    obtain ⟨rfl, -, -⟩ := Expr.lower_leaf rfl h
    rw [Stmt.effectsAll, Expr.effects]
  | .binop id op l r, σ, σ', before, e', h => by
    obtain ⟨first, l', σ₁, second, r', σ₂, hl, hr, hcase⟩ := Expr.lower_binop h
    have hleft := Expr.lower_effects l hl
    have hright := Expr.lower_effects r hr
    rw [Expr.effects, ← hleft, ← hright]
    rcases hcase with ⟨rfl, rfl, -, -⟩ | ⟨-, rfl, -, -⟩
    · rw [Stmt.effectsAll_nil, List.append_nil]
    · rw [Stmt.effectsAll_append, Stmt.effectsAll_cons,
        σ₂.effects_fill (Expr.lower_single l hl).2, List.nil_append]
  | .mem id a, σ, σ', before, e', h => by
    obtain ⟨a', ha, -⟩ := Expr.lower_mem h
    rw [Expr.effects]
    exact Expr.lower_effects a ha
  | .eseq id s e, σ, σ', before, e', h => by
    obtain ⟨first, σ₁, second, hs, he, rfl⟩ := Expr.lower_eseq h
    rw [Expr.effects, Stmt.effectsAll_append, Stmt.lower_effects s hs, Expr.lower_effects e he]
  | .call id target args, σ, σ', before, e', h => by
    obtain ⟨first, temps, σ₁, second, target', σ₂, ha, ht, rfl, -, -⟩ := Expr.lower_call h
    rw [Expr.effects, Stmt.effectsAll_append, Stmt.effectsAll_append, Stmt.effectsAll_cons,
      Stmt.effectsAll_nil, Stmt.effects, Expr.lowerArguments_quiet ha, Expr.lower_quiet ht,
      Expr.lower_callee ht, Expr.lowerArguments_effects args ha, Expr.lower_effects target ht]
    rfl
termination_by structural e => e

/-- Lowering arguments keeps their effects. -/
theorem Expr.lowerArguments_effects : ∀ (args : List Expr) {σ σ' : Supply} {before : List Stmt}
    {temps : List Expr}, Expr.lowerArguments args σ = .ok (before, temps) σ' →
    Stmt.effectsAll before = Expr.effectsAll args
  | [], σ, σ', before, temps, h => by
    obtain ⟨rfl, -, -⟩ := Expr.lowerArguments_nil h
    rw [Stmt.effectsAll, Expr.effectsAll]
  | a :: rest, σ, σ', before, temps, h => by
    obtain ⟨first, a', σ₁, second, temps', ha, hr, rfl, -⟩ := Expr.lowerArguments_cons h
    rw [Expr.effectsAll, Stmt.effectsAll_append, Stmt.effectsAll_cons,
      σ₁.effects_fill (Expr.lower_single a ha).2, Expr.lower_effects a ha,
      Expr.lowerArguments_effects rest hr, List.nil_append]
termination_by structural args => args

/-- **Lowering a statement keeps its effects.** -/
theorem Stmt.lower_effects : ∀ (s : Stmt) {σ σ' : Supply} {body : List Stmt},
    s.lower σ = .ok body σ' → Stmt.effectsAll body = s.effects
  | .label .., σ, σ', body, h | .comment .., σ, σ', body, h | .ret _ none, σ, σ', body, h => by
    simp only [Stmt.lower] at h
    cases h
    rw [Stmt.effectsAll_cons, Stmt.effectsAll_nil, List.append_nil]
  | .cjump id c t f, σ, σ', body, h => by
    obtain ⟨before, c', hc, rfl⟩ := Stmt.lower_cjump h
    rw [Stmt.effectsAll_append, Stmt.effectsAll_cons, Stmt.effectsAll_nil, Stmt.effects,
      Stmt.effects, Expr.lower_quiet hc, Expr.lower_effects c hc]
    rfl
  | .exp id e, σ, σ', body, h => by
    obtain ⟨before, e', he, hcase⟩ := Stmt.lower_exp h
    rw [Stmt.effects, ← Expr.lower_effects e he]
    rcases hcase with ⟨-, rfl⟩ | ⟨-, rfl⟩
    · rfl
    · rw [Stmt.effectsAll_append, Stmt.effectsAll_cons, Stmt.effectsAll_nil, Stmt.effects,
        Expr.lower_quiet he, List.append_nil, List.append_nil]
  | .jump id target, σ, σ', body, h => by
    obtain ⟨before, target', ht, rfl⟩ := Stmt.lower_jump h
    rw [Stmt.effectsAll_append, Stmt.effectsAll_cons, Stmt.effectsAll_nil, Stmt.effects,
      Stmt.effects, Expr.lower_quiet ht, Expr.lower_callee ht, Expr.lower_effects target ht]
    rfl
  | .ret id (some e), σ, σ', body, h => by
    obtain ⟨before, e', he, rfl⟩ := Stmt.lower_ret h
    rw [Stmt.effectsAll_append, Stmt.effectsAll_cons, Stmt.effectsAll_nil, Stmt.effects,
      Stmt.effects, Expr.lower_quiet he, Expr.lower_effects e he]
    rfl
  | .seq id children, σ, σ', body, h => by
    rw [Stmt.effects]
    exact Stmt.lowerAll_effects children (Stmt.lower_seq h)
  | .call id target args, σ, σ', body, h => by
    obtain ⟨first, temps, σ₁, second, target', ha, ht, rfl⟩ := Stmt.lower_call h
    rw [Stmt.effectsAll_append, Stmt.effectsAll_append, Stmt.effectsAll_cons,
      Stmt.effectsAll_nil, Stmt.effects, Stmt.effects, Expr.lowerArguments_quiet ha,
      Expr.lower_quiet ht, Expr.lower_callee ht, Expr.lowerArguments_effects args ha,
      Expr.lower_effects target ht]
    rfl
  | .move id (.temp cell x g) source, σ, σ', body, h => by
    obtain ⟨before, source', hs, rfl⟩ := Stmt.lower_move_temp h
    rw [Stmt.effectsAll_append, Stmt.effectsAll_cons, Stmt.effectsAll_nil, Stmt.effects,
      Stmt.effects, Expr.lower_quiet hs, Expr.lower_effects source hs, List.nil_append,
      List.append_nil]
  | .move id (.mem cell a) source, σ, σ', body, h => by
    obtain ⟨first, a', σ₁, second, source', σ₂, ha, hs, rfl, -⟩ := Stmt.lower_move_mem h
    have hstore : (Stmt.move id (.mem cell (σ₂.parked.reader σ₁.temp))
        (σ₂.parked.numbered.reader σ₂.temp)).effects = [.store] := by
      rw [Stmt.effects, Supply.reader, Supply.reader, Expr.effects, Expr.effects]
      rfl
    rw [Stmt.effects, ← Expr.lower_effects a ha, ← Expr.lower_effects source hs]
    simp only [Stmt.effectsAll_append, Stmt.effectsAll_cons, Stmt.effectsAll_nil,
      σ₁.effects_fill (Expr.lower_single a ha).2, σ₂.effects_fill (Expr.lower_single source hs).2,
      hstore, List.nil_append, List.append_nil]
  | .move id (.const ..) _, σ, σ', body, h | .move id (.name ..) _, σ, σ', body, h
  | .move id (.binop ..) _, σ, σ', body, h | .move id (.eseq ..) _, σ, σ', body, h
  | .move id (.call ..) _, σ, σ', body, h => by
    simp only [Stmt.lower] at h
    cases h
termination_by structural s => s

/-- Lowering statements keeps their effects. -/
theorem Stmt.lowerAll_effects : ∀ (children : List Stmt) {σ σ' : Supply} {body : List Stmt},
    Stmt.lowerAll children σ = .ok body σ' → Stmt.effectsAll body = Stmt.effectsAll children
  | [], σ, σ', body, h => by
    obtain ⟨rfl, -⟩ := Stmt.lowerAll_nil h
    rfl
  | s :: rest, σ, σ', body, h => by
    obtain ⟨first, σ₁, more, hs, hr, rfl⟩ := Stmt.lowerAll_cons h
    rw [Stmt.effectsAll_append, Stmt.effectsAll_cons, Stmt.lower_effects s hs,
      Stmt.lowerAll_effects rest hr]
termination_by structural children => children

end

end TreeBackend
