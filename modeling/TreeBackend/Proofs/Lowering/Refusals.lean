import TreeBackend.IR.Lowering
import TreeBackend.Proofs.Nodes
import TreeBackend.Proofs.Runs

/-!
# What lowering refuses

Lowering refuses a tree for one reason only: a move in it, at any depth, goes neither to a temporary
nor to a memory cell.  It says which one: of all such moves, the first that it comes to.

* `Node.firstBad?`: the target of the first such move among some nodes.
* `Expr.lower_refusesFor`, `Stmt.lower_refusesFor`: lowering a tree fails for the first bad target
  among its nodes, and goes well if there is none.
* `Stmt.lower_fails_iff`: **so it is with a statement, whatever the supply.**
* `SourceUnit.canonical_refusesFor`: so it is with a unit.
-/

namespace TreeBackend

/-- What a move may go to. -/
def Expr.isPlace : Expr → Bool
  | .temp .. | .mem .. => true
  | _ => false

/-- The target of a move that goes neither to a temporary nor to a memory cell. -/
def Node.badTarget? : Node → Option Expr
  | .stmt (.move _ target _) => if target.isPlace then none else some target
  | _ => none

/-- The target of the first such move. -/
def Node.firstBad? (nodes : List Node) : Option Expr := nodes.findSome? Node.badTarget?

namespace Node

variable {nodes more : List Node}

theorem firstBad?_append :
    firstBad? (nodes ++ more) = (firstBad? nodes).or (firstBad? more) := List.findSome?_append

theorem firstBad?_cons {n : Node} (h : n.badTarget? = none) :
    firstBad? (n :: nodes) = firstBad? nodes := by
  rw [firstBad?, List.findSome?_cons, h, firstBad?]

theorem firstBad?_cons_of_bad {n : Node} {target : Expr} (h : n.badTarget? = some target) :
    firstBad? (n :: nodes) = some target := by
  rw [firstBad?, List.findSome?_cons, h]

theorem firstBad?_flatMap {β : Type} {bs : List β} {f : β → List Node} :
    firstBad? (bs.flatMap f) = bs.findSome? fun b => firstBad? (f b) := by
  induction bs with
  | nil => rfl
  | cons b rest ih =>
      rw [List.flatMap_cons, firstBad?_append, ih, List.findSome?_cons]
      cases firstBad? (f b) <;> rfl

theorem badTarget?_eq_some_iff {n : Node} {target : Expr} : n.badTarget? = some target ↔
    ∃ id source, n = .stmt (.move id target source) ∧ target.isPlace = false := by
  constructor
  · intro h
    unfold badTarget? at h
    split at h
    · next id target' source =>
        split at h
        · cases h
        · next hplace =>
            cases h
            exact ⟨id, source, rfl, by simpa using hplace⟩
    · cases h
  · rintro ⟨id, source, rfl, hplace⟩
    rw [badTarget?, if_neg (by simp [hplace])]

/-- There is a first bad target exactly if there is a move with one. -/
theorem exists_firstBad?_iff : (∃ target, firstBad? nodes = some target) ↔
    ∃ id target source, .stmt (.move id target source) ∈ nodes ∧ target.isPlace = false := by
  rw [← Option.isSome_iff_exists, firstBad?, List.findSome?_isSome_iff]
  constructor
  · rintro ⟨n, hn, hbad⟩
    obtain ⟨target, hbad⟩ := Option.isSome_iff_exists.mp hbad
    obtain ⟨id, source, rfl, hplace⟩ := badTarget?_eq_some_iff.mp hbad
    exact ⟨id, target, source, hn, hplace⟩
  · rintro ⟨id, target, source, hn, hplace⟩
    exact ⟨_, hn, Option.isSome_iff_exists.mpr
      ⟨target, badTarget?_eq_some_iff.mpr ⟨id, source, rfl, hplace⟩⟩⟩

end Node

/-- A run has failed for a target, or gone well if there is none. -/
inductive RefusedFor {α : Type} : Option Expr → EStateM.Result CompileError Supply α → Prop
  | fine (a : α) (τ : Supply) : RefusedFor none (.ok a τ)
  | refused (target : Expr) (τ : Supply) :
    RefusedFor (some target) (.error (.invalidTarget target) τ)

/-- The computation fails for a target, and goes well if there is none. -/
def RefusesFor {α : Type} (target? : Option Expr) (x : Lowering α) : Prop :=
  ∀ σ, RefusedFor target? (x σ)

namespace RefusesFor

variable {α β : Type} {x : Lowering α} {f : α → Lowering β} {first? second? : Option Expr}

theorem pure (a : α) : RefusesFor none (Pure.pure a) := fun σ => .fine a σ

theorem modifyGet (g : Supply → α × Supply) : RefusesFor none (MonadStateOf.modifyGet g) :=
  fun σ => .fine (g σ).1 (g σ).2

theorem throw (target : Expr) :
    RefusesFor (some target) (throw (.invalidTarget target) : Lowering α) :=
  fun σ => .refused target σ

/-- What fails first decides. -/
theorem bind (h : RefusesFor first? x) (h' : ∀ a, RefusesFor second? (f a)) :
    RefusesFor (first?.or second?) (x >>= f) := by
  intro σ
  have hrun := h σ
  generalize hx : x σ = run at hrun
  cases hrun with
  | fine a σ₁ =>
      rw [bind_ok hx]
      exact h' a σ₁
  | refused target τ =>
      rw [bind_error hx]
      exact .refused target τ

/-- The rest of a computation cannot fail. -/
theorem map (h : RefusesFor first? x) (h' : ∀ a, RefusesFor none (f a)) :
    RefusesFor first? (x >>= f) := by
  have hbind := h.bind h'
  rwa [Option.or_none] at hbind

theorem mapM {as : List β} {g : β → Lowering α} {t : β → Option Expr}
    (h : ∀ b, RefusesFor (t b) (g b)) : RefusesFor (as.findSome? t) (as.mapM g) := by
  induction as with
  | nil => exact .pure _
  | cons a rest ih =>
      have hcons : (a :: rest).findSome? t = (t a).or (rest.findSome? t) := by
        rw [List.findSome?_cons]
        cases t a <;> rfl
      rw [hcons, List.mapM_cons]
      exact (h a).bind fun _ => ih.map fun _ => .pure _

theorem make (node : NodeId → α) : RefusesFor none (Lowering.make node) := .modifyGet _

theorem park (value : Expr) : RefusesFor none (Lowering.park value) :=
  .bind (.modifyGet _) fun _ => .bind (.make _) fun _ => .bind (.make _) fun _ => .pure _

theorem pin (value : Expr) : RefusesFor none (Lowering.pin value) :=
  .bind (.park value) fun _ => .bind (.make _) fun _ => .pure _

/-- Which target it is for, read off a run. -/
theorem error_iff (h : RefusesFor first? x) (σ : Supply) (e : CompileError) :
    (∃ τ, x σ = .error e τ) ↔ ∃ target, first? = some target ∧ e = .invalidTarget target := by
  have hrun := h σ
  generalize x σ = run at hrun
  cases hrun with
  | fine a σ₁ =>
      constructor
      · rintro ⟨τ, herror⟩
        cases herror
      · rintro ⟨target, htarget, -⟩
        cases htarget
  | refused target σ₁ =>
      constructor
      · rintro ⟨τ, herror⟩
        cases herror
        exact ⟨target, rfl, rfl⟩
      · rintro ⟨target', htarget, rfl⟩
        cases htarget
        exact ⟨σ₁, rfl⟩

end RefusesFor

/-! ## Trees -/

open Node RefusesFor in
mutual

/-- **Lowering an expression fails for the first bad target among its nodes.** -/
theorem Expr.lower_refusesFor : ∀ e : Expr, RefusesFor (firstBad? e.nodes) e.lower
  | .const .. | .name .. | .temp .. => by
    rw [Expr.lower]
    exact .pure _
  | .binop id op l r => by
    rw [Expr.lower, Expr.nodes, firstBad?_cons rfl, firstBad?_append]
    refine .bind (Expr.lower_refusesFor l) fun _ => .map (Expr.lower_refusesFor r) fun _ => ?_
    dsimp only
    split
    · exact .pure _
    · exact .map (.pin _) fun _ => .pure _
  | .mem id a => by
    rw [Expr.lower, Expr.nodes, firstBad?_cons rfl]
    exact .map (Expr.lower_refusesFor a) fun _ => .pure _
  | .eseq id s e => by
    rw [Expr.lower, Expr.nodes, firstBad?_cons rfl, firstBad?_append]
    exact .bind (Stmt.lower_refusesFor s) fun _ => .map (Expr.lower_refusesFor e) fun _ => .pure _
  | .call id target args => by
    rw [Expr.lower, Expr.nodes, firstBad?_cons rfl, firstBad?_append]
    exact .bind (Expr.lowerArguments_refusesFor args) fun _ =>
      .map (Expr.lower_refusesFor target) fun _ => .map (.make _) fun _ => .pure _

/-- Lowering arguments fails for the first bad target among their nodes. -/
theorem Expr.lowerArguments_refusesFor : ∀ args : List Expr,
    RefusesFor (firstBad? (Expr.nodesAll args)) (Expr.lowerArguments args)
  | [] => by
    rw [Expr.lowerArguments]
    exact .pure _
  | a :: rest => by
    rw [Expr.lowerArguments, Expr.nodesAll, firstBad?_append]
    refine .bind (Expr.lower_refusesFor a) fun _ => ?_
    exact .bind (.pin _) fun _ => .map (Expr.lowerArguments_refusesFor rest) fun _ => .pure _

/-- **Lowering a statement fails for the first bad target among its nodes.** -/
theorem Stmt.lower_refusesFor : ∀ s : Stmt, RefusesFor (firstBad? s.nodes) s.lower
  | .label .. | .comment .. | .ret _ none => by
    rw [Stmt.lower]
    exact .pure _
  | .cjump _ e _ _ | .jump _ e | .ret _ (some e) | .exp _ e => by
    rw [Stmt.lower, Stmt.nodes, firstBad?_cons rfl]
    exact .map (Expr.lower_refusesFor e) fun _ => .pure _
  | .seq id body => by
    rw [Stmt.lower, Stmt.nodes, firstBad?_cons rfl]
    exact Stmt.lowerAll_refusesFor body
  | .call id target args => by
    rw [Stmt.lower, Stmt.nodes, firstBad?_cons rfl, firstBad?_append]
    exact .bind (Expr.lowerArguments_refusesFor args) fun _ =>
      .map (Expr.lower_refusesFor target) fun _ => .pure _
  | .move id (.temp ..) source => by
    rw [Stmt.lower, Stmt.nodes, firstBad?_cons rfl, firstBad?_append]
    exact .map (Expr.lower_refusesFor source) fun _ => .pure _
  | .move id (.mem cell a) source => by
    rw [Stmt.lower, Stmt.nodes, Expr.nodes, firstBad?_cons rfl, firstBad?_append,
      firstBad?_cons rfl]
    refine .bind (Expr.lower_refusesFor a) fun _ => .bind (.park _) fun _ => ?_
    exact .map (Expr.lower_refusesFor source) fun _ => .map (.park _) fun _ =>
      .map (.make _) fun _ => .map (.make _) fun _ => .pure _
  | .move id (.const ..) _ | .move id (.name ..) _ | .move id (.binop ..) _
  | .move id (.eseq ..) _ | .move id (.call ..) _ => by
    -- the move itself comes before everything in it
    rw [Stmt.nodes, firstBad?_cons_of_bad rfl]
    simp only [Stmt.lower]
    exact .throw _

/-- Lowering statements fails for the first bad target among their nodes. -/
theorem Stmt.lowerAll_refusesFor : ∀ body : List Stmt,
    RefusesFor (firstBad? (Stmt.nodesAll body)) (Stmt.lowerAll body)
  | [] => by
    rw [Stmt.lowerAll]
    exact .pure _
  | s :: rest => by
    rw [Stmt.lowerAll, Stmt.nodesAll, firstBad?_append]
    exact .bind (Stmt.lower_refusesFor s) fun _ => .map (Stmt.lowerAll_refusesFor rest) fun _ =>
      .pure _

end

/-- **When lowering fails.**  A statement is refused exactly if a move in it goes neither to a
temporary nor to a memory cell, however deep it stands.  The cause is then the target of the first
such move, and there is no other cause; the message that reports it has the target's written
form. -/
theorem Stmt.lower_fails_iff (s : Stmt) (σ : Supply) :
    ((∃ e τ, s.lower σ = .error e τ) ↔
      ∃ id target source, .stmt (.move id target source) ∈ s.nodes ∧ target.isPlace = false) ∧
    ∀ e, (∃ τ, s.lower σ = .error e τ) ↔ ∃ target, Node.firstBad? s.nodes = some target ∧
      e = .invalidTarget target ∧
      e.message = "Move target must be a Temp or Mem: " ++ target.text := by
  have herror := s.lower_refusesFor.error_iff σ
  refine ⟨?_, fun e => ?_⟩
  · simp only [herror, ← Node.exists_firstBad?_iff]
    constructor
    · rintro ⟨e, target, htarget, -⟩
      exact ⟨target, htarget⟩
    · rintro ⟨target, htarget⟩
      exact ⟨_, target, htarget, rfl⟩
  · rw [herror]
    constructor
    · rintro ⟨target, htarget, rfl⟩
      exact ⟨target, htarget, rfl, rfl⟩
    · rintro ⟨target, htarget, he, -⟩
      exact ⟨target, htarget, he⟩

/-! ## Units -/

/-- The nodes of a unit, in the order in which lowering comes to them. -/
def SourceUnit.nodes (u : SourceUnit) : List Node :=
  u.functions.flatMap (·.body.nodes) ++ u.fields.flatMap (·.init.nodes) ++
    u.start.flatMap Stmt.nodes

theorem Stmt.canonical_refusesFor (s : Stmt) : RefusesFor (Node.firstBad? s.nodes) s.canonical := by
  rw [Stmt.canonical]
  refine .map s.lower_refusesFor fun body => ?_
  split
  · exact .pure _
  · exact .pure _
  · exact .make _

theorem Field.canonical_refusesFor (f : Field) :
    RefusesFor (Node.firstBad? f.init.nodes) f.canonical := by
  rw [Field.canonical]
  exact .map f.init.lower_refusesFor fun _ => .map (.make _) fun _ => .map (.make _) fun _ =>
    .make _

theorem Function.canonical_refusesFor (f : Function) :
    RefusesFor (Node.firstBad? f.body.nodes) f.canonical := by
  rw [Function.canonical]
  exact .map f.body.canonical_refusesFor fun _ => .pure _

/-- **Lowering a unit fails for the first bad target among its nodes.** -/
theorem SourceUnit.canonical_refusesFor (u : SourceUnit) :
    RefusesFor (Node.firstBad? u.nodes) u.canonical := by
  rw [SourceUnit.nodes, Node.firstBad?_append, Node.firstBad?_append, Node.firstBad?_flatMap,
    Node.firstBad?_flatMap, Node.firstBad?_flatMap, Option.or_assoc, SourceUnit.canonical]
  exact .bind (.mapM Function.canonical_refusesFor) fun _ =>
    .bind (.mapM Field.canonical_refusesFor) fun _ =>
    .map (.mapM Stmt.canonical_refusesFor) fun _ => .pure _

/-- **A unit is refused only for the target of a move.** -/
theorem SourceUnit.error_of_canonicalize {u : SourceUnit} {e : CompileError}
    (h : u.canonicalize = .error e) : ∃ target, e = .invalidTarget target := by
  rw [canonicalize] at h
  cases hrun : u.canonical.run u.supply with
  | ok c τ =>
      rw [hrun] at h
      cases h
  | error e' τ =>
      rw [hrun] at h
      cases h
      obtain ⟨target, -, he⟩ := (u.canonical_refusesFor.error_iff u.supply e).mp ⟨τ, hrun⟩
      exact ⟨target, he⟩

end TreeBackend
