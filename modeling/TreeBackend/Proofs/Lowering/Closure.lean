import TreeBackend.Program.Compile
import TreeBackend.Proofs.Lowering.Form
import TreeBackend.Proofs.Lowering.Identity
import TreeBackend.Proofs.Lowering.Steps
import TreeBackend.Proofs.Names

/-!
# Lowering leaves canonical trees

Whatever the tree, its ids and its names: if it can be lowered at all, then no statement is
left inside an expression, no call is left as an expression, and no sequence inside another.

* `Stmt.Single`: a canonical statement that is no sequence, whose stores and calls find what
  they need in registers.
* `Expr.lower_single`, `Stmt.lower_single`: **lowering leaves such statements.**
* `canonicalize_closed`: the units that lowering makes pass the check, so checking them
  changes nothing about a compilation.
-/

namespace TreeBackend

/-! ## Single statements -/

namespace Stmt

/-- A canonical statement that is no sequence.  A store finds its address and its value in
registers, and a call its arguments. -/
def Single : Stmt → Prop
  | .label .. | .comment .. | .ret _ none => True
  | .cjump _ e _ _ | .exp _ e | .jump _ e | .ret _ (some e) => e.Canonical
  | .move _ (.temp ..) source => source.Canonical
  | .move _ (.mem _ a) source => a.IsRegister ∧ source.IsRegister
  | .move .. | .seq .. => False
  | .call _ target args => target.Canonical ∧ ∀ a ∈ args, a.IsRegister

/-- Such statements in order. -/
def SingleAll (body : List Stmt) : Prop := ∀ t ∈ body, t.Single

/-- One statement that is no sequence, or one sequence of such. -/
def Flat : Stmt → Prop
  | .seq _ body => SingleAll body
  | s => s.Single

variable {s : Stmt} {before after : List Stmt}

theorem singleAll_nil : SingleAll [] := List.forall_mem_nil _

theorem singleAll_singleton : SingleAll [s] ↔ s.Single := List.forall_mem_singleton

theorem SingleAll.append (h : SingleAll before) (h' : SingleAll after) :
    SingleAll (before ++ after) := List.forall_mem_append.mpr ⟨h, h'⟩

theorem SingleAll.snoc (h : SingleAll before) (hs : s.Single) : SingleAll (before ++ [s]) :=
  h.append (singleAll_singleton.mpr hs)

/-- Statements with a parked value between them. -/
theorem SingleAll.fill (h : SingleAll before) {value : Expr} (hv : value.Canonical) (σ : Supply)
    (h' : SingleAll after) : SingleAll (before ++ σ.fill value :: after) :=
  h.append (List.forall_mem_cons.mpr ⟨hv, h'⟩)

theorem Single.canonical (h : s.Single) : s.Canonical := by
  cases s with
  | label | comment => rfl
  | ret id value =>
      cases value with
      | none => rfl
      | some e => exact canonical_ret.mpr h
  | cjump => exact canonical_cjump.mpr h
  | exp => exact canonical_exp.mpr h
  | jump => exact canonical_jump.mpr h
  | seq => cases h
  | call => exact canonical_call.mpr ⟨h.1, fun a ha => (h.2 a ha).isTemp⟩
  | move id target source =>
      cases target with
      | temp => exact canonical_move_temp.mpr h
      | mem => exact canonical_move_mem.mpr ⟨Expr.canonical_of_isTemp h.1.isTemp,
          Expr.canonical_of_isTemp h.2.isTemp⟩
      | _ => cases h

theorem Single.flat (h : s.Single) : s.Flat := by
  cases s with
  | seq => cases h
  | _ => exact h

theorem Flat.canonical (h : s.Flat) : s.Canonical := by
  cases s with
  | seq id body => exact canonical_seq.mpr fun t ht => (h t ht).canonical
  | _ => exact Single.canonical h

end Stmt

/-! ## What lowering leaves -/

theorem Supply.held?_reader (σ τ : Supply) : (τ.reader σ.temp).held? = some (.temp σ.temp) := by
  rw [Supply.reader, Expr.held?, Supply.temp, Storage.ofTemp_tempName]

theorem Supply.isRegister_reader (σ τ : Supply) : (τ.reader σ.temp).IsRegister :=
  ⟨_, Supply.held?_reader σ τ⟩

mutual

/-- **Lowering leaves single statements of an expression**, and an expression without effects. -/
theorem Expr.lower_single : ∀ (e : Expr) {σ σ' : Supply} {before : List Stmt} {e' : Expr},
    e.lower σ = .ok (before, e') σ' → Stmt.SingleAll before ∧ e'.Canonical
  | .const .., σ, σ', before, e', h | .name .., σ, σ', before, e', h
  | .temp .., σ, σ', before, e', h => by
    obtain ⟨rfl, rfl, rfl⟩ := Expr.lower_leaf rfl h
    exact ⟨Stmt.singleAll_nil, rfl⟩
  | .binop id op l r, σ, σ', before, e', h => by
    obtain ⟨first, l', σ₁, second, r', σ₂, hl, hr, hcase⟩ := Expr.lower_binop h
    obtain ⟨hfirst, hleft⟩ := Expr.lower_single l hl
    obtain ⟨hsecond, hright⟩ := Expr.lower_single r hr
    rcases hcase with ⟨-, rfl, rfl, -⟩ | ⟨-, rfl, rfl, -⟩
    · exact ⟨hfirst, Expr.canonical_binop.mpr ⟨hleft, hright⟩⟩
    · exact ⟨hfirst.fill hleft σ₂ hsecond, Expr.canonical_binop.mpr ⟨rfl, hright⟩⟩
  | .mem id a, σ, σ', before, e', h => by
    obtain ⟨a', ha, rfl⟩ := Expr.lower_mem h
    obtain ⟨hbefore, haddress⟩ := Expr.lower_single a ha
    exact ⟨hbefore, Expr.canonical_mem.mpr haddress⟩
  | .eseq id s e, σ, σ', before, e', h => by
    obtain ⟨first, σ₁, second, hs, he, rfl⟩ := Expr.lower_eseq h
    obtain ⟨hsecond, hvalue⟩ := Expr.lower_single e he
    exact ⟨(Stmt.lower_single s hs).append hsecond, hvalue⟩
  | .call id target args, σ, σ', before, e', h => by
    obtain ⟨first, temps, σ₁, second, target', σ₂, ha, ht, rfl, rfl, -⟩ := Expr.lower_call h
    obtain ⟨hfirst, htemps⟩ := Expr.lowerArguments_single args ha
    obtain ⟨hsecond, htarget⟩ := Expr.lower_single target ht
    exact ⟨(hfirst.append hsecond).snoc ⟨htarget, htemps⟩, rfl⟩
termination_by structural e => e

/-- Lowering leaves single statements of arguments, and registers that hold their values. -/
theorem Expr.lowerArguments_single : ∀ (args : List Expr) {σ σ' : Supply} {before : List Stmt}
    {temps : List Expr}, Expr.lowerArguments args σ = .ok (before, temps) σ' →
    Stmt.SingleAll before ∧ ∀ a ∈ temps, a.IsRegister
  | [], σ, σ', before, temps, h => by
    obtain ⟨rfl, rfl, -⟩ := Expr.lowerArguments_nil h
    exact ⟨Stmt.singleAll_nil, List.forall_mem_nil _⟩
  | a :: rest, σ, σ', before, temps, h => by
    obtain ⟨first, a', σ₁, second, temps', ha, hr, rfl, rfl⟩ := Expr.lowerArguments_cons h
    obtain ⟨hfirst, hvalue⟩ := Expr.lower_single a ha
    obtain ⟨hsecond, htemps⟩ := Expr.lowerArguments_single rest hr
    exact ⟨hfirst.fill hvalue σ₁ hsecond,
      List.forall_mem_cons.mpr ⟨σ₁.isRegister_reader _, htemps⟩⟩
termination_by structural args => args

/-- **Lowering leaves single statements of a statement.** -/
theorem Stmt.lower_single : ∀ (s : Stmt) {σ σ' : Supply} {body : List Stmt},
    s.lower σ = .ok body σ' → Stmt.SingleAll body
  | .label .., σ, σ', body, h | .comment .., σ, σ', body, h | .ret _ none, σ, σ', body, h => by
    simp only [Stmt.lower] at h
    cases h
    exact Stmt.singleAll_singleton.mpr trivial
  | .cjump id c t f, σ, σ', body, h => by
    obtain ⟨before, c', hc, rfl⟩ := Stmt.lower_cjump h
    obtain ⟨hbefore, hcond⟩ := Expr.lower_single c hc
    exact hbefore.snoc hcond
  | .exp id e, σ, σ', body, h => by
    obtain ⟨before, e', he, hcase⟩ := Stmt.lower_exp h
    obtain ⟨hbefore, hvalue⟩ := Expr.lower_single e he
    rcases hcase with ⟨-, rfl⟩ | ⟨-, rfl⟩
    · exact hbefore
    · exact hbefore.snoc hvalue
  | .jump id target, σ, σ', body, h => by
    obtain ⟨before, target', ht, rfl⟩ := Stmt.lower_jump h
    obtain ⟨hbefore, htarget⟩ := Expr.lower_single target ht
    exact hbefore.snoc htarget
  | .ret id (some e), σ, σ', body, h => by
    obtain ⟨before, e', he, rfl⟩ := Stmt.lower_ret h
    obtain ⟨hbefore, hvalue⟩ := Expr.lower_single e he
    exact hbefore.snoc hvalue
  | .seq id children, σ, σ', body, h => Stmt.lowerAll_single children (Stmt.lower_seq h)
  | .call id target args, σ, σ', body, h => by
    obtain ⟨first, temps, σ₁, second, target', ha, ht, rfl⟩ := Stmt.lower_call h
    obtain ⟨hfirst, htemps⟩ := Expr.lowerArguments_single args ha
    obtain ⟨hsecond, htarget⟩ := Expr.lower_single target ht
    exact (hfirst.append hsecond).snoc ⟨htarget, htemps⟩
  | .move id (.temp cell x g) source, σ, σ', body, h => by
    obtain ⟨before, source', hs, rfl⟩ := Stmt.lower_move_temp h
    obtain ⟨hbefore, hvalue⟩ := Expr.lower_single source hs
    exact hbefore.snoc hvalue
  | .move id (.mem cell a) source, σ, σ', body, h => by
    obtain ⟨first, a', σ₁, second, source', σ₂, ha, hs, rfl, -⟩ := Stmt.lower_move_mem h
    obtain ⟨hfirst, haddress⟩ := Expr.lower_single a ha
    obtain ⟨hsecond, hvalue⟩ := Expr.lower_single source hs
    have hstore : (Stmt.move id (.mem cell (σ₂.parked.reader σ₁.temp))
        (σ₂.parked.numbered.reader σ₂.temp)).Single :=
      ⟨σ₁.isRegister_reader _, σ₂.isRegister_reader _⟩
    exact (hfirst.fill haddress σ₁ hsecond).fill hvalue σ₂ (Stmt.singleAll_singleton.mpr hstore)
  | .move id (.const ..) _, σ, σ', body, h | .move id (.name ..) _, σ, σ', body, h
  | .move id (.binop ..) _, σ, σ', body, h | .move id (.eseq ..) _, σ, σ', body, h
  | .move id (.call ..) _, σ, σ', body, h => by
    simp only [Stmt.lower] at h
    cases h
termination_by structural s => s

/-- Lowering leaves single statements of statements. -/
theorem Stmt.lowerAll_single : ∀ (children : List Stmt) {σ σ' : Supply} {body : List Stmt},
    Stmt.lowerAll children σ = .ok body σ' → Stmt.SingleAll body
  | [], σ, σ', body, h => by
    obtain ⟨rfl, -⟩ := Stmt.lowerAll_nil h
    exact Stmt.singleAll_nil
  | s :: rest, σ, σ', body, h => by
    obtain ⟨first, σ₁, more, hs, hr, rfl⟩ := Stmt.lowerAll_cons h
    exact (Stmt.lower_single s hs).append (Stmt.lowerAll_single rest hr)
termination_by structural children => children

end

/-! ## Units -/

section
variable {σ τ : Supply}

theorem Stmt.canonical_flat {s B : Stmt} (h : s.canonical σ = .ok B τ) : B.Flat := by
  obtain ⟨body, σ₁, hs, -, hcase⟩ := Stmt.canonical_cases h
  have hsingle := Stmt.lower_single s hs
  rcases hcase with ⟨id, children, -, rfl⟩ | rfl | ⟨rfl, -⟩
  · exact hsingle
  · exact (Stmt.singleAll_singleton.mp hsingle).flat
  · exact hsingle

theorem Field.canonical_flat {f : Field} {B : Stmt} (h : f.canonical σ = .ok B τ) : B.Flat := by
  obtain ⟨before, value, σ₁, hinit, rfl, -⟩ := Field.canonical_store h
  obtain ⟨hbefore, hvalue⟩ := Expr.lower_single f.init hinit
  exact hbefore.snoc hvalue

theorem Function.canonical_flat {f f' : Function} (h : f.canonical σ = .ok f' τ) :
    f'.body.Flat := by
  obtain ⟨body, hbody, rfl⟩ := Function.canonical_body h
  exact Stmt.canonical_flat hbody

end

/-- The trees of a unit. -/
def CanonicalUnit.trees (u : CanonicalUnit) : List Stmt :=
  u.functions.map Function.body ++ u.startup

theorem CanonicalUnit.check_eq_ok {u : CanonicalUnit} :
    u.check = .ok () ↔ ∀ s ∈ u.trees, s.Canonical := by
  rw [check, Except.seq_eq_ok, Stmt.checkAll_eq_ok, Stmt.checkAll_eq_ok, trees,
    List.forall_mem_append]

theorem SourceUnit.canonicalize_flat {u : SourceUnit} {c : CanonicalUnit}
    (h : u.canonicalize = .ok c) : ∀ s ∈ c.trees, s.Flat := by
  obtain ⟨τ, hrun⟩ := SourceUnit.canonicalize_eq_ok.mp h
  obtain ⟨functions, σ₁, inits, σ₂, start, hfunctions, hinits, hstart, rfl⟩ :=
    SourceUnit.canonical_trees hrun
  rw [CanonicalUnit.trees, CanonicalUnit.startup, List.forall_mem_append, List.forall_mem_append,
    List.forall_mem_map]
  refine ⟨fun f hf => ?_, fun s hs => ?_, fun s hs => ?_⟩
  · obtain ⟨f₀, -, τ, τ', hf₀⟩ := exists_of_mem_mapM hfunctions hf
    exact Function.canonical_flat hf₀
  · obtain ⟨s₀, -, τ, τ', hs₀⟩ := exists_of_mem_mapM hstart hs
    exact Stmt.canonical_flat hs₀
  · obtain ⟨f₀, -, τ, τ', hf₀⟩ := exists_of_mem_mapM hinits hs
    exact Field.canonical_flat hf₀

theorem SourceUnit.check_of_canonicalize {u : SourceUnit} {c : CanonicalUnit}
    (h : u.canonicalize = .ok c) : c.check = .ok () :=
  CanonicalUnit.check_eq_ok.mpr fun s hs => (canonicalize_flat h s hs).canonical

theorem checkUnits_of_canonicalize {units : List SourceUnit} {canonical : List CanonicalUnit}
    (h : units.mapM SourceUnit.canonicalize = .ok canonical) :
    canonical.forM CanonicalUnit.check = .ok () := by
  induction units generalizing canonical with
  | nil =>
      cases h
      rfl
  | cons u rest ih =>
      obtain ⟨c, more, hc, hmore, rfl⟩ := Except.ok_of_mapM_cons h
      exact Except.seq_eq_ok.mpr ⟨SourceUnit.check_of_canonicalize hc, ih hmore⟩

theorem compile_verify (units : List SourceUnit) (o : Options) :
    compile units { o with verify := true } = compile units { o with verify := false } := by
  rw [compile, compile]
  cases h : units.mapM SourceUnit.canonicalize with
  | error e => rfl
  | ok canonical =>
      show (do canonical.forM CanonicalUnit.check; emit { o with verify := true } canonical) =
        emit { o with verify := false } canonical
      rw [checkUnits_of_canonicalize h]
      rfl

/-- **What lowering makes of a unit is canonical**, whatever the trees of the unit, their ids
and their names: the check accepts it, and each of its trees is one statement or one sequence
of statements that are none, with stores from register to register.  So a compilation comes
out the same whether or not the check is asked for. -/
theorem canonicalize_closed :
    (∀ (u : SourceUnit) (c : CanonicalUnit), u.canonicalize = .ok c →
      c.check = .ok () ∧ ∀ s ∈ c.trees, s.Flat) ∧
    ∀ (units : List SourceUnit) (o : Options),
      compile units { o with verify := true } = compile units { o with verify := false } :=
  ⟨fun _ _ h => ⟨SourceUnit.check_of_canonicalize h, SourceUnit.canonicalize_flat h⟩,
    compile_verify⟩

/-- A unit with a store `[a + f()] := g(f())`, and a field whose initial value is `f()` once
the store has run. -/
def storingUnit : SourceUnit where
  name := "T"
  functions := [⟨"h", 0, .seq ⟨9⟩ [.seq ⟨10⟩ [store]]⟩]
  fields := [⟨"x", .eseq ⟨11⟩ store (.call ⟨12⟩ (.name ⟨13⟩ "f" false) [])⟩]
  start := [.exp ⟨14⟩ (.temp ⟨15⟩ "x" true), store]
  supply := { scope := "T", nextNode := 16 }
where
  store : Stmt := .move ⟨0⟩
    (.mem ⟨1⟩ (.binop ⟨2⟩ .add (.temp ⟨3⟩ "a" false) (.call ⟨4⟩ (.name ⟨5⟩ "f" false) [])))
    (.call ⟨6⟩ (.name ⟨7⟩ "g" false) [.call ⟨8⟩ (.name ⟨5⟩ "f" false) []])

theorem canonicalize_closed_storingUnit : ∃ c, storingUnit.canonicalize = .ok c ∧
    c.check = .ok () ∧ ∀ s ∈ c.trees, s.Flat := by
  have hok : storingUnit.canonicalize.isOk = true := by decide +kernel
  cases h : storingUnit.canonicalize with
  | error e =>
      rw [h] at hok
      cases hok
  | ok c => exact ⟨c, rfl, canonicalize_closed.1 storingUnit c h⟩

end TreeBackend
