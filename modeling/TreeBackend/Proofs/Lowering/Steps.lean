import TreeBackend.IR.Lowering
import TreeBackend.Proofs.Runs

/-!
# What lowering a node comes to

One lemma for each kind of node that lowering does anything to: if the node is
lowered, then so are its children, in order, and the result is put together from
theirs in the way stated.

* `Expr.lower_binop`: **the left value is parked exactly if the right operand has
  statements to run first.**
* `Expr.lowerArguments_cons`, `Expr.lower_call`, `Stmt.lower_call`: every argument
  is parked as soon as it is lowered, and the target comes last.
* `Stmt.lower_move_mem`: address and value of a store are both parked.
* `SourceUnit.canonical_trees`: a unit is lowered tree by tree, its functions first, then its
  fields and then what it wants run at the start.
-/

namespace TreeBackend

/-! ## Parking -/

namespace Supply

/-- The name that the next parked value gets. -/
def temp (σ : Supply) : String := tempName σ.scope σ.nextTemp

/-- The move that parks a value. -/
def fill (σ : Supply) (value : Expr) : Stmt :=
  .move ⟨σ.nextNode + 1⟩ (.temp ⟨σ.nextNode⟩ σ.temp false) value

/-- What is left after a value has been parked. -/
def parked (σ : Supply) : Supply :=
  { σ with nextNode := σ.nextNode + 2, nextTemp := σ.nextTemp + 1 }

/-- A node that reads a temporary. -/
def reader (σ : Supply) (name : String) : Expr := .temp ⟨σ.nextNode⟩ name false

/-- What is left after one node has been made. -/
def numbered (σ : Supply) : Supply := { σ with nextNode := σ.nextNode + 1 }

end Supply

/-! ## Expressions -/

section
variable {σ σ' : Supply} {id : NodeId} {before : List Stmt} {e' : Expr}

theorem Expr.lower_leaf {e : Expr} (hleaf : e.isLeaf)
    (h : e.lower σ = .ok (before, e') σ') : before = [] ∧ e' = e ∧ σ' = σ := by
  cases e with
  | const | name | temp =>
    simp only [Expr.lower] at h
    cases h
    exact ⟨rfl, rfl, rfl⟩
  | _ => cases hleaf

theorem Expr.lower_binop {op : BinOp} {l r : Expr}
    (h : (Expr.binop id op l r).lower σ = .ok (before, e') σ') :
    ∃ first l' σ₁ second r' σ₂, l.lower σ = .ok (first, l') σ₁ ∧ r.lower σ₁ = .ok (second, r') σ₂ ∧
      ((second = [] ∧ before = first ∧ e' = .binop id op l' r' ∧ σ' = σ₂) ∨
        (second ≠ [] ∧ before = first ++ σ₂.fill l' :: second ∧
          e' = .binop id op (σ₂.parked.reader σ₂.temp) r' ∧ σ' = σ₂.parked.numbered)) := by
  simp only [Expr.lower] at h
  obtain ⟨⟨first, l'⟩, σ₁, hl, h⟩ := ok_of_bind h
  obtain ⟨⟨second, r'⟩, σ₂, hr, h⟩ := ok_of_bind h
  refine ⟨first, l', σ₁, second, r', σ₂, hl, hr, ?_⟩
  cases second with
  | nil =>
    cases h
    exact Or.inl ⟨rfl, rfl, rfl, rfl⟩
  | cons s rest =>
    cases h
    exact Or.inr ⟨List.cons_ne_nil _ _, rfl, rfl, rfl⟩

theorem Expr.lower_mem {a : Expr} (h : (Expr.mem id a).lower σ = .ok (before, e') σ') :
    ∃ a', a.lower σ = .ok (before, a') σ' ∧ e' = .mem id a' := by
  simp only [Expr.lower] at h
  obtain ⟨⟨first, a'⟩, σ₁, ha, h⟩ := ok_of_bind h
  cases h
  exact ⟨a', ha, rfl⟩

theorem Expr.lower_eseq {s : Stmt} {e : Expr}
    (h : (Expr.eseq id s e).lower σ = .ok (before, e') σ') :
    ∃ first σ₁ second, s.lower σ = .ok first σ₁ ∧ e.lower σ₁ = .ok (second, e') σ' ∧
      before = first ++ second := by
  simp only [Expr.lower] at h
  obtain ⟨first, σ₁, hs, h⟩ := ok_of_bind h
  obtain ⟨⟨second, e''⟩, σ₂, he, h⟩ := ok_of_bind h
  cases h
  exact ⟨first, σ₁, second, hs, he, rfl⟩

theorem Expr.lower_call {target : Expr} {args : List Expr}
    (h : (Expr.call id target args).lower σ = .ok (before, e') σ') :
    ∃ first temps σ₁ second target' σ₂, Expr.lowerArguments args σ = .ok (first, temps) σ₁ ∧
      target.lower σ₁ = .ok (second, target') σ₂ ∧
      before = first ++ second ++ [.call id target' temps] ∧ e' = σ₂.reader Reserved.result ∧
      σ' = σ₂.numbered := by
  simp only [Expr.lower] at h
  obtain ⟨⟨first, temps⟩, σ₁, ha, h⟩ := ok_of_bind h
  obtain ⟨⟨second, target'⟩, σ₂, ht, h⟩ := ok_of_bind h
  cases h
  exact ⟨first, temps, σ₁, second, target', σ₂, ha, ht, rfl, rfl, rfl⟩

theorem Expr.lowerArguments_nil {temps : List Expr}
    (h : Expr.lowerArguments [] σ = .ok (before, temps) σ') :
    before = [] ∧ temps = [] ∧ σ' = σ := by
  simp only [Expr.lowerArguments] at h
  cases h
  exact ⟨rfl, rfl, rfl⟩

theorem Expr.lowerArguments_cons {a : Expr} {rest temps : List Expr}
    (h : Expr.lowerArguments (a :: rest) σ = .ok (before, temps) σ') :
    ∃ first a' σ₁ second temps', a.lower σ = .ok (first, a') σ₁ ∧
      Expr.lowerArguments rest σ₁.parked.numbered = .ok (second, temps') σ' ∧
      before = first ++ σ₁.fill a' :: second ∧ temps = σ₁.parked.reader σ₁.temp :: temps' := by
  simp only [Expr.lowerArguments] at h
  obtain ⟨⟨first, a'⟩, σ₁, ha, h⟩ := ok_of_bind h
  rw [show Lowering.pin a' = fun σ => .ok (σ.fill a', σ.parked.reader σ.temp) σ.parked.numbered
    from rfl] at h
  obtain ⟨⟨fill, again⟩, σ₂, hp, h⟩ := ok_of_bind h
  cases hp
  obtain ⟨⟨second, temps'⟩, σ₃, hr, h⟩ := ok_of_bind h
  cases h
  exact ⟨first, a', σ₁, second, temps', ha, hr, rfl, rfl⟩

end

/-! ## Statements -/

section
variable {σ σ' : Supply} {id : NodeId} {body : List Stmt}

theorem Stmt.lower_cjump {c : Expr} {t f : String}
    (h : (Stmt.cjump id c t f).lower σ = .ok body σ') :
    ∃ before c', c.lower σ = .ok (before, c') σ' ∧ body = before ++ [.cjump id c' t f] := by
  simp only [Stmt.lower] at h
  obtain ⟨⟨before, c'⟩, σ₁, hc, h⟩ := ok_of_bind h
  cases h
  exact ⟨before, c', hc, rfl⟩

theorem Stmt.lower_exp {e : Expr} (h : (Stmt.exp id e).lower σ = .ok body σ') :
    ∃ before e', e.lower σ = .ok (before, e') σ' ∧
      ((e'.isLeaf = true ∧ body = before) ∨
        (e'.isLeaf = false ∧ body = before ++ [.exp id e'])) := by
  simp only [Stmt.lower] at h
  obtain ⟨⟨before, e'⟩, σ₁, he, h⟩ := ok_of_bind h
  cases h
  refine ⟨before, e', he, ?_⟩
  cases e'.isLeaf with
  | true => exact Or.inl ⟨rfl, rfl⟩
  | false => exact Or.inr ⟨rfl, rfl⟩

theorem Stmt.lower_jump {target : Expr} (h : (Stmt.jump id target).lower σ = .ok body σ') :
    ∃ before target', target.lower σ = .ok (before, target') σ' ∧
      body = before ++ [.jump id target'] := by
  simp only [Stmt.lower] at h
  obtain ⟨⟨before, target'⟩, σ₁, ht, h⟩ := ok_of_bind h
  cases h
  exact ⟨before, target', ht, rfl⟩

theorem Stmt.lower_ret {e : Expr} (h : (Stmt.ret id (some e)).lower σ = .ok body σ') :
    ∃ before e', e.lower σ = .ok (before, e') σ' ∧ body = before ++ [.ret id (some e')] := by
  simp only [Stmt.lower] at h
  obtain ⟨⟨before, e'⟩, σ₁, he, h⟩ := ok_of_bind h
  cases h
  exact ⟨before, e', he, rfl⟩

theorem Stmt.lower_call {target : Expr} {args : List Expr}
    (h : (Stmt.call id target args).lower σ = .ok body σ') :
    ∃ first temps σ₁ second target', Expr.lowerArguments args σ = .ok (first, temps) σ₁ ∧
      target.lower σ₁ = .ok (second, target') σ' ∧
      body = first ++ second ++ [.call id target' temps] := by
  simp only [Stmt.lower] at h
  obtain ⟨⟨first, temps⟩, σ₁, ha, h⟩ := ok_of_bind h
  obtain ⟨⟨second, target'⟩, σ₂, ht, h⟩ := ok_of_bind h
  cases h
  exact ⟨first, temps, σ₁, second, target', ha, ht, rfl⟩

theorem Stmt.lower_move_temp {cell : NodeId} {x : String} {g : Bool} {source : Expr}
    (h : (Stmt.move id (.temp cell x g) source).lower σ = .ok body σ') :
    ∃ before source', source.lower σ = .ok (before, source') σ' ∧
      body = before ++ [.move id (.temp cell x g) source'] := by
  simp only [Stmt.lower] at h
  obtain ⟨⟨before, source'⟩, σ₁, hs, h⟩ := ok_of_bind h
  cases h
  exact ⟨before, source', hs, rfl⟩

theorem Stmt.lower_move_mem {cell : NodeId} {a source : Expr}
    (h : (Stmt.move id (.mem cell a) source).lower σ = .ok body σ') :
    ∃ first a' σ₁ second source' σ₂, a.lower σ = .ok (first, a') σ₁ ∧
      source.lower σ₁.parked = .ok (second, source') σ₂ ∧
      body = first ++ σ₁.fill a' :: second ++ [σ₂.fill source',
        .move id (.mem cell (σ₂.parked.reader σ₁.temp)) (σ₂.parked.numbered.reader σ₂.temp)] ∧
      σ' = σ₂.parked.numbered.numbered := by
  simp only [Stmt.lower] at h
  obtain ⟨⟨first, a'⟩, σ₁, ha, h⟩ := ok_of_bind h
  rw [show Lowering.park a' = fun σ => .ok (σ.temp, σ.fill a') σ.parked from rfl] at h
  obtain ⟨⟨address, fill⟩, σ₂, hp, h⟩ := ok_of_bind h
  cases hp
  obtain ⟨⟨second, source'⟩, σ₂, hs, h⟩ := ok_of_bind h
  cases h
  exact ⟨first, a', σ₁, second, source', σ₂, ha, hs, rfl, rfl⟩

theorem Stmt.lower_seq {children : List Stmt} (h : (Stmt.seq id children).lower σ = .ok body σ') :
    Stmt.lowerAll children σ = .ok body σ' := by
  simpa only [Stmt.lower] using h

theorem Stmt.lowerAll_nil (h : Stmt.lowerAll [] σ = .ok body σ') : body = [] ∧ σ' = σ := by
  simp only [Stmt.lowerAll] at h
  cases h
  exact ⟨rfl, rfl⟩

theorem Stmt.lowerAll_cons {s : Stmt} {rest : List Stmt}
    (h : Stmt.lowerAll (s :: rest) σ = .ok body σ') :
    ∃ first σ₁ more, s.lower σ = .ok first σ₁ ∧ Stmt.lowerAll rest σ₁ = .ok more σ' ∧
      body = first ++ more := by
  simp only [Stmt.lowerAll] at h
  obtain ⟨first, σ₁, hs, h⟩ := ok_of_bind h
  obtain ⟨more, σ₂, hr, h⟩ := ok_of_bind h
  cases h
  exact ⟨first, σ₁, more, hs, hr, rfl⟩

end

/-! ## Units -/

section
variable {σ τ : Supply}

theorem Function.canonical_body {f f' : Function} (h : f.canonical σ = .ok f' τ) :
    ∃ body, f.body.canonical σ = .ok body τ ∧ f' = { f with body } := by
  rw [Function.canonical] at h
  obtain ⟨body, σ₁, hbody, h⟩ := ok_of_bind h
  cases h
  exact ⟨body, hbody, rfl⟩

theorem Field.canonical_store {f : Field} {B : Stmt} (h : f.canonical σ = .ok B τ) :
    ∃ before value σ₁, f.init.lower σ = .ok (before, value) σ₁ ∧
      B = .seq ⟨σ₁.nextNode + 2⟩
        (before ++ [.move ⟨σ₁.nextNode + 1⟩ (.temp ⟨σ₁.nextNode⟩ f.name true) value]) ∧
      τ = σ₁.numbered.numbered.numbered := by
  rw [Field.canonical] at h
  obtain ⟨⟨before, value⟩, σ₁, hinit, h⟩ := ok_of_bind h
  cases h
  exact ⟨before, value, σ₁, hinit, rfl, rfl⟩

theorem SourceUnit.canonical_trees {u : SourceUnit} {c : CanonicalUnit}
    (h : u.canonical σ = .ok c τ) :
    ∃ functions σ₁ inits σ₂ start, u.functions.mapM Function.canonical σ = .ok functions σ₁ ∧
      u.fields.mapM Field.canonical σ₁ = .ok inits σ₂ ∧
      u.start.mapM Stmt.canonical σ₂ = .ok start τ ∧
      c = { name := u.name, functions, fields := u.fields.map Field.name, inits, start } := by
  rw [SourceUnit.canonical] at h
  obtain ⟨functions, σ₁, hfunctions, h⟩ := ok_of_bind h
  obtain ⟨inits, σ₂, hinits, h⟩ := ok_of_bind h
  obtain ⟨start, σ₃, hstart, h⟩ := ok_of_bind h
  cases h
  exact ⟨functions, σ₁, inits, σ₂, start, hfunctions, hinits, hstart, rfl⟩

theorem SourceUnit.canonicalize_eq_ok {u : SourceUnit} {c : CanonicalUnit} :
    u.canonicalize = .ok c ↔ ∃ τ, u.canonical u.supply = .ok c τ := by
  rw [canonicalize]
  cases hrun : u.canonical.run u.supply with
  | error e σ =>
    refine iff_of_false nofun ?_
    rintro ⟨τ, h⟩
    cases hrun.symm.trans h
  | ok unit σ =>
    constructor
    · intro h
      cases h
      exact ⟨σ, hrun⟩
    · rintro ⟨τ, h⟩
      cases hrun.symm.trans h
      rfl

end

end TreeBackend
