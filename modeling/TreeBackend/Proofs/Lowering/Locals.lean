import TreeBackend.Proofs.Lowering.Steps

/-!
# The temporaries of lowered trees

`Expr.locals` lists the temporaries of a tree that are no fields.  Lowering
(`Expr.lower_locals`, `Stmt.lower_locals`) puts no others into its result than
those of the tree, the temporary of call results, and temporaries it makes up
itself: the names that the supply had left before and has used up after.
-/

namespace TreeBackend

mutual

/-- The temporaries of an expression, fields left out. -/
def Expr.locals : Expr → List String
  | .const .. | .name .. | .temp _ _ true => []
  | .temp _ x false => [x]
  | .binop _ _ l r => l.locals ++ r.locals
  | .mem _ a => a.locals
  | .eseq _ s e => s.locals ++ e.locals
  | .call _ target args => target.locals ++ Expr.localsAll args

/-- The temporaries of a statement, fields left out. -/
def Stmt.locals : Stmt → List String
  | .label .. | .comment .. | .ret _ none => []
  | .cjump _ e _ _ | .exp _ e | .jump _ e | .ret _ (some e) => e.locals
  | .move _ target source => target.locals ++ source.locals
  | .call _ target args => target.locals ++ Expr.localsAll args
  | .seq _ body => Stmt.localsAll body

/-- The temporaries of a list of expressions. -/
def Expr.localsAll : List Expr → List String
  | [] => []
  | e :: rest => e.locals ++ Expr.localsAll rest

/-- The temporaries of a list of statements. -/
def Stmt.localsAll : List Stmt → List String
  | [] => []
  | s :: rest => s.locals ++ Stmt.localsAll rest

end

@[simp] theorem Stmt.localsAll_nil : Stmt.localsAll [] = [] := by rw [Stmt.localsAll]

@[simp] theorem Stmt.localsAll_cons (s : Stmt) (rest : List Stmt) :
    Stmt.localsAll (s :: rest) = s.locals ++ Stmt.localsAll rest := by rw [Stmt.localsAll]

@[simp] theorem Stmt.localsAll_append (a b : List Stmt) :
    Stmt.localsAll (a ++ b) = Stmt.localsAll a ++ Stmt.localsAll b := by
  induction a with
  | nil => rw [Stmt.localsAll_nil, List.nil_append, List.nil_append]
  | cons s rest ih => rw [List.cons_append, localsAll_cons, localsAll_cons, ih, List.append_assoc]

@[simp] theorem Expr.localsAll_nil : Expr.localsAll [] = [] := by rw [Expr.localsAll]

@[simp] theorem Expr.localsAll_cons (e : Expr) (rest : List Expr) :
    Expr.localsAll (e :: rest) = e.locals ++ Expr.localsAll rest := by rw [Expr.localsAll]

/-! ## Supplies only shrink -/

namespace Supply

/-- The second supply is what is left of the first after some use. -/
structure Leads (σ τ : Supply) : Prop where
  scope : τ.scope = σ.scope
  node : σ.nextNode ≤ τ.nextNode
  temp : σ.nextTemp ≤ τ.nextTemp

theorem Leads.refl (σ : Supply) : Leads σ σ := ⟨rfl, Nat.le_refl _, Nat.le_refl _⟩

theorem Leads.trans {σ τ υ : Supply} (h : Leads σ τ) (k : Leads τ υ) : Leads σ υ :=
  ⟨k.scope.trans h.scope, Nat.le_trans h.node k.node, Nat.le_trans h.temp k.temp⟩

theorem leads_parked (σ : Supply) : Leads σ σ.parked :=
  ⟨rfl, Nat.le_add_right _ _, Nat.le_add_right _ _⟩

theorem leads_numbered (σ : Supply) : Leads σ σ.numbered :=
  ⟨rfl, Nat.le_add_right _ _, Nat.le_refl _⟩

/-- Names of temporaries that are made up between two supplies. -/
def Minted (σ τ : Supply) (x : String) : Prop :=
  ∃ k, σ.nextTemp ≤ k ∧ k < τ.nextTemp ∧ x = tempName σ.scope k

theorem Minted.mono {σ σ' τ τ' : Supply} {x : String} (h : Minted σ' τ x) (hσ : Leads σ σ')
    (hτ : Leads τ τ') : Minted σ τ' x := by
  obtain ⟨k, hk, hkτ, rfl⟩ := h
  exact ⟨k, Nat.le_trans hσ.temp hk, Nat.lt_of_lt_of_le hkτ hτ.temp, by rw [hσ.scope]⟩

theorem minted_temp (σ : Supply) : Minted σ σ.parked σ.temp :=
  ⟨σ.nextTemp, Nat.le_refl _, Nat.lt_succ_self _, rfl⟩

/-- The temporaries that code lowered between two supplies may have, when the tree
has the given ones. -/
def Known (σ τ : Supply) (names : List String) (x : String) : Prop :=
  x ∈ names ∨ x = Reserved.result ∨ Minted σ τ x

theorem Known.mono {σ σ' τ τ' : Supply} {names names' : List String} {x : String}
    (h : Known σ' τ names x) (hσ : Leads σ σ') (hτ : Leads τ τ') (hsub : names ⊆ names') :
    Known σ τ' names' x := by
  rcases h with h | h | h
  · exact Or.inl (hsub h)
  · exact Or.inr (Or.inl h)
  · exact Or.inr (Or.inr (h.mono hσ hτ))

/-- The name of a parked value is known wherever the value is parked. -/
theorem known_temp {σ τ υ : Supply} {names : List String} (hσ : Leads σ τ) (hτ : Leads τ.parked υ) :
    Known σ υ names τ.temp := Or.inr (Or.inr ((minted_temp τ).mono hσ hτ))

/-- All the temporaries are such as code lowered between the two supplies may have. -/
def KnownAll (σ τ : Supply) (names xs : List String) : Prop := ∀ x ∈ xs, Known σ τ names x

section
variable {σ τ : Supply} {names xs ys : List String} {x : String}

theorem knownAll_nil : KnownAll σ τ names [] := List.forall_mem_nil _

theorem knownAll_cons : KnownAll σ τ names (x :: xs) ↔ Known σ τ names x ∧ KnownAll σ τ names xs :=
  List.forall_mem_cons

theorem knownAll_append :
    KnownAll σ τ names (xs ++ ys) ↔ KnownAll σ τ names xs ∧ KnownAll σ τ names ys :=
  List.forall_mem_append

theorem knownAll_names : KnownAll σ τ names names := fun _ hx => Or.inl hx

theorem KnownAll.mono {σ' τ' : Supply} {names' : List String} (h : KnownAll σ' τ names xs)
    (hσ : Leads σ σ') (hτ : Leads τ τ') (hsub : names ⊆ names') : KnownAll σ τ' names' xs :=
  fun x hx => (h x hx).mono hσ hτ hsub

end

end Supply

open Supply

theorem Supply.locals_fill (σ : Supply) (value : Expr) :
    (σ.fill value).locals = σ.temp :: value.locals := by
  simp [fill, Stmt.locals, Expr.locals]

theorem Supply.locals_reader (σ : Supply) (x : String) : (σ.reader x).locals = [x] := by
  simp [reader, Expr.locals]

/-! ## What lowering mentions -/

mutual

/-- **Lowering an expression mentions only known temporaries.** -/
theorem Expr.lower_locals : ∀ (e : Expr) {σ σ' : Supply} {before : List Stmt} {e' : Expr},
    e.lower σ = .ok (before, e') σ' → Leads σ σ' ∧
      KnownAll σ σ' e.locals (Stmt.localsAll before ++ e'.locals)
  | .const .., σ, σ', before, e', h | .name .., σ, σ', before, e', h
  | .temp .., σ, σ', before, e', h => by
    obtain ⟨rfl, rfl, rfl⟩ := Expr.lower_leaf rfl h
    rw [Stmt.localsAll_nil]
    exact ⟨.refl _, knownAll_names⟩
  | .binop id op l r, σ, σ', before, e', h => by
    obtain ⟨first, l', σ₁, second, r', σ₂, hl, hr, hcase⟩ := Expr.lower_binop h
    obtain ⟨hleads₁, hknown₁⟩ := Expr.lower_locals l hl
    obtain ⟨hleads₂, hknown₂⟩ := Expr.lower_locals r hr
    have hend : Leads σ₂ σ' := by
      rcases hcase with ⟨-, -, -, rfl⟩ | ⟨-, -, -, rfl⟩
      · exact .refl _
      · exact (leads_parked σ₂).trans (leads_numbered _)
    have hleft := knownAll_append.mp
      (hknown₁.mono (.refl _) (hleads₂.trans hend) (List.subset_append_left _ r.locals))
    have hright := knownAll_append.mp
      (hknown₂.mono hleads₁ hend (List.subset_append_right l.locals _))
    refine ⟨(hleads₁.trans hleads₂).trans hend, ?_⟩
    rw [Expr.locals]
    rcases hcase with ⟨rfl, rfl, rfl, rfl⟩ | ⟨-, rfl, rfl, rfl⟩
    · rw [Expr.locals, knownAll_append, knownAll_append]
      exact ⟨hleft.1, hleft.2, hright.2⟩
    · have htemp : Known σ σ₂.parked.numbered (l.locals ++ r.locals) σ₂.temp :=
        known_temp (hleads₁.trans hleads₂) (leads_numbered _)
      simp only [Stmt.localsAll_append, Stmt.localsAll_cons, locals_fill, Expr.locals,
        locals_reader, knownAll_append, knownAll_cons]
      exact ⟨⟨hleft.1, ⟨htemp, hleft.2⟩, hright.1⟩, ⟨htemp, knownAll_nil⟩, hright.2⟩
  | .mem id a, σ, σ', before, e', h => by
    obtain ⟨a', ha, rfl⟩ := Expr.lower_mem h
    simpa only [Expr.locals] using Expr.lower_locals a ha
  | .eseq id s e, σ, σ', before, e', h => by
    obtain ⟨first, σ₁, second, hs, he, rfl⟩ := Expr.lower_eseq h
    obtain ⟨hleads₁, hknown₁⟩ := Stmt.lower_locals s hs
    obtain ⟨hleads₂, hknown₂⟩ := Expr.lower_locals e he
    refine ⟨hleads₁.trans hleads₂, ?_⟩
    rw [Expr.locals, Stmt.localsAll_append, List.append_assoc, knownAll_append]
    exact ⟨hknown₁.mono (.refl _) hleads₂ (List.subset_append_left _ _),
      hknown₂.mono hleads₁ (.refl _) (List.subset_append_right _ _)⟩
  | .call id target args, σ, σ', before, e', h => by
    obtain ⟨first, temps, σ₁, second, target', σ₂, ha, ht, rfl, rfl, rfl⟩ := Expr.lower_call h
    obtain ⟨hleads₁, hknown₁⟩ := Expr.lowerArguments_locals args ha
    obtain ⟨hleads₂, hknown₂⟩ := Expr.lower_locals target ht
    have hargs := knownAll_append.mp (hknown₁.mono (.refl _) (hleads₂.trans (leads_numbered _))
      (List.subset_append_right target.locals _))
    have htarget := knownAll_append.mp (hknown₂.mono hleads₁ (leads_numbered _)
      (List.subset_append_left _ (Expr.localsAll args)))
    refine ⟨(hleads₁.trans hleads₂).trans (leads_numbered _), ?_⟩
    rw [Expr.locals]
    simp only [Stmt.localsAll_append, Stmt.localsAll_cons, Stmt.localsAll_nil, Stmt.locals,
      locals_reader, knownAll_append, knownAll_cons]
    exact ⟨⟨⟨hargs.1, htarget.1⟩, ⟨htarget.2, hargs.2⟩, knownAll_nil⟩, Or.inr (Or.inl rfl),
      knownAll_nil⟩
termination_by structural e => e

/-- Lowering arguments mentions only known temporaries. -/
theorem Expr.lowerArguments_locals : ∀ (args : List Expr) {σ σ' : Supply} {before : List Stmt}
    {temps : List Expr}, Expr.lowerArguments args σ = .ok (before, temps) σ' → Leads σ σ' ∧
      KnownAll σ σ' (Expr.localsAll args) (Stmt.localsAll before ++ Expr.localsAll temps)
  | [], σ, σ', before, temps, h => by
    obtain ⟨rfl, rfl, rfl⟩ := Expr.lowerArguments_nil h
    exact ⟨.refl _, knownAll_nil⟩
  | a :: rest, σ, σ', before, temps, h => by
    obtain ⟨first, a', σ₁, second, temps', ha, hr, rfl, rfl⟩ := Expr.lowerArguments_cons h
    obtain ⟨hleads₁, hknown₁⟩ := Expr.lower_locals a ha
    obtain ⟨hleads₂, hknown₂⟩ := Expr.lowerArguments_locals rest hr
    have hmid := (leads_parked σ₁).trans (leads_numbered _)
    have htemp : Known σ σ' (a.locals ++ Expr.localsAll rest) σ₁.temp :=
      known_temp hleads₁ ((leads_numbered _).trans hleads₂)
    have hfirst := knownAll_append.mp (hknown₁.mono (.refl _) (hmid.trans hleads₂)
      (List.subset_append_left _ (Expr.localsAll rest)))
    have hrest := knownAll_append.mp
      (hknown₂.mono (hleads₁.trans hmid) (.refl _) (List.subset_append_right a.locals _))
    refine ⟨(hleads₁.trans hmid).trans hleads₂, ?_⟩
    simp only [Stmt.localsAll_append, Stmt.localsAll_cons, Expr.localsAll_cons, locals_fill,
      locals_reader, knownAll_append, knownAll_cons]
    exact ⟨⟨hfirst.1, ⟨htemp, hfirst.2⟩, hrest.1⟩, ⟨htemp, knownAll_nil⟩, hrest.2⟩
termination_by structural args => args

/-- **Lowering a statement mentions only known temporaries.** -/
theorem Stmt.lower_locals : ∀ (s : Stmt) {σ σ' : Supply} {body : List Stmt},
    s.lower σ = .ok body σ' → Leads σ σ' ∧ KnownAll σ σ' s.locals (Stmt.localsAll body)
  | .label .., σ, σ', body, h | .comment .., σ, σ', body, h | .ret _ none, σ, σ', body, h => by
    simp only [Stmt.lower] at h
    cases h
    exact ⟨.refl _, knownAll_nil⟩
  | .cjump id c t f, σ, σ', body, h => by
    obtain ⟨before, c', hc, rfl⟩ := Stmt.lower_cjump h
    simpa [Stmt.locals] using Expr.lower_locals c hc
  | .exp id e, σ, σ', body, h => by
    obtain ⟨before, e', he, hcase⟩ := Stmt.lower_exp h
    obtain ⟨hleads, hknown⟩ := Expr.lower_locals e he
    refine ⟨hleads, ?_⟩
    rw [Stmt.locals]
    rcases hcase with ⟨-, rfl⟩ | ⟨-, rfl⟩
    · exact (knownAll_append.mp hknown).1
    · simpa [Stmt.locals] using hknown
  | .jump id target, σ, σ', body, h => by
    obtain ⟨before, target', ht, rfl⟩ := Stmt.lower_jump h
    simpa [Stmt.locals] using Expr.lower_locals target ht
  | .ret id (some e), σ, σ', body, h => by
    obtain ⟨before, e', he, rfl⟩ := Stmt.lower_ret h
    simpa [Stmt.locals] using Expr.lower_locals e he
  | .seq id children, σ, σ', body, h => by
    simpa [Stmt.locals] using Stmt.lowerAll_locals children (Stmt.lower_seq h)
  | .call id target args, σ, σ', body, h => by
    obtain ⟨first, temps, σ₁, second, target', ha, ht, rfl⟩ := Stmt.lower_call h
    obtain ⟨hleads₁, hknown₁⟩ := Expr.lowerArguments_locals args ha
    obtain ⟨hleads₂, hknown₂⟩ := Expr.lower_locals target ht
    have hargs := knownAll_append.mp
      (hknown₁.mono (.refl _) hleads₂ (List.subset_append_right target.locals _))
    have htarget := knownAll_append.mp
      (hknown₂.mono hleads₁ (.refl _) (List.subset_append_left _ (Expr.localsAll args)))
    refine ⟨hleads₁.trans hleads₂, ?_⟩
    simp only [Stmt.localsAll_append, Stmt.localsAll_cons, Stmt.localsAll_nil, Stmt.locals,
      knownAll_append]
    exact ⟨⟨hargs.1, htarget.1⟩, ⟨htarget.2, hargs.2⟩, knownAll_nil⟩
  | .move id (.temp cell y g) source, σ, σ', body, h => by
    obtain ⟨before, source', hs, rfl⟩ := Stmt.lower_move_temp h
    obtain ⟨hleads, hknown⟩ := Expr.lower_locals source hs
    have hsource := knownAll_append.mp (hknown.mono (.refl _) (.refl _)
      (List.subset_append_right (Expr.temp cell y g).locals _))
    refine ⟨hleads, ?_⟩
    simp only [Stmt.localsAll_append, Stmt.localsAll_cons, Stmt.localsAll_nil, Stmt.locals,
      knownAll_append]
    exact ⟨hsource.1, ⟨knownAll_names.mono (.refl _) (.refl _) (List.subset_append_left _ _),
      hsource.2⟩, knownAll_nil⟩
  | .move id (.mem cell a) source, σ, σ', body, h => by
    obtain ⟨first, a', σ₁, second, source', σ₂, ha, hs, rfl, rfl⟩ := Stmt.lower_move_mem h
    obtain ⟨hleads₁, hknown₁⟩ := Expr.lower_locals a ha
    obtain ⟨hleads₂, hknown₂⟩ := Expr.lower_locals source hs
    have hmid := hleads₁.trans (leads_parked σ₁)
    have hend := (leads_numbered σ₂.parked).trans (leads_numbered _)
    have hrest := hleads₂.trans ((leads_parked σ₂).trans hend)
    have htemp₁ : Known σ σ₂.parked.numbered.numbered (a.locals ++ source.locals) σ₁.temp :=
      known_temp hleads₁ hrest
    have htemp₂ : Known σ σ₂.parked.numbered.numbered (a.locals ++ source.locals) σ₂.temp :=
      known_temp (hmid.trans hleads₂) hend
    have haddress := knownAll_append.mp (hknown₁.mono (.refl _) ((leads_parked σ₁).trans hrest)
      (List.subset_append_left _ source.locals))
    have hvalue := knownAll_append.mp (hknown₂.mono hmid ((leads_parked σ₂).trans hend)
      (List.subset_append_right a.locals _))
    refine ⟨hmid.trans hrest, ?_⟩
    simp only [Stmt.localsAll_append, Stmt.localsAll_cons, Stmt.localsAll_nil, Stmt.locals,
      Expr.locals, locals_fill, locals_reader, knownAll_append, knownAll_cons]
    exact ⟨⟨haddress.1, ⟨htemp₁, haddress.2⟩, hvalue.1⟩, ⟨htemp₂, hvalue.2⟩,
      ⟨⟨htemp₁, knownAll_nil⟩, htemp₂, knownAll_nil⟩, knownAll_nil⟩
  | .move id (.const ..) _, σ, σ', body, h | .move id (.name ..) _, σ, σ', body, h
  | .move id (.binop ..) _, σ, σ', body, h | .move id (.eseq ..) _, σ, σ', body, h
  | .move id (.call ..) _, σ, σ', body, h => by
    simp only [Stmt.lower] at h
    cases h
termination_by structural s => s

/-- Lowering statements mentions only known temporaries. -/
theorem Stmt.lowerAll_locals : ∀ (children : List Stmt) {σ σ' : Supply} {body : List Stmt},
    Stmt.lowerAll children σ = .ok body σ' → Leads σ σ' ∧
      KnownAll σ σ' (Stmt.localsAll children) (Stmt.localsAll body)
  | [], σ, σ', body, h => by
    obtain ⟨rfl, rfl⟩ := Stmt.lowerAll_nil h
    exact ⟨.refl _, knownAll_nil⟩
  | s :: rest, σ, σ', body, h => by
    obtain ⟨first, σ₁, more, hs, hr, rfl⟩ := Stmt.lowerAll_cons h
    obtain ⟨hleads₁, hknown₁⟩ := Stmt.lower_locals s hs
    obtain ⟨hleads₂, hknown₂⟩ := Stmt.lowerAll_locals rest hr
    refine ⟨hleads₁.trans hleads₂, ?_⟩
    rw [Stmt.localsAll_append, Stmt.localsAll_cons, knownAll_append]
    exact ⟨hknown₁.mono (.refl _) hleads₂ (List.subset_append_left _ _),
      hknown₂.mono hleads₁ (.refl _) (List.subset_append_right _ _)⟩
termination_by structural children => children

end

end TreeBackend
