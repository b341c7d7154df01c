import TreeBackend.Program.Symbols
import TreeBackend.Proofs.Lexemes
import TreeBackend.Proofs.Lowering.Identity

/-!
# The lexemes of lowered trees

Lowering brings nothing new into a tree but temporaries: the one of call results, and those that
the supply makes up.  So it keeps within every vocabulary that has these.

* `Expr.lower_within`, `Stmt.lower_within`: **lowering keeps within the vocabulary.**
* `Stmt.canonical_within`, `Field.canonical_within`, `Function.canonical_within`: so does making
  trees canonical.
* `Stmt.references_within`: what a tree refers to is among its lexemes.
-/

namespace TreeBackend

variable {V : Lexeme → Prop}

/-- The vocabulary has the temporaries that lowering makes use of. -/
structure Supply.Mints (V : Lexeme → Prop) (σ : Supply) : Prop where
  result : V (.temp Reserved.result)
  temps : ∀ n, V (.temp (tempName σ.scope n))

namespace Supply

variable {σ τ : Supply}

theorem Mints.leads (h : σ.Mints V) (hleads : Leads σ τ) : τ.Mints V :=
  ⟨h.result, fun n => hleads.scope ▸ h.temps n⟩

theorem Mints.temp (h : σ.Mints V) : V (.temp σ.temp) := h.temps _

theorem Mints.fill (h : σ.Mints V) {value : Expr} (hv : value.Within V) :
    (σ.fill value).Within V := Stmt.within_move.mpr ⟨Expr.within_temp.mpr h.temp, hv⟩

theorem within_reader {x : String} (h : V (.temp x)) : (σ.reader x).Within V :=
  Expr.within_temp.mpr h

end Supply

open Supply

/-! ## Lowering -/

mutual

/-- **Lowering an expression keeps within the vocabulary.** -/
theorem Expr.lower_within : ∀ (e : Expr) {σ σ' : Supply} {before : List Stmt} {e' : Expr},
    σ.Mints V → e.Within V → e.lower σ = .ok (before, e') σ' →
      (∀ s ∈ before, s.Within V) ∧ e'.Within V ∧ σ'.Mints V
  | .const .., σ, σ', before, e', hσ, he, h | .name .., σ, σ', before, e', hσ, he, h
  | .temp .., σ, σ', before, e', hσ, he, h => by
    obtain ⟨rfl, rfl, rfl⟩ := Expr.lower_leaf rfl h
    exact ⟨List.forall_mem_nil _, he, hσ⟩
  | .binop id op l r, σ, σ', before, e', hσ, he, h => by
    obtain ⟨hl, hr⟩ := Expr.within_binop.mp he
    obtain ⟨first, l', σ₁, second, r', σ₂, hlower, hrlower, hcase⟩ := Expr.lower_binop h
    obtain ⟨hfirst, hl', hσ₁⟩ := Expr.lower_within l hσ hl hlower
    obtain ⟨hsecond, hr', hσ₂⟩ := Expr.lower_within r hσ₁ hr hrlower
    rcases hcase with ⟨rfl, rfl, rfl, rfl⟩ | ⟨-, rfl, rfl, rfl⟩
    · exact ⟨hfirst, Expr.within_binop.mpr ⟨hl', hr'⟩, hσ₂⟩
    · refine ⟨?_, Expr.within_binop.mpr ⟨within_reader hσ₂.temp, hr'⟩, hσ₂.leads ?_⟩
      · exact List.forall_mem_append.mpr
          ⟨hfirst, List.forall_mem_cons.mpr ⟨hσ₂.fill hl', hsecond⟩⟩
      · exact (leads_parked σ₂).trans (leads_numbered _)
  | .mem id a, σ, σ', before, e', hσ, he, h => by
    obtain ⟨a', ha, rfl⟩ := Expr.lower_mem h
    obtain ⟨hbefore, ha', hσ'⟩ := Expr.lower_within a hσ (Expr.within_mem.mp he) ha
    exact ⟨hbefore, Expr.within_mem.mpr ha', hσ'⟩
  | .eseq id s e, σ, σ', before, e', hσ, he, h => by
    obtain ⟨hs, hv⟩ := Expr.within_eseq.mp he
    obtain ⟨first, σ₁, second, hslower, helower, rfl⟩ := Expr.lower_eseq h
    obtain ⟨hfirst, hσ₁⟩ := Stmt.lower_within s hσ hs hslower
    obtain ⟨hsecond, he', hσ'⟩ := Expr.lower_within e hσ₁ hv helower
    exact ⟨List.forall_mem_append.mpr ⟨hfirst, hsecond⟩, he', hσ'⟩
  | .call id target args, σ, σ', before, e', hσ, he, h => by
    obtain ⟨ht, ha⟩ := Expr.within_call.mp he
    obtain ⟨first, temps, σ₁, second, target', σ₂, halower, htlower, rfl, rfl, rfl⟩ :=
      Expr.lower_call h
    obtain ⟨hfirst, htemps, hσ₁⟩ := Expr.lowerArguments_within args hσ ha halower
    obtain ⟨hsecond, ht', hσ₂⟩ := Expr.lower_within target hσ₁ ht htlower
    refine ⟨?_, within_reader hσ₂.result, hσ₂.leads (leads_numbered σ₂)⟩
    exact List.forall_mem_append.mpr ⟨List.forall_mem_append.mpr ⟨hfirst, hsecond⟩,
      List.forall_mem_singleton.mpr (Stmt.within_call.mpr ⟨ht', htemps⟩)⟩
termination_by structural e => e

theorem Expr.lowerArguments_within : ∀ (args : List Expr) {σ σ' : Supply} {before : List Stmt}
    {temps : List Expr}, σ.Mints V → (∀ a ∈ args, a.Within V) →
      Expr.lowerArguments args σ = .ok (before, temps) σ' →
        (∀ s ∈ before, s.Within V) ∧ (∀ t ∈ temps, t.Within V) ∧ σ'.Mints V
  | [], σ, σ', before, temps, hσ, _, h => by
    obtain ⟨rfl, rfl, rfl⟩ := Expr.lowerArguments_nil h
    exact ⟨List.forall_mem_nil _, List.forall_mem_nil _, hσ⟩
  | a :: rest, σ, σ', before, temps, hσ, hargs, h => by
    obtain ⟨ha, hrest⟩ := List.forall_mem_cons.mp hargs
    obtain ⟨first, a', σ₁, second, temps', halower, hrlower, rfl, rfl⟩ :=
      Expr.lowerArguments_cons h
    obtain ⟨hfirst, ha', hσ₁⟩ := Expr.lower_within a hσ ha halower
    have hmid := hσ₁.leads ((leads_parked σ₁).trans (leads_numbered _))
    obtain ⟨hsecond, htemps, hσ'⟩ := Expr.lowerArguments_within rest hmid hrest hrlower
    refine ⟨?_, List.forall_mem_cons.mpr ⟨within_reader hσ₁.temp, htemps⟩, hσ'⟩
    exact List.forall_mem_append.mpr ⟨hfirst, List.forall_mem_cons.mpr ⟨hσ₁.fill ha', hsecond⟩⟩
termination_by structural args => args

/-- **Lowering a statement keeps within the vocabulary.** -/
theorem Stmt.lower_within : ∀ (s : Stmt) {σ σ' : Supply} {body : List Stmt},
    σ.Mints V → s.Within V → s.lower σ = .ok body σ' →
      (∀ t ∈ body, t.Within V) ∧ σ'.Mints V
  | .label .., σ, σ', body, hσ, hs, h | .comment .., σ, σ', body, hσ, hs, h
  | .ret _ none, σ, σ', body, hσ, hs, h => by
    simp only [Stmt.lower] at h
    cases h
    exact ⟨List.forall_mem_singleton.mpr hs, hσ⟩
  | .cjump id c t f, σ, σ', body, hσ, hs, h => by
    obtain ⟨ht, hc⟩ := Stmt.within_cjump.mp hs
    obtain ⟨before, c', hclower, rfl⟩ := Stmt.lower_cjump h
    obtain ⟨hbefore, hc', hσ'⟩ := Expr.lower_within c hσ hc hclower
    exact ⟨List.forall_mem_append.mpr
      ⟨hbefore, List.forall_mem_singleton.mpr (Stmt.within_cjump.mpr ⟨ht, hc'⟩)⟩, hσ'⟩
  | .exp id e, σ, σ', body, hσ, hs, h => by
    obtain ⟨before, e', helower, hcase⟩ := Stmt.lower_exp h
    obtain ⟨hbefore, he', hσ'⟩ := Expr.lower_within e hσ (Stmt.within_exp.mp hs) helower
    rcases hcase with ⟨-, rfl⟩ | ⟨-, rfl⟩
    · exact ⟨hbefore, hσ'⟩
    · exact ⟨List.forall_mem_append.mpr
        ⟨hbefore, List.forall_mem_singleton.mpr (Stmt.within_exp.mpr he')⟩, hσ'⟩
  | .jump id target, σ, σ', body, hσ, hs, h => by
    obtain ⟨before, target', htlower, rfl⟩ := Stmt.lower_jump h
    obtain ⟨hbefore, ht', hσ'⟩ := Expr.lower_within target hσ (Stmt.within_jump.mp hs) htlower
    exact ⟨List.forall_mem_append.mpr
      ⟨hbefore, List.forall_mem_singleton.mpr (Stmt.within_jump.mpr ht')⟩, hσ'⟩
  | .ret id (some e), σ, σ', body, hσ, hs, h => by
    obtain ⟨before, e', helower, rfl⟩ := Stmt.lower_ret h
    obtain ⟨hbefore, he', hσ'⟩ := Expr.lower_within e hσ (Stmt.within_ret.mp hs) helower
    exact ⟨List.forall_mem_append.mpr
      ⟨hbefore, List.forall_mem_singleton.mpr (Stmt.within_ret.mpr he')⟩, hσ'⟩
  | .seq id children, σ, σ', body, hσ, hs, h =>
    Stmt.lowerAll_within children hσ (Stmt.within_seq.mp hs) (Stmt.lower_seq h)
  | .call id target args, σ, σ', body, hσ, hs, h => by
    obtain ⟨ht, ha⟩ := Stmt.within_call.mp hs
    obtain ⟨first, temps, σ₁, second, target', halower, htlower, rfl⟩ := Stmt.lower_call h
    obtain ⟨hfirst, htemps, hσ₁⟩ := Expr.lowerArguments_within args hσ ha halower
    obtain ⟨hsecond, ht', hσ'⟩ := Expr.lower_within target hσ₁ ht htlower
    exact ⟨List.forall_mem_append.mpr ⟨List.forall_mem_append.mpr ⟨hfirst, hsecond⟩,
      List.forall_mem_singleton.mpr (Stmt.within_call.mpr ⟨ht', htemps⟩)⟩, hσ'⟩
  | .move id (.temp cell y g) source, σ, σ', body, hσ, hs, h => by
    obtain ⟨ht, hsource⟩ := Stmt.within_move.mp hs
    obtain ⟨before, source', hslower, rfl⟩ := Stmt.lower_move_temp h
    obtain ⟨hbefore, hs', hσ'⟩ := Expr.lower_within source hσ hsource hslower
    exact ⟨List.forall_mem_append.mpr
      ⟨hbefore, List.forall_mem_singleton.mpr (Stmt.within_move.mpr ⟨ht, hs'⟩)⟩, hσ'⟩
  | .move id (.mem cell a) source, σ, σ', body, hσ, hs, h => by
    obtain ⟨ht, hsource⟩ := Stmt.within_move.mp hs
    obtain ⟨first, a', σ₁, second, source', σ₂, halower, hslower, rfl, rfl⟩ :=
      Stmt.lower_move_mem h
    obtain ⟨hfirst, ha', hσ₁⟩ := Expr.lower_within a hσ (Expr.within_mem.mp ht) halower
    obtain ⟨hsecond, hs', hσ₂⟩ :=
      Expr.lower_within source (hσ₁.leads (leads_parked σ₁)) hsource hslower
    have hstore : (Stmt.move id (.mem cell (σ₂.parked.reader σ₁.temp))
        (σ₂.parked.numbered.reader σ₂.temp)).Within V :=
      Stmt.within_move.mpr ⟨Expr.within_mem.mpr (within_reader hσ₁.temp), within_reader hσ₂.temp⟩
    refine ⟨List.forall_mem_append.mpr ⟨List.forall_mem_append.mpr
      ⟨hfirst, List.forall_mem_cons.mpr ⟨hσ₁.fill ha', hsecond⟩⟩, ?_⟩, hσ₂.leads ?_⟩
    · exact List.forall_mem_cons.mpr ⟨hσ₂.fill hs', List.forall_mem_singleton.mpr hstore⟩
    · exact ((leads_parked σ₂).trans (leads_numbered _)).trans (leads_numbered _)
  | .move id (.const ..) _, σ, σ', body, _, _, h | .move id (.name ..) _, σ, σ', body, _, _, h
  | .move id (.binop ..) _, σ, σ', body, _, _, h | .move id (.eseq ..) _, σ, σ', body, _, _, h
  | .move id (.call ..) _, σ, σ', body, _, _, h => by
    simp only [Stmt.lower] at h
    cases h
termination_by structural s => s

theorem Stmt.lowerAll_within : ∀ (children : List Stmt) {σ σ' : Supply} {body : List Stmt},
    σ.Mints V → (∀ s ∈ children, s.Within V) → Stmt.lowerAll children σ = .ok body σ' →
      (∀ t ∈ body, t.Within V) ∧ σ'.Mints V
  | [], σ, σ', body, hσ, _, h => by
    obtain ⟨rfl, rfl⟩ := Stmt.lowerAll_nil h
    exact ⟨List.forall_mem_nil _, hσ⟩
  | s :: rest, σ, σ', body, hσ, hall, h => by
    obtain ⟨hs, hrest⟩ := List.forall_mem_cons.mp hall
    obtain ⟨first, σ₁, more, hslower, hrlower, rfl⟩ := Stmt.lowerAll_cons h
    obtain ⟨hfirst, hσ₁⟩ := Stmt.lower_within s hσ hs hslower
    obtain ⟨hmore, hσ'⟩ := Stmt.lowerAll_within rest hσ₁ hrest hrlower
    exact ⟨List.forall_mem_append.mpr ⟨hfirst, hmore⟩, hσ'⟩
termination_by structural children => children

end

/-! ## Canonical trees -/

section
variable {σ τ : Supply}

/-- **Making a tree canonical keeps within the vocabulary.** -/
theorem Stmt.canonical_within {s B : Stmt} (hσ : σ.Mints V) (hs : s.Within V)
    (h : s.canonical σ = .ok B τ) : B.Within V ∧ τ.Mints V := by
  obtain ⟨body, σ₁, hlower, hleads, hcase⟩ := Stmt.canonical_cases h
  obtain ⟨hbody, hσ₁⟩ := Stmt.lower_within s hσ hs hlower
  refine ⟨?_, hσ₁.leads hleads⟩
  rcases hcase with ⟨id, children, -, rfl⟩ | rfl | ⟨rfl, -⟩
  · exact within_seq.mpr hbody
  · exact List.forall_mem_singleton.mp hbody
  · exact within_seq.mpr hbody

theorem Function.canonical_within {f f' : Function} (hσ : σ.Mints V) (hf : f.body.Within V)
    (h : f.canonical σ = .ok f' τ) :
    (f'.label = f.label ∧ f'.body.Within V) ∧ τ.Mints V := by
  obtain ⟨body, hbody, rfl⟩ := Function.canonical_body h
  obtain ⟨hwithin, hτ⟩ := Stmt.canonical_within hσ hf hbody
  exact ⟨⟨rfl, hwithin⟩, hτ⟩

theorem Field.canonical_within {f : Field} {B : Stmt} (hσ : σ.Mints V) (hname : V (.name f.name))
    (hinit : f.init.Within V) (h : f.canonical σ = .ok B τ) : B.Within V ∧ τ.Mints V := by
  obtain ⟨before, value, σ₁, hlower, rfl, rfl⟩ := Field.canonical_store h
  obtain ⟨hbefore, hvalue, hσ₁⟩ := Expr.lower_within f.init hσ hinit hlower
  refine ⟨Stmt.within_seq.mpr (List.forall_mem_append.mpr ⟨hbefore, ?_⟩), hσ₁.leads ?_⟩
  · exact List.forall_mem_singleton.mpr
      (Stmt.within_move.mpr ⟨Expr.within_field.mpr hname, hvalue⟩)
  · exact ((leads_numbered σ₁).trans (leads_numbered _)).trans (leads_numbered _)

/-- Each result of a list of steps satisfies what the steps make sure of, if the supply mints
within the vocabulary from the start. -/
theorem Supply.Mints.mapM {α β : Type} {f : α → Lowering β} {P : β → Prop} {as : List α}
    {bs : List β} (hσ : σ.Mints V)
    (hf : ∀ a ∈ as, ∀ (σ τ : Supply) (b : β), σ.Mints V → f a σ = .ok b τ → P b ∧ τ.Mints V)
    (h : as.mapM f σ = .ok bs τ) : (∀ b ∈ bs, P b) ∧ τ.Mints V := by
  induction as generalizing σ bs with
  | nil =>
      cases h
      exact ⟨List.forall_mem_nil _, hσ⟩
  | cons a rest ih =>
      obtain ⟨hfirst, hrest⟩ := List.forall_mem_cons.mp hf
      obtain ⟨b, σ₁, more, hb, hmore, rfl⟩ := ok_of_mapM_cons h
      obtain ⟨hP, hσ₁⟩ := hfirst _ _ _ hσ hb
      obtain ⟨hmoreP, hτ⟩ := ih hσ₁ hrest hmore
      exact ⟨List.forall_mem_cons.mpr ⟨hP, hmoreP⟩, hτ⟩

end

/-! ## References -/

mutual

/-- **The symbols that a tree refers to are among its lexemes.** -/
theorem Expr.references_within : ∀ e : Expr, e.Within V → ∀ s ∈ e.references, V (.name s)
  | .const .., _ | .name _ _ false, _ | .temp _ _ false, _ => List.forall_mem_nil _
  | .name _ _ true, h => List.forall_mem_singleton.mpr (Expr.within_name.mp h)
  | .temp _ _ true, h => List.forall_mem_singleton.mpr (Expr.within_field.mp h)
  | .binop _ _ l r, h =>
    List.forall_mem_append.mpr ⟨Expr.references_within l (Expr.within_binop.mp h).1,
      Expr.references_within r (Expr.within_binop.mp h).2⟩
  | .mem _ a, h => Expr.references_within a (Expr.within_mem.mp h)
  | .call _ target args, h =>
    List.forall_mem_append.mpr ⟨Expr.references_within target (Expr.within_call.mp h).1,
      Expr.referencesAll_within args (Expr.within_call.mp h).2⟩
  | .eseq _ s e, h =>
    List.forall_mem_append.mpr ⟨Stmt.references_within s (Expr.within_eseq.mp h).1,
      Expr.references_within e (Expr.within_eseq.mp h).2⟩

theorem Stmt.references_within : ∀ s : Stmt, s.Within V → ∀ x ∈ s.references, V (.name x)
  | .label .., _ | .comment .., _ | .ret _ none, _ => List.forall_mem_nil _
  | .cjump _ e _ _, h => Expr.references_within e (Stmt.within_cjump.mp h).2
  | .exp _ e, h => Expr.references_within e (Stmt.within_exp.mp h)
  | .jump _ e, h => Expr.references_within e (Stmt.within_jump.mp h)
  | .ret _ (some e), h => Expr.references_within e (Stmt.within_ret.mp h)
  | .move _ target source, h =>
    List.forall_mem_append.mpr ⟨Expr.references_within target (Stmt.within_move.mp h).1,
      Expr.references_within source (Stmt.within_move.mp h).2⟩
  | .seq _ body, h => Stmt.referencesAll_within body (Stmt.within_seq.mp h)
  | .call _ target args, h => by
    obtain ⟨ht, ha⟩ := Stmt.within_call.mp h
    have hargs := Expr.referencesAll_within args ha
    cases target with
    | name id l g => exact List.forall_mem_cons.mpr ⟨Expr.within_name.mp ht, hargs⟩
    | _ => exact List.forall_mem_append.mpr ⟨Expr.references_within _ ht, hargs⟩

theorem Expr.referencesAll_within : ∀ es : List Expr, (∀ e ∈ es, e.Within V) →
    ∀ s ∈ Expr.referencesAll es, V (.name s)
  | [], _ => List.forall_mem_nil _
  | e :: rest, h =>
    List.forall_mem_append.mpr ⟨Expr.references_within e (h e List.mem_cons_self),
      Expr.referencesAll_within rest fun e he => h e (List.mem_cons_of_mem _ he)⟩

theorem Stmt.referencesAll_within : ∀ ss : List Stmt, (∀ s ∈ ss, s.Within V) →
    ∀ x ∈ Stmt.referencesAll ss, V (.name x)
  | [], _ => List.forall_mem_nil _
  | s :: rest, h =>
    List.forall_mem_append.mpr ⟨Stmt.references_within s (h s List.mem_cons_self),
      Stmt.referencesAll_within rest fun s hs => h s (List.mem_cons_of_mem _ hs)⟩

end

end TreeBackend
