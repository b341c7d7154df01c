import TreeBackend.Proofs.Lowering.Closure

/-!
# Results of calls are read at once

The result of a call stays in one place, which the next call and the code of most operators
write to.  In a tree that does not mention that place, lowering keeps the result safe: the
statement after a call, if any, is the one that reads its result, and reads it before it does
anything else.

* `Expr.Answers`: what is left of a call expression is a call and a node that reads its result.
* `Stmt.Prompt`: statements that read results first, each from the call right in front of it.
* `Expr.lower_prompt`, `Stmt.lower_prompt`: **lowering leaves such statements**, whatever the
  calls and their arguments.
-/

namespace TreeBackend

mutual

/-- The expressions in an expression, itself included. -/
def Expr.parts : Expr → List Expr
  | e@(.const ..) | e@(.name ..) | e@(.temp ..) => [e]
  | e@(.binop _ _ l r) => e :: (l.parts ++ r.parts)
  | e@(.mem _ a) => e :: a.parts
  | e@(.eseq _ s v) => e :: (s.parts ++ v.parts)
  | e@(.call _ target args) => e :: (target.parts ++ Expr.partsAll args)

/-- The expressions in a statement. -/
def Stmt.parts : Stmt → List Expr
  | .label .. | .comment .. | .ret _ none => []
  | .cjump _ e _ _ | .exp _ e | .jump _ e | .ret _ (some e) => e.parts
  | .move _ target source => target.parts ++ source.parts
  | .call _ target args => target.parts ++ Expr.partsAll args
  | .seq _ body => Stmt.partsAll body

/-- The expressions in expressions. -/
def Expr.partsAll : List Expr → List Expr
  | [] => []
  | e :: rest => e.parts ++ Expr.partsAll rest

/-- The expressions in statements. -/
def Stmt.partsAll : List Stmt → List Expr
  | [] => []
  | s :: rest => s.parts ++ Stmt.partsAll rest

end

/-- What is left of a call expression: the call, and a node that reads its result. -/
def Expr.Answers (e : Expr) (call : Stmt) (reader : Expr) : Prop :=
  ∃ id target args target' temps node, e = .call id target args ∧ call = .call id target' temps ∧
    reader = .temp node Reserved.result false ∧
    ∃ σ before σ', e.lower σ = .ok (before ++ [call], reader) σ'

/-- One of the nodes reads the result of the statement in front, and both are what is left of
one of the sources. -/
def Asks (sources : List Expr) (front : Option Stmt) (nodes : List Expr) : Prop :=
  ∃ e ∈ sources, ∃ call, front = some call ∧ ∃ reader ∈ nodes, e.Answers call reader

namespace Stmt

/-- The statement does nothing before it has read the result of a call. -/
def ResultFirst : Stmt → Prop
  | .label .. | .comment .. | .ret _ none => True
  | .cjump _ e _ _ | .exp _ e | .jump _ e | .ret _ (some e) => e.ResultFirst
  | .move _ target source => .result ∉ target.places ∧ source.ResultFirst
  | .call _ target args => target.ResultFirst ∧ .result ∉ Expr.placesAll args
  | .seq .. => False

/-- Statements that read the results of calls before they do anything else, each from the
statement right in front of it. -/
def Prompt (sources : List Expr) : Option Stmt → List Stmt → Prop
  | _, [] => True
  | front, t :: rest =>
    t.ResultFirst ∧ (.result ∈ t.places → Asks sources front t.parts) ∧ Prompt sources (some t) rest

end Stmt

section
variable {sources sources' nodes nodes' : List Expr} {front : Option Stmt}
variable {before after body : List Stmt} {t : Stmt}

theorem Asks.mono (h : Asks sources front nodes) (hs : sources ⊆ sources') (hn : nodes ⊆ nodes') :
    Asks sources' front nodes' := by
  obtain ⟨e, he, call, hcall, reader, hreader, hanswers⟩ := h
  exact ⟨e, hs he, call, hcall, reader, hn hreader, hanswers⟩

theorem not_asks_none : ¬Asks sources none nodes := by
  rintro ⟨e, -, call, hcall, -⟩
  cases hcall

theorem Asks.append (h : Asks sources after.getLast? nodes) (before : List Stmt) :
    Asks sources (before ++ after).getLast? nodes := by
  obtain ⟨e, he, call, hcall, hreader⟩ := h
  refine ⟨e, he, call, ?_, hreader⟩
  rw [List.getLast?_append, hcall]
  rfl

namespace Stmt

theorem Prompt.mono (h : Prompt sources front body) (hs : sources ⊆ sources') :
    Prompt sources' front body := by
  induction body generalizing front with
  | nil => trivial
  | cons t rest ih => exact ⟨h.1, fun hr => (h.2.1 hr).mono hs (List.Subset.refl _), ih h.2.2⟩

/-- What stands in front does not matter to statements that ask for no result from there. -/
theorem Prompt.behind (h : Prompt sources none body) (front : Option Stmt) :
    Prompt sources front body := by
  cases body with
  | nil => trivial
  | cons t rest => exact ⟨h.1, fun hr => absurd (h.2.1 hr) not_asks_none, h.2.2⟩

theorem prompt_append : Prompt sources front (before ++ after) ↔
    Prompt sources front before ∧ Prompt sources (before.getLast?.or front) after := by
  induction before generalizing front with
  | nil => simp [Prompt]
  | cons t rest ih =>
      have hlast : (t :: rest).getLast?.or front = rest.getLast?.or (some t) := by
        cases h : rest.getLast? <;> simp [List.getLast?_cons, h]
      rw [List.cons_append, Prompt, Prompt, ih, hlast, and_assoc, and_assoc]

theorem Prompt.resultFirst (h : Prompt sources front body) : ∀ t ∈ body, t.ResultFirst := by
  induction body generalizing front with
  | nil => exact List.forall_mem_nil _
  | cons t rest ih => exact List.forall_mem_cons.mpr ⟨h.1, ih h.2.2⟩

theorem Prompt.append (h : Prompt sources none before) (h' : Prompt sources none after) :
    Prompt sources none (before ++ after) :=
  prompt_append.mpr ⟨h, h'.behind _⟩

theorem Prompt.snoc (h : Prompt sources none before) (ht : t.ResultFirst)
    (hasks : .result ∈ t.places → Asks sources before.getLast? t.parts) :
    Prompt sources none (before ++ [t]) := by
  refine prompt_append.mpr ⟨h, ht, ?_, trivial⟩
  rwa [Option.or_none]

/-- Statements with a parked value between them. -/
theorem Prompt.fill (h : Prompt sources none before) {value : Expr} (hv : value.ResultFirst)
    (hasks : .result ∈ value.places → Asks sources before.getLast? value.parts) (σ : Supply)
    (h' : Prompt sources none after) : Prompt sources none (before ++ σ.fill value :: after) := by
  have htarget : .result ∉ (Expr.temp ⟨σ.nextNode⟩ σ.temp false).places :=
    (σ.isRegister_reader σ).result_notMem
  have hfill : (σ.fill value).ResultFirst := ⟨htarget, hv⟩
  rw [List.append_cons]
  refine (h.snoc hfill fun hr => ?_).append h'
  rw [Supply.fill, places, List.mem_append] at hr
  exact (hasks (hr.resolve_left htarget)).mono (List.Subset.refl _) (List.subset_append_right _ _)

end Stmt

end

/-! ## Once in a statement -/

/-- A canonical expression that reads a result first reads it once. -/
theorem Expr.ResultFirst.count_le_one : ∀ {e : Expr}, e.Canonical → e.ResultFirst →
    e.places.count .result ≤ 1
  | .const .., _, _ | .name .., _, _ => Nat.zero_le 1
  | .temp _ x g, _, _ => List.count_le_length
  | .mem _ a, hc, h => by
    have hone : a.places.count .result ≤ 1 := ResultFirst.count_le_one (canonical_mem.mp hc) h
    exact hone
  | .binop _ _ l r, hc, h => by
    obtain ⟨hl, hr⟩ := canonical_binop.mp hc
    have hleft := ResultFirst.count_le_one hl h.1
    have hright := ResultFirst.count_le_one hr h.2.1
    rw [places, List.count_append]
    by_cases hmem : .result ∈ r.places
    · have hnone := List.count_eq_zero.mpr (h.2.2 hmem).2
      omega
    · have hnone := List.count_eq_zero.mpr hmem
      omega
  | .eseq .., hc, _ => absurd hc not_canonical_eseq
  | .call .., hc, _ => absurd hc not_canonical_call

theorem Stmt.ResultFirst.count_le_one {t : Stmt} (hs : t.Single) (h : t.ResultFirst) :
    t.places.count .result ≤ 1 := by
  cases t with
  | label | comment => exact Nat.zero_le _
  | ret id value =>
      cases value with
      | none => exact Nat.zero_le _
      | some e => exact Expr.ResultFirst.count_le_one (canonical_ret.mp hs.canonical) h
  | cjump => exact Expr.ResultFirst.count_le_one (canonical_cjump.mp hs.canonical) h
  | exp => exact Expr.ResultFirst.count_le_one (canonical_exp.mp hs.canonical) h
  | jump => exact Expr.ResultFirst.count_le_one (canonical_jump.mp hs.canonical) h
  | seq => cases hs
  | call id target args =>
      rw [places, List.count_append, List.count_eq_zero.mpr h.2]
      exact Expr.ResultFirst.count_le_one hs.1 h.1
  | move id target source =>
      have hsource : source.Canonical := by
        rcases hs.canonical.target with ⟨cell, x, g, rfl⟩ | ⟨cell, a, rfl⟩
        · exact canonical_move_temp.mp hs.canonical
        · exact (canonical_move_mem.mp hs.canonical).2
      rw [places, List.count_append, List.count_eq_zero.mpr h.1, Nat.zero_add]
      exact Expr.ResultFirst.count_le_one hsource h.2

/-- What is left of an expression: statements that read results promptly, and an expression
that reads the result of the last of them, if any, before it computes anything. -/
structure Expr.LeavesPrompt (e : Expr) (before : List Stmt) (e' : Expr) : Prop where
  statements : Stmt.Prompt e.parts none before
  resultFirst : e'.ResultFirst
  asks : .result ∈ e'.places → Asks e.parts before.getLast? e'.parts

/-- A call, after what evaluates its arguments and its target. -/
theorem Expr.LeavesPrompt.call {target target' : Expr} {first second : List Stmt}
    {sources temps : List Expr} (ha : Stmt.Prompt sources none first)
    (ht : target.LeavesPrompt second target') (hs : target.parts ⊆ sources)
    (htemps : ∀ a ∈ temps, a.IsRegister) (id : NodeId) :
    Stmt.Prompt sources none (first ++ second ++ [.call id target' temps]) := by
  have hargs := Expr.result_notMem_placesAll htemps
  refine (ha.append (ht.statements.mono hs)).snoc ⟨ht.resultFirst, hargs⟩ fun hr => ?_
  rw [Stmt.places, List.mem_append] at hr
  exact ((ht.asks (hr.resolve_right hargs)).append first).mono hs (List.subset_append_left _ _)

mutual

/-- **Lowering leaves of an expression statements that read results promptly.** -/
theorem Expr.lower_prompt : ∀ (e : Expr) {σ σ' : Supply} {before : List Stmt} {e' : Expr},
    .result ∉ e.places → e.lower σ = .ok (before, e') σ' → e.LeavesPrompt before e'
  | .const .., σ, σ', before, e', hp, h | .name .., σ, σ', before, e', hp, h
  | .temp .., σ, σ', before, e', hp, h => by
    obtain ⟨rfl, rfl, -⟩ := Expr.lower_leaf rfl h
    exact ⟨trivial, trivial, fun hr => absurd hr hp⟩
  | .binop id op l r, σ, σ', before, e', hp, h => by
    obtain ⟨first, l', σ₁, second, r', σ₂, hl, hr, hcase⟩ := Expr.lower_binop h
    rw [Expr.places, List.mem_append, not_or] at hp
    have hleft := Expr.lower_prompt l hp.1 hl
    have hright := Expr.lower_prompt r hp.2 hr
    have hlparts : l.parts ⊆ (Expr.binop id op l r).parts := fun e he =>
      List.mem_cons_of_mem _ (List.mem_append_left _ he)
    have hrparts : r.parts ⊆ (Expr.binop id op l r).parts := fun e he =>
      List.mem_cons_of_mem _ (List.mem_append_right _ he)
    rcases hcase with ⟨rfl, rfl, rfl, -⟩ | ⟨-, rfl, rfl, -⟩
    · have hnone : .result ∉ r'.places := fun hr => not_asks_none (hright.asks hr)
      refine ⟨hleft.statements.mono hlparts, ⟨hleft.resultFirst, hright.resultFirst, fun hr =>
        absurd hr hnone⟩, fun hr => ?_⟩
      rw [Expr.places, List.mem_append] at hr
      exact (hleft.asks (hr.resolve_right hnone)).mono hlparts fun e he =>
        List.mem_cons_of_mem _ (List.mem_append_left _ he)
    · have hnone := (σ₂.isRegister_reader σ₂.parked).result_notMem
      have hasks (hr : .result ∈ l'.places) := (hleft.asks hr).mono hlparts (List.Subset.refl _)
      refine ⟨(hleft.statements.mono hlparts).fill hleft.resultFirst hasks σ₂
        (hright.statements.mono hrparts), ⟨trivial, hright.resultFirst, fun _ => ⟨rfl, hnone⟩⟩,
        fun hr => ?_⟩
      rw [Expr.places, List.mem_append] at hr
      rw [List.append_cons]
      exact ((hright.asks (hr.resolve_left hnone)).append _).mono hrparts fun e he =>
        List.mem_cons_of_mem _ (List.mem_append_right _ he)
  | .mem id a, σ, σ', before, e', hp, h => by
    obtain ⟨a', ha, rfl⟩ := Expr.lower_mem h
    have hleaves := Expr.lower_prompt a hp ha
    have hparts : a.parts ⊆ (Expr.mem id a).parts := List.subset_cons_self _ _
    exact ⟨hleaves.statements.mono hparts, hleaves.resultFirst, fun hr =>
      (hleaves.asks hr).mono hparts (List.subset_cons_self _ _)⟩
  | .eseq id s e, σ, σ', before, e', hp, h => by
    obtain ⟨first, σ₁, second, hs, he, rfl⟩ := Expr.lower_eseq h
    rw [Expr.places, List.mem_append, not_or] at hp
    have hfirst := Stmt.lower_prompt s hp.1 hs
    have hleaves := Expr.lower_prompt e hp.2 he
    have hsparts : s.parts ⊆ (Expr.eseq id s e).parts := fun e he =>
      List.mem_cons_of_mem _ (List.mem_append_left _ he)
    have heparts : e.parts ⊆ (Expr.eseq id s e).parts := fun e he =>
      List.mem_cons_of_mem _ (List.mem_append_right _ he)
    exact ⟨(hfirst.mono hsparts).append (hleaves.statements.mono heparts), hleaves.resultFirst,
      fun hr => ((hleaves.asks hr).append first).mono heparts (List.Subset.refl _)⟩
  | .call id target args, σ, σ', before, e', hp, h => by
    obtain ⟨first, temps, σ₁, second, target', σ₂, ha, ht, rfl, rfl, -⟩ := Expr.lower_call h
    rw [Expr.places, List.mem_append, not_or] at hp
    have hargs := Expr.lowerArguments_prompt args hp.2 ha
    have htarget := Expr.lower_prompt target hp.1 ht
    have hparts : target.parts ++ Expr.partsAll args ⊆ (Expr.call id target args).parts :=
      List.subset_cons_self _ _
    refine ⟨Expr.LeavesPrompt.call (hargs.mono fun e he => hparts (List.mem_append_right _ he))
      htarget (fun e he => hparts (List.mem_append_left _ he))
      (Expr.lowerArguments_single args ha).2 id, trivial, fun _ => ?_⟩
    exact ⟨_, List.mem_cons_self, .call id target' temps, List.getLast?_concat, _,
      List.mem_singleton_self _, id, target, args, target', temps, _, rfl, rfl, rfl, σ, _, _, h⟩
termination_by structural e => e

/-- Lowering leaves of arguments statements that read results promptly. -/
theorem Expr.lowerArguments_prompt : ∀ (args : List Expr) {σ σ' : Supply} {before : List Stmt}
    {temps : List Expr}, .result ∉ Expr.placesAll args →
    Expr.lowerArguments args σ = .ok (before, temps) σ' →
    Stmt.Prompt (Expr.partsAll args) none before
  | [], σ, σ', before, temps, hp, h => by
    obtain ⟨rfl, -, -⟩ := Expr.lowerArguments_nil h
    trivial
  | a :: rest, σ, σ', before, temps, hp, h => by
    obtain ⟨first, a', σ₁, second, temps', ha, hr, rfl, -⟩ := Expr.lowerArguments_cons h
    rw [Expr.placesAll, List.mem_append, not_or] at hp
    have hfirst := Expr.lower_prompt a hp.1 ha
    have hrest := Expr.lowerArguments_prompt rest hp.2 hr
    have haparts : a.parts ⊆ Expr.partsAll (a :: rest) := List.subset_append_left _ _
    exact (hfirst.statements.mono haparts).fill hfirst.resultFirst
      (fun hr => (hfirst.asks hr).mono haparts (List.Subset.refl _)) σ₁
      (hrest.mono (List.subset_append_right _ _))
termination_by structural args => args

/-- **Lowering leaves of a statement statements that read results promptly.** -/
theorem Stmt.lower_prompt : ∀ (s : Stmt) {σ σ' : Supply} {body : List Stmt},
    .result ∉ s.places → s.lower σ = .ok body σ' → Stmt.Prompt s.parts none body
  | .label .., σ, σ', body, hp, h | .comment .., σ, σ', body, hp, h
  | .ret _ none, σ, σ', body, hp, h => by
    simp only [Stmt.lower] at h
    cases h
    exact ⟨trivial, fun hr => absurd hr List.not_mem_nil, trivial⟩
  | .cjump id c t f, σ, σ', body, hp, h => by
    obtain ⟨before, c', hc, rfl⟩ := Stmt.lower_cjump h
    have hleaves := Expr.lower_prompt c hp hc
    exact hleaves.statements.snoc hleaves.resultFirst hleaves.asks
  | .exp id e, σ, σ', body, hp, h => by
    obtain ⟨before, e', he, hcase⟩ := Stmt.lower_exp h
    have hleaves := Expr.lower_prompt e hp he
    rcases hcase with ⟨-, rfl⟩ | ⟨-, rfl⟩
    · exact hleaves.statements
    · exact hleaves.statements.snoc hleaves.resultFirst hleaves.asks
  | .jump id target, σ, σ', body, hp, h => by
    obtain ⟨before, target', ht, rfl⟩ := Stmt.lower_jump h
    have hleaves := Expr.lower_prompt target hp ht
    exact hleaves.statements.snoc hleaves.resultFirst hleaves.asks
  | .ret id (some e), σ, σ', body, hp, h => by
    obtain ⟨before, e', he, rfl⟩ := Stmt.lower_ret h
    have hleaves := Expr.lower_prompt e hp he
    exact hleaves.statements.snoc hleaves.resultFirst hleaves.asks
  | .seq id children, σ, σ', body, hp, h => Stmt.lowerAll_prompt children hp (Stmt.lower_seq h)
  | .call id target args, σ, σ', body, hp, h => by
    obtain ⟨first, temps, σ₁, second, target', ha, ht, rfl⟩ := Stmt.lower_call h
    rw [Stmt.places, List.mem_append, not_or] at hp
    have hargs := Expr.lowerArguments_prompt args hp.2 ha
    have htarget := Expr.lower_prompt target hp.1 ht
    exact Expr.LeavesPrompt.call (hargs.mono (List.subset_append_right _ _)) htarget
      (List.subset_append_left _ _) (Expr.lowerArguments_single args ha).2 id
  | .move id (.temp cell x g) source, σ, σ', body, hp, h => by
    obtain ⟨before, source', hs, rfl⟩ := Stmt.lower_move_temp h
    rw [Stmt.places, List.mem_append, not_or] at hp
    have hleaves := Expr.lower_prompt source hp.2 hs
    have hparts : source.parts ⊆ (Stmt.move id (.temp cell x g) source).parts :=
      List.subset_append_right _ _
    refine (hleaves.statements.mono hparts).snoc ⟨hp.1, hleaves.resultFirst⟩ fun hr => ?_
    rw [Stmt.places, List.mem_append] at hr
    exact (hleaves.asks (hr.resolve_left hp.1)).mono hparts (List.subset_append_right _ _)
  | .move id (.mem cell a) source, σ, σ', body, hp, h => by
    obtain ⟨first, a', σ₁, second, source', σ₂, ha, hs, rfl, -⟩ := Stmt.lower_move_mem h
    rw [Stmt.places, List.mem_append, not_or] at hp
    have haddress := Expr.lower_prompt a hp.1 ha
    have hvalue := Expr.lower_prompt source hp.2 hs
    have haparts : a.parts ⊆ (Stmt.move id (.mem cell a) source).parts := fun e he =>
      List.mem_append_left _ (List.mem_cons_of_mem _ he)
    have hsparts : source.parts ⊆ (Stmt.move id (.mem cell a) source).parts :=
      List.subset_append_right _ _
    have hstore : Stmt.Prompt (Stmt.move id (.mem cell a) source).parts none
        [.move id (.mem cell (σ₂.parked.reader σ₁.temp)) (σ₂.parked.numbered.reader σ₂.temp)] := by
      have hnoaddress := (σ₁.isRegister_reader σ₂.parked).result_notMem
      have hnovalue := (σ₂.isRegister_reader σ₂.parked.numbered).result_notMem
      refine ⟨⟨hnoaddress, trivial⟩, fun hr => ?_, trivial⟩
      rw [Stmt.places, List.mem_append] at hr
      exact absurd hr (not_or.mpr ⟨hnoaddress, hnovalue⟩)
    have hbefore := (haddress.statements.mono haparts).fill haddress.resultFirst
      (fun hr => (haddress.asks hr).mono haparts (List.Subset.refl _)) σ₁
      (hvalue.statements.mono hsparts)
    refine hbefore.fill hvalue.resultFirst (fun hr => ?_) σ₂ hstore
    rw [List.append_cons]
    exact ((hvalue.asks hr).append _).mono hsparts (List.Subset.refl _)
  | .move id (.const ..) _, σ, σ', body, hp, h | .move id (.name ..) _, σ, σ', body, hp, h
  | .move id (.binop ..) _, σ, σ', body, hp, h | .move id (.eseq ..) _, σ, σ', body, hp, h
  | .move id (.call ..) _, σ, σ', body, hp, h => by
    simp only [Stmt.lower] at h
    cases h
termination_by structural s => s

/-- Lowering leaves of statements such as read results promptly. -/
theorem Stmt.lowerAll_prompt : ∀ (children : List Stmt) {σ σ' : Supply} {body : List Stmt},
    .result ∉ Stmt.placesAll children → Stmt.lowerAll children σ = .ok body σ' →
    Stmt.Prompt (Stmt.partsAll children) none body
  | [], σ, σ', body, hp, h => by
    obtain ⟨rfl, -⟩ := Stmt.lowerAll_nil h
    trivial
  | s :: rest, σ, σ', body, hp, h => by
    obtain ⟨first, σ₁, more, hs, hr, rfl⟩ := Stmt.lowerAll_cons h
    rw [Stmt.placesAll, List.mem_append, not_or] at hp
    exact ((Stmt.lower_prompt s hp.1 hs).mono (List.subset_append_left _ _)).append
      ((Stmt.lowerAll_prompt rest hp.2 hr).mono (List.subset_append_right _ _))
termination_by structural children => children

end

end TreeBackend
