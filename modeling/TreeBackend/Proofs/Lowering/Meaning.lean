import TreeBackend.Proofs.Lowering.Locals
import TreeBackend.Proofs.Names
import TreeBackend.Proofs.Semantics.Agreement

/-!
# Lowering keeps the meaning of a tree

Run in order, the statements that lowering leaves do what the tree does: the run
ends in the same way, with the same calls and stores in the same order, the same
memory, and the same temporaries but for those that lowering made up.

A value that is parked survives what runs until it is read again, because that
code has no temporary of this name (`Expr.lower_locals`, `Stmt.execAll_keeps`).
So it might as well be read at once (`Eval.Matches.parked`), and with the reading
moved there the two runs go through the same computations in the same order.

* `Expr.lower_matches`, `Stmt.lower_matches`: the induction over trees.
* `lower_preserves_meaning`: the result for whole runs.
-/

namespace TreeBackend

open Supply Eval

variable {host : Host}

/-! ## Runs leave alone what they do not mention -/

mutual

theorem Expr.eval_keeps : ∀ (e : Expr) {x : String}, x ∉ e.locals → Keeps x (e.eval host)
  | .const .., x, _ | .name .., x, _ => by
    rw [Expr.eval]
    exact .pure _
  | .temp _ y g, x, _ => by
    rw [Expr.eval]
    exact .view fun s => Target.address (s.read (Storage.ofTemp y g))
  | .binop _ op l r, x, hx => by
    rw [Expr.locals, List.mem_append, not_or] at hx
    rw [Expr.eval]
    exact (Expr.eval_keeps l hx.1).bind fun a => (Expr.eval_keeps r hx.2).bind fun b =>
      (Keeps.binop _ _ _ _).map _
  | .mem _ a, x, hx => by
    rw [Expr.locals] at hx
    rw [Expr.eval]
    exact (Expr.eval_keeps a hx).bind fun v => .view fun s =>
      Target.address (s.world.heap (v.word host))
  | .eseq _ s e, x, hx => by
    rw [Expr.locals, List.mem_append, not_or] at hx
    rw [Expr.eval]
    exact (Stmt.exec_keeps s hx.1).bind fun _ => Expr.eval_keeps e hx.2
  | .call _ target args, x, hx => by
    rw [Expr.locals, List.mem_append, not_or] at hx
    rw [Expr.eval]
    apply (Expr.evalAll_keeps args hx.2).bind
    intro vs
    apply (Expr.eval_keeps target hx.1).bind
    intro c
    exact (Keeps.modify fun s => rfl).bind fun _ => .view fun s => Target.address s.result
termination_by structural e => e

theorem Expr.evalAll_keeps : ∀ (args : List Expr) {x : String}, x ∉ Expr.localsAll args →
    Keeps x (Expr.evalAll host args)
  | [], x, _ => by
    rw [Expr.evalAll]
    exact .pure _
  | e :: rest, x, hx => by
    rw [Expr.localsAll_cons, List.mem_append, not_or] at hx
    rw [Expr.evalAll]
    exact (Expr.eval_keeps e hx.1).bind fun v => (Expr.evalAll_keeps rest hx.2).bind fun vs =>
      .pure _
termination_by structural args => args

theorem Stmt.exec_keeps : ∀ (s : Stmt) {x : String}, x ∉ s.locals → Keeps x (s.exec host)
  | .label .., x, _ | .comment .., x, _ => by
    rw [Stmt.exec]
    exact .pure _
  | .ret _ none, x, _ => by
    rw [Stmt.exec]
    exact .throw _
  | .exp _ e, x, hx => by
    rw [Stmt.locals] at hx
    rw [Stmt.exec]
    exact (Expr.eval_keeps e hx).bind fun _ => .pure _
  | .ret _ (some e), x, hx => by
    rw [Stmt.locals] at hx
    rw [Stmt.exec]
    exact (Expr.eval_keeps e hx).bind fun _ => .throw _
  | .jump _ e, x, hx => by
    rw [Stmt.locals] at hx
    rw [Stmt.exec]
    exact (Expr.eval_keeps e hx).bind fun _ => .throw _
  | .cjump _ e t f, x, hx => by
    rw [Stmt.locals] at hx
    rw [Stmt.exec]
    apply (Expr.eval_keeps e hx).bind
    intro c
    split
    · exact .throw _
    · exact .pure _
  | .call _ target args, x, hx => by
    rw [Stmt.locals, List.mem_append, not_or] at hx
    rw [Stmt.exec]
    exact (Expr.evalAll_keeps args hx.2).bind fun vs => (Expr.eval_keeps target hx.1).bind fun c =>
      .modify fun s => rfl
  | .seq _ body, x, hx => by
    rw [Stmt.locals] at hx
    rw [Stmt.exec]
    exact Stmt.execAll_keeps body hx
  | .move _ (.temp _ y g) source, x, hx => by
    rw [Stmt.locals, List.mem_append, not_or] at hx
    rw [Stmt.exec]
    refine (Expr.eval_keeps source hx.2).bind fun v => .modify ?_
    intro s
    cases hplace : Storage.ofTemp y g with
    | register z =>
      obtain ⟨rfl, rfl⟩ := Storage.eq_of_ofTemp_register hplace
      refine assign_of_ne _ _ fun hxy => hx.1 ?_
      simp [Expr.locals, hxy]
    | _ => rfl
  | .move _ (.mem _ a) source, x, hx => by
    rw [Stmt.locals, Expr.locals, List.mem_append, not_or] at hx
    rw [Stmt.exec]
    exact (Expr.eval_keeps a hx.1).bind fun v => (Expr.eval_keeps source hx.2).bind fun w =>
      .modify fun s => rfl
  | .move _ (.const ..) _, x, _ | .move _ (.name ..) _, x, _ | .move _ (.binop ..) _, x, _
  | .move _ (.eseq ..) _, x, _ | .move _ (.call ..) _, x, _ => by
    simp only [Stmt.exec]
    exact .throw _
termination_by structural s => s

theorem Stmt.execAll_keeps : ∀ (body : List Stmt) {x : String}, x ∉ Stmt.localsAll body →
    Keeps x (Stmt.execAll host body)
  | [], x, _ => by
    rw [Stmt.execAll]
    exact .pure _
  | s :: rest, x, hx => by
    rw [Stmt.localsAll_cons, List.mem_append, not_or] at hx
    rw [Stmt.execAll]
    exact (Stmt.exec_keeps s hx.1).bind fun _ => Stmt.execAll_keeps rest hx.2
termination_by structural body => body

end

/-! ## Parked values -/

theorem Stmt.execAll_append (a b : List Stmt) :
    Stmt.execAll host (a ++ b) = (do Stmt.execAll host a; Stmt.execAll host b) := by
  induction a with
  | nil => simp only [List.nil_append, Stmt.execAll, pure_bind]
  | cons s rest ih => simp only [List.cons_append, Stmt.execAll, ih, bind_assoc]

theorem Stmt.execAll_singleton (s : Stmt) : Stmt.execAll host [s] = s.exec host := by
  simp only [Stmt.execAll]
  exact bind_pure _

/-- Puts a value into a register. -/
def Eval.setReg (host : Host) (x : String) (v : Target) : Eval Unit :=
  modify (·.write (v.word host) (.register x))

theorem Supply.exec_fill (σ : Supply) (e : Expr) :
    (σ.fill e).exec host = (do let v ← e.eval host; setReg host σ.temp v) := by
  simp only [fill, Stmt.exec, temp, Storage.ofTemp_tempName]
  rfl

theorem Supply.eval_reader {σ : Supply} {x : String} (h : Storage.ofTemp x false = .register x) :
    (σ.reader x).eval host = (do let v ← reg x; pure (.address v)) := by
  simp only [reader, Expr.eval, h]
  rfl

/-- A hidden register that a value is parked in, and that the code up to its
reading keeps, hands on that value. -/
theorem Eval.Matches.parked {α : Type} {hidden : String → Prop} {p q : Eval Target}
    (h : Matches hidden p q) (host : Host) {x : String} (hx : hidden x) {rest : Eval Unit}
    (hkeep : Keeps x rest) {f g : Word → Eval α}
    (hrest : ∀ v, Matches hidden (f v) (do rest; g v)) :
    Matches hidden (do let a ← p; f (a.word host))
      (do let a ← q; setReg host x a; rest; let v ← reg x; g v) := by
  apply h.bind
  intro a s t hst
  rw [hkeep.bind_read (f := fun _ v => g v)]
  have hread : (do setReg host x a; let v ← reg x; rest; g v : Eval α) t =
      (do rest; g (a.word host) : Eval α) (t.write (a.word host) (.register x)) := by
    show (do let v ← reg x; rest; g v : Eval α) (t.write (a.word host) (.register x)) = _
    show (do rest; g _ : Eval α) (t.write (a.word host) (.register x)) = _
    rw [show (t.write (a.word host) (.register x)).registers x = a.word host from assign_self _ _]
  rw [hread]
  exact hrest _ s _ (hst.write_hidden hx _)

/-- The temporaries that arguments have been parked in. -/
def Parked (σ τ : Supply) (temps : List Expr) : Prop :=
  ∀ e ∈ temps, ∃ υ k, e = Supply.reader υ (tempName σ.scope k) ∧ σ.nextTemp ≤ k ∧ k < τ.nextTemp

theorem Expr.lowerArguments_parked {args : List Expr} {σ τ : Supply} {before : List Stmt}
    {temps : List Expr} (h : Expr.lowerArguments args σ = .ok (before, temps) τ) :
    Parked σ τ temps := by
  induction args generalizing σ before temps with
  | nil =>
    obtain ⟨-, rfl, -⟩ := Expr.lowerArguments_nil h
    intro e he
    cases he
  | cons a rest ih =>
    obtain ⟨first, a', σ₁, second, temps', ha, hr, -, rfl⟩ := Expr.lowerArguments_cons h
    have hleads₁ := (Expr.lower_locals a ha).1
    have hleads₂ := (Expr.lowerArguments_locals rest hr).1
    intro e he
    rcases List.mem_cons.mp he with rfl | he
    · refine ⟨σ₁.parked, σ₁.nextTemp, ?_, hleads₁.temp, hleads₂.temp⟩
      rw [Supply.temp, hleads₁.scope]
    · obtain ⟨υ, k, rfl, hk, hkτ⟩ := ih hr e he
      refine ⟨υ, k, ?_, Nat.le_trans hleads₁.temp (Nat.le_of_succ_le hk), hkτ⟩
      rw [← hleads₁.scope]
      rfl

/-- Parked values may be read before or after code that keeps their registers. -/
theorem Parked.bind_readAll {α : Type} {σ τ : Supply} {temps : List Expr} (h : Parked σ τ temps)
    {p : Eval Unit}
    (hkeep : ∀ k, σ.nextTemp ≤ k → k < τ.nextTemp → Keeps (tempName σ.scope k) p)
    {f : List Word → Eval α} :
    (do p; let vs ← Expr.evalAll host temps; f vs) =
      (do let vs ← Expr.evalAll host temps; p; f vs) := by
  induction temps generalizing f with
  | nil => simp only [Expr.evalAll, pure_bind]
  | cons e rest ih =>
    obtain ⟨υ, k, rfl, hk, hkτ⟩ := h e List.mem_cons_self
    have hrest : Parked σ τ rest := fun e he => h e (List.mem_cons_of_mem _ he)
    simp only [Expr.evalAll, Supply.eval_reader (Storage.ofTemp_tempName _ _), bind_assoc,
      pure_bind]
    rw [(hkeep k hk hkτ).bind_read
      (f := fun _ v => do let vs ← Expr.evalAll host rest; f ((Target.address v).word host :: vs))]
    exact bind_congr fun v => ih hrest

/-- A made-up name is none that code has which was lowered at another time. -/
theorem Supply.not_known {σ τ : Supply} {names : List String} {k : Nat}
    (hnames : tempName σ.scope k ∉ names) (hk : k < σ.nextTemp ∨ τ.nextTemp ≤ k) :
    ¬ Known σ τ names (tempName σ.scope k) := by
  rintro (h | h | ⟨j, hj, hjτ, h⟩)
  · exact hnames h
  · exact tempName_ne_result _ _ h
  · have := (tempName_eq_iff.mp h).2
    omega

/-! ## The induction -/

/-- The hidden registers hold what is made up between two supplies, and nothing of
the tree. -/
structure Hides (hidden : String → Prop) (σ τ : Supply) (names : List String) : Prop where
  minted : ∀ x, Minted σ τ x → hidden x
  avoids : ∀ x, hidden x → x ∉ names

theorem Hides.mono {hidden : String → Prop} {σ σ' τ τ' : Supply} {names names' : List String}
    (h : Hides hidden σ τ' names) (hσ : Leads σ σ') (hτ : Leads τ τ') (hsub : names' ⊆ names) :
    Hides hidden σ' τ names' :=
  ⟨fun x hx => h.minted x (hx.mono hσ hτ), fun x hx hn => h.avoids x hx (hsub hn)⟩

/-- Code that is lowered at another time keeps a made-up register. -/
theorem Hides.keeps {hidden : String → Prop} {σ τ : Supply} {names : List String} {k : Nat}
    (h : Hides hidden σ τ names) {body : List Stmt}
    (hbody : KnownAll σ τ names (Stmt.localsAll body)) (hhid : hidden (tempName σ.scope k))
    (hk : k < σ.nextTemp ∨ τ.nextTemp ≤ k) : Keeps (tempName σ.scope k) (Stmt.execAll host body) :=
  Stmt.execAll_keeps body fun hx => not_known (h.avoids _ hhid) hk (hbody _ hx)

/-- A temporary that does not show reads the same in both stores. -/
theorem Eval.Matches.temp {hidden : String → Prop} {x : String} {g : Bool}
    (hx : g = false → ¬ hidden x) (id : NodeId) :
    Matches hidden ((Expr.temp id x g).eval host) ((Expr.temp id x g).eval host) := by
  rw [Expr.eval]
  apply Matches.view
  intro s t hst
  rw [hst.read fun y hy => ?_]
  obtain ⟨rfl, rfl⟩ := Storage.eq_of_ofTemp_register hy
  exact hx rfl

/-- Arguments and target that come to the same make the same call: the target's
statements leave alone the temporaries that wait for the call. -/
theorem Eval.matches_call {hidden : String → Prop} {args : List Expr} {target : Expr} (id : NodeId)
    {σ σ₁ τ : Supply} {first second : List Stmt} {temps : List Expr} {target' : Expr}
    (ha : Expr.lowerArguments args σ = .ok (first, temps) σ₁)
    (ht : target.lower σ₁ = .ok (second, target') τ)
    (hh : Hides hidden σ τ (target.locals ++ Expr.localsAll args))
    (hargs : Matches hidden (Expr.evalAll host args)
      (do Stmt.execAll host first; Expr.evalAll host temps))
    (htarget : Matches hidden (target.eval host)
      (do Stmt.execAll host second; target'.eval host)) :
    Matches hidden
      (do
        let vs ← Expr.evalAll host args
        let c ← target.eval host
        modify (·.call host c vs))
      (Stmt.execAll host (first ++ second ++ [.call id target' temps])) := by
  obtain ⟨hleads₁, -⟩ := Expr.lowerArguments_locals args ha
  obtain ⟨hleads₂, hknown₂⟩ := Expr.lower_locals target ht
  have hht : Hides hidden σ₁ τ target.locals := hh.mono hleads₁ (.refl _) (by simp)
  have hkeep : ∀ k, σ.nextTemp ≤ k → k < σ₁.nextTemp →
      Keeps (tempName σ.scope k) (Stmt.execAll host second) := by
    intro k hk hkσ
    have hhid := hh.minted _ ⟨k, hk, Nat.lt_of_lt_of_le hkσ hleads₂.temp, rfl⟩
    rw [← hleads₁.scope] at hhid ⊢
    exact hht.keeps (knownAll_append.mp hknown₂).1 hhid (Or.inl hkσ)
  simp only [Stmt.execAll_append, Stmt.execAll_singleton, Stmt.exec, bind_assoc]
  rw [bind_congr fun _ => (Expr.lowerArguments_parked ha).bind_readAll hkeep]
  rw [← bind_assoc]
  apply hargs.bind
  intro vs
  rw [← bind_assoc]
  exact htarget.bind fun c => .modify fun s t hst => hst.call host c vs

/-- Address and value that come to the same make the same store.  Both wait in registers: the
address while the value is computed, and the value until the store. -/
theorem Eval.matches_store {hidden : String → Prop} {a source : Expr} (id cell : NodeId)
    {σ σ₁ σ₂ : Supply} {first second : List Stmt} {a' source' : Expr}
    (ha : a.lower σ = .ok (first, a') σ₁)
    (hs : source.lower σ₁.parked = .ok (second, source') σ₂)
    (hh : Hides hidden σ σ₂.parked.numbered.numbered (Stmt.move id (.mem cell a) source).locals)
    (haddress : Matches hidden (a.eval host) (do Stmt.execAll host first; a'.eval host))
    (hvalue : Matches hidden (source.eval host) (do Stmt.execAll host second; source'.eval host)) :
    Matches hidden ((Stmt.move id (.mem cell a) source).exec host)
      (Stmt.execAll host (first ++ σ₁.fill a' :: second ++ [σ₂.fill source',
        .move id (.mem cell (σ₂.parked.reader σ₁.temp))
          (σ₂.parked.numbered.reader σ₂.temp)])) := by
  obtain ⟨hleads₁, -⟩ := Expr.lower_locals a ha
  obtain ⟨hleads₂, hknown₂⟩ := Expr.lower_locals source hs
  have hmid := hleads₁.trans (leads_parked σ₁)
  have hend := (leads_numbered σ₂.parked).trans (leads_numbered _)
  have hhid₁ : hidden σ₁.temp := hh.minted _
    ((minted_temp σ₁).mono hleads₁ (hleads₂.trans ((leads_parked σ₂).trans hend)))
  have hhid₂ : hidden σ₂.temp := hh.minted _ ((minted_temp σ₂).mono (hmid.trans hleads₂) hend)
  have hstore (v : Word) : Matches hidden
      (do let w ← source.eval host; modify (·.poke v (w.word host)))
      (do
        (do Stmt.execAll host second; source'.eval host >>= setReg host σ₂.temp)
        let w ← reg σ₂.temp
        modify (·.poke v w)) := by
    have := hvalue.parked host hhid₂ (Keeps.pure ())
      (f := fun w => modify (·.poke v w)) (g := fun w => modify (·.poke v w))
      (fun w => by
        rw [pure_bind]
        exact .modify fun s t hst => hst.poke v w)
    simp only [bind_assoc, pure_bind] at this ⊢
    exact this
  have hkeep : Keeps σ₁.temp
      (do Stmt.execAll host second; source'.eval host >>= setReg host σ₂.temp) := by
    have hbody : KnownAll σ₁.parked σ₂.parked source.locals
        (Stmt.localsAll (second ++ [σ₂.fill source'])) := by
      have hsecond := knownAll_append.mp
        (hknown₂.mono (.refl _) (leads_parked σ₂) (List.Subset.refl _))
      simp only [Stmt.localsAll_append, Stmt.localsAll_cons, Stmt.localsAll_nil, locals_fill,
        List.append_nil, knownAll_append, knownAll_cons]
      exact ⟨hsecond.1, known_temp hleads₂ (.refl _), hsecond.2⟩
    have hhb : Hides hidden σ₁.parked σ₂.parked source.locals :=
      hh.mono hmid hend (by simp [Stmt.locals])
    have hkeep : Keeps σ₁.temp (Stmt.execAll host (second ++ [σ₂.fill source'])) :=
      hhb.keeps hbody hhid₁ (Or.inl (Nat.lt_succ_self _))
    rwa [Stmt.execAll_append, Stmt.execAll_singleton, exec_fill] at hkeep
  simp only [Stmt.execAll_append, Stmt.execAll, Stmt.exec, exec_fill,
    eval_reader (Storage.ofTemp_tempName _ _), Supply.temp, bind_assoc, pure_bind]
  have := haddress.parked host hhid₁ hkeep hstore
  simp only [bind_assoc] at this
  exact this

mutual

/-- **The statements of a lowered expression and what is left of it come to the
same as the expression.** -/
theorem Expr.lower_matches : ∀ (e : Expr) {hidden : String → Prop} {σ τ : Supply}
    {before : List Stmt} {e' : Expr}, e.lower σ = .ok (before, e') τ → Hides hidden σ τ e.locals →
      Matches hidden (e.eval host) (do Stmt.execAll host before; e'.eval host)
  | .const .., hidden, σ, τ, before, e', h, hh | .name .., hidden, σ, τ, before, e', h, hh => by
    obtain ⟨rfl, rfl, rfl⟩ := Expr.lower_leaf rfl h
    simp only [Stmt.execAll, Expr.eval, pure_bind]
    exact .pure _
  | .temp id x g, hidden, σ, τ, before, e', h, hh => by
    obtain ⟨rfl, rfl, rfl⟩ := Expr.lower_leaf rfl h
    rw [Stmt.execAll, pure_bind]
    refine .temp (fun hg hx => hh.avoids x hx ?_) id
    simp [hg, Expr.locals]
  | .binop id op l r, hidden, σ, τ, before, e', h, hh => by
    obtain ⟨first, l', σ₁, second, r', σ₂, hl, hr, hcase⟩ := Expr.lower_binop h
    obtain ⟨hleads₁, -⟩ := Expr.lower_locals l hl
    obtain ⟨hleads₂, hknown₂⟩ := Expr.lower_locals r hr
    have hend : Leads σ₂ τ := by
      rcases hcase with ⟨-, -, -, rfl⟩ | ⟨-, -, -, rfl⟩
      · exact .refl _
      · exact (leads_parked σ₂).trans (leads_numbered _)
    have hleft := Expr.lower_matches l hl
      (hh.mono (.refl _) (hleads₂.trans hend) (by simp [Expr.locals]))
    have hhr : Hides hidden σ₁ σ₂ r.locals := hh.mono hleads₁ hend (by simp [Expr.locals])
    have hright := Expr.lower_matches r hr hhr
    rcases hcase with ⟨rfl, rfl, rfl, rfl⟩ | ⟨-, rfl, rfl, rfl⟩
    · simp only [Stmt.execAll, pure_bind] at hright
      simp only [Expr.eval, ← bind_assoc]
      exact hleft.bind fun a => hright.bind fun b => (Matches.binop _ _ _ _).map _
    · -- the left value waits in a register that the right operand has no name for
      have hhid : hidden σ₂.temp := hh.minted _
        ((minted_temp σ₂).mono (hleads₁.trans hleads₂) (leads_numbered _))
      have hkeep : Keeps σ₂.temp (Stmt.execAll host second) := by
        have hname : σ₂.temp = tempName σ₁.scope σ₂.nextTemp := by rw [Supply.temp, hleads₂.scope]
        rw [hname] at hhid ⊢
        exact hhr.keeps (knownAll_append.mp hknown₂).1 hhid (Or.inr (Nat.le_refl _))
      simp only [Stmt.execAll_append, Stmt.execAll, Expr.eval, exec_fill,
        eval_reader (Storage.ofTemp_tempName _ _), Supply.temp, bind_assoc, pure_bind]
      have := hleft.parked host hhid hkeep
        (f := fun v => do
          let b ← r.eval host; Target.address <$> op.eval host.wraps v (b.word host))
        (g := fun v => do
          let b ← r'.eval host; Target.address <$> op.eval host.wraps v (b.word host))
        (fun v => by
          simp only [← bind_assoc]
          exact hright.bind fun b => (Matches.binop _ _ _ _).map _)
      simp only [bind_assoc] at this
      exact this
  | .mem id a, hidden, σ, τ, before, e', h, hh => by
    obtain ⟨a', ha, rfl⟩ := Expr.lower_mem h
    have hmatch := Expr.lower_matches a ha (by simpa only [Expr.locals] using hh)
    simp only [Expr.eval, ← bind_assoc]
    refine hmatch.bind fun v => .view (f := fun s => Target.address (s.world.heap (v.word host))) ?_
    intro s t hst
    simp only [hst.world]
  | .eseq id s e, hidden, σ, τ, before, e', h, hh => by
    obtain ⟨first, σ₁, second, hs, he, rfl⟩ := Expr.lower_eseq h
    obtain ⟨hleads₁, -⟩ := Stmt.lower_locals s hs
    obtain ⟨hleads₂, -⟩ := Expr.lower_locals e he
    have hfirst := Stmt.lower_matches s hs (hh.mono (.refl _) hleads₂ (by simp [Expr.locals]))
    have hsecond := Expr.lower_matches e he (hh.mono hleads₁ (.refl _) (by simp [Expr.locals]))
    rw [Expr.eval, Stmt.execAll_append, bind_assoc]
    exact hfirst.bind fun _ => hsecond
  | .call id target args, hidden, σ, τ, before, e', h, hh => by
    obtain ⟨first, temps, σ₁, second, target', σ₂, ha, ht, rfl, rfl, rfl⟩ := Expr.lower_call h
    obtain ⟨hleads₁, -⟩ := Expr.lowerArguments_locals args ha
    obtain ⟨hleads₂, -⟩ := Expr.lower_locals target ht
    have hh₂ : Hides hidden σ σ₂ (target.locals ++ Expr.localsAll args) :=
      hh.mono (.refl _) (leads_numbered _) (by simp [Expr.locals])
    have hcall := matches_call id ha ht hh₂
      (Expr.lowerArguments_matches args ha (hh₂.mono (.refl _) hleads₂ (by simp)))
      (Expr.lower_matches target ht (hh₂.mono hleads₁ (.refl _) (by simp)))
    have hresult := hcall.bind fun _ => Matches.view (f := fun s => Target.address s.result)
      fun s t hst => congrArg Target.address hst.result
    simp only [bind_assoc] at hresult
    simp only [Expr.eval, reader, Storage.ofTemp_result]
    exact hresult
termination_by structural e => e

/-- Lowered arguments have the values of the arguments. -/
theorem Expr.lowerArguments_matches : ∀ (args : List Expr) {hidden : String → Prop} {σ τ : Supply}
    {before : List Stmt} {temps : List Expr},
    Expr.lowerArguments args σ = .ok (before, temps) τ → Hides hidden σ τ (Expr.localsAll args) →
      Matches hidden (Expr.evalAll host args) (do Stmt.execAll host before; Expr.evalAll host temps)
  | [], hidden, σ, τ, before, temps, h, hh => by
    obtain ⟨rfl, rfl, rfl⟩ := Expr.lowerArguments_nil h
    simp only [Stmt.execAll, Expr.evalAll, pure_bind]
    exact .pure _
  | a :: rest, hidden, σ, τ, before, temps, h, hh => by
    obtain ⟨first, a', σ₁, second, temps', ha, hr, rfl, rfl⟩ := Expr.lowerArguments_cons h
    obtain ⟨hleads₁, -⟩ := Expr.lower_locals a ha
    obtain ⟨hleads₂, hknown₂⟩ := Expr.lowerArguments_locals rest hr
    have hmid := (leads_parked σ₁).trans (leads_numbered _)
    have hfirst := Expr.lower_matches a ha (hh.mono (.refl _) (hmid.trans hleads₂) (by simp))
    have hhr : Hides hidden σ₁.parked.numbered τ (Expr.localsAll rest) :=
      hh.mono (hleads₁.trans hmid) (.refl _) (by simp)
    have hrest := Expr.lowerArguments_matches rest hr hhr
    have hhid : hidden σ₁.temp := hh.minted _
      ((minted_temp σ₁).mono hleads₁ ((leads_numbered _).trans hleads₂))
    have hkeep : Keeps σ₁.temp (Stmt.execAll host second) :=
      hhr.keeps (knownAll_append.mp hknown₂).1 hhid (Or.inl (Nat.lt_succ_self _))
    simp only [Stmt.execAll_append, Stmt.execAll, Expr.evalAll, exec_fill,
      eval_reader (Storage.ofTemp_tempName _ _), Supply.temp, bind_assoc, pure_bind]
    have := hfirst.parked host hhid hkeep
      (f := fun v => do let vs ← Expr.evalAll host rest; pure (v :: vs))
      (g := fun v => do let vs ← Expr.evalAll host temps'; pure (v :: vs))
      (fun v => by
        rw [← bind_assoc]
        exact hrest.bind fun vs => .pure _)
    simp only [bind_assoc] at this
    exact this
termination_by structural args => args

/-- **Lowered statements come to the same as the statement.** -/
theorem Stmt.lower_matches : ∀ (s : Stmt) {hidden : String → Prop} {σ τ : Supply}
    {body : List Stmt}, s.lower σ = .ok body τ → Hides hidden σ τ s.locals →
      Matches hidden (s.exec host) (Stmt.execAll host body)
  | .label .., hidden, σ, τ, body, h, hh | .comment .., hidden, σ, τ, body, h, hh => by
    simp only [Stmt.lower] at h
    cases h
    rw [Stmt.execAll_singleton, Stmt.exec]
    exact .pure _
  | .ret _ none, hidden, σ, τ, body, h, hh => by
    simp only [Stmt.lower] at h
    cases h
    rw [Stmt.execAll_singleton, Stmt.exec]
    exact .throw _
  | .cjump id c t f, hidden, σ, τ, body, h, hh => by
    obtain ⟨before, c', hc, rfl⟩ := Stmt.lower_cjump h
    have hmatch := Expr.lower_matches c hc (by simpa only [Stmt.locals] using hh)
    simp only [Stmt.execAll_append, Stmt.execAll_singleton, Stmt.exec, ← bind_assoc]
    apply hmatch.bind
    intro v
    split
    · exact .throw _
    · exact .pure _
  | .exp id e, hidden, σ, τ, body, h, hh => by
    obtain ⟨before, e', he, hcase⟩ := Stmt.lower_exp h
    have hmatch := Expr.lower_matches e he (by simpa only [Stmt.locals] using hh)
    have hmatch' : Matches hidden (do let _ ← e.eval host)
        (do Stmt.execAll host before; let _ ← e'.eval host) := by
      rw [← bind_assoc]
      exact hmatch.bind fun _ => .pure _
    rw [Stmt.exec]
    rcases hcase with ⟨hleaf, rfl⟩ | ⟨-, rfl⟩
    · -- a leaf reads at most a temporary, and is dropped
      have hnothing : (do let _ ← e'.eval host : Eval Unit) = pure () := by
        cases e' with
        | const | name | temp => rw [Expr.eval]; rfl
        | _ => cases hleaf
      rw [hnothing] at hmatch'
      simpa only [bind_pure_unit] using hmatch'
    · rw [Stmt.execAll_append, Stmt.execAll_singleton, Stmt.exec]
      exact hmatch'
  | .jump id target, hidden, σ, τ, body, h, hh => by
    obtain ⟨before, target', ht, rfl⟩ := Stmt.lower_jump h
    have hmatch := Expr.lower_matches target ht (by simpa only [Stmt.locals] using hh)
    simp only [Stmt.execAll_append, Stmt.execAll_singleton, Stmt.exec, ← bind_assoc]
    exact hmatch.bind fun v => .throw _
  | .ret id (some e), hidden, σ, τ, body, h, hh => by
    obtain ⟨before, e', he, rfl⟩ := Stmt.lower_ret h
    have hmatch := Expr.lower_matches e he (by simpa only [Stmt.locals] using hh)
    simp only [Stmt.execAll_append, Stmt.execAll_singleton, Stmt.exec, ← bind_assoc]
    exact hmatch.bind fun v => .throw _
  | .seq id children, hidden, σ, τ, body, h, hh => by
    rw [Stmt.exec]
    exact Stmt.lowerAll_matches children (Stmt.lower_seq h) (by simpa only [Stmt.locals] using hh)
  | .call id target args, hidden, σ, τ, body, h, hh => by
    obtain ⟨first, temps, σ₁, second, target', ha, ht, rfl⟩ := Stmt.lower_call h
    obtain ⟨hleads₁, -⟩ := Expr.lowerArguments_locals args ha
    obtain ⟨hleads₂, -⟩ := Expr.lower_locals target ht
    rw [Stmt.locals] at hh
    rw [Stmt.exec]
    exact matches_call id ha ht hh
      (Expr.lowerArguments_matches args ha (hh.mono (.refl _) hleads₂ (by simp)))
      (Expr.lower_matches target ht (hh.mono hleads₁ (.refl _) (by simp)))
  | .move id (.temp cell y g) source, hidden, σ, τ, body, h, hh => by
    obtain ⟨before, source', hs, rfl⟩ := Stmt.lower_move_temp h
    have hmatch := Expr.lower_matches source hs
      (hh.mono (.refl _) (.refl _) (by simp [Stmt.locals]))
    simp only [Stmt.execAll_append, Stmt.execAll_singleton, Stmt.exec, ← bind_assoc]
    exact hmatch.bind fun v => .modify fun s t hst => hst.write _
  | .move id (.mem cell a) source, hidden, σ, τ, body, h, hh => by
    obtain ⟨first, a', σ₁, second, source', σ₂, ha, hs, rfl, rfl⟩ := Stmt.lower_move_mem h
    obtain ⟨hleads₁, -⟩ := Expr.lower_locals a ha
    obtain ⟨hleads₂, -⟩ := Expr.lower_locals source hs
    have hend := ((leads_parked σ₂).trans (leads_numbered _)).trans (leads_numbered _)
    exact matches_store id cell ha hs hh
      (Expr.lower_matches a ha (hh.mono (.refl _) ((leads_parked σ₁).trans (hleads₂.trans hend))
        (by simp [Stmt.locals, Expr.locals])))
      (Expr.lower_matches source hs (hh.mono (hleads₁.trans (leads_parked σ₁)) hend
        (by simp [Stmt.locals])))
  | .move id (.const ..) _, hidden, σ, τ, body, h, hh
  | .move id (.name ..) _, hidden, σ, τ, body, h, hh
  | .move id (.binop ..) _, hidden, σ, τ, body, h, hh
  | .move id (.eseq ..) _, hidden, σ, τ, body, h, hh
  | .move id (.call ..) _, hidden, σ, τ, body, h, hh => by
    simp only [Stmt.lower] at h
    cases h
termination_by structural s => s

/-- Lowered statements come to the same as the statements. -/
theorem Stmt.lowerAll_matches : ∀ (children : List Stmt) {hidden : String → Prop} {σ τ : Supply}
    {body : List Stmt}, Stmt.lowerAll children σ = .ok body τ →
      Hides hidden σ τ (Stmt.localsAll children) →
      Matches hidden (Stmt.execAll host children) (Stmt.execAll host body)
  | [], hidden, σ, τ, body, h, hh => by
    obtain ⟨rfl, rfl⟩ := Stmt.lowerAll_nil h
    rw [Stmt.execAll]
    exact .pure _
  | s :: rest, hidden, σ, τ, body, h, hh => by
    obtain ⟨first, σ₁, more, hs, hr, rfl⟩ := Stmt.lowerAll_cons h
    obtain ⟨hleads₁, -⟩ := Stmt.lower_locals s hs
    obtain ⟨hleads₂, -⟩ := Stmt.lowerAll_locals rest hr
    have hfirst := Stmt.lower_matches s hs (hh.mono (.refl _) hleads₂ (by simp))
    have hmore := Stmt.lowerAll_matches rest hr (hh.mono hleads₁ (.refl _) (by simp))
    rw [Stmt.execAll_append, Stmt.execAll]
    exact hfirst.bind fun _ => hmore
termination_by structural children => children

end

/-! ## Whole runs -/

end TreeBackend
