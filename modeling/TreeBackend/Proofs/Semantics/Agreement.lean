import TreeBackend.Proofs.Runs
import TreeBackend.Proofs.Semantics.Tree

/-!
# Runs that differ in hidden registers only

`Store.SameBut hidden` says that two stores differ at most in the registers whose
names are hidden, and `Eval.Matches hidden` that two computations, started from
such stores, end alike and in such stores again.  `Eval.Matches.bind` composes
matching computations step by step.

`Eval.Keeps x` says that a computation leaves the register `x` alone.  A register
that is kept can as well be read before as after: `Eval.Keeps.bind_read`.
-/

namespace TreeBackend

/-- The stores differ at most in the hidden registers. -/
structure Store.SameBut (hidden : String → Prop) (s t : Store) : Prop where
  registers : ∀ x, ¬ hidden x → s.registers x = t.registers x
  result : s.result = t.result
  arguments : s.arguments = t.arguments
  world : s.world = t.world
  trace : s.trace = t.trace

/-- The runs end in the same way, in stores that differ at most in the hidden registers. -/
inductive EndsAlike {α : Type} (hidden : String → Prop) :
    EStateM.Result Exit Store α → EStateM.Result Exit Store α → Prop
  | ok (a : α) {s t : Store} (h : s.SameBut hidden t) : EndsAlike hidden (.ok a s) (.ok a t)
  | error (e : Exit) {s t : Store} (h : s.SameBut hidden t) :
    EndsAlike hidden (.error e s) (.error e t)

namespace Store.SameBut

variable {hidden : String → Prop} {s t : Store}

theorem refl (s : Store) : s.SameBut hidden s := ⟨fun _ _ => rfl, rfl, rfl, rfl, rfl⟩

theorem mono {hidden' : String → Prop} (h : s.SameBut hidden t) (hsub : ∀ x, hidden x → hidden' x) :
    s.SameBut hidden' t :=
  ⟨fun x hx => h.registers x (fun hh => hx (hsub x hh)), h.result, h.arguments, h.world, h.trace⟩

theorem read {place : Storage} (h : s.SameBut hidden t)
    (hplace : ∀ x, place = .register x → ¬ hidden x) : s.read place = t.read place := by
  cases place with
  | result => exact h.result
  | argument n => simp only [Store.read, h.arguments]
  | field x => simp only [Store.read, h.world]
  | register x => exact h.registers x (hplace x rfl)

theorem write {place : Storage} (h : s.SameBut hidden t) (w : Word) :
    (s.write w place).SameBut hidden (t.write w place) := by
  obtain ⟨hregs, hres, hargs, hworld, htrace⟩ := h
  cases place with
  | result => exact ⟨hregs, rfl, hargs, hworld, htrace⟩
  | argument n =>
    exact ⟨hregs, hres, by simp only [Store.write, noteStore, hargs], hworld, by
      simp only [Store.write, noteStore, htrace]⟩
  | field x =>
    exact ⟨hregs, hres, hargs, by simp only [Store.write, noteStore, hworld], by
      simp only [Store.write, noteStore, htrace]⟩
  | register x =>
    refine ⟨fun y hy => ?_, hres, hargs, hworld, htrace⟩
    show assign s.registers x w y = assign t.registers x w y
    by_cases hyx : y = x
    · rw [hyx, assign_self, assign_self]
    · rw [assign_of_ne _ _ hyx, assign_of_ne _ _ hyx, hregs y hy]

/-- Writing a hidden register goes unnoticed. -/
theorem write_hidden (h : s.SameBut hidden t) {x : String} (hx : hidden x) (w : Word) :
    s.SameBut hidden (t.write w (.register x)) := by
  refine ⟨fun y hy => ?_, h.result, h.arguments, h.world, h.trace⟩
  rw [h.registers y hy]
  have hyx : y ≠ x := by
    rintro rfl
    exact hy hx
  exact (assign_of_ne _ _ hyx).symm

theorem poke (h : s.SameBut hidden t) (address w : Word) :
    (s.poke address w).SameBut hidden (t.poke address w) := by
  obtain ⟨hregs, hres, hargs, hworld, htrace⟩ := h
  exact ⟨hregs, hres, hargs, by simp only [Store.poke, noteStore, hworld], by
    simp only [Store.poke, noteStore, htrace]⟩

theorem call (h : s.SameBut hidden t) (host : Host) (callee : Target) (args : List Word) :
    (s.call host callee args).SameBut hidden (t.call host callee args) := by
  obtain ⟨hregs, -, hargs, hworld, htrace⟩ := h
  refine ⟨hregs, ?_, hargs, ?_, ?_⟩ <;> simp only [Store.call, note, hworld, htrace]

end Store.SameBut

theorem EndsAlike.mono {α : Type} {hidden hidden' : String → Prop}
    {p q : EStateM.Result Exit Store α} (h : EndsAlike hidden p q)
    (hsub : ∀ x, hidden x → hidden' x) : EndsAlike hidden' p q := by
  cases h with
  | ok a h => exact .ok a (h.mono hsub)
  | error e h => exact .error e (h.mono hsub)

namespace Eval

variable {α β : Type} {hidden : String → Prop}

/-! ## Matching computations -/

/-- From stores that differ in hidden registers only, the computations end alike. -/
def Matches (hidden : String → Prop) (p q : Eval α) : Prop :=
  ∀ s t : Store, s.SameBut hidden t → EndsAlike hidden (p s) (q t)

theorem Matches.bind {p q : Eval α} {f g : α → Eval β} (h : Matches hidden p q)
    (k : ∀ a, Matches hidden (f a) (g a)) : Matches hidden (p >>= f) (q >>= g) := by
  intro s t hst
  have hpq := h s t hst
  cases hp : p s with
  | ok a s₁ =>
    rw [hp] at hpq
    cases hq : q t with
    | ok b t₁ =>
      rw [hq] at hpq
      cases hpq with
      | ok a h₁ =>
        rw [bind_ok hp, bind_ok hq]
        exact k a s₁ t₁ h₁
    | error e t₁ => rw [hq] at hpq; cases hpq
  | error e s₁ =>
    rw [hp] at hpq
    cases hq : q t with
    | ok b t₁ => rw [hq] at hpq; cases hpq
    | error e' t₁ =>
      rw [hq] at hpq
      cases hpq with
      | error e h₁ =>
        rw [bind_error hp, bind_error hq]
        exact .error e h₁

theorem Matches.pure (a : α) : Matches hidden (Pure.pure a : Eval α) (Pure.pure a) :=
  fun _ _ h => .ok a h

theorem Matches.throw (e : Exit) : Matches hidden (throw e : Eval α) (throw e) :=
  fun _ _ h => .error e h

theorem Matches.map {p q : Eval α} (h : Matches hidden p q) (f : α → β) :
    Matches hidden (f <$> p) (f <$> q) := by
  rw [← bind_pure_comp, ← bind_pure_comp]
  exact h.bind fun a => .pure (f a)

theorem Matches.modify {f g : Store → Store}
    (h : ∀ s t : Store, s.SameBut hidden t → (f s).SameBut hidden (g t)) :
    Matches hidden (modify f : Eval Unit) (modify g) :=
  fun s t hst => .ok () (h s t hst)

/-- A view of the store that hidden registers do not show in. -/
theorem Matches.view {f : Store → α} (h : ∀ s t : Store, s.SameBut hidden t → f s = f t) :
    Matches hidden (do Pure.pure (f (← get)) : Eval α) (do Pure.pure (f (← get))) := by
  intro s t hst
  show EndsAlike hidden (.ok (f s) s) (.ok (f t) t)
  rw [h s t hst]
  exact .ok _ hst

theorem Matches.binop (wraps : Bool) (op : BinOp) (a b : Word) :
    Matches hidden (op.eval wraps a b) (op.eval wraps a b) := by
  have hquotient (part : Word × Word → Word) :
      Matches hidden (BinOp.eval.quotient wraps a b part) (BinOp.eval.quotient wraps a b part) := by
    unfold BinOp.eval.quotient
    split
    · exact .throw _
    · split
      · exact .pure _
      · exact .throw _
  cases op with
  | div => exact hquotient Prod.fst
  | mod => exact hquotient Prod.snd
  | _ => exact .pure _

/-! ## Registers that are left alone -/

/-- The store in which a run ends. -/
def final : EStateM.Result Exit Store α → Store
  | .ok _ s => s
  | .error _ s => s

/-- The computation never changes the register `x`. -/
def Keeps (x : String) (p : Eval α) : Prop :=
  ∀ s, (final (p s)).registers x = s.registers x

variable {x : String}

theorem Keeps.pure (a : α) : Keeps x (Pure.pure a : Eval α) := fun _ => rfl

theorem Keeps.throw (e : Exit) : Keeps x (throw e : Eval α) := fun _ => rfl

theorem Keeps.bind {p : Eval α} {f : α → Eval β} (h : Keeps x p) (k : ∀ a, Keeps x (f a)) :
    Keeps x (p >>= f) := by
  intro s
  have hp := h s
  cases hps : p s with
  | ok a t =>
    rw [hps] at hp
    rw [bind_ok hps, k a t]
    exact hp
  | error e t =>
    rw [hps] at hp
    rw [bind_error hps]
    exact hp

theorem Keeps.map {p : Eval α} (h : Keeps x p) (f : α → β) : Keeps x (f <$> p) := by
  rw [← bind_pure_comp]
  exact h.bind fun a => .pure (f a)

theorem Keeps.view (f : Store → α) : Keeps x (do Pure.pure (f (← get)) : Eval α) := fun _ => rfl

theorem Keeps.modify {f : Store → Store} (h : ∀ s, (f s).registers x = s.registers x) :
    Keeps x (modify f : Eval Unit) := h

theorem Keeps.binop (wraps : Bool) (op : BinOp) (a b : Word) : Keeps x (op.eval wraps a b) := by
  have hquotient (part : Word × Word → Word) : Keeps x (BinOp.eval.quotient wraps a b part) := by
    unfold BinOp.eval.quotient
    split
    · exact .throw _
    · split
      · exact .pure _
      · exact .throw _
  cases op with
  | div => exact hquotient Prod.fst
  | mod => exact hquotient Prod.snd
  | _ => exact .pure _

/-- Reads a register. -/
def reg (x : String) : Eval Word := do Pure.pure ((← get).registers x)

/-- **A register that is kept may be read before or after.** -/
theorem Keeps.bind_read {p : Eval α} {f : α → Word → Eval β} (h : Keeps x p) :
    (do let a ← p; let v ← reg x; f a v) = (do let v ← reg x; let a ← p; f a v) := by
  funext s
  have hread (t : Store) (g : Word → Eval β) : (reg x >>= g) t = g (t.registers x) t := rfl
  rw [hread]
  have hp := h s
  cases hps : p s with
  | ok a t =>
    rw [hps] at hp
    rw [bind_ok hps, bind_ok hps, hread, show t.registers x = s.registers x from hp]
  | error e t => rw [bind_error hps, bind_error hps]

end Eval

end TreeBackend
