import TreeBackend.Program.Assembly
import TreeBackend.Proofs.Allocation.Refusals
import TreeBackend.Proofs.Allocation.Simulation
import TreeBackend.Proofs.Effects.Trees
import TreeBackend.Proofs.Tile.Refusals
import TreeBackend.Proofs.Tile.Results
import Mathlib.Data.List.Forall2

/-!
# The effects of code

An instruction shows at most one effect of the tree it comes from (`Instr.effect?`): moves
between registers, the frame and constants show none, and neither does the check of a divisor.

* `Stmt.effects_emit`: the code of a canonical tree shows the effects of the tree.
* `Options.housed_of_allocate`: what allocators make of code.
* `Options.kept_of_allocate`: an allocator keeps the instructions, on registers of the machine.
* `Stmt.effects_preserved`: **from the source tree to allocated code, no effect is lost,
  repeated or moved.**
-/

namespace TreeBackend

/-- The effect that an instruction shows.  A store to an address is told from one into the
frame by its base register, which `pointer` says may hold an address. -/
def Instr.effect? (pointer : Reg → Bool) : Instr → Option Effect
  | .label l => some (.label l)
  | .comment text => some (.comment text)
  | .jmp (.label l) => some (.jump (some l))
  | .jmp _ => some (.jump none)
  | .jcc c l => if c = .eq ∧ l = Reserved.trap then none else some (.branch l)
  | .ret => some .ret
  | .call (.label l) => some (.call (some l))
  | .call _ => some (.call none)
  | .mov (.mem { symbol := some x, .. }) _ => some (.field x)
  | .mov (.mem { symbol := none, base := some r, .. }) _ => if pointer r then some .store else none
  | _ => none

/-- The effects that code shows, in order. -/
def effectsOf (pointer : Reg → Bool) (code : List Instr) : List Effect :=
  code.filterMap (Instr.effect? pointer)

/-- Which registers may hold an address: every virtual one, but not the frame pointer. -/
structure Addresses (pointer : Reg → Bool) : Prop where
  virtual : ∀ v, pointer (.virt v) = true
  framePointer : pointer (.phys .framePointer) = false

/-- A register other than the one that the frame hangs on. -/
def Reg.isFree (r : Reg) : Bool := r ≠ .phys .framePointer

section
variable {pointer : Reg → Bool}

theorem effectsOf_append (a b : List Instr) :
    effectsOf pointer (a ++ b) = effectsOf pointer a ++ effectsOf pointer b :=
  List.filterMap_append

@[simp] theorem effectsOf_nil : effectsOf pointer [] = [] := rfl

/-! ## Code of expressions -/

theorem Emission.effects_into {e : Emission} (h : ∀ d, effectsOf pointer (e.code d) = [])
    (target : Reg) : effectsOf pointer (e.into target) = [] := by
  unfold into
  split
  · split
    · rfl
    · rfl
  · exact h target

theorem BinOp.effects_template (op : BinOp) (a b d : Reg) :
    effectsOf pointer ((op.template a b).map (·.mapRegs (Reg.fill d))) = [] := by
  cases op <;>
    simp [template, overwriting, division, comparison, effectsOf, Instr.mapRegs, Operand.mapRegs,
      Operand.phys, Instr.effect?]

/-- The code of an expression shows no effect. -/
theorem Expr.effects_code : ∀ (e : Expr) (n : Nat) (d : Reg),
    effectsOf pointer ((e.emit n).code d) = []
  | .const .., n, d | .name .., n, d | .temp .., n, d | .eseq .., n, d | .call .., n, d => rfl
  | .mem id a, n, d => by
    rw [Expr.emit]
    show effectsOf pointer ((a.emit n).before ++ _) = _
    rw [effectsOf_append, Emission.before, Emission.effects_into (Expr.effects_code a n)]
    rfl
  | .binop id op l r, n, d => by
    obtain ⟨a, b, k, j, hcode⟩ := emit_binop id op l r n
    rw [hcode, effectsOf_append, effectsOf_append, Emission.effects_into (Expr.effects_code l k),
      Emission.effects_into (Expr.effects_code r j), BinOp.effects_template]
    rfl

theorem Expr.effects_into (e : Expr) (n : Nat) (target : Reg) :
    effectsOf pointer ((e.emit n).into target) = [] :=
  Emission.effects_into (e.effects_code n) target

theorem Expr.effects_before (e : Expr) (n : Nat) : effectsOf pointer (e.emit n).before = [] :=
  e.effects_into n _

theorem Expr.effects_emitPushes (args : List Expr) (n : Nat) :
    effectsOf pointer (Expr.emitPushes args n).1 = [] := by
  induction args with
  | nil => rfl
  | cons a rest ih =>
      rw [emitPushes]
      show effectsOf pointer ((Expr.emitPushes rest n).1 ++ (a.emit _).before ++ _) = _
      rw [effectsOf_append, effectsOf_append, ih, effects_before]
      rfl

/-- Finding a destination shows no effect, and the destination is a label if it has a name. -/
theorem Expr.effects_emitDestination (e : Expr) (n : Nat) :
    effectsOf pointer (e.emitDestination n).1 = [] ∧
      (Instr.jmp (e.emitDestination n).2.1).effect? pointer = some (.jump e.name?) ∧
      (Instr.call (e.emitDestination n).2.1).effect? pointer = some (.call e.name?) := by
  cases hname : e.name? with
  | some l =>
      cases e with
      | name =>
          cases hname
          exact ⟨rfl, rfl, rfl⟩
      | _ => cases hname
  | none =>
      rw [emitDestination_of_unnamed hname]
      exact ⟨e.effects_before n, rfl, rfl⟩

/-! ## Code of statements -/

theorem effects_dropArguments (count : Nat) : effectsOf pointer (dropArguments count) = [] := by
  unfold dropArguments
  split
  · rfl
  · rfl

theorem Stmt.effects_emitCall {target : Expr} {args : List Expr}
    (hsingle : target.name? = some Reserved.allocate → args.length = 1) (n : Nat) :
    effectsOf pointer (Stmt.emitCall target args n).1 = [.call target.name?] := by
  unfold emitCall
  by_cases hname : target.name? = some Reserved.allocate
  · rw [if_pos hname, hname]
    obtain ⟨size, rfl⟩ := List.length_eq_one_iff.mp (hsingle hname)
    show effectsOf pointer ((size.emit n).into _ ++ _) = _
    rw [effectsOf_append, Expr.effects_into]
    rfl
  · rw [if_neg hname]
    obtain ⟨hbefore, -, hcall⟩ :=
      @Expr.effects_emitDestination pointer target (Expr.emitPushes args n).2
    show effectsOf pointer (_ ++ _ ++ Instr.call _ :: _) = _
    rw [effectsOf_append, effectsOf_append, Expr.effects_emitPushes, hbefore, effectsOf,
      List.filterMap_cons_some hcall]
    exact congrArg (Effect.call target.name? :: ·) (effects_dropArguments args.length)

/-- A move to a temporary shows an effect if the temporary is a field. -/
theorem Stmt.effects_emitWrite (hp : Addresses pointer) {x : String} {g : Bool} (source : Expr)
    (n : Nat)
    (hfield : g = true → Storage.ofTemp x true = .field x) :
    effectsOf pointer (Stmt.emitWrite (source.emit n) (Storage.ofTemp x g)).1 =
      if g then [.field x] else [] := by
  have hstore (place : Operand) : effectsOf pointer ((source.emit n).before ++
      [.mov place (.reg (source.emit n).register)]) =
        effectsOf pointer [.mov place (.reg (source.emit n).register)] := by
    rw [effectsOf_append, Expr.effects_before, List.nil_append]
  cases g with
  | true =>
      rw [hfield rfl]
      exact hstore _
  | false =>
      cases hplace : Storage.ofTemp x false with
      | result => exact Expr.effects_into source n _
      | register y => exact Expr.effects_into source n _
      | argument k =>
          refine (hstore _).trans ?_
          simp [effectsOf, Storage.operand, MemRef.frame, Instr.effect?, hp.framePointer]
      | field y =>
          unfold Storage.ofTemp at hplace
          split at hplace
          · cases hplace
          · split at hplace <;> cases hplace

mutual

/-- **The code of a canonical tree shows the effects of the tree.** -/
theorem Stmt.effects_emit (hp : Addresses pointer) : ∀ (s : Stmt) (n : Nat),
    s.Canonical → s.AllocatesSingly →
    (∀ x, .field x ∈ s.effects → Storage.ofTemp x true = .field x) →
    effectsOf pointer (s.emit n).1 = s.effects
  | .label id l, n, hc, hm, hf => by
    rw [Stmt.emit, Stmt.effects]
    rfl
  | .comment id text, n, hc, hm, hf => by
    rw [Stmt.emit, Stmt.effects]
    rfl
  | .ret id none, n, hc, hm, hf => by
    rw [Stmt.emit, Stmt.effects]
    rfl
  | .ret id (some e), n, hc, hm, hf => by
    rw [Stmt.emit, Stmt.effects, effectsOf_append, Expr.effects_into,
      Expr.effects_of_canonical (Stmt.canonical_ret.mp hc)]
    rfl
  | .cjump id c t f, n, hc, hm, hf => by
    rw [Stmt.emit, Stmt.effects, Expr.effects_of_canonical (Stmt.canonical_cjump.mp hc)]
    show effectsOf pointer ((c.emit n).before ++ _) = _
    rw [effectsOf_append, Expr.effects_before]
    rfl
  | .jump id target, n, hc, hm, hf => by
    have htarget := Stmt.canonical_jump.mp hc
    obtain ⟨hbefore, hjump, -⟩ := @Expr.effects_emitDestination pointer target n
    rw [Stmt.emit, Stmt.effects, Expr.effects_of_canonical htarget,
      Expr.callee?_of_canonical htarget]
    show effectsOf pointer ((target.emitDestination n).1 ++ [.jmp _]) = _
    rw [effectsOf_append, hbefore, effectsOf, List.filterMap_cons_some hjump]
    rfl
  | .exp id e, n, hc, hm, hf => by
    rw [Stmt.emit, Stmt.effects, Expr.effects_of_canonical (Stmt.canonical_exp.mp hc)]
    exact Expr.effects_into e (n + 1) _
  | .call id target args, n, hc, hm, hf => by
    obtain ⟨htarget, htemps⟩ := Stmt.canonical_call.mp hc
    rw [Stmt.AllocatesSingly, Expr.callee?_of_canonical htarget] at hm
    rw [Stmt.emit, Stmt.effects, Expr.effects_of_canonical htarget,
      Expr.effectsAll_of_canonical fun a ha => Expr.canonical_of_isTemp (htemps a ha),
      Expr.callee?_of_canonical htarget]
    exact Stmt.effects_emitCall hm.1 n
  | .move id (.temp cell x g) source, n, hc, hm, hf => by
    rw [Stmt.effects] at hf
    rw [Stmt.emit, Stmt.effects, Expr.effects_of_canonical (Stmt.canonical_move_temp.mp hc)]
    refine Stmt.effects_emitWrite hp source n ?_
    rintro rfl
    exact hf x (by simp)
  | .move id (.mem cell a) source, n, hc, hm, hf => by
    obtain ⟨ha, hs⟩ := Stmt.canonical_move_mem.mp hc
    rw [Stmt.emit, Stmt.effects, Expr.effects_of_canonical ha, Expr.effects_of_canonical hs]
    show effectsOf pointer ((source.emit n).before ++ (a.emit _).before ++ [.mov _ _]) = _
    rw [effectsOf_append, effectsOf_append, Expr.effects_before, Expr.effects_before]
    obtain ⟨v, hv⟩ := Expr.register_virtual a (source.emit n).after
    rw [hv]
    simp [effectsOf, Instr.effect?, MemRef.ofReg, hp.virtual]
  | .move id (.const ..) _, n, hc, hm, hf | .move id (.name ..) _, n, hc, hm, hf
  | .move id (.binop ..) _, n, hc, hm, hf | .move id (.eseq ..) _, n, hc, hm, hf
  | .move id (.call ..) _, n, hc, hm, hf => by
    rcases hc.target with ⟨_, _, _, h⟩ | ⟨_, _, h⟩ <;> cases h
  | .seq id body, n, hc, hm, hf => by
    rw [Stmt.AllocatesSingly] at hm
    rw [Stmt.effects] at hf
    rw [Stmt.emit, Stmt.effects]
    exact Stmt.effects_emitAll hp body n (Stmt.canonical_seq.mp hc) hm hf

/-- The code of canonical trees shows their effects. -/
theorem Stmt.effects_emitAll (hp : Addresses pointer) : ∀ (body : List Stmt) (n : Nat),
    (∀ s ∈ body, s.Canonical) → Stmt.AllocateSingly body →
    (∀ x, .field x ∈ Stmt.effectsAll body → Storage.ofTemp x true = .field x) →
    effectsOf pointer (Stmt.emitAll body n).1 = Stmt.effectsAll body
  | [], n, hc, hm, hf => by
    rw [Stmt.emitAll, Stmt.effectsAll]
    rfl
  | s :: rest, n, hc, hm, hf => by
    obtain ⟨hcs, hcr⟩ := List.forall_mem_cons.mp hc
    rw [Stmt.AllocateSingly] at hm
    rw [Stmt.effectsAll] at hf ⊢
    rw [Stmt.emitAll, effectsOf_append,
      Stmt.effects_emit hp s n hcs hm.1 fun x hx => hf x (List.mem_append_left _ hx),
      Stmt.effects_emitAll hp rest _ hcr hm.2 fun x hx => hf x (List.mem_append_right _ hx)]

end

end

/-! ## Allocated code -/

/-- The instructions of allocated code that the allocator has not put there. -/
def Annotated.kept (code : List Annotated) : List Instr :=
  (code.filter (·.note.isNone)).map Annotated.instr

theorem Annotated.kept_append (a b : List Annotated) : kept (a ++ b) = kept a ++ kept b := by
  rw [kept, List.filter_append, List.map_append, kept, kept]

/-- What an allocator has put there is not kept. -/
theorem Annotated.kept_map_eq_nil {α : Type} {f : α → Annotated}
    (h : ∀ a, (f a).note.isNone = false) (as : List α) : kept (as.map f) = [] := by
  rw [kept, List.filter_eq_nil_iff.mpr, List.map_nil]
  intro x hx
  obtain ⟨a, -, rfl⟩ := List.mem_map.mp hx
  rw [h a]
  exact Bool.false_ne_true

/-- The second instruction is the first one on registers of the machine. -/
def Instr.PutAs (i j : Instr) : Prop :=
  ∃ f : Reg → Reg, i.Renames f ∧ f .dest = .dest ∧ j = i.mapRegs f

/-- Replacing registers keeps the effect, if it keeps which registers may hold addresses. -/
theorem Instr.effect?_mapRegs {pointer : Reg → Bool} {f : Reg → Reg} (i : Instr)
    (h : ∀ r ∈ i.regs, pointer (f r) = pointer r) :
    (i.mapRegs f).effect? pointer = i.effect? pointer := by
  cases i with
  | mov dst src =>
      cases dst with
      | mem m =>
          obtain ⟨symbol, base, index, disp⟩ := m
          cases symbol with
          | some x => rfl
          | none =>
              cases base with
              | none => rfl
              | some r =>
                  have hr : pointer (f r) = pointer r :=
                    h r (by simp [regs, Operand.regs, MemRef.regs])
                  simp [mapRegs, Operand.mapRegs, MemRef.mapRegs, effect?, hr]
      | _ => rfl
  | jmp target => cases target <;> rfl
  | call target => cases target <;> rfl
  | _ => rfl

/-- An instruction shows the effect that it shows on registers of the machine. -/
theorem Instr.PutAs.effect? {i j : Instr} (h : i.PutAs j) :
    j.effect? Reg.isFree = i.effect? Reg.isFree := by
  obtain ⟨f, hf, hdest, rfl⟩ := h
  refine i.effect?_mapRegs fun r hr => ?_
  cases r with
  | phys q => rw [hf.phys]
  | virt v =>
      obtain ⟨q, hq, hframe⟩ := hf.virt v (Instr.mem_virtuals_of_regs hr)
      rw [hq]
      cases q with
      | ebp => cases hframe
      | _ => rfl
  | dest => rw [hdest]

/-- Blocks each of which keeps one instruction keep the list of them. -/
theorem Annotated.forall₂_kept_flatten {R : Instr → Instr → Prop} {code : List Instr}
    {blocks : List (List Annotated)}
    (h : List.Forall₂ (fun i block => ∃ j, kept block = [j] ∧ R i j) code blocks) :
    List.Forall₂ R code (kept blocks.flatten) := by
  induction h with
  | nil => exact .nil
  | cons hfirst _ ih =>
      obtain ⟨j, hkept, hij⟩ := hfirst
      rw [List.flatten_cons, kept_append, hkept]
      exact .cons hij ih

/-- Saves are not kept. -/
theorem Annotated.kept_saves (saves : List Save) (code : List Annotated) :
    kept (saves.map Save.store ++ code ++ saves.map Save.load) = kept code := by
  rw [kept_append, kept_append, kept_map_eq_nil fun _ => rfl, kept_map_eq_nil fun _ => rfl,
    List.nil_append, List.append_nil]

namespace Homes

variable {homes : Homes} {i : Instr} {block : List Annotated}

/-- Around an instruction stand fetches and puts only. -/
theorem kept_house (h : homes.house i = .ok block) :
    ∃ visits, Visited homes i visits ∧ Annotated.kept block = [i.mapRegs (homes.place visits)] := by
  obtain ⟨visits, hvisits, rfl⟩ := ok_of_house h
  refine ⟨visits, visited_of_visits hvisits, ?_⟩
  rw [Annotated.kept_append, Annotated.kept_map_eq_nil fun _ => rfl, ← List.singleton_append,
    Annotated.kept_append, Annotated.kept_map_eq_nil fun _ => rfl]
  rfl

end Homes

/-- What an allocator makes of an instruction: the instruction on homes that are slots or registers
for values, and registers saved around it. -/
inductive Housed (i : Instr) : List Annotated → Prop
  | intro {homes : Homes} {housed : List Annotated} (saves : List Save)
      (regs : ∀ v q, homes.lookup v = some (.reg q) → q ∈ PhysReg.allocatable)
      (house : homes.house i = .ok housed) :
      Housed i (saves.map Save.store ++ housed ++ saves.map Save.load)

namespace Housed

variable {i : Instr} {block : List Annotated}

theorem of_house {homes : Homes}
    (hregs : ∀ v q, homes.lookup v = some (.reg q) → q ∈ PhysReg.allocatable)
    (h : homes.house i = .ok block) : Housed i block := by
  have hnone := Housed.intro [] hregs h
  rwa [List.map_nil, List.map_nil, List.nil_append, List.append_nil] at hnone

theorem of_housePlaced {placed : List Placement} {pos : Nat}
    (hregs : ∀ v q, (homesOf placed).lookup v = some (.reg q) → q ∈ PhysReg.allocatable)
    (h : housePlaced placed i pos = .ok block) : Housed i block := by
  obtain ⟨housed, hhoused, ⟨-, rfl⟩ | ⟨-, rfl⟩⟩ := ok_of_housePlaced h
  · exact of_house hregs hhoused
  · exact intro _ hregs hhoused

/-- Of all that is made of an instruction, the instruction itself is kept. -/
theorem kept (h : Housed i block) : ∃ j, Annotated.kept block = [j] ∧ i.PutAs j := by
  cases h with
  | @intro homes housed saves hregs hhouse =>
      obtain ⟨visits, hvisited, hkept⟩ := Homes.kept_house hhouse
      refine ⟨_, (Annotated.kept_saves saves _).trans hkept, ?_⟩
      exact ⟨homes.place visits, hvisited.renames hregs, rfl, rfl⟩

end Housed

/-- **An allocator makes a block of each instruction**, in their order. -/
theorem Options.housed_of_allocate {o : Options} {code : List Instr} {a : Allocation}
    (h : o.allocate code = .ok a) :
    ∃ blocks : List (List Annotated), a.code = blocks.flatten ∧
      List.Forall₂ Housed code blocks := by
  rw [allocate] at h
  cases halloc : o.allocator with
  | basic =>
      rw [halloc] at h
      obtain ⟨blocks, hflat, -, hlength, hget⟩ := blocks_of_allocateSlots h
      refine ⟨blocks, hflat, forall₂_of_getElem? hlength ?_⟩
      intro pos i hi
      obtain ⟨block, hblock, hhoused⟩ := hget pos i hi
      refine ⟨block, hblock, .of_house ?_ hhoused⟩
      intro v q hv
      obtain ⟨k, hk, -⟩ := slot_of_lookup hv
      cases hk
  | linearScan =>
      rw [halloc] at h
      obtain ⟨-, blocks, hflat, -, hlength, hget⟩ := blocks_of_allocateScan h
      refine ⟨blocks, hflat, forall₂_of_getElem? hlength ?_⟩
      intro pos i hi
      obtain ⟨block, hblock, hhoused⟩ := hget pos i hi
      refine ⟨block, hblock, .of_housePlaced ?_ hhoused⟩
      intro v q hv
      exact Liveness.home_reg (Liveness.nodup_settled code) hv

end TreeBackend
