import TreeBackend.Proofs.Accesses.Code
import TreeBackend.Proofs.Tile.Narrow
import TreeBackend.Proofs.Tile.Refusals

/-!
# The shape of selected code

What the allocators rely on.  A template leaves its destination open and works on registers that
it is given, so the shape of code is that of the templates and of what they are put together with.
`Instr.Selected` says what an instruction may be made of, given the registers that may stand in it
and the places of the tree's temporaries.  `Selects` says that code consists of such instructions
and of epilogues, and that the registers it makes up are numbered from one number up to another;
code that goes on with numbering where other code has stopped is appended to it (`Selects.seq`),
which carries the induction over trees.

* `Stmt.selects_emit`: the code of every tree has this shape.
* `Stmt.tileBody_shape`: **the shape of selected code**, as a list of what holds of its
  instructions.
-/

namespace TreeBackend

/-- The offset of an argument is eight bytes above the frame pointer for the first one, and four
more for each one after it. -/
theorem Frame.argumentOffset_eq (n : Nat) :
    argumentOffset n = Int32.ofInt (4 * ((n : Int) + 2)) := by
  have hn : Int32.ofNat n = Int32.ofInt (n : Int) := Int32.ofInt_eq_ofNat.symm
  have h2 : Int32.ofInt 2 = 2 := rfl
  have h4 : Int32.ofInt 4 = wordBytes := rfl
  rw [argumentOffset, hn, Int32.ofInt_mul, Int32.ofInt_add, h2, h4, Int32.mul_comm]

/-! ## Operands -/

namespace Instr

/-- The operands of an instruction. -/
def operands : Instr → List Operand
  | mov dst src => [dst, src]
  | cmp a b => [a, b]
  | lea dst address => [.reg dst, .mem address]
  | alu _ dst src => [.reg dst, src]
  | push op | imul op | idiv op | jmp op | call op => [op]
  | pop dst | movzx dst => [.reg dst]
  | test a b => [.reg a, .reg b]
  | cdq | setcc _ | jcc _ _ | ret | int80 | label _ | comment _ => []

/-- The operands of an instruction that the machine has for registers and memory only: what it
writes, what it compares with something else, and what it multiplies or divides by. -/
def sites : Instr → List Operand
  | mov dst _ => [dst]
  | cmp a _ => [a]
  | lea dst _ | alu _ dst _ | pop dst | movzx dst => [.reg dst]
  | imul op | idiv op => [op]
  | push _ | test _ _ | jmp _ | call _ | cdq | setcc _ | jcc _ _ | ret | int80 | label _
  | comment _ => []

/-- An instruction mentions the registers of its operands. -/
theorem regs_eq_operands (i : Instr) : i.regs = i.operands.flatMap Operand.regs := by
  cases i <;> simp [regs, operands, Operand.regs]

end Instr

/-- An operand that stands for a register or a word in memory. -/
def Operand.isPlace (op : Operand) : Bool := op.isReg || op.isMem

/-! ## Instructions -/

/-- An instruction of the form that the machine has: one operand in memory at most, a register or
memory where these are asked for.  The system call is for the startup code. -/
structure Instr.Shaped (i : Instr) : Prop where
  memory : (i.operands.filter Operand.isMem).length ≤ 1
  sites : ∀ op ∈ i.sites, op.isPlace
  system : i ≠ .int80

theorem Instr.shaped_iff {i : Instr} : i.Shaped ↔ (i.operands.filter Operand.isMem).length ≤ 1 ∧
    (∀ op ∈ i.sites, op.isPlace) ∧ i ≠ .int80 :=
  ⟨fun h => ⟨h.memory, h.sites, h.system⟩, fun ⟨hmemory, hsites, hsystem⟩ =>
    ⟨hmemory, hsites, hsystem⟩⟩

instance (i : Instr) : Decidable i.Shaped := decidable_of_iff _ Instr.shaped_iff.symm

section
variable {S : Reg → Prop} {places : List Storage}

/-- An operand of given registers, or the cell of an argument. -/
inductive Operand.Selected (S : Reg → Prop) (places : List Storage) (op : Operand) : Prop where
  | regs (h : ∀ r ∈ op.regs, S r)
  | argument (n : Nat) (h : .argument n ∈ places)
      (heq : op = .mem (.frame (Frame.argumentOffset n)))

/-- An instruction on such operands. -/
structure Instr.Selected (S : Reg → Prop) (places : List Storage) (i : Instr) : Prop where
  shaped : i.Shaped
  operands : ∀ op ∈ i.operands, op.Selected S places

/-- An instruction whose registers are all among the given ones. -/
theorem Instr.Shaped.selected {i : Instr} (h : i.Shaped) (hregs : ∀ r ∈ i.regs, S r) :
    i.Selected S places := by
  refine ⟨h, fun op hop => .regs ?_⟩
  intro r hr
  apply hregs
  rw [Instr.regs_eq_operands]
  exact List.mem_flatMap.mpr ⟨op, hop, hr⟩

/-! ## Code -/

/-- Code that consists of given instructions and of epilogues. -/
inductive SelectedCode (S : Reg → Prop) (places : List Storage) : List Instr → Prop where
  | nil : SelectedCode S places []
  | cons {i : Instr} {rest : List Instr} (h : i.Selected S places)
      (hrest : SelectedCode S places rest) : SelectedCode S places (i :: rest)
  | epilogue {rest : List Instr} (hrest : SelectedCode S places rest) :
      SelectedCode S places (Instr.epilogue ++ rest)

namespace SelectedCode

variable {a b : List Instr}

theorem append (ha : SelectedCode S places a) (hb : SelectedCode S places b) :
    SelectedCode S places (a ++ b) := by
  induction ha with
  | nil => exact hb
  | cons h _ ih => exact .cons h ih
  | epilogue _ ih =>
      rw [List.append_assoc]
      exact .epilogue ih

theorem singleton {i : Instr} (h : i.Selected S places) : SelectedCode S places [i] := .cons h .nil

theorem of_forall (h : ∀ i ∈ a, i.Selected S places) : SelectedCode S places a := by
  induction a with
  | nil => exact .nil
  | cons i rest ih =>
      obtain ⟨hi, hrest⟩ := List.forall_mem_cons.mp h
      exact .cons hi (ih hrest)

/-- Each instruction is one of those given, or belongs to an epilogue. -/
theorem at_position (h : SelectedCode S places a) {k : Nat} {i : Instr} (hi : a[k]? = some i) :
    i.Selected S places ∨ ∃ before after j, a = before ++ Instr.epilogue ++ after ∧
      k = before.length + j ∧ Instr.epilogue[j]? = some i := by
  induction h generalizing k with
  | nil => cases hi
  | @cons i' rest hi' hrest ih =>
      cases k with
      | zero =>
          cases hi
          exact .inl hi'
      | succ k =>
          rcases ih hi with hi | ⟨before, after, j, rfl, rfl, hj⟩
          · exact .inl hi
          · exact .inr ⟨i' :: before, after, j, rfl, by rw [List.length_cons]; omega, hj⟩
  | @epilogue rest hrest ih =>
      by_cases hk : k < Instr.epilogue.length
      · rw [List.getElem?_append_left hk] at hi
        exact .inr ⟨[], rest, k, rfl, (Nat.zero_add k).symm, hi⟩
      · rw [List.getElem?_append_right (Nat.le_of_not_lt hk)] at hi
        rcases ih hi with hi | ⟨before, after, j, rfl, hkj, hj⟩
        · exact .inl hi
        · refine .inr ⟨Instr.epilogue ++ before, after, j, by simp, ?_, hj⟩
          rw [List.length_append]
          omega

end SelectedCode

/-! ## Registers -/

/-- A set of registers that has what code may mention: some registers of the machine, all
temporaries, and registers made up from one number up to another. -/
structure Allows (S : Reg → Prop) (lo hi : Nat) : Prop where
  phys : ∀ q ∈ [PhysReg.eax, .edx, .esp], S (.phys q)
  temp : ∀ x, S (.temp x)
  fresh : ∀ k, lo ≤ k → k < hi → S (.fresh k)

theorem Allows.mono {lo hi lo' hi' : Nat} (h : Allows S lo hi) (hlo : lo ≤ lo') (hhi : hi' ≤ hi) :
    Allows S lo' hi' :=
  ⟨h.phys, h.temp, fun k hk hk' => h.fresh k (by omega) (by omega)⟩

theorem Allows.accumulator {lo hi : Nat} (h : Allows S lo hi) : S (.phys .accumulator) :=
  h.phys _ List.mem_cons_self

/-! ## Expressions -/

theorem Instr.shaped_mov (d : Reg) (source : Operand) : (mov (.reg d) source).Shaped := by
  refine ⟨?_, List.forall_mem_singleton.mpr rfl, nofun⟩
  cases source <;> simp [operands, Operand.isMem, List.filter]

theorem selected_mov {d : Reg} {source : Operand} (hd : S d) (hsource : source.Selected S places) :
    (Instr.mov (.reg d) source).Selected S places := by
  refine ⟨Instr.shaped_mov d source, List.forall_mem_cons.mpr ⟨?_, ?_⟩⟩
  · exact .regs (List.forall_mem_singleton.mpr hd)
  · exact List.forall_mem_singleton.mpr hsource

theorem selected_reg {r : Reg} (h : S r) : (Operand.reg r).Selected S places :=
  .regs (List.forall_mem_singleton.mpr h)

theorem selected_ofReg {r : Reg} (h : S r) : (Operand.mem (.ofReg r)).Selected S places :=
  .regs (List.forall_mem_singleton.mpr h)

/-- Where a temporary lives is an operand that may be selected. -/
theorem Storage.selected_operand {place : Storage} (hplace : place ∈ places) {lo hi : Nat}
    (hS : Allows S lo hi) : place.operand.Selected S places := by
  cases place with
  | result => exact selected_reg hS.accumulator
  | argument n => exact .argument n hplace rfl
  | field x => exact .regs (List.forall_mem_nil _)
  | register x => exact selected_reg (hS.temp x)

/-! ### Templates -/

namespace BinOp

theorem shaped_template (op : BinOp) (a b d : Reg) :
    ∀ i ∈ (op.template a b).map (·.mapRegs (Reg.fill d)), i.Shaped := by
  cases op <;> simp [template, overwriting, division, comparison, Instr.mapRegs, Operand.mapRegs,
    Operand.phys, Instr.shaped_iff, Instr.operands, Instr.sites, Operand.isMem, Operand.isReg,
    Operand.isPlace, List.filter]

/-- The registers of a template are those of its operands, its destination, and two of the
machine. -/
theorem regs_template (op : BinOp) (a b : Reg) : ∀ i ∈ op.template a b, ∀ r ∈ i.regs,
    r ∈ [.dest, a, b, .phys .eax, .phys .edx] := by
  cases op <;> simp [template, overwriting, division, comparison, Instr.regs, Operand.regs,
    Operand.phys, MemRef.regs, PhysReg.accumulator, PhysReg.remainder]

/-- The template of an operator on registers that are allowed, its destination filled in. -/
theorem selected_template (op : BinOp) {a b : VirtualReg} {d : Reg} {lo hi : Nat}
    (hS : Allows S lo hi) (ha : S (.virt a)) (hb : S (.virt b)) (hd : S d) :
    SelectedCode S places ((op.template (.virt a) (.virt b)).map (·.mapRegs (Reg.fill d))) := by
  apply SelectedCode.of_forall
  intro i hi
  apply (op.shaped_template _ _ d i hi).selected
  intro r hr
  obtain ⟨j, hj, rfl⟩ := List.mem_map.mp hi
  rw [Instr.regs_mapRegs] at hr
  obtain ⟨q, hq, rfl⟩ := List.mem_map.mp hr
  have hmem := op.regs_template _ _ j hj q hq
  simp only [List.mem_cons, List.not_mem_nil, or_false] at hmem
  rcases hmem with rfl | rfl | rfl | rfl | rfl
  · exact hd
  · exact ha
  · exact hb
  · exact hS.phys _ (by decide)
  · exact hS.phys _ (by decide)

end BinOp

/-! ### Values -/

namespace Expr

theorem allows_register {e : Expr} {n : Nat} (hS : Allows S n (e.emit n).after) :
    S (e.emit n).register := by
  rcases register_eq e n with ⟨x, -, hr, -⟩ | ⟨-, hr, hafter⟩
  · rw [hr]
    exact hS.temp x
  · rw [hr]
    exact hS.fresh _ (le_emit_next e n) (by omega)

theorem selected_into {e : Expr} {n lo hi : Nat} {target : Reg} (hS : Allows S lo hi)
    (hcode : SelectedCode S places ((e.emit n).code target)) (htarget : S target) :
    SelectedCode S places ((e.emit n).into target) := by
  rw [Emission.into]
  cases hheld : (e.emit n).held? with
  | none => exact hcode
  | some r =>
      rw [emit_held?] at hheld
      obtain ⟨_, _, _, y, -, -, rfl⟩ := held?_eq_some hheld
      by_cases h : .temp y = target
      · simp only [h, if_true]
        exact .nil
      · simp only [h, if_false]
        exact .singleton (selected_mov htarget (selected_reg (hS.temp y)))

/-- **The code of an expression is selected code**, if its destination may be mentioned. -/
theorem selected_code : ∀ (e : Expr) (n : Nat) {d : Reg}, e.places ⊆ places →
    Allows S n (e.emit n).next → S d → SelectedCode S places ((e.emit n).code d)
  | .const .., n, d, _, _, hd | .name .., n, d, _, _, hd =>
    .singleton (selected_mov hd (.regs (List.forall_mem_nil _)))
  | .temp id x g, n, d, hplaces, hS, hd =>
    .singleton (selected_mov hd (Storage.selected_operand (hplaces List.mem_cons_self) hS))
  | .mem id a, n, d, hplaces, hS, hd => by
    have hS' : Allows S n (a.emit n).after := hS
    have ha : S (a.emit n).register := allows_register hS'
    have hcode := selected_code a n hplaces
      (hS'.mono (Nat.le_refl n) (Emission.next_le_after _)) ha
    exact (selected_into hS' hcode ha).append (.singleton (selected_mov hd (selected_ofReg ha)))
  | .binop id op l r, n, d, hplaces, hS, hd => by
    rw [Expr.places, List.append_subset] at hplaces
    cases hop : op.overwritesLeft with
    | false =>
        rw [emit_keeping hop] at hS ⊢
        replace hS : Allows S n (r.emit (l.emit n).after).after := hS
        have hl := (l.emit n).next_le_after
        have hr := le_emit_next r (l.emit n).after
        have hr' := (r.emit (l.emit n).after).next_le_after
        have hn := le_emit_next l n
        have hSl : Allows S n (l.emit n).after := hS.mono (Nat.le_refl n) (by omega)
        have hSr : Allows S (l.emit n).after (r.emit (l.emit n).after).after :=
          hS.mono (by omega) (Nat.le_refl _)
        have ha := allows_register hSl
        have hb := allows_register hSr
        have hleft := selected_code l n hplaces.1 (hSl.mono (Nat.le_refl _) hl) ha
        have hright := selected_code r _ hplaces.2 (hSr.mono (Nat.le_refl _) hr') hb
        refine ((selected_into hS hleft ha).append (selected_into hS hright hb)).append ?_
        obtain ⟨a, hra⟩ := register_virtual l n
        obtain ⟨b, hrb⟩ := register_virtual r (l.emit n).after
        rw [hra] at ha ⊢
        rw [hrb] at hb ⊢
        exact op.selected_template hS ha hb hd
    | true =>
        rw [emit_overwriting hop] at hS ⊢
        replace hS : Allows S n (r.emit (l.emit (n + 1)).next).after := hS
        have hn := le_emit_next l (n + 1)
        have hr := le_emit_next r (l.emit (n + 1)).next
        have hr' := (r.emit (l.emit (n + 1)).next).next_le_after
        have hSr : Allows S (l.emit (n + 1)).next (r.emit (l.emit (n + 1)).next).after :=
          hS.mono (by omega) (Nat.le_refl _)
        have ha : S (.fresh n) := hS.fresh n (Nat.le_refl n) (by omega)
        have hb := allows_register hSr
        have hleft := selected_code l (n + 1) hplaces.1 (hS.mono (by omega) (by omega)) ha
        have hright := selected_code r _ hplaces.2 (hSr.mono (Nat.le_refl _) hr') hb
        refine ((selected_into hS hleft ha).append (selected_into hS hright hb)).append ?_
        obtain ⟨b, hrb⟩ := register_virtual r (l.emit (n + 1)).next
        rw [hrb] at hb ⊢
        exact op.selected_template hS ha hb hd
  | .eseq .., n, d, _, _, _ | .call .., n, d, _, _, _ => .nil

end Expr

end

/-! ## Numbered code -/

/-- Selected code whose registers are made up from one number up to another. -/
structure Selects (places : List Storage) (lo hi : Nat) (code : List Instr) : Prop where
  le : lo ≤ hi
  code : ∀ S, Allows S lo hi → SelectedCode S places code

section
variable {places : List Storage} {lo mid hi : Nat} {a b : List Instr}

namespace Selects

theorem nil (n : Nat) : Selects places n n [] := ⟨Nat.le_refl n, fun _ _ => .nil⟩

theorem append (ha : Selects places lo hi a) (hb : Selects places lo hi b) :
    Selects places lo hi (a ++ b) :=
  ⟨ha.le, fun S hS => (ha.code S hS).append (hb.code S hS)⟩

/-- Code that goes on with numbering where other code has stopped. -/
theorem seq (ha : Selects places lo mid a) (hb : Selects places mid hi b) :
    Selects places lo hi (a ++ b) :=
  ⟨Nat.le_trans ha.le hb.le, fun S hS =>
    (ha.code S (hS.mono (Nat.le_refl lo) hb.le)).append
      (hb.code S (hS.mono ha.le (Nat.le_refl hi)))⟩

theorem single {i : Instr} (hle : lo ≤ hi) (h : ∀ S, Allows S lo hi → i.Selected S places) :
    Selects places lo hi [i] :=
  ⟨hle, fun S hS => .singleton (h S hS)⟩

/-- An instruction that mentions no registers. -/
theorem bare {i : Instr} (n : Nat) (hi : i.Shaped) (hregs : i.regs = []) :
    Selects places n n [i] :=
  .single (Nat.le_refl n) fun S _ => hi.selected (by rw [hregs]; exact List.forall_mem_nil _)

theorem epilogue (n : Nat) : Selects places n n Instr.epilogue :=
  ⟨Nat.le_refl n, fun _ _ => .epilogue .nil⟩

end Selects

/-- An instruction that has one operand only, which may be anything. -/
theorem Instr.shaped_of_one {i : Instr} (hone : i.operands.length ≤ 1) (hsites : i.sites = [])
    (hsystem : i ≠ .int80) : i.Shaped :=
  ⟨Nat.le_trans (List.length_filter_le _ _) hone, by rw [hsites]; exact List.forall_mem_nil _,
    hsystem⟩

theorem Instr.shaped_push (op : Operand) : (push op).Shaped := shaped_of_one Nat.le.refl rfl nofun

theorem Instr.shaped_call (op : Operand) : (call op).Shaped := shaped_of_one Nat.le.refl rfl nofun

theorem Instr.shaped_jmp (op : Operand) : (jmp op).Shaped := shaped_of_one Nat.le.refl rfl nofun

theorem Instr.shaped_jcc (c : Cond) (l : String) : (jcc c l).Shaped :=
  shaped_of_one (Nat.zero_le 1) rfl nofun

theorem Instr.shaped_test (a b : Reg) : (test a b).Shaped := by
  simp [shaped_iff, operands, sites, Operand.isMem, List.filter]

/-- A store to memory. -/
theorem Instr.shaped_store (m : MemRef) (r : Reg) : (mov (.mem m) (.reg r)).Shaped := by
  simp [shaped_iff, operands, sites, Operand.isMem, Operand.isPlace, List.filter]

theorem Instr.shaped_alu (op : AluOp) (r : Reg) (v : Int32) : (alu op r (.imm v)).Shaped := by
  simp [shaped_iff, operands, sites, Operand.isMem, Operand.isReg, Operand.isPlace, List.filter]

namespace Expr

variable {e : Expr}

theorem selects_into (he : e.places ⊆ places) {n : Nat} {target : Reg} (hlo : lo ≤ n)
    (hhi : (e.emit n).next ≤ hi) (htarget : ∀ S, Allows S lo hi → S target) :
    Selects places lo hi ((e.emit n).into target) := by
  have hn := le_emit_next e n
  refine ⟨by omega, ?_⟩
  intro S hS
  exact selected_into hS (selected_code e n he (hS.mono hlo hhi) (htarget S hS)) (htarget S hS)

theorem selects_before (he : e.places ⊆ places) (n : Nat) :
    Selects places n (e.emit n).after (e.emit n).before :=
  selects_into he (Nat.le_refl n) (Emission.next_le_after _) fun _ hS => allows_register hS

theorem le_emit_after (e : Expr) (n : Nat) : n ≤ (e.emit n).after :=
  Nat.le_trans (le_emit_next e n) (Emission.next_le_after _)

theorem selects_emitPushes {args : List Expr} (hargs : Expr.placesAll args ⊆ places) (n : Nat) :
    Selects places n (emitPushes args n).2 (emitPushes args n).1 := by
  induction args with
  | nil => exact .nil n
  | cons a rest ih =>
      rw [Expr.placesAll, List.append_subset] at hargs
      have hrest := ih hargs.2
      refine (hrest.seq (selects_before hargs.1 _)).append ?_
      refine .single (Nat.le_trans hrest.le (le_emit_after a _)) ?_
      intro S hS
      apply (Instr.shaped_push _).selected
      exact List.forall_mem_singleton.mpr (allows_register (hS.mono hrest.le (Nat.le_refl _)))

theorem selects_emitDestination (he : e.places ⊆ places) (n : Nat) :
    Selects places n (e.emitDestination n).2.2 (e.emitDestination n).1 ∧
      ∀ S, Allows S n (e.emitDestination n).2.2 → ∀ r ∈ (e.emitDestination n).2.1.regs, S r := by
  cases hname : e.name? with
  | some l =>
      cases e with
      | name => exact ⟨.nil n, fun _ _ => List.forall_mem_nil _⟩
      | _ => cases hname
  | none =>
      rw [emitDestination_of_unnamed hname]
      refine ⟨selects_before he n, ?_⟩
      intro S hS
      exact List.forall_mem_singleton.mpr (allows_register hS)

end Expr

/-! ## Statements -/

namespace Stmt

theorem selects_dropArguments (n count : Nat) : Selects places n n (dropArguments count) := by
  unfold dropArguments
  split
  · exact .nil n
  · refine .single (Nat.le_refl n) fun S hS => (Instr.shaped_alu _ _ _).selected ?_
    exact List.forall_mem_singleton.mpr (hS.phys _ (by decide))

theorem selects_emitWrite {source : Expr} (hsource : source.places ⊆ places) (n : Nat)
    {place : Storage} (hplace : place ∈ places) :
    Selects places n (emitWrite (source.emit n) place).2 (emitWrite (source.emit n) place).1 := by
  have hinto {target : Reg} (h : ∀ S, Allows S n (source.emit n).next → S target) :
      Selects places n (source.emit n).next ((source.emit n).into target) :=
    Expr.selects_into hsource (Nat.le_refl n) (Nat.le_refl _) h
  have hstore {m : MemRef} (h : place.operand = .mem m) :
      Selects places n (source.emit n).after
        ((source.emit n).before ++ [.mov place.operand (.reg (source.emit n).register)]) := by
    refine (Expr.selects_before hsource n).append ?_
    refine .single (Expr.le_emit_after source n) ?_
    intro S hS
    refine ⟨?_, List.forall_mem_cons.mpr ⟨?_, ?_⟩⟩
    · rw [h]
      exact Instr.shaped_store m _
    · exact Storage.selected_operand hplace hS
    · exact List.forall_mem_singleton.mpr (selected_reg (Expr.allows_register hS))
  cases place with
  | result => exact hinto fun S hS => hS.accumulator
  | register x => exact hinto fun S hS => hS.temp x
  | argument k => exact hstore rfl
  | field x => exact hstore rfl

theorem selects_emitCall {target : Expr} {args : List Expr} (htarget : target.places ⊆ places)
    (hargs : Expr.placesAll args ⊆ places) (n : Nat) :
    Selects places n (emitCall target args n).2 (emitCall target args n).1 := by
  unfold emitCall
  split
  · split
    · next size =>
      rw [Expr.placesAll, Expr.placesAll, List.append_nil] at hargs
      have hsize : Selects places n (size.emit n).next
          ((size.emit n).into (.phys .accumulator)) :=
        Expr.selects_into hargs (Nat.le_refl n) (Nat.le_refl _) fun S hS => hS.accumulator
      exact hsize.seq (.bare _ (Instr.shaped_of_one Nat.le.refl rfl nofun) rfl)
    · exact .nil n
  · have hpushes := Expr.selects_emitPushes hargs n
    obtain ⟨hbefore, hthere⟩ :=
      Expr.selects_emitDestination htarget (Expr.emitPushes args n).2
    have hcall : Selects places (Expr.emitPushes args n).2
        (target.emitDestination (Expr.emitPushes args n).2).2.2
        [.call (target.emitDestination (Expr.emitPushes args n).2).2.1] :=
      .single hbefore.le fun S hS =>
        (Instr.shaped_call _).selected (hthere S hS)
    have hdrop : Selects places (target.emitDestination (Expr.emitPushes args n).2).2.2 _
        (dropArguments args.length) := selects_dropArguments _ _
    simpa using (hpushes.seq ((hbefore.append hcall).seq hdrop))

end Stmt

mutual

/-- **The code of every tree is selected code, numbered from the first number up to the last.** -/
theorem Stmt.selects_emit {places : List Storage} : ∀ (s : Stmt) (n : Nat), s.places ⊆ places →
    Selects places n (s.emit n).2 (s.emit n).1
  | .label .., n, _ | .comment .., n, _ => by
    rw [Stmt.emit]
    exact .bare n (Instr.shaped_of_one (Nat.zero_le 1) rfl nofun) rfl
  | .ret _ none, n, _ => by
    rw [Stmt.emit]
    exact .epilogue n
  | .ret id (some e), n, h => by
    rw [Stmt.places] at h
    rw [Stmt.emit]
    exact (Expr.selects_into h (Nat.le_refl n) (Nat.le_refl _) fun S hS => hS.accumulator).seq
      (.epilogue _)
  | .cjump id c t f, n, h => by
    rw [Stmt.places] at h
    rw [Stmt.emit]
    refine (Expr.selects_before h n).append ⟨Expr.le_emit_after c n, ?_⟩
    intro S hS
    have hc := Expr.allows_register hS
    refine .cons ((Instr.shaped_test _ _).selected ?_) (.singleton ?_)
    · exact List.forall_mem_cons.mpr ⟨hc, List.forall_mem_singleton.mpr hc⟩
    · exact (Instr.shaped_jcc _ _).selected (List.forall_mem_nil _)
  | .jump id target, n, h => by
    rw [Stmt.places] at h
    rw [Stmt.emit]
    obtain ⟨hbefore, hthere⟩ := Expr.selects_emitDestination h n
    exact hbefore.append (.single hbefore.le fun S hS =>
      (Instr.shaped_jmp _).selected (hthere S hS))
  | .exp id e, n, h => by
    rw [Stmt.places] at h
    rw [Stmt.emit]
    have hle := Expr.le_emit_next e (n + 1)
    exact Expr.selects_into h (Nat.le_succ n) (Nat.le_refl _) fun S hS =>
      hS.fresh n (Nat.le_refl n) hle
  | .call id target args, n, h => by
    rw [Stmt.places, List.append_subset] at h
    rw [Stmt.emit]
    exact Stmt.selects_emitCall h.1 h.2 n
  | .move id (.temp cell x g) source, n, h => by
    rw [Stmt.places, List.append_subset] at h
    rw [Stmt.emit]
    exact Stmt.selects_emitWrite h.2 n (h.1 List.mem_cons_self)
  | .move id (.mem cell a) source, n, h => by
    rw [Stmt.places, List.append_subset] at h
    rw [Stmt.emit]
    have hsource := Expr.selects_before h.2 n
    have haddress := Expr.selects_before (e := a) h.1 (source.emit n).after
    refine (hsource.seq haddress).append (.single (Nat.le_trans hsource.le haddress.le) ?_)
    intro S hS
    apply (Instr.shaped_store _ _).selected
    refine List.forall_mem_cons.mpr ⟨?_, List.forall_mem_singleton.mpr ?_⟩
    · exact Expr.allows_register (hS.mono hsource.le (Nat.le_refl _))
    · exact Expr.allows_register (hS.mono (Nat.le_refl n) haddress.le)
  | .move id (.const ..) _, n, _ | .move id (.name ..) _, n, _ | .move id (.binop ..) _, n, _
  | .move id (.eseq ..) _, n, _ | .move id (.call ..) _, n, _ => by
    simp only [Stmt.emit]
    exact .nil n
  | .seq id body, n, h => by
    rw [Stmt.places] at h
    rw [Stmt.emit]
    exact Stmt.selects_emitAll body n h

theorem Stmt.selects_emitAll {places : List Storage} : ∀ (body : List Stmt) (n : Nat),
    Stmt.placesAll body ⊆ places → Selects places n (Stmt.emitAll body n).2 (Stmt.emitAll body n).1
  | [], n, _ => by
    rw [Stmt.emitAll]
    exact .nil n
  | s :: rest, n, h => by
    rw [Stmt.placesAll, List.append_subset] at h
    rw [Stmt.emitAll]
    exact (Stmt.selects_emit s n h.1).seq (Stmt.selects_emitAll rest _ h.2)

end

end

/-! ## The shape of a body -/

/-- The registers of selected code, other than the frame pointer: three of the machine, all
temporaries, and those made up from one number up to another. -/
def Reg.Made (lo hi : Nat) : Reg → Prop
  | .phys q => q ∈ [PhysReg.eax, .edx, .esp]
  | .virt (.temp _) => True
  | .virt (.fresh n) => lo ≤ n ∧ n < hi
  | .dest => False

theorem allows_made (lo hi : Nat) : Allows (Reg.Made lo hi) lo hi :=
  ⟨fun _ h => h, fun _ => trivial, fun _ hlo hhi => ⟨hlo, hhi⟩⟩

/-- The shape of code, for a tree whose temporaries live at given places, and registers made up
from one number up to another. -/
structure CodeShape (places : List Storage) (lo hi : Nat) (code : List Instr) : Prop where
  /-- No destination is left open. -/
  dest : ∀ i ∈ code, .dest ∉ i.regs
  phys : ∀ i ∈ code, ∀ q, .phys q ∈ i.regs ∨ .phys q ∈ i.reads ∨ .phys q ∈ i.defs →
    q ∈ [PhysReg.eax, .edx, .esp, .ebp]
  /-- The frame pointer is mentioned in the cells of arguments, and right before a return. -/
  framePointer : ∀ k i, code[k]? = some i → .phys .ebp ∈ i.regs →
    (∀ op ∈ i.operands, .phys .ebp ∈ op.regs → ∃ n, .argument n ∈ places ∧
      op = .mem (.frame (Int32.ofInt (4 * ((n : Int) + 2))))) ∨
    ∃ before after, code = before ++ Instr.epilogue ++ after ∧
      (k = before.length ∨ k = before.length + 1)
  virtuals : ∀ i ∈ code, i.virtuals.length ≤ 3
  memory : ∀ i ∈ code, (i.operands.filter Operand.isMem).length ≤ 1
  sites : ∀ i ∈ code, ∀ op ∈ i.sites, op.isPlace
  fresh : ∀ i ∈ code, ∀ n, .fresh n ∈ i.regs → lo ≤ n ∧ n < hi
  /-- A register that is made up is written further up than it is read. -/
  written : ∀ n, ¬ReadUnwritten code (.fresh n)

/-- The registers that an instruction reads or writes without mentioning them. -/
theorem Instr.mem_implicit {i : Instr} (hsystem : i ≠ .int80) {r : Reg}
    (h : r ∈ i.reads ∨ r ∈ i.defs) : r ∈ i.regs ∨ r = .phys .eax ∨ r = .phys .edx := by
  rcases h with h | h
  · exact mem_regs_of_reads_of_ne hsystem h
  · exact mem_regs_of_defs h

section
variable {S : Reg → Prop} {places : List Storage} {code : List Instr} {i : Instr}

theorem Instr.Selected.mem_regs (h : i.Selected S places) {r : Reg} (hr : r ∈ i.regs) :
    S r ∨ r = .phys .ebp := by
  rw [Instr.regs_eq_operands] at hr
  obtain ⟨op, hop, hr⟩ := List.mem_flatMap.mp hr
  cases h.operands op hop with
  | regs h => exact .inl (h r hr)
  | argument n _ heq =>
      subst heq
      exact .inr (List.mem_singleton.mp hr)

/-- The instructions of selected code are of the form that the machine has, on given registers and
the frame pointer. -/
theorem SelectedCode.forall_shaped (hesp : S (.phys .esp)) (h : SelectedCode S places code) :
    ∀ i ∈ code, i.Shaped ∧ ∀ r ∈ i.regs, S r ∨ r = .phys .ebp := by
  intro i hi
  obtain ⟨k, hk⟩ := List.mem_iff_getElem?.mp hi
  rcases h.at_position hk with hi | ⟨before, after, j, -, -, hj⟩
  · exact ⟨hi.shaped, fun r hr => hi.mem_regs hr⟩
  · have hmem := List.mem_of_getElem? hj
    have hshaped : ∀ i ∈ Instr.epilogue, i.Shaped ∧
        ∀ r ∈ i.regs, r = .phys .esp ∨ r = .phys .ebp := by decide
    obtain ⟨hi, hregs⟩ := hshaped i hmem
    refine ⟨hi, ?_⟩
    intro r hr
    apply (hregs r hr).imp_left
    rintro rfl
    exact hesp

/-- Among given registers and the frame pointer, an instruction uses the accumulator and `edx`
besides. -/
theorem Instr.Shaped.phys (h : i.Shaped) (hregs : ∀ r ∈ i.regs, S r ∨ r = .phys .ebp) {q : PhysReg}
    (hq : .phys q ∈ i.regs ∨ .phys q ∈ i.reads ∨ .phys q ∈ i.defs) :
    S (.phys q) ∨ q ∈ [PhysReg.eax, .edx, .ebp] := by
  have hmem : .phys q ∈ i.regs ∨ Reg.phys q = .phys .eax ∨ Reg.phys q = .phys .edx := by
    rcases hq with hq | hq
    · exact .inl hq
    · exact mem_implicit h.system hq
  rcases hmem with h | h | h
  · rcases hregs _ h with h | h
    · exact .inl h
    · cases h
      exact .inr (by decide)
  · cases h
    exact .inr (by decide)
  · cases h
    exact .inr (by decide)

/-- Where the frame pointer is not among the given registers, it stands in the cells of arguments
and in epilogues, whose last instruction does not mention it. -/
theorem SelectedCode.framePointer (h : SelectedCode S places code) (hS : ¬S (.phys .ebp)) {k : Nat}
    (hk : code[k]? = some i) (hebp : .phys .ebp ∈ i.regs) :
    (∀ op ∈ i.operands, .phys .ebp ∈ op.regs → ∃ n : Nat, .argument n ∈ places ∧
      op = .mem (.frame (Int32.ofInt (4 * ((n : Int) + 2))))) ∨
    ∃ before after, code = before ++ Instr.epilogue ++ after ∧
      (k = before.length ∨ k = before.length + 1) := by
  rcases h.at_position hk with hi | ⟨before, after, j, heq, hkj, hj⟩
  · left
    intro op hop hr
    cases hi.operands op hop with
    | regs h => exact absurd (h _ hr) hS
    | argument m hm hop => exact ⟨m, hm, by rw [← Frame.argumentOffset_eq]; exact hop⟩
  · right
    refine ⟨before, after, heq, ?_⟩
    match j with
    | 0 => exact .inl hkj
    | 1 => exact .inr hkj
    | 2 =>
        cases hj
        cases hebp
    | j + 3 => cases hj

/-- Code that is selected for a tree exposes no register that it has made up. -/
theorem Stmt.not_readUnwritten_emit {s : Stmt} (hc : s.Canonical) (n k : Nat) :
    ¬ReadUnwritten (s.emit n).1 (.fresh k) := by
  intro h
  have hexposed := (Stmt.refines_emit s n hc).exposed (exposed_of_readUnwritten h)
  obtain ⟨x, hx⟩ := s.onTemps _ hexposed.mem
  cases hx

end

/-- The shape of the code of a tree. -/
theorem Stmt.shape_emit {s : Stmt} (hc : s.Canonical) (n : Nat) :
    CodeShape s.places n (s.emit n).2 (s.emit n).1 := by
  have hcode := (Stmt.selects_emit s n (List.Subset.refl _)).code _ (allows_made n (s.emit n).2)
  have hforall := hcode.forall_shaped ((allows_made n (s.emit n).2).phys .esp (by decide))
  have hebp : ¬Reg.Made n (s.emit n).2 (.phys .ebp) := by
    show PhysReg.ebp ∉ [PhysReg.eax, .edx, .esp]
    decide
  refine ⟨?_, ?_, fun _ _ => hcode.framePointer hebp, ?_, fun i hi => (hforall i hi).1.memory,
    fun i hi => (hforall i hi).1.sites, ?_, Stmt.not_readUnwritten_emit hc n⟩
  · intro i hi hdest
    rcases (hforall i hi).2 _ hdest with h | h
    · exact h
    · cases h
  · intro i hi q hq
    obtain ⟨hshaped, hregs⟩ := hforall i hi
    rcases hshaped.phys hregs hq with h | h
    · exact List.mem_append_left [PhysReg.ebp] h
    · revert h
      cases q <;> decide
  · intro i hi
    exact Nat.le_trans i.length_virtuals_le (Stmt.narrow_emit s n i hi)
  · intro i hi k hk
    rcases (hforall i hi).2 _ hk with h | h
    · exact h
    · cases h

/-- **The shape of selected code.**  The tree is canonical and its nodes have ids of their own that
are new to the table.  Its code leaves no destination open.  The registers of the machine in it are
the accumulator, `edx`, the stack pointer, and the frame pointer in the cells of the tree's
arguments and right before a return.  No instruction mentions more than three virtual registers or
has two operands in memory, and none has anything but a register or memory where it writes, as the
first of two things it compares, or as what it multiplies or divides by.  The registers made up for
the tree are numbered from the table's next number up to its next number afterwards, and each is
written further up than it is read. -/
theorem Stmt.tileBody_shape {s : Stmt} {t t' : TileTable} {code : List Instr}
    (hcheck : s.checkCanonical = .ok ()) (hn : s.ids.Nodup) (hl : t.Lacks s.ids)
    (h : s.tileBody t = .ok code t') : CodeShape s.places t.nextFresh t'.nextFresh code := by
  obtain ⟨-, rfl, hnext, -⟩ := Stmt.ok_of_tileBody hcheck hn hl h
  rw [hnext]
  exact Stmt.shape_emit hcheck t.nextFresh

/-- Calls `f` with its first argument, divides what it returns by the second one, stores the
quotient where the first one points to, less one, and returns it. -/
def storingQuotient : Stmt :=
  .seq ⟨0⟩ [.call ⟨1⟩ (.name ⟨2⟩ "f" true) [.temp ⟨3⟩ "_ARG0" false],
    .move ⟨4⟩ (.temp ⟨5⟩ "q" false)
      (.binop ⟨6⟩ .div (.temp ⟨7⟩ "_RET" false) (.temp ⟨8⟩ "_ARG1" false)),
    .move ⟨9⟩ (.mem ⟨10⟩ (.temp ⟨11⟩ "_ARG0" false))
      (.binop ⟨12⟩ .sub (.temp ⟨13⟩ "q" false) (.const ⟨14⟩ 1)),
    .ret ⟨15⟩ (some (.temp ⟨16⟩ "q" false))]

theorem tileBody_shape_storingQuotient : ∃ code t',
    storingQuotient.checkCanonical = .ok () ∧ storingQuotient.ids.Nodup ∧
    TileTable.Lacks { nextFresh := 7 } storingQuotient.ids ∧
    storingQuotient.tileBody { nextFresh := 7 } = .ok code t' ∧ code.length = 22 ∧
    CodeShape storingQuotient.places 7 14 code := by
  have hcheck : storingQuotient.checkCanonical = .ok () := rfl
  have hsingle : storingQuotient.AllocatesSingly := by
    simp [storingQuotient, Stmt.AllocatesSingly, Stmt.AllocateSingly, Expr.AllocatesSingly,
      Expr.AllocateSingly, Expr.callee?, Reserved.allocate]
  have hn : storingQuotient.ids.Nodup := by decide
  have hl : TileTable.Lacks { nextFresh := 7 } storingQuotient.ids := fun _ _ => rfl
  obtain ⟨t', hok, hnext⟩ := Stmt.tileBody_eq hcheck hsingle hn hl
  have hlength : (storingQuotient.emit 7).1.length = 22 := by decide +kernel
  have hlast : (storingQuotient.emit 7).2 = 14 := by decide +kernel
  have hshape := Stmt.tileBody_shape hcheck hn hl hok
  rw [hnext, hlast] at hshape
  exact ⟨_, t', hcheck, hn, hl, hok, hlength, hshape⟩

end TreeBackend
