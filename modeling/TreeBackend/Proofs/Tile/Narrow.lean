import TreeBackend.Proofs.Allocation.Refusals
import TreeBackend.Proofs.Semantics.Renaming
import TreeBackend.Proofs.Tile.Results
import Mathlib.Data.List.Perm.Subperm

/-!
# The code of a tree is narrow

No instruction that a tree comes to mentions more registers than there are scratch registers,
so that all of its registers can be brought from slots at once.

* `Narrow.not_crowded`: an allocator has room for narrow code.
* `Stmt.narrow_emit`: **the code of every tree is narrow.**
-/

namespace TreeBackend

/-- No instruction mentions more registers than there are scratch registers. -/
def Narrow (code : List Instr) : Prop := ∀ i ∈ code, i.regs.length ≤ PhysReg.scratch.length

instance (code : List Instr) : Decidable (Narrow code) :=
  inferInstanceAs (Decidable (∀ i ∈ code, i.regs.length ≤ PhysReg.scratch.length))

section
variable {a b code : List Instr}

theorem narrow_nil : Narrow [] := List.forall_mem_nil _

theorem Narrow.append (ha : Narrow a) (hb : Narrow b) : Narrow (a ++ b) :=
  List.forall_mem_append.mpr ⟨ha, hb⟩

theorem Narrow.mapRegs (h : Narrow code) (f : Reg → Reg) : Narrow (code.map (Instr.mapRegs f)) := by
  intro i hi
  obtain ⟨j, hj, rfl⟩ := List.mem_map.mp hi
  rw [Instr.regs_mapRegs, List.length_map]
  exact h j hj

/-- The registers that an instruction reads or writes, other than those of the machine, are
among those that it mentions. -/
theorem Instr.length_virtuals_le (i : Instr) : i.virtuals.length ≤ i.regs.length := by
  have hsub : i.virtuals ⊆ i.regs.filterMap Reg.virt? := by
    intro v hv
    exact mem_filterMap_virt.mpr (mem_virtuals_iff.mp hv)
  have hnodup : i.virtuals.Nodup := Homes.nodup_eraseDups _
  exact Nat.le_trans (hnodup.subperm hsub).length_le (List.length_filterMap_le _ _)

/-- **An allocator has room for narrow code.** -/
theorem Narrow.not_crowded (h : Narrow code) : ¬Crowded code := by
  rintro ⟨i, hi, hmany⟩
  have := h i hi
  have := i.length_virtuals_le
  omega

end

/-- A move between operands of one register each. -/
theorem narrow_mov {dst src : Operand} (hdst : dst.regs.length ≤ 1) (hsrc : src.regs.length ≤ 1) :
    Narrow [.mov dst src] := by
  refine List.forall_mem_singleton.mpr ?_
  rw [Instr.regs, List.length_append]
  exact Nat.le_trans (Nat.add_le_add hdst hsrc) (by decide)

/-! ## Expressions -/

theorem BinOp.narrow_template (op : BinOp) (a b : Reg) : Narrow (op.template a b) := by
  cases op <;> simp [Narrow, template, overwriting, division, comparison, Instr.regs, Operand.regs,
    MemRef.regs, Operand.phys, PhysReg.scratch]

theorem Emission.narrow_into {e : Emission} (h : ∀ d, Narrow (e.code d)) (target : Reg) :
    Narrow (e.into target) := by
  unfold into
  split
  · split
    · exact narrow_nil
    · exact narrow_mov Nat.le.refl Nat.le.refl
  · exact h target

theorem Storage.length_regs_operand (place : Storage) : place.operand.regs.length ≤ 1 := by
  cases place <;> simp [operand, Operand.phys, Operand.regs, MemRef.frame, MemRef.ofSymbol,
    MemRef.regs]

namespace Expr

theorem narrow_code : ∀ (e : Expr) (n : Nat) (d : Reg), Narrow ((e.emit n).code d)
  | .const .., n, d | .name .., n, d => narrow_mov Nat.le.refl (Nat.zero_le _)
  | .temp id x g, n, d => narrow_mov Nat.le.refl (Storage.length_regs_operand _)
  | .mem id a, n, d =>
    (Emission.narrow_into (narrow_code a n) _).append (narrow_mov Nat.le.refl Nat.le.refl)
  | .binop id op l r, n, d => by
    obtain ⟨a, b, k, j, hcode⟩ := emit_binop id op l r n
    rw [hcode]
    exact ((Emission.narrow_into (narrow_code l k) _).append
      (Emission.narrow_into (narrow_code r j) _)).append ((op.narrow_template _ _).mapRegs _)
  | .eseq .., n, d | .call .., n, d => narrow_nil

theorem narrow_into (e : Expr) (n : Nat) (target : Reg) : Narrow ((e.emit n).into target) :=
  Emission.narrow_into (e.narrow_code n) target

theorem narrow_before (e : Expr) (n : Nat) : Narrow (e.emit n).before := e.narrow_into n _

theorem narrow_emitPushes (args : List Expr) (n : Nat) : Narrow (emitPushes args n).1 := by
  induction args with
  | nil => exact narrow_nil
  | cons a rest ih =>
      refine (ih.append (a.narrow_before _)).append ?_
      simp [Narrow, Instr.regs, Operand.regs, PhysReg.scratch]

theorem narrow_emitDestination (e : Expr) (n : Nat) :
    Narrow (e.emitDestination n).1 ∧ (e.emitDestination n).2.1.regs.length ≤ 1 := by
  cases hname : e.name? with
  | some l =>
      cases e with
      | name => exact ⟨narrow_nil, Nat.zero_le _⟩
      | _ => cases hname
  | none =>
      rw [emitDestination_of_unnamed hname]
      exact ⟨e.narrow_before n, Nat.le.refl⟩

end Expr

/-! ## Statements -/

namespace Stmt

theorem narrow_emitCall (target : Expr) (args : List Expr) (n : Nat) :
    Narrow (emitCall target args n).1 := by
  unfold emitCall
  split
  · split
    · refine (Expr.narrow_into _ n _).append ?_
      simp [Narrow, Instr.regs, Operand.regs]
    · exact narrow_nil
  · obtain ⟨hbefore, hcallee⟩ := target.narrow_emitDestination (Expr.emitPushes args n).2
    refine ((Expr.narrow_emitPushes args n).append hbefore).append
      (List.forall_mem_cons.mpr ⟨Nat.le_trans hcallee (by decide), ?_⟩)
    unfold dropArguments
    split
    · exact narrow_nil
    · simp [Instr.regs, Operand.regs, PhysReg.scratch]

theorem narrow_emitWrite (source : Expr) (n : Nat) (place : Storage) :
    Narrow (emitWrite (source.emit n) place).1 := by
  cases place with
  | result | register => exact source.narrow_into n _
  | _ =>
      exact (source.narrow_before n).append
        (narrow_mov (Storage.length_regs_operand _) Nat.le.refl)

end Stmt

mutual

/-- **The code of every tree is narrow.** -/
theorem Stmt.narrow_emit : ∀ (s : Stmt) (n : Nat), Narrow (s.emit n).1
  | .label .., n | .comment .., n => by
    rw [Stmt.emit]
    simp [Narrow, Instr.regs]
  | .ret _ none, n => by
    rw [Stmt.emit]
    exact (by decide : Narrow Instr.epilogue)
  | .ret id (some e), n => by
    rw [Stmt.emit]
    exact (e.narrow_into n _).append (by decide)
  | .cjump id c t f, n => by
    rw [Stmt.emit]
    refine (c.narrow_before n).append ?_
    simp [Narrow, Instr.regs, PhysReg.scratch]
  | .jump id target, n => by
    obtain ⟨hbefore, hthere⟩ := target.narrow_emitDestination n
    rw [Stmt.emit]
    exact hbefore.append (List.forall_mem_singleton.mpr (Nat.le_trans hthere (by decide)))
  | .exp id e, n => by
    rw [Stmt.emit]
    exact e.narrow_into _ _
  | .call id target args, n => by
    rw [Stmt.emit]
    exact narrow_emitCall target args n
  | .move id (.temp cell x g) source, n => by
    rw [Stmt.emit]
    exact narrow_emitWrite source n _
  | .move id (.mem cell a) source, n => by
    rw [Stmt.emit]
    exact ((source.narrow_before n).append (a.narrow_before _)).append
      (narrow_mov Nat.le.refl Nat.le.refl)
  | .move id (.const ..) _, n | .move id (.name ..) _, n | .move id (.binop ..) _, n
  | .move id (.eseq ..) _, n | .move id (.call ..) _, n => by
    simp [Stmt.emit, narrow_nil]
  | .seq id body, n => by
    rw [Stmt.emit]
    exact Stmt.narrow_emitAll body n

/-- The code of statements is narrow. -/
theorem Stmt.narrow_emitAll : ∀ (body : List Stmt) (n : Nat), Narrow (Stmt.emitAll body n).1
  | [], n => by
    rw [Stmt.emitAll]
    exact narrow_nil
  | s :: rest, n => by
    rw [Stmt.emitAll]
    exact (Stmt.narrow_emit s n).append (Stmt.narrow_emitAll rest _)

end

end TreeBackend
