import TreeBackend.Proofs.Accesses.Trees
import TreeBackend.Proofs.Allocation.Refusals
import TreeBackend.Proofs.Semantics.Renaming
import TreeBackend.Proofs.Tile.Results

/-!
# What code reads and writes

An instruction reads before it writes.  The code of a tree computes values into registers that
it makes up, reads them back later, and pushes the arguments of a call in reverse.  None of this
exposes anything that the tree does not expose.

* `exposed_of_readUnwritten`: what the check of code finds is exposed in the code.
* `Stmt.refines_emit`: **the code of a canonical tree exposes no more than the tree does.**
-/

namespace TreeBackend

/-- The access to a register, if it is a virtual one. -/
def Reg.accesses (access : VirtualReg → Access) (r : Reg) : List Access :=
  r.virt?.toList.map access

@[simp] theorem Reg.accesses_virt (access : VirtualReg → Access) (v : VirtualReg) :
    (Reg.virt v).accesses access = [access v] := rfl

@[simp] theorem Reg.accesses_phys (access : VirtualReg → Access) (p : PhysReg) :
    (Reg.phys p).accesses access = [] := rfl

/-- The accesses of an operand that is read. -/
def Operand.accesses (op : Operand) : List Access := op.regs.flatMap (Reg.accesses .read)

@[simp] theorem Operand.accesses_reg (r : Reg) : (Operand.reg r).accesses = r.accesses .read := by
  simp [accesses, regs]

@[simp] theorem Operand.accesses_imm (v : Int32) : (Operand.imm v).accesses = [] := rfl

@[simp] theorem Operand.accesses_label (l : String) : (Operand.label l).accesses = [] := rfl

@[simp] theorem Operand.accesses_ofReg (r : Reg) :
    (Operand.mem (.ofReg r)).accesses = r.accesses .read := by
  simp [accesses, regs, MemRef.ofReg, MemRef.regs]

/-- The accesses of an instruction. -/
def Instr.accesses (i : Instr) : List Access :=
  i.reads.flatMap (Reg.accesses .read) ++ i.defs.flatMap (Reg.accesses .write)

@[simp] theorem Instr.accesses_mov (d : Reg) (source : Operand) :
    (Instr.mov (.reg d) source).accesses = source.accesses ++ d.accesses .write := by
  simp [accesses, reads, defs, Operand.isMem, Operand.accesses]

/-- The accesses of code, in order. -/
def accessesOf (code : List Instr) : List Access := code.flatMap Instr.accesses

@[simp] theorem accessesOf_nil : accessesOf [] = [] := rfl

@[simp] theorem accessesOf_cons (i : Instr) (code : List Instr) :
    accessesOf (i :: code) = i.accesses ++ accessesOf code := rfl

@[simp] theorem accessesOf_append (a b : List Instr) :
    accessesOf (a ++ b) = accessesOf a ++ accessesOf b := List.flatMap_append

/-! ## Unwritten registers -/

theorem Reg.mem_accesses {access : VirtualReg → Access} {r : Reg} {x : Access} :
    x ∈ r.accesses access ↔ ∃ v, r = .virt v ∧ x = access v := by
  cases r <;> simp [accesses, virt?]

theorem Instr.read_mem_accesses {i : Instr} {v : VirtualReg} :
    .read v ∈ i.reads.flatMap (Reg.accesses .read) ↔ .virt v ∈ i.reads := by
  simp [List.mem_flatMap, Reg.mem_accesses]

theorem Instr.onlyReads_reads (i : Instr) : OnlyReads (i.reads.flatMap (Reg.accesses .read)) := by
  intro v hv
  simp [List.mem_flatMap, Reg.mem_accesses] at hv

theorem Instr.write_mem_accesses {i : Instr} {v : VirtualReg} :
    .write v ∈ i.accesses ↔ .virt v ∈ i.defs := by
  simp [accesses, List.mem_flatMap, Reg.mem_accesses]

theorem exposed_of_readUnwritten {code : List Instr} {v : VirtualReg} (h : ReadUnwritten code v) :
    Exposed v (accessesOf code) := by
  obtain ⟨before, i, after, rfl, hread, hbefore⟩ := h
  have hi : Exposed v i.accesses :=
    exposed_append.mpr (Or.inl (i.onlyReads_reads.exposed_iff.mpr (i.read_mem_accesses.mpr hread)))
  have hunwritten : .write v ∉ accessesOf before := by
    intro hw
    obtain ⟨j, hj, hw⟩ := List.mem_flatMap.mp hw
    exact hbefore j hj (j.write_mem_accesses.mp hw)
  rw [accessesOf_append, accessesOf_cons]
  exact exposed_append.mpr (Or.inr ⟨hunwritten, exposed_append.mpr (Or.inl hi)⟩)

/-! ## Renamed registers -/

section
variable {f : Reg → Reg} {ρ : VirtualReg → VirtualReg}

theorem Instr.reads_mapRegs (hf : ∀ q, f (.phys q) = .phys q) (i : Instr) :
    (i.mapRegs f).reads = i.reads.map f := by
  cases i with
  | mov dst src =>
      have hmem : (dst.mapRegs f).isMem = dst.isMem := by cases dst <;> rfl
      cases h : dst.isMem <;> simp [mapRegs, reads, hmem, h]
  | _ => simp [mapRegs, reads, hf]

theorem Reg.accesses_map (hf : ∀ r : Reg, (f r).virt? = r.virt?.map ρ)
    {access : VirtualReg → Access} (haccess : ∀ v, access (ρ v) = (access v).rename ρ)
    (rs : List Reg) : (rs.map f).flatMap (Reg.accesses access) =
      (rs.flatMap (Reg.accesses access)).map (Access.rename ρ) := by
  rw [List.flatMap_map, List.map_flatMap]
  refine congrArg (rs.flatMap ·) (funext fun r => ?_)
  rw [accesses, hf, accesses]
  cases r.virt? with
  | none => rfl
  | some v => simp [haccess]

/-- Code on renamed registers has the renamed accesses. -/
theorem accessesOf_mapRegs (hphys : ∀ q, f (.phys q) = .phys q)
    (hf : ∀ r : Reg, (f r).virt? = r.virt?.map ρ) (code : List Instr) :
    accessesOf (code.map (Instr.mapRegs f)) = (accessesOf code).map (Access.rename ρ) := by
  rw [accessesOf, accessesOf, List.flatMap_map, List.map_flatMap]
  refine congrArg (code.flatMap ·) (funext fun i => ?_)
  rw [Instr.accesses, Instr.accesses, Instr.reads_mapRegs hphys, Instr.defs_mapRegs hphys,
    Reg.accesses_map hf fun _ => rfl, Reg.accesses_map hf fun _ => rfl, List.map_append]

end

/-! ## Code of expressions -/

section
variable {a b c a' b' : List Access} {t : VirtualReg}

/-- A value is held in a register until it is wanted. -/
theorem Refines.hold (h : Refines (a ++ [.write t]) a') (h' : Refines (b ++ .read t :: c) b') :
    Refines (a ++ b ++ c) (a' ++ b') :=
  (refines_insert a b c t).trans (by simpa using h.append h')

end

/-- The code of an operator reads its operands and then writes its result. -/
theorem BinOp.refines_template (op : BinOp) (a b : VirtualReg) (d : Reg) :
    Refines ([.read a, .read b] ++ d.accesses .write)
      (accessesOf ((op.template (.virt a) (.virt b)).map (·.mapRegs (Reg.fill d)))) := by
  cases op with
  | sub | and | or =>
      simpa [template, overwriting, Instr.mapRegs, Operand.mapRegs, Reg.fill, Instr.accesses,
        Instr.reads, Instr.defs, Operand.regs, Operand.isMem]
        using refines_insert [.read a, .read b] [] (d.accesses .write) a
  | div | mod =>
      have hreads : Refines [.read a, .read b] [.read b, .read a, .read b] :=
        refines_reads (by simp [OnlyReads]) (by simp)
      simpa [template, division, Instr.mapRegs, Operand.mapRegs, Reg.fill, Instr.accesses,
        Instr.reads, Instr.defs, Operand.regs, Operand.isMem, Operand.phys]
        using hreads.append (.refl (d.accesses .write))
  | _ =>
      simpa [template, comparison, Instr.mapRegs, Operand.mapRegs, MemRef.mapRegs, MemRef.regs,
        Reg.fill, Instr.accesses, Instr.reads, Instr.defs, Operand.regs, Operand.isMem,
        Operand.phys] using Refines.refl (.read a :: .read b :: d.accesses .write)

/-- The place of a temporary that is no register has no virtual register in it. -/
theorem Storage.accesses_operand {place : Storage} (h : place.register? = none) :
    place.operand.accesses = [] := by
  cases place with
  | register => cases h
  | _ => rfl

namespace Expr

/-- **The code that puts a value into a register exposes no more than the expression.** -/
theorem refines_into : ∀ {e : Expr} (_ : e.Canonical) (n : Nat) (d : Reg),
    Refines (e.accesses ++ d.accesses .write) (accessesOf ((e.emit n).into d))
  | .const .., _, n, d | .name .., _, n, d => by
    simpa [Expr.accesses, Expr.emit, Emission.into] using Refines.refl (d.accesses .write)
  | .temp id x g, _, n, d => by
    rw [Expr.accesses, accessesTo]
    cases hplace : Storage.ofTemp x g with
    | register y =>
        have hheld : ((Expr.temp id x g).emit n).held? = some (.temp y) := by
          rw [emit_held?, held?, hplace]
        simp only [Emission.into, hheld]
        by_cases hd : Reg.temp y = d
        · rw [if_pos hd, ← hd]
          exact refines_self (.temp y)
        · rw [if_neg hd]
          simpa [Storage.register?, Reg.temp]
            using Refines.refl (.read (.temp y) :: d.accesses .write)
    | _ =>
        have hheld : ((Expr.temp id x g).emit n).held? = none := by rw [emit_held?, held?, hplace]
        have hcode : ((Expr.temp id x g).emit n).into d =
            [.mov (.reg d) (Storage.ofTemp x g).operand] := by
          rw [Emission.into, hheld]
          rfl
        rw [hcode, accessesOf_cons, Instr.accesses_mov,
          Storage.accesses_operand (by rw [hplace]; rfl)]
        simpa [Storage.register?] using Refines.refl (d.accesses .write)
  | .mem id a, h, n, d => by
    obtain ⟨v, hv⟩ := register_virtual a n
    have hvalue := (refines_into (canonical_mem.mp h) n (.virt v)).hold (b := [])
      (.refl (.read v :: d.accesses .write))
    show Refines _ (accessesOf ((a.emit n).into (a.emit n).register ++ _))
    rw [hv]
    simpa [Expr.accesses] using hvalue
  | .binop id op l r, h, n, d => by
    obtain ⟨hl, hr⟩ := canonical_binop.mp h
    obtain ⟨a, b, k, j, hcode⟩ := emit_binop id op l r n
    have hright := (refines_into hr j (.virt b)).hold (b := [.read a]) (op.refines_template a b d)
    have hleft := (refines_into hl k (.virt a)).hold (b := r.accesses) (c := d.accesses .write)
      (by simpa using hright)
    show Refines _ (accessesOf (((Expr.binop id op l r).emit n).code d))
    rw [hcode]
    simpa [Expr.accesses] using hleft
  | .eseq .., h, n, d => absurd h not_canonical_eseq
  | .call .., h, n, d => absurd h not_canonical_call

/-- An operand is evaluated, and its register read afterwards. -/
theorem refines_before {e : Expr} (h : e.Canonical) {v : VirtualReg} {n : Nat}
    (hv : (e.emit n).register = .virt v) {b c code : List Access}
    (hc : Refines (b ++ .read v :: c) code) :
    Refines (e.accesses ++ b ++ c) (accessesOf (e.emit n).before ++ code) := by
  rw [Emission.before, hv]
  exact (refines_into h n (.virt v)).hold hc

/-- Arguments are pushed in reverse. -/
theorem refines_emitPushes {args : List Expr} (h : ∀ a ∈ args, a.Canonical) (n : Nat) :
    Refines (Expr.accessesAll args) (accessesOf (Expr.emitPushes args n).1) := by
  induction args with
  | nil => exact .refl []
  | cons a rest ih =>
      obtain ⟨ha, hrest⟩ := List.forall_mem_cons.mp h
      rw [emitPushes, accessesAll_cons]
      refine (refines_delay (onlyReads_of_canonical ha) _).trans ?_
      show Refines _ (accessesOf ((Expr.emitPushes rest n).1 ++ (a.emit _).before ++ _))
      obtain ⟨v, hv⟩ := register_virtual a (Expr.emitPushes rest n).2
      have hpush := refines_before ha hv (b := []) (c := []) (.refl _)
      rw [hv]
      simpa [Instr.accesses, Instr.reads, Instr.defs, Operand.regs] using (ih hrest).append hpush

theorem refines_emitDestination {e : Expr} (h : e.Canonical) (n : Nat) :
    Refines e.accesses
      (accessesOf (e.emitDestination n).1 ++ (e.emitDestination n).2.1.accesses) := by
  cases hname : e.name? with
  | some l =>
      cases e with
      | name => exact .refl []
      | _ => cases hname
  | none =>
      obtain ⟨v, hv⟩ := register_virtual e n
      rw [emitDestination_of_unnamed hname, hv]
      simpa using refines_before h hv (b := []) (c := []) (.refl _)

end Expr

/-! ## Code of statements -/

@[simp] theorem Instr.accesses_jmp (op : Operand) : (Instr.jmp op).accesses = op.accesses := by
  simp [accesses, reads, defs, Operand.accesses]

@[simp] theorem Instr.accesses_call (op : Operand) : (Instr.call op).accesses = op.accesses := by
  simp [accesses, reads, defs, Operand.accesses]

@[simp] theorem accessesOf_dropArguments (count : Nat) : accessesOf (dropArguments count) = [] := by
  unfold dropArguments
  split
  · rfl
  · rfl

@[simp] theorem accessesOf_epilogue : accessesOf Instr.epilogue = [] := rfl

namespace Stmt

theorem refines_emitCall {target : Expr} {args : List Expr} (ht : target.Canonical)
    (hargs : ∀ a ∈ args, a.Canonical) (n : Nat) :
    Refines (Expr.accessesAll args ++ target.accesses)
      (accessesOf (Stmt.emitCall target args n).1) := by
  unfold emitCall
  split
  · split
    · next size =>
      have hsize := Expr.refines_into (hargs size (List.mem_singleton_self _)) n
        (.phys .accumulator)
      have htarget := refines_reads (Expr.onlyReads_of_canonical ht) (List.nil_subset _)
      simpa using hsize.append htarget
    · exact refines_reads ((Expr.onlyReads_all hargs).append (Expr.onlyReads_of_canonical ht))
        (List.nil_subset _)
  · have hpushes := Expr.refines_emitPushes hargs n
    simpa using hpushes.append (Expr.refines_emitDestination ht (Expr.emitPushes args n).2)

theorem refines_emitWrite {source : Expr} (h : source.Canonical) (n : Nat) (x : String) (g : Bool) :
    Refines (source.accesses ++ accessesTo .write x g)
      (accessesOf (Stmt.emitWrite (source.emit n) (Storage.ofTemp x g)).1) := by
  obtain ⟨v, hv⟩ := Expr.register_virtual source n
  rw [accessesTo]
  cases Storage.ofTemp x g with
  | result => exact Expr.refines_into h n (.phys .accumulator)
  | register y => exact Expr.refines_into h n (.temp y)
  | _ =>
      simp only [emitWrite]
      rw [hv]
      simpa [Storage.register?, Storage.operand, Instr.accesses, Instr.reads, Instr.defs,
        Operand.regs, Operand.isMem, MemRef.regs, MemRef.frame, MemRef.ofSymbol]
        using Expr.refines_before h hv (b := []) (c := []) (.refl _)

end Stmt

mutual

/-- **The code of a canonical tree exposes no more than the tree does.** -/
theorem Stmt.refines_emit : ∀ (s : Stmt) (n : Nat), s.Canonical →
    Refines s.accesses (accessesOf (s.emit n).1)
  | .label .., n, _ | .comment .., n, _ | .ret _ none, n, _ => by
    rw [Stmt.emit, Stmt.accesses]
    exact .refl []
  | .ret id (some e), n, h => by
    rw [Stmt.emit, Stmt.accesses]
    simpa using Expr.refines_into (canonical_ret.mp h) n (.phys .accumulator)
  | .cjump id c t f, n, h => by
    have hc := canonical_cjump.mp h
    obtain ⟨v, hv⟩ := Expr.register_virtual c n
    have htest : Refines [.read v] [.read v, .read v] :=
      refines_reads (by simp [OnlyReads]) (by simp)
    rw [Stmt.emit, Stmt.accesses]
    simp only [hv]
    simpa [Instr.accesses, Instr.reads, Instr.defs]
      using Expr.refines_before hc hv (b := []) (c := []) htest
  | .jump id target, n, h => by
    rw [Stmt.emit, Stmt.accesses]
    simpa using Expr.refines_emitDestination (canonical_jump.mp h) n
  | .exp id e, n, h => by
    rw [Stmt.emit, Stmt.accesses]
    exact (refines_write _ _).trans (Expr.refines_into (canonical_exp.mp h) (n + 1) (.fresh n))
  | .call id target args, n, h => by
    obtain ⟨ht, hargs⟩ := canonical_call.mp h
    rw [Stmt.emit, Stmt.accesses]
    exact refines_emitCall ht (fun a ha => Expr.canonical_of_isTemp (hargs a ha)) n
  | .move id (.temp cell x g) source, n, h => by
    rw [Stmt.emit, Stmt.accesses]
    exact refines_emitWrite (canonical_move_temp.mp h) n x g
  | .move id (.mem cell a) source, n, h => by
    obtain ⟨ha, hs⟩ := canonical_move_mem.mp h
    obtain ⟨v, hv⟩ := Expr.register_virtual source n
    obtain ⟨w, hw⟩ := Expr.register_virtual a (source.emit n).after
    -- The code evaluates the source first.
    have haddress := Expr.refines_before ha hw (b := [.read v]) (c := []) (.refl _)
    have hsource := Expr.refines_before hs hv (b := a.accesses) (c := []) (by simpa using haddress)
    rw [Stmt.emit]
    simp only [Stmt.accesses, Expr.accesses, hv, hw]
    refine (refines_delay (Expr.onlyReads_of_canonical ha) _).trans ?_
    simpa [Instr.accesses, Instr.reads, Instr.defs, Operand.regs, Operand.isMem, MemRef.ofReg,
      MemRef.regs] using hsource
  | .move id (.const ..) _, n, h | .move id (.name ..) _, n, h | .move id (.binop ..) _, n, h
  | .move id (.eseq ..) _, n, h | .move id (.call ..) _, n, h => by
    rcases h.target with ⟨_, _, _, h⟩ | ⟨_, _, h⟩ <;> cases h
  | .seq id body, n, h => by
    rw [Stmt.emit, Stmt.accesses]
    exact Stmt.refines_emitAll body n (canonical_seq.mp h)

/-- The code of canonical trees exposes no more than they do. -/
theorem Stmt.refines_emitAll : ∀ (body : List Stmt) (n : Nat), (∀ s ∈ body, s.Canonical) →
    Refines (Stmt.accessesAll body) (accessesOf (Stmt.emitAll body n).1)
  | [], n, _ => by
    rw [Stmt.emitAll]
    exact .refl []
  | s :: rest, n, h => by
    obtain ⟨hs, hrest⟩ := List.forall_mem_cons.mp h
    rw [Stmt.emitAll, Stmt.accessesAll, accessesOf_append]
    exact (Stmt.refines_emit s n hs).append (Stmt.refines_emitAll rest _ hrest)

end

end TreeBackend
