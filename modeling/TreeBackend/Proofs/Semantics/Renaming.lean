import TreeBackend.Proofs.Semantics.Pieces

/-!
# Running an instruction on other registers

`Machine.Alike` relates two machines that differ in registers and in the function's own
words of the frame only.  If the registers that an instruction reads are found in the
second machine where `f` puts them, then the instruction with `f` in place of its
registers does there what the instruction itself does in the first machine:
`Instr.exec_mapRegs`.
-/

namespace TreeBackend

/-- The machines agree on all that others see, on flags and on the frame's two registers. -/
structure Machine.Alike (m m' : Machine) : Prop where
  flags : m'.flags = m.flags
  frame : ∀ o, 0 ≤ o → m'.frame o = m.frame o
  stack : m'.stack = m.stack
  world : m'.world = m.world
  trace : m'.trace = m.trace
  decisions : m'.decisions = m.decisions
  stackPointer : m'.regs (.phys .esp) = m.regs (.phys .esp)
  framePointer : m'.regs (.phys .ebp) = m.regs (.phys .ebp)

/-- The memory that an operand stands for. -/
def Operand.cells : Operand → List MemRef
  | mem r => [r]
  | _ => []

/-- The memory that the operands of an instruction stand for. -/
def Instr.cells : Instr → List MemRef
  | mov dst src => dst.cells ++ src.cells
  | cmp a b => a.cells ++ b.cells
  | push op | imul op | idiv op | jmp op | call op | alu _ _ op => op.cells
  | _ => []

/-- The operand is not a word of the frame that a function keeps for itself. -/
def MemRef.Outside (r : MemRef) : Prop :=
  r.symbol = none → r.regs = [.phys .framePointer] → 0 ≤ r.disp

instance (r : MemRef) : Decidable r.Outside :=
  inferInstanceAs (Decidable (_ → _ → _))

/-- An instruction as allocators expect it: without a placeholder, without scratch
registers, and away from the words below the frame pointer. -/
structure Instr.Plain (i : Instr) : Prop where
  dest : .dest ∉ i.regs
  scratch : ∀ q ∈ PhysReg.scratch, .phys q ∉ i.regs
  outside : ∀ r ∈ i.cells, r.Outside

instance (i : Instr) : Decidable i.Plain :=
  decidable_of_iff (.dest ∉ i.regs ∧ (∀ q ∈ PhysReg.scratch, .phys q ∉ i.regs) ∧
    ∀ r ∈ i.cells, r.Outside)
    ⟨fun ⟨hd, hs, ho⟩ => ⟨hd, hs, ho⟩, fun ⟨hd, hs, ho⟩ => ⟨hd, hs, ho⟩⟩

/-- A register of the first machine is found in the second where `f` puts it, and only
the frame's two registers are put there. -/
structure Carries (f : Reg → Reg) (m m' : Machine) (r : Reg) : Prop where
  phys : ∃ q, f r = .phys q ∧ (q.isFrame → r = .phys q)
  value : m'.regs (f r) = m.regs r

/-- A piece of the first machine is found in the second where `f` puts it. -/
def Stands (f : Reg → Reg) (m m' : Machine) : Piece → Prop
  | .virt v => m'.regs (f (.virt v)) = m.regs (.virt v)
  | x => m'.piece x = m.piece x

/-- `f` keeps the registers of the machine, and gives the virtual registers of the
instruction such as do not hold the stack together. -/
structure Instr.Renames (f : Reg → Reg) (i : Instr) : Prop where
  phys : ∀ q, f (.phys q) = .phys q
  virt : ∀ v ∈ i.virtuals, ∃ q, f (.virt v) = .phys q ∧ q.isFrame = false

variable {p : Platform} {f : Reg → Reg} {m m' : Machine}

/-! ## Operands -/

theorem Carries.eq_framePointer {r : Reg} {q : PhysReg} (hf : ∀ q, f (.phys q) = .phys q)
    (h : Carries f m m' r) (hq : q.isFrame) : f r = .phys q ↔ r = .phys q := by
  constructor
  · intro hr
    obtain ⟨q', hq', himp⟩ := h.phys
    rw [hq'] at hr
    cases hr
    exact himp hq
  · rintro rfl
    exact hf q

theorem Machine.offset_mapRegs {r : MemRef} (h : ∀ q ∈ r.regs, Carries f m m' q) :
    m'.offset (r.mapRegs f) = m.offset r := by
  have hmap : (r.regs.map f).map m'.regs = r.regs.map m.regs := by
    rw [List.map_map]
    exact List.map_congr_left fun q hq => (h q hq).value
  rw [Machine.offset, MemRef.regs_mapRegs, hmap]
  rfl

section
variable (hf : ∀ q, f (.phys q) = .phys q)
include hf

theorem map_regs_eq_singleton {rs : List Reg} (h : ∀ r ∈ rs, Carries f m m' r) {q : PhysReg}
    (hq : q.isFrame) : rs.map f = [.phys q] ↔ rs = [.phys q] := by
  constructor
  · intro hmap
    obtain ⟨r, rfl, hr⟩ := List.map_eq_singleton_iff.mp hmap
    rw [((h r (List.mem_singleton_self _)).eq_framePointer hf hq).mp hr]
  · rintro rfl
    rw [List.map_singleton, hf]

theorem Machine.cell_mapRegs {r : MemRef} (h : ∀ q ∈ r.regs, Carries f m m' q) :
    m'.cell (r.mapRegs f) = m.cell r := by
  have hsymbol : (r.mapRegs f).symbol = r.symbol := rfl
  have hdisp : (r.mapRegs f).disp = r.disp := rfl
  rw [Machine.cell, Machine.cell, hsymbol, Machine.offset_mapRegs h, hdisp, MemRef.regs_mapRegs]
  simp only [map_regs_eq_singleton hf h (q := .framePointer) rfl,
    map_regs_eq_singleton hf h (q := .stackPointer) rfl]

end

/-- Cells that code other than the function's own can see, and arguments. -/
def Cell.Outside : Cell → Prop
  | frame o => 0 ≤ o
  | _ => True

theorem Machine.outside_cell {r : MemRef} (h : r.Outside) (m : Machine) : (m.cell r).Outside := by
  rw [Machine.cell]
  cases hs : r.symbol with
  | some s => exact trivial
  | none =>
      simp only
      by_cases hfp : r.regs = [.phys .framePointer]
      · rw [if_pos hfp]
        exact h hs hfp
      · rw [if_neg hfp]
        split <;> exact trivial

namespace Machine.Alike

theorem refl (m : Machine) : m.Alike m := ⟨rfl, fun _ _ => rfl, rfl, rfl, rfl, rfl, rfl, rfl⟩

variable (h : m.Alike m')
include h

theorem peek {c : Cell} (hc : c.Outside) : m'.peek c = m.peek c := by
  cases c with
  | frame o => exact h.frame o hc
  | data s o => exact congrArg (fun w => w.data s o) h.world
  | heap a => exact congrArg (fun w => w.heap a) h.world
  | stack a => exact congrFun h.stack a

theorem value (hf : ∀ q, f (.phys q) = .phys q) {op : Operand}
    (hregs : ∀ r ∈ op.regs, Carries f m m' r) (hout : ∀ r ∈ op.cells, r.Outside) :
    m'.value p (op.mapRegs f) = m.value p op := by
  cases op with
  | reg r => exact (hregs r (List.mem_singleton_self _)).value
  | mem r =>
      have hcell : m'.cell (r.mapRegs f) = m.cell r := Machine.cell_mapRegs hf hregs
      show m'.peek (m'.cell (r.mapRegs f)) = m.peek (m.cell r)
      rw [hcell]
      exact h.peek (Machine.outside_cell (hout r (List.mem_singleton_self _)) m)
  | imm v => rfl
  | label l => rfl

theorem target (hf : ∀ q, f (.phys q) = .phys q) {op : Operand}
    (hregs : ∀ r ∈ op.regs, Carries f m m' r) (hout : ∀ r ∈ op.cells, r.Outside) :
    m'.target p (op.mapRegs f) = m.target p op := by
  have hvalue := h.value (p := p) hf hregs hout
  cases op with
  | label l => rfl
  | _ => exact congrArg Target.address hvalue

/-! ## Updates -/

theorem set {r : Reg} (hr : ∃ q, f r = .phys q ∧ (q.isFrame → r = .phys q))
    (hf : ∀ q, f (.phys q) = .phys q) (w : Word) : (m.set r w).Alike (m'.set (f r) w) := by
  have hframe {q : PhysReg} (hq : q.isFrame) (heq : m'.regs (.phys q) = m.regs (.phys q)) :
      (m'.set (f r) w).regs (.phys q) = (m.set r w).regs (.phys q) := by
    by_cases hrq : r = .phys q
    · subst hrq
      rw [hf, regs_set_self, regs_set_self]
    · have hfr : f r ≠ .phys q := by
        intro hfr
        obtain ⟨q', hq', himp⟩ := hr
        rw [hq'] at hfr
        cases hfr
        exact hrq (himp hq)
      rw [regs_set_of_ne _ _ (Ne.symm hfr), regs_set_of_ne _ _ (Ne.symm hrq), heq]
  exact ⟨h.flags, h.frame, h.stack, h.world, h.trace, h.decisions, hframe rfl h.stackPointer,
    hframe rfl h.framePointer⟩

theorem setPhys (q : PhysReg) (w : Word) : (m.set (.phys q) w).Alike (m'.set (.phys q) w) :=
  h.set (f := id) ⟨q, rfl, fun _ => rfl⟩ (fun _ => rfl) w

/-- Registers other than the frame's two may differ. -/
theorem setOther {q : PhysReg} (hq : q.isFrame = false) (w w' : Word) :
    (m.set (.phys q) w).Alike (m'.set (.phys q) w') := by
  refine ⟨h.flags, h.frame, h.stack, h.world, h.trace, h.decisions, ?_, ?_⟩
  · have hne : Reg.phys .esp ≠ .phys q := by
      rintro ⟨⟩
      cases hq
    rw [regs_set_of_ne _ _ hne, regs_set_of_ne _ _ hne, h.stackPointer]
  · have hne : Reg.phys .ebp ≠ .phys q := by
      rintro ⟨⟩
      cases hq
    rw [regs_set_of_ne _ _ hne, regs_set_of_ne _ _ hne, h.framePointer]

theorem setFlags (fl : Flags) : (m.setFlags fl).Alike (m'.setFlags fl) :=
  { h with flags := rfl }

theorem note (a : Action) : (m.note a).Alike (m'.note a) :=
  { h with trace := congrArg (· ++ [a]) h.trace }

theorem decide (b : Bool) :
    Machine.Alike { m with decisions := m.decisions ++ [b] }
      { m' with decisions := m'.decisions ++ [b] } :=
  { h with decisions := congrArg (· ++ [b]) h.decisions }

theorem fill (c : Cell) (w : Word) : (m.fill w c).Alike (m'.fill w c) := by
  cases c with
  | frame o =>
      refine { h with frame := ?_ }
      intro o' ho'
      simp only [Machine.fill, assign]
      rw [h.frame o' ho']
  | data s o => exact { h with world := by simp only [Machine.fill, h.world] }
  | heap a => exact { h with world := by simp only [Machine.fill, h.world] }
  | stack a => exact { h with stack := by simp only [Machine.fill, h.stack] }

theorem poke (c : Cell) (w : Word) : (m.poke c w).Alike (m'.poke c w) := by
  have hfill := h.fill c w
  exact { hfill with trace := by simp only [Machine.poke, h.trace] }

theorem push (w : Word) : (m.push w).Alike (m'.push w) := by
  have hset := h.setPhys .stackPointer (m.regs (.phys .stackPointer) - Frame.wordBytes)
  have hsp : m'.regs (.phys .stackPointer) = m.regs (.phys .stackPointer) := h.stackPointer
  simp only [Machine.push, hsp, h.stack]
  refine Machine.Alike.note ?_ _
  exact ⟨hset.flags, hset.frame, rfl, hset.world, hset.trace, hset.decisions, hset.stackPointer,
    hset.framePointer⟩

theorem call (callee : Target)
    (hsize : callee = .label Reserved.allocate →
      m'.regs (.phys .accumulator) = m.regs (.phys .accumulator)) :
    (m.call p callee).Alike (m'.call p callee) ∧
      ∀ q, (m'.call p callee).regs (.phys q) = (m.call p callee).regs (.phys q) := by
  have hs : m'.size? callee = m.size? callee := by
    unfold Machine.size?
    split
    · rw [hsize ‹_›]
    · rfl
  have hn := h.note (.call callee (m.size? callee))
  have hregs (q : PhysReg) :
      (m'.call p callee).regs (.phys q) = (m.call p callee).regs (.phys q) := by
    simp only [Machine.call, hs, hn.trace, hn.world]
    cases q with
    | esp => exact h.stackPointer
    | ebp => exact h.framePointer
    | _ => rfl
  refine ⟨⟨?_, h.frame, h.stack, ?_, ?_, h.decisions, hregs .esp, hregs .ebp⟩, hregs⟩
  · simp only [Machine.call, hs, hn.trace]
  · simp only [Machine.call, hs, hn.trace, hn.world]
  · simp only [Machine.call, hs, hn.trace]

end Machine.Alike

/-! ## Instructions -/

namespace Instr

variable {i : Instr}

/-- The system call alone reads `ebx` without mentioning it. -/
theorem mem_regs_of_reads_of_ne {r : Reg} (hsystem : i ≠ .int80) (h : r ∈ i.reads) :
    r ∈ i.regs ∨ r = .phys .eax ∨ r = .phys .edx := by
  cases i with
  | int80 => exact absurd rfl hsystem
  | mov dst src =>
      cases dst <;> simp_all [reads, regs, Operand.isMem, Operand.regs]
      grind
  | _ => simp_all [reads, regs] <;> grind

theorem mem_regs_of_reads {r : Reg} (h : r ∈ i.reads) :
    r ∈ i.regs ∨ r = .phys .eax ∨ r = .phys .edx ∨ r = .phys .ebx := by
  by_cases hsystem : i = .int80
  · subst hsystem
    simp_all [reads]
    grind
  · rcases mem_regs_of_reads_of_ne hsystem h with h | h | h
    · exact .inl h
    · exact .inr (.inl h)
    · exact .inr (.inr (.inl h))

theorem mem_regs_of_defs {r : Reg} (h : r ∈ i.defs) :
    r ∈ i.regs ∨ r = .phys .eax ∨ r = .phys .edx := by
  cases i with
  | mov dst src => cases dst <;> simp_all [defs, regs, Operand.regs]
  | _ => simp_all [defs, regs]

theorem mem_virtuals_of_regs {v : VirtualReg} (h : .virt v ∈ i.regs) : v ∈ i.virtuals := by
  rw [mem_virtuals]
  cases i with
  | mov dst src => cases dst <;> simp_all [regs, reads, defs, Operand.regs, Operand.isMem] <;> grind
  | _ => simp_all [regs, reads, defs] <;> grind

/-- The virtual registers that an instruction reads or writes are those it mentions. -/
theorem mem_virtuals_iff {v : VirtualReg} : v ∈ i.virtuals ↔ .virt v ∈ i.regs := by
  refine ⟨fun h => ?_, mem_virtuals_of_regs⟩
  rcases mem_virtuals.mp h with h | h
  · simpa using mem_regs_of_reads h
  · simpa using mem_regs_of_defs h

theorem Plain.reads_ne_dest (hi : i.Plain) {r : Reg} (h : r ∈ i.reads) : r ≠ .dest := by
  rintro rfl
  rcases mem_regs_of_reads h with h | h | h | h
  · exact hi.dest h
  all_goals cases h

theorem Plain.defs_ne_dest (hi : i.Plain) {r : Reg} (h : r ∈ i.defs) : r ≠ .dest := by
  rintro rfl
  rcases mem_regs_of_defs h with h | h | h
  · exact hi.dest h
  all_goals cases h

theorem Plain.not_scratch (hi : i.Plain) {q : PhysReg}
    (h : .phys q ∈ i.regs ∨ q = .eax ∨ q = .edx ∨ q = .ebx) : q ∉ PhysReg.scratch := by
  intro hscratch
  rcases h with h | rfl | rfl | rfl
  · exact hi.scratch q hscratch h
  all_goals
    revert hscratch
    decide

theorem Plain.not_scratch_of_reads (hi : i.Plain) {x : Piece} {q : PhysReg}
    (hx : x ∈ i.pieceReads) (hq : x.reg = .phys q) : q ∉ PhysReg.scratch := by
  apply hi.not_scratch
  rcases reg_mem_reads hx with h | ⟨-, h⟩
  · rw [hq] at h
    simpa using mem_regs_of_reads h
  · exact .inr (.inl (Reg.phys.inj (hq.symm.trans h)))

theorem Plain.not_scratch_of_writes (hi : i.Plain) {x : Piece} {q : PhysReg}
    (hx : x ∈ i.pieceWrites) (hq : x.reg = .phys q) : q ∉ PhysReg.scratch := by
  apply hi.not_scratch
  rcases reg_mem_defs hx with h | ⟨-, h⟩
  · rw [hq] at h
    have hregs := mem_regs_of_defs h
    simp only [Reg.phys.injEq] at hregs
    rcases hregs with h | h | h
    · exact .inl h
    · exact .inr (.inl h)
    · exact .inr (.inr (.inl h))
  · exact .inr (.inl (Reg.phys.inj (hq.symm.trans h)))

/-- All but `movzx`, which extends a byte, read their registers whole. -/
theorem mem_pieceReads_of_reads (hbyte : ∀ d, i ≠ .movzx d) {r : Reg} (hr : r ∈ i.reads)
    {x : Piece} (hx : x ∈ r.pieces) : x ∈ i.pieceReads := by
  have hmem : x ∈ i.reads.flatMap Reg.pieces := List.mem_flatMap.mpr ⟨r, hr, hx⟩
  cases i with
  | movzx d => exact absurd rfl (hbyte d)
  | call callee => exact List.mem_append_left _ hmem
  | _ => exact hmem

/-- Registers that are read are carried. -/
theorem Renames.carries (hf : i.Renames f) (hi : i.Plain) (hbyte : ∀ d, i ≠ .movzx d)
    (hreads : ∀ x ∈ i.pieceReads, Stands f m m' x) {r : Reg} (hr : r ∈ i.reads) :
    Carries f m m' r := by
  have hstands {x : Piece} (hx : x ∈ r.pieces) : Stands f m m' x :=
    hreads x (mem_pieceReads_of_reads hbyte hr hx)
  cases r with
  | phys q =>
      refine ⟨⟨q, hf.phys q, fun _ => rfl⟩, ?_⟩
      rw [hf.phys]
      refine Machine.regs_of_pieces (by intro h; cases h) ?_
      intro x hx
      have hpiece := hstands hx
      simp only [Reg.pieces, List.mem_cons, List.not_mem_nil, or_false] at hx
      rcases hx with rfl | rfl <;> exact hpiece
  | virt v =>
      obtain ⟨q, hq, hframe⟩ := hf.virt v (mem_virtuals.mpr (.inl hr))
      refine ⟨⟨q, hq, fun h => ?_⟩, hstands (x := .virt v) (List.mem_singleton_self _)⟩
      rw [hframe] at h
      cases h
  | dest => exact absurd rfl (hi.reads_ne_dest hr)

/-- A register that is written is put where only the frame's registers themselves are. -/
theorem Renames.put (hf : i.Renames f) (hi : i.Plain) {r : Reg} (hr : r ∈ i.defs) :
    ∃ q, f r = .phys q ∧ (q.isFrame → r = .phys q) := by
  cases r with
  | phys q => exact ⟨q, hf.phys q, fun _ => rfl⟩
  | virt v =>
      obtain ⟨q, hq, hframe⟩ := hf.virt v (mem_virtuals.mpr (.inr hr))
      refine ⟨q, hq, fun h => ?_⟩
      rw [hframe] at h
      cases h
  | dest => exact absurd rfl (hi.defs_ne_dest hr)

theorem stands_of_regs (hf : ∀ q, f (.phys q) = .phys q) {r : Reg}
    (h : m'.regs (f r) = m.regs r) {x : Piece} (hx : x ∈ r.pieces) : Stands f m m' x := by
  obtain rfl := Piece.reg_of_mem hx
  cases x with
  | virt v => exact h
  | low q =>
      rw [Piece.reg, hf] at h
      exact Machine.piece_of_regs h
  | high q =>
      rw [Piece.reg, hf] at h
      exact Machine.piece_of_regs h

/-- What an instruction does on other registers: with `f` in place of its registers it
takes control in the second machine where it does in the first, leaves the machines alike,
and leaves what it writes where `f` puts it. -/
structure RunsAlike (p : Platform) (f : Reg → Reg) (m m' : Machine) (i : Instr) : Prop where
  flow : ((i.mapRegs f).exec p m').1 = (i.exec p m).1
  alike : (i.exec p m).2.Alike ((i.mapRegs f).exec p m').2
  stands : ∀ x ∈ i.pieceWrites, Stands f (i.exec p m).2 ((i.mapRegs f).exec p m').2 x

/-- A system call apart, what is written belongs to the registers in `Instr.defs`. -/
theorem mem_defs_of_pieceWrites (hsystem : i ≠ .int80) {x : Piece} (hx : x ∈ i.pieceWrites) :
    ∃ r ∈ i.defs, x ∈ r.pieces := by
  cases i with
  | int80 => exact absurd rfl hsystem
  | setcc c =>
      obtain rfl := List.mem_singleton.mp hx
      exact ⟨.phys .eax, List.mem_singleton_self _, List.mem_cons_self⟩
  | _ => exact List.mem_flatMap.mp hx

/-- It is enough to run both, and to compare the registers in `Instr.defs`. -/
theorem RunsAlike.of_defs (hf : ∀ q, f (.phys q) = .phys q) (hsystem : i ≠ .int80) {flow : Flow}
    {n n' : Machine} (hexec : i.exec p m = (flow, n))
    (hexec' : (i.mapRegs f).exec p m' = (flow, n')) (halike : n.Alike n')
    (hdefs : ∀ r ∈ i.defs, n'.regs (f r) = n.regs r) : i.RunsAlike p f m m' := by
  refine ⟨by rw [hexec, hexec'], by rwa [hexec, hexec'], ?_⟩
  rw [hexec, hexec']
  intro x hx
  obtain ⟨r, hr, hpiece⟩ := mem_defs_of_pieceWrites hsystem hx
  exact stands_of_regs hf (hdefs r hr) hpiece

/-- The instruction loads one register. -/
theorem RunsAlike.of_set (hi : i.Plain) (hf : i.Renames f) (hsystem : i ≠ .int80) {d : Reg}
    (hdefs : i.defs = [d]) {w : Word} {n n' : Machine} (hexec : i.exec p m = (.next, n.set d w))
    (hexec' : (i.mapRegs f).exec p m' = (.next, n'.set (f d) w)) (halike : n.Alike n') :
    i.RunsAlike p f m m' := by
  have hput := hf.put hi (hdefs ▸ List.mem_singleton_self d)
  refine .of_defs hf.phys hsystem hexec hexec' (halike.set hput hf.phys w) ?_
  rw [hdefs]
  intro r hr
  obtain rfl := List.mem_singleton.mp hr
  rw [Machine.regs_set_self, Machine.regs_set_self]

/-- A product or a quotient and its remainder, left in both registers. -/
theorem regs_setPair (hf : ∀ q, f (.phys q) = .phys q) {w w' : Word} {fl fl' : Flags} :
    ∀ r ∈ [Reg.phys .eax, .phys .edx],
      (((m'.set (.phys .eax) w).set (.phys .edx) w').setFlags fl').regs (f r) =
        (((m.set (.phys .eax) w).set (.phys .edx) w').setFlags fl).regs r := by
  intro r hr
  simp only [List.mem_cons, List.not_mem_nil, or_false] at hr
  rcases hr with rfl | rfl
  · have hne : Reg.phys .eax ≠ .phys .edx := by decide
    rw [hf, Machine.regs_setFlags, Machine.regs_setFlags, Machine.regs_set_of_ne _ _ hne,
      Machine.regs_set_of_ne _ _ hne, Machine.regs_set_self, Machine.regs_set_self]
  · rw [hf, Machine.regs_setFlags, Machine.regs_setFlags, Machine.regs_set_self,
      Machine.regs_set_self]

/-- After a call all registers of the machine agree. -/
theorem call_mapRegs {callee : Operand} (hi : (call callee).Plain) (hf : (call callee).Renames f)
    (h : m.Alike m') (hreads : ∀ x ∈ (call callee).pieceReads, Stands f m m' x) :
    m'.target p (callee.mapRegs f) = m.target p callee ∧
      (m.call p (m.target p callee)).Alike (m'.call p (m.target p callee)) ∧
      ∀ q, (m'.call p (m.target p callee)).regs (.phys q) =
        (m.call p (m.target p callee)).regs (.phys q) := by
  have htarget : m'.target p (callee.mapRegs f) = m.target p callee := by
    refine h.target hf.phys ?_ hi.outside
    intro r hr
    exact hf.carries hi (by intro d hd; cases hd) hreads hr
  refine ⟨htarget, h.call _ ?_⟩
  intro hallocate
  obtain rfl : callee = .label Reserved.allocate := by
    cases callee with
    | label l =>
        cases hallocate
        rfl
    | _ => cases hallocate
  refine Machine.regs_of_pieces (by intro h; cases h) ?_
  intro x hx
  have hstands := hreads x (List.mem_append_right _ (by rwa [if_pos rfl]))
  simp only [Reg.pieces, List.mem_cons, List.not_mem_nil, or_false] at hx
  rcases hx with rfl | rfl <;> exact hstands

/-- Only the byte that is extended needs to agree. -/
theorem movzx_mapRegs {d : Reg} (hi : (movzx d).Plain) (hf : (movzx d).Renames f)
    (h : m.Alike m') (hreads : ∀ x ∈ (movzx d).pieceReads, Stands f m m' x) :
    (movzx d).RunsAlike p f m m' := by
  have hlow : (m'.regs (.phys .eax)).low = (m.regs (.phys .eax)).low :=
    hreads (.low .eax) (List.mem_singleton_self _)
  exact .of_set hi hf (by intro h; cases h) rfl rfl (by simp only [mapRegs, exec, hlow]) h

/-- **The instruction on other registers.**  If the second machine is like the first and
holds what the instruction reads where `f` puts it, then the instruction with `f` in place
of its registers does there what the instruction does in the first. -/
theorem exec_mapRegs (hi : i.Plain) (hf : i.Renames f) (h : m.Alike m')
    (hreads : i ≠ .ret → ∀ x ∈ i.pieceReads, Stands f m m' x) : i.RunsAlike p f m m' := by
  by_cases hret : i = .ret
  · subst hret
    exact ⟨rfl, h, List.forall_mem_nil _⟩
  replace hreads := hreads hret
  by_cases hbyte : ∃ d, i = .movzx d
  · obtain ⟨d, rfl⟩ := hbyte
    exact movzx_mapRegs hi hf h hreads
  have hcarries {r : Reg} (hr : r ∈ i.reads) : Carries f m m' r :=
    hf.carries hi (fun d hd => hbyte ⟨d, hd⟩) hreads hr
  have hvalue (op : Operand) (hregs : op.regs ⊆ i.reads) (hcells : op.cells ⊆ i.cells) :
      m'.value p (op.mapRegs f) = m.value p op :=
    h.value hf.phys (fun r hr => hcarries (hregs hr)) fun r hr => hi.outside r (hcells hr)
  have hphys {q : PhysReg} (hq : .phys q ∈ i.reads) : m'.regs (.phys q) = m.regs (.phys q) := by
    have hvalue := (hcarries hq).value
    rwa [hf.phys] at hvalue
  cases i with
  | mov dst src =>
      have hsrc := hvalue src (List.subset_append_left _ _) (List.subset_append_right _ _)
      cases dst with
      | reg d =>
          refine .of_set hi hf (by intro h; cases h) rfl rfl ?_ h
          show (Flow.next, m'.set (f d) (m'.value p (src.mapRegs f))) = _
          rw [hsrc]
      | mem r =>
          have hcell : m'.cell (r.mapRegs f) = m.cell r :=
            Machine.cell_mapRegs hf.phys fun q hq => hcarries (List.mem_append_right _ hq)
          refine .of_defs hf.phys (by intro h; cases h) rfl ?_ (h.poke _ _) (List.forall_mem_nil _)
          show (Flow.next, m'.poke (m'.cell (r.mapRegs f)) (m'.value p (src.mapRegs f))) = _
          rw [hsrc, hcell]
      | imm v => exact ⟨rfl, h, List.forall_mem_nil _⟩
      | label l => exact ⟨rfl, h, List.forall_mem_nil _⟩
  | lea dst r =>
      have hoffset : m'.offset (r.mapRegs f) = m.offset r :=
        Machine.offset_mapRegs fun q hq => hcarries hq
      refine .of_set hi hf (by intro h; cases h) rfl rfl ?_ h
      simp only [mapRegs, exec, hoffset]
      rfl
  | push src =>
      have hsrc := hvalue src (List.Subset.refl _) (List.Subset.refl _)
      exact .of_defs hf.phys (by intro h; cases h) rfl (by simp only [mapRegs, exec, hsrc])
        (h.push _) (List.forall_mem_nil _)
  | pop dst =>
      have hsp : m'.regs (.phys .stackPointer) = m.regs (.phys .stackPointer) := h.stackPointer
      have hmoved := h.setPhys .stackPointer (m.regs (.phys .stackPointer) + Frame.wordBytes)
      refine .of_set hi hf (by intro h; cases h) rfl rfl ?_ hmoved
      simp only [mapRegs, exec, Machine.pop, hsp, h.stack]
  | alu op dst src =>
      have hdst := (hcarries (r := dst) List.mem_cons_self).value
      have hsrc := hvalue src (List.subset_cons_self _ _) (List.Subset.refl _)
      refine .of_defs hf.phys (by intro h; cases h) rfl (by simp only [mapRegs, exec, hdst, hsrc])
        ((h.set (hf.put hi (List.mem_singleton_self _)) hf.phys _).setFlags _) ?_
      intro r hr
      obtain rfl := List.mem_singleton.mp hr
      rw [Machine.regs_setFlags, Machine.regs_setFlags, Machine.regs_set_self,
        Machine.regs_set_self]
  | imul src =>
      have heax := hphys (q := .eax) List.mem_cons_self
      have hsrc := hvalue src (List.subset_cons_self _ _) (List.Subset.refl _)
      exact .of_defs hf.phys (by intro h; cases h) rfl
        (by simp only [mapRegs, exec, hsrc, heax, h.trace])
        (((h.setPhys _ _).setPhys _ _).setFlags _) (regs_setPair hf.phys)
  | idiv src =>
      have heax := hphys (q := .eax) List.mem_cons_self
      have hedx := hphys (q := .edx) (List.mem_cons_of_mem _ List.mem_cons_self)
      have hsrc := hvalue src
        (List.subset_cons_of_subset _ (List.subset_cons_self _ _)) (List.Subset.refl _)
      have hdividend : m'.dividend = m.dividend := by
        rw [Machine.dividend, Machine.dividend, heax, hedx]
      cases hqr : Word.divide p.wraps m.dividend (m.value p src) with
      | none =>
          -- A refused division writes nothing, and has read all it might have written.
          refine .of_defs hf.phys (by intro h; cases h) (exec_idiv_of_none hqr)
            (exec_idiv_of_none (by rw [hdividend, hsrc, hqr])) h ?_
          intro r hr
          refine (hcarries ?_).value
          simp only [defs, List.mem_cons, List.not_mem_nil, or_false] at hr
          rcases hr with rfl | rfl
          · exact List.mem_cons_self
          · exact List.mem_cons_of_mem _ List.mem_cons_self
      | some qr =>
          have hqr' : Word.divide p.wraps m'.dividend (m'.value p (src.mapRegs f)) =
              some (qr.1, qr.2) := by rw [hdividend, hsrc, hqr]
          have hexec' := exec_idiv_of_some hqr'
          rw [h.trace] at hexec'
          exact .of_defs hf.phys (by intro h; cases h) (exec_idiv_of_some hqr) hexec'
            (((h.setPhys _ _).setPhys _ _).setFlags _) (regs_setPair hf.phys)
  | cdq =>
      have heax := hphys (q := .eax) List.mem_cons_self
      refine .of_defs hf.phys (by intro h; cases h) rfl (by simp only [mapRegs, exec, heax])
        (h.setPhys _ _) ?_
      intro r hr
      obtain rfl := List.mem_singleton.mp hr
      rw [hf.phys, Machine.regs_set_self, Machine.regs_set_self]
  | cmp a b =>
      have ha := hvalue a (List.subset_append_left _ _) (List.subset_append_left _ _)
      have hb := hvalue b (List.subset_append_right _ _) (List.subset_append_right _ _)
      exact .of_defs hf.phys (by intro h; cases h) rfl (by simp only [mapRegs, exec, ha, hb])
        (h.setFlags _) (List.forall_mem_nil _)
  | test a b =>
      have ha := (hcarries (r := a) List.mem_cons_self).value
      have hb := (hcarries (r := b) (List.mem_cons_of_mem _ List.mem_cons_self)).value
      exact .of_defs hf.phys (by intro h; cases h) rfl (by simp only [mapRegs, exec, ha, hb])
        (h.setFlags _) (List.forall_mem_nil _)
  | setcc c =>
      -- The rest of `eax` may differ, so that the register does not agree as a whole.
      refine ⟨rfl, ?_, ?_⟩
      · simp only [mapRegs, exec, h.flags]
        exact h.setOther rfl _ _
      · intro x hx
        obtain rfl := List.mem_singleton.mp hx
        simp only [mapRegs, exec, h.flags, Stands, Machine.piece, Machine.regs_set_self,
          Word.low_withLow]
  | movzx d => exact absurd ⟨d, rfl⟩ hbyte
  | jmp there =>
      have htarget : m'.target p (there.mapRegs f) = m.target p there :=
        h.target hf.phys (fun r hr => hcarries hr) hi.outside
      exact .of_defs hf.phys (by intro h; cases h) rfl (by simp only [mapRegs, exec, htarget]) h
        (List.forall_mem_nil _)
  | jcc c l =>
      have htaken : c.holds m'.flags = c.holds m.flags := congrArg (c.holds ·) h.flags
      exact .of_defs hf.phys (by intro h; cases h) rfl (by simp only [mapRegs, exec, htaken])
        (h.decide _) (List.forall_mem_nil _)
  | call callee =>
      obtain ⟨htarget, halike, hregs⟩ := call_mapRegs (p := p) hi hf h hreads
      refine .of_defs hf.phys (by intro h; cases h) rfl (by simp only [mapRegs, exec, htarget])
        halike ?_
      intro r hr
      obtain rfl := List.mem_singleton.mp hr
      rw [hf.phys, hregs]
  | ret => exact absurd rfl hret
  | int80 =>
      have heax := hphys (q := .eax) List.mem_cons_self
      have hebx := hphys (q := .ebx) (List.mem_cons_of_mem _ List.mem_cons_self)
      have hn := h.note (.system (m.regs (.phys .eax)) (m.regs (.phys .ebx)))
      have hset := hn.setPhys .eax (p.system (m.note (.system (m.regs (.phys .eax))
        (m.regs (.phys .ebx)))).trace m.world).result
      refine ⟨rfl, ?_, ?_⟩
      · simp only [mapRegs, exec, heax, hebx, hn.trace, hn.world]
        exact { hset with world := rfl }
      · simp only [mapRegs, exec, heax, hebx, hn.trace, hn.world]
        intro x hx
        refine stands_of_regs hf.phys (r := .phys .eax) ?_ hx
        rw [hf.phys]
        simp only [Machine.regs_set_self]
  | label l => exact ⟨rfl, h, List.forall_mem_nil _⟩
  | comment t => exact ⟨rfl, h, List.forall_mem_nil _⟩

/-- After a call all registers of the machine agree, and not only those it writes. -/
theorem called_mapRegs (hi : i.Plain) (hf : i.Renames f) (h : m.Alike m')
    (hreads : i ≠ .ret → ∀ x ∈ i.pieceReads, Stands f m m' x) (hcall : i.isCall = true)
    (q : PhysReg) : ((i.mapRegs f).exec p m').2.regs (.phys q) = (i.exec p m).2.regs (.phys q) := by
  cases i with
  | call callee =>
      obtain ⟨htarget, -, hregs⟩ :=
        call_mapRegs (p := p) hi hf h (hreads (by intro h; cases h))
      simp only [mapRegs, exec, htarget, hregs q]
  | _ => cases hcall

/-- The words below the frame pointer stay as they are. -/
theorem frame_mapRegs (hi : i.Plain) (hf : i.Renames f)
    (hreads : i ≠ .ret → ∀ x ∈ i.pieceReads, Stands f m m' x) {o : Word} (ho : ¬0 ≤ o) :
    ((i.mapRegs f).exec p m').2.frame o = m'.frame o := by
  apply frame_exec
  intro r src hmov hcell
  cases i with
  | mov dst src' =>
      cases dst with
      | mem r' =>
          cases hmov
          have hsame : m'.cell (r'.mapRegs f) = m.cell r' := by
            apply Machine.cell_mapRegs hf.phys
            intro q hq
            exact hf.carries hi (by intro d hd; cases hd) (hreads (by intro h; cases h))
              (List.mem_append_right _ hq)
          have hout := Machine.outside_cell (hi.outside r' (List.mem_append_left _
            (List.mem_singleton_self _))) m
          rw [← hsame, hcell] at hout
          exact ho hout
      | _ => cases hmov
  | _ => cases hmov

/-- The registers written by an instruction on other registers. -/
theorem defs_mapRegs (hf : ∀ q, f (.phys q) = .phys q) (i : Instr) :
    (i.mapRegs f).defs = i.defs.map f := by
  cases i with
  | mov dst src => cases dst <;> rfl
  | _ => simp [mapRegs, defs, hf]

theorem mem_pieceWrites_mapRegs (hf : i.Renames f) (hi : i.Plain) {x : Piece}
    (h : x ∈ (i.mapRegs f).pieceWrites) :
    x ∈ i.pieceWrites ∨ ∃ v, .virt v ∈ i.defs ∧ f (.virt v) = x.reg := by
  have hdefs (hmem : x ∈ (i.mapRegs f).defs.flatMap Reg.pieces) :
      x ∈ i.defs.flatMap Reg.pieces ∨ ∃ v, .virt v ∈ i.defs ∧ f (.virt v) = x.reg := by
    rw [defs_mapRegs hf.phys] at hmem
    obtain ⟨_, hmap, hx⟩ := List.mem_flatMap.mp hmem
    obtain ⟨r, hr, rfl⟩ := List.mem_map.mp hmap
    cases r with
    | phys q =>
        rw [hf.phys] at hx
        exact .inl (List.mem_flatMap.mpr ⟨_, hr, hx⟩)
    | virt v => exact .inr ⟨v, hr, (Piece.reg_of_mem hx).symm⟩
    | dest => exact absurd rfl (hi.defs_ne_dest hr)
  cases i with
  | setcc c => exact .inl h
  | int80 => exact .inl h
  | _ => exact hdefs h

end Instr

end TreeBackend
