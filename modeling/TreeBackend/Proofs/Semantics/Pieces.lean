import TreeBackend.Proofs.Semantics.Machine

/-!
# Pieces of registers

What an instruction reads and writes as a unit is a `Piece`: a virtual register, the low
byte of a machine register, or the rest of one.  `Instr.pieceReads` and
`Instr.pieceDefs` differ from `Instr.uses` and `Instr.defs` in three places: a `setcc`
writes the low byte of `eax` only, a `movzx` reads no more than that, and a call of the
allocation routine reads `eax`.  `Instr.pieceWrites` adds that a system call, which reads
`eax`, leaves its result there.

* `Instr.piece_exec`: pieces that are not written stay as they are;
* `Instr.frame_exec`: so do the words of the frame that the instruction has no operand for.
-/

namespace TreeBackend

/-- What an instruction reads or writes as a unit. -/
inductive Piece where
  | virt (v : VirtualReg)
  | low (q : PhysReg)
  | high (q : PhysReg)
deriving DecidableEq

/-- The register that a piece belongs to. -/
def Piece.reg : Piece → Reg
  | virt v => .virt v
  | low q | high q => .phys q

/-- The pieces of a register. -/
def Reg.pieces : Reg → List Piece
  | virt v => [.virt v]
  | phys q => [.low q, .high q]
  | dest => []

theorem Piece.mem_pieces (x : Piece) : x ∈ x.reg.pieces := by
  cases x <;> simp [Piece.reg, Reg.pieces]

theorem Piece.reg_of_mem {x : Piece} {r : Reg} (h : x ∈ r.pieces) : x.reg = r := by
  cases r with
  | virt v =>
      rw [List.mem_singleton.mp h]
      rfl
  | phys q =>
      simp only [Reg.pieces, List.mem_cons, List.not_mem_nil, or_false] at h
      rcases h with rfl | rfl <;> rfl
  | dest => cases h

theorem Reg.mem_flatMap_pieces {x : Piece} {regs : List Reg} :
    x ∈ regs.flatMap Reg.pieces ↔ x.reg ∈ regs := by
  rw [List.mem_flatMap]
  constructor
  · rintro ⟨r, hr, hx⟩
    exact Piece.reg_of_mem hx ▸ hr
  · intro h
    exact ⟨x.reg, h, x.mem_pieces⟩

/-- A word is made of its low byte and the rest. -/
theorem Word.eq_of_low_high {a b : Word} (hlow : a.low = b.low) (hhigh : a.high = b.high) :
    a = b := by
  rw [← Int32.toBitVec_inj] at hlow hhigh ⊢
  simp only [low, high, Int32.toBitVec_and, Int32.toBitVec_not] at hlow hhigh
  generalize (255 : Int32).toBitVec = mask at hlow hhigh
  ext i hi
  have hl := congrArg (·[i]) hlow
  have hh := congrArg (·[i]) hhigh
  simp only [BitVec.getElem_and, BitVec.getElem_not] at hl hh
  cases hm : mask[i] <;> simp_all

namespace Instr

/-- The pieces an instruction reads. -/
def pieceReads : Instr → List Piece
  | movzx _ => [.low .eax]
  | call target =>
    target.regs.flatMap Reg.pieces ++
      if target = .label Reserved.allocate then (Reg.phys .accumulator).pieces else []
  | i => i.reads.flatMap Reg.pieces

/-- The pieces of the registers in `Instr.defs`, those that a `setcc` leaves alone left out. -/
def pieceDefs : Instr → List Piece
  | setcc _ => [.low .eax]
  | i => i.defs.flatMap Reg.pieces

/-- The pieces an instruction writes. -/
def pieceWrites : Instr → List Piece
  | int80 => (Reg.phys .eax).pieces
  | i => i.pieceDefs

theorem pieceDefs_subset (i : Instr) : i.pieceDefs ⊆ i.pieceWrites := by
  cases i with
  | int80 => exact List.nil_subset _
  | _ => exact List.Subset.refl _

theorem reg_mem_defs {i : Instr} {x : Piece} (h : x ∈ i.pieceWrites) :
    x.reg ∈ i.defs ∨ (i = .int80 ∧ x.reg = .phys .eax) := by
  cases i with
  | setcc c =>
      obtain rfl := List.mem_singleton.mp h
      exact .inl (List.mem_singleton_self _)
  | int80 => exact .inr ⟨rfl, Piece.reg_of_mem h⟩
  | _ => exact .inl (Reg.mem_flatMap_pieces.mp h)

theorem mem_pieceWrites_virt {i : Instr} {v : VirtualReg} :
    .virt v ∈ i.pieceWrites ↔ .virt v ∈ i.defs := by
  constructor
  · intro h
    rcases reg_mem_defs h with h | ⟨-, h⟩
    · exact h
    · cases h
  · intro h
    cases i with
    | setcc c => simp [defs] at h
    | int80 => cases h
    | _ => exact List.mem_flatMap.mpr ⟨_, h, List.mem_singleton_self _⟩

theorem reg_mem_reads {i : Instr} {x : Piece} (h : x ∈ i.pieceReads) :
    x.reg ∈ i.reads ∨ (i = .call (.label Reserved.allocate) ∧ x.reg = .phys .eax) := by
  cases i with
  | movzx d =>
      obtain rfl := List.mem_singleton.mp h
      exact .inl (List.mem_singleton_self _)
  | call target =>
      rcases List.mem_append.mp h with h | h
      · exact .inl (Reg.mem_flatMap_pieces.mp h)
      · by_cases ht : target = .label Reserved.allocate
        · rw [if_pos ht] at h
          exact .inr ⟨by rw [ht], Piece.reg_of_mem h⟩
        · simp [if_neg ht] at h
  | _ => exact .inl (Reg.mem_flatMap_pieces.mp h)

end Instr

/-! ## What stays -/

namespace Machine

/-- The word in a register, or what a piece holds of it. -/
def piece (m : Machine) : Piece → Word
  | .virt v => m.regs (.virt v)
  | .low q => (m.regs (.phys q)).low
  | .high q => (m.regs (.phys q)).high

variable {m m' : Machine} {r : Reg} {x : Piece}

theorem piece_of_regs (h : m'.regs x.reg = m.regs x.reg) : m'.piece x = m.piece x := by
  cases x with
  | virt v => exact h
  | low q => exact congrArg Word.low h
  | high q => exact congrArg Word.high h

theorem regs_of_pieces (hr : r ≠ .dest) (h : ∀ x ∈ r.pieces, m'.piece x = m.piece x) :
    m'.regs r = m.regs r := by
  cases r with
  | virt v => exact h (.virt v) (List.mem_singleton_self _)
  | phys q =>
      exact Word.eq_of_low_high (h (.low q) List.mem_cons_self)
        (h (.high q) (List.mem_cons_of_mem _ (List.mem_singleton_self _)))
  | dest => exact absurd rfl hr

theorem piece_set (w : Word) (h : x ∉ r.pieces) : (m.set r w).piece x = m.piece x := by
  refine piece_of_regs (regs_set_of_ne m w ?_)
  rintro rfl
  exact h x.mem_pieces

end Machine

theorem Machine.piece_setFlags (m : Machine) (f : Flags) (x : Piece) :
    (m.setFlags f).piece x = m.piece x := piece_of_regs rfl

theorem Machine.piece_poke (m : Machine) (c : Cell) (w : Word) (x : Piece) :
    (m.poke c w).piece x = m.piece x := by
  apply piece_of_regs
  cases c <;> rfl

namespace Instr

variable {p : Platform} {m : Machine} {i : Instr}

/-- **What is not written stays as it is**, but for the stack pointer, which pushes and
pops move, and for what a callee overwrites. -/
theorem piece_exec {x : Piece} (hcall : i.isCall = false) (hsp : x.reg ≠ .phys .esp)
    (hx : x ∉ i.pieceWrites) : (i.exec p m).2.piece x = m.piece x := by
  have hpiece {r : Reg} (h : x ∉ [r].flatMap Reg.pieces) : x ∉ r.pieces := by
    simpa using h
  have hsp' : x ∉ (Reg.phys .stackPointer).pieces := fun h => hsp (Piece.reg_of_mem h)
  cases i with
  | mov dst src =>
      cases dst with
      | reg d => exact Machine.piece_set _ (hpiece hx)
      | mem r => exact Machine.piece_poke _ _ _ _
      | imm v => rfl
      | label l => rfl
  | lea dst r => exact Machine.piece_set _ (hpiece hx)
  | push src => exact Machine.piece_set (m := m) _ hsp'
  | pop dst => exact (Machine.piece_set _ (hpiece hx)).trans (Machine.piece_set _ hsp')
  | alu op dst src =>
      simp only [exec, Machine.piece_setFlags]
      exact Machine.piece_set _ (hpiece hx)
  | imul src =>
      simp only [pieceWrites, pieceDefs, defs, List.flatMap_cons, List.flatMap_nil, List.mem_append,
        not_or] at hx
      simp only [exec, Machine.piece_setFlags]
      rw [Machine.piece_set _ hx.2.1, Machine.piece_set _ hx.1]
  | idiv src =>
      simp only [pieceWrites, pieceDefs, defs, List.flatMap_cons, List.flatMap_nil, List.mem_append,
        not_or] at hx
      simp only [exec]
      cases Word.divide p.wraps m.dividend (m.value p src) with
      | none => rfl
      | some qr =>
          simp only [Machine.piece_setFlags]
          rw [Machine.piece_set _ hx.2.1, Machine.piece_set _ hx.1]
  | cdq => exact Machine.piece_set _ (hpiece hx)
  | setcc c =>
      by_cases hhigh : x = .high .eax
      · subst hhigh
        simp only [exec, Machine.piece, Machine.regs_set_self]
        exact Word.high_withLow _ _
      · refine Machine.piece_set _ ?_
        intro h
        simp only [Reg.pieces, List.mem_cons, List.not_mem_nil, or_false] at h
        rcases h with h | h
        · exact hx (List.mem_singleton.mpr h)
        · exact hhigh h
  | movzx dst => exact Machine.piece_set _ (hpiece hx)
  | int80 =>
      have hx' : x ∉ (Reg.phys .eax).pieces := hx
      exact Machine.piece_set (m := m.note _) _ hx'
  | call target => cases hcall
  | _ => rfl

/-- A virtual register that is not written stays as it is, a call included. -/
theorem virt_exec {v : VirtualReg} (h : .virt v ∉ i.defs) :
    (i.exec p m).2.regs (.virt v) = m.regs (.virt v) := by
  cases hcall : i.isCall with
  | false =>
      refine piece_exec (x := .virt v) hcall (by intro hreg; cases hreg) ?_
      rwa [mem_pieceWrites_virt]
  | true =>
      cases i with
      | call callee => rfl
      | _ => cases hcall

/-- **Words of the frame change only where the instruction stores.** -/
theorem frame_exec {o : Word} (h : ∀ r src, i = .mov (.mem r) src → m.cell r ≠ .frame o) :
    (i.exec p m).2.frame o = m.frame o := by
  cases i with
  | mov dst src =>
      cases dst with
      | mem r =>
          have hcell := h r src rfl
          simp only [exec, Machine.poke]
          cases hc : m.cell r with
          | frame o' =>
              have ho : o ≠ o' := by
                rintro rfl
                exact hcell hc
              exact assign_of_ne _ _ ho
          | _ => rfl
      | _ => rfl
  | idiv src =>
      simp only [exec]
      cases Word.divide p.wraps m.dividend (m.value p src) with
      | none => rfl
      | some qr => rfl
  | _ => rfl

end Instr

end TreeBackend
