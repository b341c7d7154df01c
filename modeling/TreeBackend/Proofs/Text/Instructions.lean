import TreeBackend.Proofs.Lexemes
import TreeBackend.Proofs.Text.Comments
import TreeBackend.X86.Printer

/-!
# The written form of instructions is bare

What is written of an instruction are its names and registers, numerals, and signs of which none
is a line break or a semicolon.  So the text of an instruction is bare if its names are and if no
register of it is a temporary, which would be written by its name.

* `Instr.bare_text`: **bare names make a bare text.**
* `Instr.isBlank_text`: no instruction is written as white space.
-/

namespace TreeBackend

open Text

theorem PhysReg.bare_name (p : PhysReg) : Bare p.name := by cases p <;> decide

theorem Reg.bare_text {r : Reg} (h : ∀ x, r ≠ .temp x) : Bare r.text := by
  cases r with
  | phys p => exact p.bare_name
  | virt v =>
      cases v with
      | temp x => exact absurd rfl (h x)
      | fresh n => exact bare_append.mpr ⟨by decide, bare_nat n⟩
  | dest => decide

theorem MemRef.bare_text {m : MemRef} (hsymbol : ∀ s ∈ m.symbol.toList, Bare s)
    (hregs : ∀ r ∈ m.regs, Bare r.text) : Bare m.text := by
  have hsum : Bare m.sum := bare_intercalate (by decide)
    (List.forall_mem_append.mpr ⟨hsymbol, List.forall_mem_map.mpr hregs⟩)
  have hbody : Bare (if m.sum.isEmpty then toString m.disp.toInt
      else if 0 < m.disp.toInt then m.sum ++ " + " ++ toString m.disp.toInt
      else if m.disp.toInt < 0 then m.sum ++ " - " ++ toString (-m.disp.toInt)
      else m.sum) := by
    split
    · exact bare_int _
    · split
      · exact bare_append.mpr ⟨bare_append.mpr ⟨hsum, by decide⟩, bare_int _⟩
      · split
        · exact bare_append.mpr ⟨bare_append.mpr ⟨hsum, by decide⟩, bare_int _⟩
        · exact hsum
  exact bare_append.mpr ⟨bare_append.mpr ⟨by decide, hbody⟩, by decide⟩

namespace Operand

/-- What is written of an operand is bare. -/
structure BareParts (op : Operand) : Prop where
  symbols : ∀ s ∈ op.symbols, Bare s
  regs : ∀ r ∈ op.regs, Bare r.text

variable {a b : Operand}

theorem BareParts.text (h : a.BareParts) : Bare a.text := by
  cases a with
  | reg r => exact h.regs r (List.mem_singleton_self r)
  | mem m => exact MemRef.bare_text h.symbols h.regs
  | imm v => exact bare_int v.toInt
  | label l => exact h.symbols l (List.mem_singleton_self l)

theorem BareParts.sized (h : a.BareParts) : Bare a.sized := by
  rw [Operand.sized]
  split
  · exact bare_append.mpr ⟨by decide, h.text⟩
  · exact h.text

theorem BareParts.pair (ha : a.BareParts) (hb : b.BareParts) : Bare (a.pair b) := by
  refine bare_append.mpr ⟨bare_append.mpr ⟨bare_append.mpr ⟨?_, ha.text⟩, by decide⟩, hb.text⟩
  split <;> decide

end Operand

namespace Instr

/-- What is written of an instruction is bare, the comment apart that it may be. -/
structure BareParts (i : Instr) : Prop where
  symbols : ∀ s ∈ i.symbols, Bare s
  label : ∀ l, i = .label l → Bare l
  regs : ∀ r ∈ i.regs, Bare r.text

/-- **Bare names make a bare text.** -/
theorem bare_text {i : Instr} (h : i.BareParts) (hi : i.isComment = false) : Bare i.text := by
  obtain ⟨hsymbols, hlabel, hregs⟩ := h
  have hop {mnemonic rest : String} (hmnemonic : Bare mnemonic) (hrest : Bare rest) :
      Bare ("    " ++ (mnemonic ++ rest)) :=
    bare_append.mpr ⟨by decide, bare_append.mpr ⟨hmnemonic, hrest⟩⟩
  cases i with
  | mov a b | cmp a b =>
      obtain ⟨hsa, hsb⟩ := List.forall_mem_append.mp hsymbols
      obtain ⟨hra, hrb⟩ := List.forall_mem_append.mp hregs
      exact hop (by decide) (Operand.BareParts.pair ⟨hsa, hra⟩ ⟨hsb, hrb⟩)
  | lea d address =>
      obtain ⟨hd, haddress⟩ := List.forall_mem_cons.mp hregs
      refine hop ?_ (MemRef.bare_text hsymbols haddress)
      exact bare_append.mpr ⟨bare_append.mpr ⟨by decide, hd⟩, by decide⟩
  | alu op d src =>
      obtain ⟨hd, hsrc⟩ := List.forall_mem_cons.mp hregs
      refine hop ?_ (Operand.BareParts.text ⟨hsymbols, hsrc⟩)
      refine bare_append.mpr ⟨bare_append.mpr ⟨bare_append.mpr ⟨?_, by decide⟩, hd⟩, by decide⟩
      cases op <;> decide
  | test a b =>
      obtain ⟨ha, hb⟩ := List.forall_mem_cons.mp hregs
      refine hop ?_ (hb b (List.mem_singleton_self b))
      exact bare_append.mpr ⟨bare_append.mpr ⟨by decide, ha⟩, by decide⟩
  | push op | imul op | idiv op =>
      exact hop (by decide) (Operand.BareParts.sized ⟨hsymbols, hregs⟩)
  | jmp op | call op => exact hop (by decide) (Operand.BareParts.text ⟨hsymbols, hregs⟩)
  | pop d => exact hop (by decide) (hregs d (List.mem_singleton_self d))
  | movzx d =>
      refine hop (bare_append.mpr ⟨by decide, hregs d (List.mem_singleton_self d)⟩) ?_
      decide
  | jcc c l =>
      refine hop ?_ (hsymbols l (List.mem_singleton_self l))
      cases c <;> decide
  | label l => exact bare_append.mpr ⟨hlabel l rfl, by decide⟩
  | setcc c => cases c <;> decide
  | cdq | ret | int80 => decide
  | comment t => cases hi

/-- No instruction is written as white space. -/
theorem isBlank_text (i : Instr) : isBlank i.text.toList = false := by
  cases i with
  | alu op d src => cases op <;> simp [isBlank, text, body, AluOp.mnemonic]
  | setcc c => simp [isBlank, text, body]
  | _ => simp [isBlank, text, body]

end Instr

end TreeBackend
