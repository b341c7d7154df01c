import TreeBackend.Proofs.Allocation.Housing
import TreeBackend.Proofs.Semantics.Control

/-!
# The blocks of allocated code

`PlainCode` is code as allocators expect it, and what they make of it has one block for each
instruction.  `BlockFor` says which blocks keep control in step with the code they stand for:
they are not empty, that of a label is the label itself, and no other block has a label.  What
`Homes.house` makes of an instruction is such a block (`BlockFor.house`), and code made of such
blocks lands where the code they stand for does (`Aligned.of_blocks`).
-/

namespace TreeBackend

/-- Code as allocators expect it. -/
structure PlainCode (code : List Instr) : Prop where
  plain : ∀ i ∈ code, i.Plain
  /-- The frame stays where it is up to the return. -/
  framePointer : ∀ (pos : Nat) (i : Instr), code[pos]? = some i →
    .phys .framePointer ∈ i.defs → code[pos + 1]? = some .ret

instance (code : List Instr) : Decidable (PlainCode code) :=
  decidable_of_iff ((∀ i ∈ code, i.Plain) ∧ ∀ (pos : Nat) (h : pos < code.length),
      .phys .framePointer ∈ code[pos].defs → code[pos + 1]? = some .ret) <| by
    constructor
    · rintro ⟨hplain, hlast⟩
      refine ⟨hplain, fun pos i hi hd => ?_⟩
      obtain ⟨hlt, rfl⟩ := List.getElem?_eq_some_iff.mp hi
      exact hlast pos hlt hd
    · rintro ⟨hplain, hlast⟩
      exact ⟨hplain, fun pos h hd => hlast pos _ (List.getElem?_eq_getElem h) hd⟩

/-- A block that may stand for an instruction. -/
structure BlockFor (i : Instr) (block : List Instr) : Prop where
  ne_nil : block ≠ []
  label : ∀ l, i = .label l → block = [.label l]
  other : Peephole.isLabel i = false → ∀ j ∈ block, Peephole.isLabel j = false

/-- The code of an instruction on its homes is a block for it. -/
theorem BlockFor.house {homes : Homes} {i : Instr} {block : List Annotated}
    (h : homes.house i = .ok block) : BlockFor i (block.map Annotated.instr) := by
  obtain ⟨visits, -, heq⟩ := Homes.house_eq h
  rw [heq]
  refine ⟨by simp, ?_, ?_⟩
  · rintro l rfl
    have hnone (vs : List Visit) : vs.filter (fun _ => false) = [] :=
      List.filter_eq_nil_iff.mpr fun _ _ => Bool.false_ne_true
    simp [Instr.uses, Instr.reads, Instr.defs, Instr.mapRegs, hnone]
  · intro hi j hj
    rcases List.mem_append.mp hj with hj | hj
    · obtain ⟨t, -, rfl⟩ := List.mem_map.mp hj
      rfl
    · rcases List.mem_cons.mp hj with rfl | hj
      · cases i <;> first | rfl | exact hi
      · obtain ⟨t, -, rfl⟩ := List.mem_map.mp hj
        rfl

/-- Moves around a block that stands for no label. -/
theorem BlockFor.surround {i : Instr} {block before after : List Instr} (h : BlockFor i block)
    (hi : Peephole.isLabel i = false) (hbefore : ∀ j ∈ before, Peephole.isLabel j = false)
    (hafter : ∀ j ∈ after, Peephole.isLabel j = false) :
    BlockFor i (before ++ (block ++ after)) := by
  refine ⟨?_, ?_, ?_⟩
  · intro hnil
    simp only [List.append_eq_nil_iff] at hnil
    exact h.ne_nil hnil.2.1
  · rintro l rfl
    cases hi
  · intro _ j hj
    rw [List.mem_append, List.mem_append] at hj
    rcases hj with hj | hj | hj
    · exact hbefore j hj
    · exact h.other hi j hj
    · exact hafter j hj

/-- **Code made of a block for each instruction is aligned with the instructions.** -/
theorem Aligned.of_blocks {code : List Instr} {blocks : List (List Annotated)}
    (hlength : blocks.length = code.length)
    (hget : ∀ (pos : Nat) (i : Instr), code[pos]? = some i →
      ∃ block, blocks[pos]? = some block ∧ BlockFor i (block.map Annotated.instr)) :
    Aligned code (blocks.map (·.map Annotated.instr)) where
  length := by simpa using hlength
  label k l hk := by
    obtain ⟨block, hblock, hfor⟩ := hget k _ hk
    rw [List.getElem?_map, hblock, Option.map_some, hfor.label l rfl]
  other k i b hk hb hi := by
    obtain ⟨block, hblock, hfor⟩ := hget k i hk
    rw [List.getElem?_map, hblock, Option.map_some] at hb
    cases hb
    exact hfor.other hi

end TreeBackend
