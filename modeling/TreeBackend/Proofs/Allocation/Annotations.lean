import TreeBackend.Proofs.Effects.Code
import TreeBackend.Proofs.Lexemes

/-!
# What allocators write

An instruction of allocated code is one of the code, on registers of the machine and without a
note, or a transfer between a register and a slot, with a note that says what is transferred.  So
allocated code has no temporaries any more, and its notes have the names of those that live in
slots.

* `Options.mem_allocate`: where the instructions of allocated code come from.
* `Options.within_allocate`: **allocated code keeps within the vocabulary and is settled**, notes
  included.
-/

namespace TreeBackend

/-- A transfer that an allocator puts into code with the given registers. -/
inductive Annotated.Transfers (regs : List VirtualReg) : Annotated → Prop where
  | fetch (v : Visit) (h : v.reg ∈ regs) : Transfers regs v.load
  | put (v : Visit) (h : v.reg ∈ regs) : Transfers regs v.store
  | save (s : Save) : Transfers regs s.store
  | restore (s : Save) : Transfers regs s.load

/-- An instruction of allocated code comes from one of the code, or is a transfer for it. -/
inductive Annotated.ComesOf (i : Instr) : Annotated → Prop where
  | kept {j : Instr} (h : i.PutAs j) : ComesOf i { instr := j }
  | transfer {b : Annotated} (h : b.Transfers i.virtuals) : ComesOf i b

/-- **All that an allocator makes of an instruction comes from it.** -/
theorem Housed.comesOf {i : Instr} {block : List Annotated} (h : Housed i block) :
    ∀ b ∈ block, b.ComesOf i := by
  cases h with
  | @intro homes housed saves hregs hhouse =>
      obtain ⟨visits, hvisits, rfl⟩ := Homes.ok_of_house hhouse
      have hhere : Annotated.ComesOf i { instr := i.mapRegs (homes.place visits) } :=
        .kept ⟨homes.place visits, (Homes.visited_of_visits hvisits).renames hregs, rfl, rfl⟩
      simp only [List.forall_mem_append, List.forall_mem_cons, List.forall_mem_map]
      refine ⟨⟨?_, ?_, hhere, ?_⟩, ?_⟩
      · intro s _
        exact .transfer (.save s)
      · intro v hv
        have hread : .virt v.reg ∈ i.uses := by simpa using (List.mem_filter.mp hv).2
        exact .transfer (.fetch v (Instr.mem_virtuals.mpr (.inl (Instr.mem_uses.mp hread))))
      · intro v hv
        have hwrite : .virt v.reg ∈ i.defs := by simpa using (List.mem_filter.mp hv).2
        exact .transfer (.put v (Instr.mem_virtuals.mpr (.inr hwrite)))
      · intro s _
        exact .transfer (.restore s)

/-- **The instructions of allocated code come from those of the code.** -/
theorem Options.mem_allocate {o : Options} {code : List Instr} {a : Allocation}
    (h : o.allocate code = .ok a) : ∀ b ∈ a.code, ∃ i ∈ code, b.ComesOf i := by
  obtain ⟨blocks, hflat, hblocks⟩ := housed_of_allocate h
  rw [hflat]
  intro b hb
  obtain ⟨block, hblock, hb⟩ := List.mem_flatten.mp hb
  obtain ⟨i, hi, hhoused⟩ := exists_of_forall₂ hblocks hblock
  exact ⟨i, hi, hhoused.comesOf b hb⟩

/-! ## Lexemes -/

/-- The lexemes of an instruction with its note, which is a remark. -/
def Annotated.lexemes (a : Annotated) : List Lexeme :=
  a.instr.lexemes ++ a.note.toList.map .remark

/-- The lexemes of an instruction with its note belong to the vocabulary. -/
def Annotated.Within (V : Lexeme → Prop) (a : Annotated) : Prop := ∀ w ∈ a.lexemes, V w

/-- What a vocabulary has other than temporaries. -/
def Lexeme.Settled (V : Lexeme → Prop) (w : Lexeme) : Prop := V w ∧ ∀ x, w ≠ .temp x

/-- The vocabulary has the notes of the allocators. -/
structure NotesWithin (V : Lexeme → Prop) : Prop where
  transfer : ∀ v : VirtualReg, (Reg.virt v).Within V →
    V (.remark ("restore " ++ v.label)) ∧ V (.remark ("spill " ++ v.label))
  save : ∀ p : PhysReg, V (.remark ("save " ++ p.name)) ∧ V (.remark ("restore " ++ p.name))

variable {V : Lexeme → Prop}

theorem Annotated.within_iff {a : Annotated} :
    a.Within V ↔ a.instr.Within V ∧ ∀ note, a.note = some note → V (.remark note) := by
  rw [Within, lexemes, List.forall_mem_append, List.forall_mem_map]
  simp only [Option.mem_toList]
  exact Iff.rfl

/-- An instruction on registers of the machine has no temporaries. -/
theorem Instr.PutAs.within {i j : Instr} (h : i.PutAs j) (hi : i.Within V) :
    j.Within (Lexeme.Settled V) := by
  obtain ⟨f, hf, hdest, rfl⟩ := h
  refine hi.mapRegs (fun s hs => ⟨hs, nofun⟩) (fun l hl => ⟨hl, nofun⟩) (fun t ht => ⟨ht, nofun⟩)
    fun r hr _ => Reg.within_of_nil ?_
  cases r with
  | phys q =>
      rw [hf.phys]
      rfl
  | virt v =>
      obtain ⟨q, hq, -⟩ := hf.virt v (Instr.mem_virtuals_of_regs hr)
      rw [hq]
      rfl
  | dest =>
      rw [hdest]
      rfl

theorem Annotated.Transfers.within {regs : List VirtualReg} {b : Annotated} (h : b.Transfers regs)
    (hnotes : NotesWithin V) (hregs : ∀ v ∈ regs, (Reg.virt v).Within V) :
    b.Within (Lexeme.Settled V) := by
  have hmove {b : Annotated} (hb : b.instr.lexemes = []) {note : String}
      (hnote : b.note = some note) (hV : V (.remark note)) : b.Within (Lexeme.Settled V) := by
    refine within_iff.mpr ⟨Instr.within_of_nil hb, fun n hn => ?_⟩
    cases hnote.symm.trans hn
    exact ⟨hV, nofun⟩
  cases h with
  | fetch v hv => exact hmove rfl rfl (hnotes.transfer v.reg (hregs v.reg hv)).1
  | put v hv => exact hmove rfl rfl (hnotes.transfer v.reg (hregs v.reg hv)).2
  | save s => exact hmove rfl rfl (hnotes.save s.reg).1
  | restore s => exact hmove rfl rfl (hnotes.save s.reg).2

theorem Annotated.ComesOf.within {i : Instr} {b : Annotated} (h : b.ComesOf i)
    (hnotes : NotesWithin V) (hi : i.Within V) : b.Within (Lexeme.Settled V) := by
  cases h with
  | kept h => exact within_iff.mpr ⟨h.within hi, nofun⟩
  | transfer h =>
      refine h.within hnotes fun v hv w hw => hi w (List.mem_append_right _ ?_)
      exact List.mem_flatMap.mpr ⟨_, Instr.mem_virtuals_iff.mp hv, hw⟩

/-- **Allocated code keeps within the vocabulary, and has no temporaries.** -/
theorem Options.within_allocate {o : Options} {code : List Instr} {a : Allocation}
    (hnotes : NotesWithin V) (hcode : Says V code) (h : o.allocate code = .ok a) :
    ∀ b ∈ a.code, b.Within (Lexeme.Settled V) := by
  intro b hb
  obtain ⟨i, hi, hfrom⟩ := mem_allocate h b hb
  exact hfrom.within hnotes (hcode i hi)

end TreeBackend
