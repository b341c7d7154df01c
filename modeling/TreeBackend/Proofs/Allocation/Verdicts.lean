import TreeBackend.Proofs.Allocation.Refusals

/-!
# The two allocators fail together

Both allocators start with the same check of the code, so they refuse the same code for a
register read unwritten, and name the same register.  Code that passes has a home for every
register in either of them.  The plain allocator has all of them in slots: each register of an
instruction takes a scratch register, and it refuses the first instruction that has more of them
than there are (`allocateSlots_eq_error_iff`).  The scan takes scratch registers for some of them
only, so it accepts whatever the plain allocator does (`exists_allocateScan`).

* `allocators_fail_alike`: **how the two allocators fail.**
-/

namespace TreeBackend

variable {code : List Instr} {e : CompileError}

/-- The check names one register. -/
theorem FirstUnwritten.unique {v u : VirtualReg} (hv : FirstUnwritten code v)
    (hu : FirstUnwritten code u) : v = u := by
  have h := checkWritten_eq_error_iff.mpr ⟨v, rfl, hv⟩
  rw [checkWritten_eq_error_iff.mpr ⟨u, rfl, hu⟩] at h
  cases h
  rfl

theorem exists_firstUnwritten {v : VirtualReg} (hv : ReadUnwritten code v) :
    ∃ u, FirstUnwritten code u := by
  cases h : checkWritten code with
  | ok => exact absurd hv (not_readUnwritten_of_checkWritten h v)
  | error e =>
      obtain ⟨u, -, hu⟩ := firstUnwritten_of_checkWritten h
      exact ⟨u, hu⟩

theorem checkWritten_of_not_readUnwritten (h : ∀ v, ¬ReadUnwritten code v) :
    checkWritten code = .ok () := by
  cases hcheck : checkWritten code with
  | ok => rfl
  | error e =>
      obtain ⟨v, -, hv⟩ := checkWritten_error hcheck
      exact absurd hv (h v)

/-! ## What the check refuses -/

/-- What the check refuses, the plain allocator refuses. -/
theorem allocateSlots_of_unwritten (h : checkWritten code = .error e) :
    allocateSlots code = .error e := by
  rw [allocateSlots, h]
  rfl

/-- What the check refuses, the scan refuses. -/
theorem allocateScan_of_unwritten (h : checkWritten code = .error e) :
    allocateScan code = .error e := by
  rw [allocateScan, h]
  rfl

/-! ## What the plain allocator refuses beyond that -/

/-- An instruction whose registers all live in slots is refused exactly if it has more of them
than there are scratch registers, with their number. -/
theorem Homes.house_eq_error_iff {homes : Homes} {i : Instr}
    (hhomes : ∀ v ∈ i.virtuals, ∃ n, homes.lookup v = some (.slot n)) :
    homes.house i = .error e ↔
      PhysReg.scratch.length < i.virtuals.length ∧ e = .outOfScratch i i.virtuals.length := by
  obtain ⟨slots, hslots⟩ := slotted_ok fun v hv =>
    let ⟨n, hn⟩ := hhomes v hv
    ⟨.slot n, hn⟩
  have hlength : slots.length = i.virtuals.length := by
    obtain ⟨-, hsub, -, hmem⟩ := slotted_spec hslots
    have hall : i.virtuals ⊆ slots.map Prod.fst := by
      intro v hv
      obtain ⟨n, hn⟩ := hhomes v hv
      exact List.mem_map_of_mem (hmem v hv n hn)
    have hle := (nodup_eraseDups _).length_le_of_subset hall
    have hge := hsub.length_le
    rw [List.length_map] at hle hge
    exact Nat.le_antisymm hge hle
  rw [house_of_slotted hslots, hlength]

/-- The plain allocator puts every register of the code in a slot. -/
theorem exists_slot_of_mem {i : Instr} (hi : i ∈ code) :
    ∀ v ∈ i.virtuals, ∃ n, (slotHomes code).lookup v = some (.slot n) := by
  intro v hv
  obtain ⟨n, hn, -⟩ := exists_slot (mem_virtualsIn.mpr ⟨i, hi, hv⟩)
  exact ⟨n, hn⟩

/-- **Code that passes the check is refused by the plain allocator for its first instruction
with more registers than there are scratch registers**, and for nothing else. -/
theorem error_of_allocateSlots_of_checkWritten (hcheck : checkWritten code = .ok ())
    (h : allocateSlots code = .error e) :
    ∃ before i after, code = before ++ i :: after ∧
      (∀ j ∈ before, j.virtuals.length ≤ PhysReg.scratch.length) ∧
      PhysReg.scratch.length < i.virtuals.length ∧ e = .outOfScratch i i.virtuals.length := by
  rw [allocateSlots] at h
  rcases Except.error_of_bind h with h | ⟨_, -, h⟩
  · rw [hcheck] at h
    cases h
  rcases Except.error_of_bind h with h | ⟨blocks, -, h⟩
  · obtain ⟨before, i, after, hcode, hbefore, hi⟩ := Except.split_of_mapM h
    have hmem {j : Instr} (hj : j ∈ before ++ [i]) : j ∈ code := by
      rw [hcode, List.append_cons]
      exact List.mem_append_left _ hj
    obtain ⟨hmany, he⟩ :=
      (Homes.house_eq_error_iff (exists_slot_of_mem (hmem (by simp)))).mp hi
    refine ⟨before, i, after, hcode, ?_, hmany, he⟩
    intro j hj
    by_contra hmore
    obtain ⟨block, hblock⟩ := hbefore j hj
    have hrefused := (Homes.house_eq_error_iff (exists_slot_of_mem
      (hmem (List.mem_append_left _ hj)))).mpr ⟨Nat.lt_of_not_le hmore, rfl⟩
    rw [hblock] at hrefused
    cases hrefused
  · cases h

/-- The plain allocator takes no code with an instruction that has too many registers. -/
theorem not_crowded_of_allocateSlots {a : Allocation} (h : allocateSlots code = .ok a) :
    ¬Crowded code := by
  rintro ⟨i, hi, hmany⟩
  obtain ⟨blocks, -, -, -, hget⟩ := blocks_of_allocateSlots h
  obtain ⟨pos, hpos⟩ := List.mem_iff_getElem?.mp hi
  obtain ⟨block, -, hblock⟩ := hget pos i hpos
  rw [(Homes.house_eq_error_iff (exists_slot_of_mem hi)).mpr ⟨hmany, rfl⟩] at hblock
  cases hblock

/-- **The scan accepts whatever the plain allocator accepts.** -/
theorem exists_allocateScan {a : Allocation} (h : allocateSlots code = .ok a) :
    ∃ b, allocateScan code = .ok b := by
  cases hscan : allocateScan code with
  | ok b => exact ⟨b, rfl⟩
  | error e =>
      rcases error_of_allocateScan hscan with hcheck | ⟨-, hcrowded⟩
      · rw [allocateSlots_of_unwritten hcheck] at h
        cases h
      · exact absurd hcrowded (not_crowded_of_allocateSlots h)

/-- **The two allocators fail together.**  Code that reads a register where nothing above has
written it is refused by both, for the first such register.  Other code is never refused for a
register read unwritten: the plain allocator accepts it exactly if no instruction has more than
three registers, and otherwise refuses it for the first that has more.  What the plain allocator
accepts, the scan accepts. -/
theorem allocators_fail_alike (code : List Instr) :
    ((∃ v, ReadUnwritten code v) → ∃ v, FirstUnwritten code v ∧
      allocateSlots code = .error (.unwritten v) ∧ allocateScan code = .error (.unwritten v)) ∧
    ((∀ v, ¬ReadUnwritten code v) →
      (∀ v, allocateSlots code ≠ .error (.unwritten v) ∧
        allocateScan code ≠ .error (.unwritten v)) ∧
      ((∃ a, allocateSlots code = .ok a) ↔ ∀ i ∈ code, i.virtuals.length ≤ 3) ∧
      ((¬∀ i ∈ code, i.virtuals.length ≤ 3) → ∃ before i after, code = before ++ i :: after ∧
        (∀ j ∈ before, j.virtuals.length ≤ 3) ∧ 3 < i.virtuals.length ∧
        allocateSlots code = .error (.outOfScratch i i.virtuals.length))) ∧
    ((∃ a, allocateSlots code = .ok a) → ∃ b, allocateScan code = .ok b) := by
  refine ⟨?_, ?_, fun ⟨a, ha⟩ => exists_allocateScan ha⟩
  · rintro ⟨u, hu⟩
    obtain ⟨v, hv⟩ := exists_firstUnwritten hu
    have hcheck := checkWritten_eq_error_iff.mpr ⟨v, rfl, hv⟩
    exact ⟨v, hv, allocateSlots_of_unwritten hcheck, allocateScan_of_unwritten hcheck⟩
  · intro hwritten
    have hcheck := checkWritten_of_not_readUnwritten hwritten
    have hroom : ¬Crowded code ↔ ∀ i ∈ code, i.virtuals.length ≤ 3 := by
      simp only [Crowded, PhysReg.scratch, not_exists, not_and, Nat.not_lt]
      exact Iff.rfl
    refine ⟨fun v => ⟨?_, ?_⟩, ⟨?_, ?_⟩, ?_⟩
    · intro h
      obtain ⟨before, i, after, -, -, -, he⟩ := error_of_allocateSlots_of_checkWritten hcheck h
      cases he
    · intro h
      rcases error_of_allocateScan h with h | ⟨⟨i, n, he⟩, -⟩
      · rw [hcheck] at h
        cases h
      · cases he
    · rintro ⟨a, ha⟩
      exact hroom.mp (not_crowded_of_allocateSlots ha)
    · intro hfew
      exact Options.exists_allocation { allocator := .basic } (by rw [hcheck]; rfl)
        (hroom.mpr hfew)
    · intro hmany
      cases h : allocateSlots code with
      | ok a => exact absurd (hroom.mp (not_crowded_of_allocateSlots h)) hmany
      | error e =>
          obtain ⟨before, i, after, hcode, hbefore, hi, rfl⟩ :=
            error_of_allocateSlots_of_checkWritten hcheck h
          exact ⟨before, i, after, hcode, hbefore, hi, rfl⟩

/-- Copies a word from one array to another: both operands have two registers. -/
def copyElement : List Instr :=
  [.mov (.reg (.temp "a")) (.imm 64), .mov (.reg (.temp "i")) (.imm 0),
   .mov (.reg (.temp "b")) (.imm 128), .mov (.reg (.temp "j")) (.imm 4),
   .mov (.mem { base := some (.temp "a"), index := some (.temp "i") })
     (.mem { base := some (.temp "b"), index := some (.temp "j") })]

-- The scan accepts more than the plain allocator: three of the four registers need no scratch one.
example : (allocateScan copyElement).isOk = true := by cbv

example : allocateSlots copyElement = .error (.outOfScratch copyElement[4] 4) := rfl

end TreeBackend
