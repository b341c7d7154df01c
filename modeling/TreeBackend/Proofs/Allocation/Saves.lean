import TreeBackend.Proofs.Allocation.Complete

/-!
# Saves around a call

The scan saves the registers of the intervals that a call lies inside of, in slots past those of
all homes, and fetches them again after the call.  That the accumulator is not among them, so that
the result of the call is not lost, is written nowhere: the call writes the accumulator, so a
window of the accumulator holds the position of the call, and no interval that shares a position
with a window is given its register (`eax_not_mem_savedAt`).

* `allocateScan_saves`: **what stands around a call, and what is saved there.**
-/

namespace TreeBackend

/-- What is saved around a call, in a frame of a given size: the registers of the intervals that
start before the call and end after it, each once, in slots of their own. -/
structure SavesCall (code : List Instr) (pos size : Nat) (saves : List Save) : Prop where
  across : ∀ q, q ∈ saves.map Save.reg ↔ ∃ p ∈ (Liveness.settled code).place,
    p.home = .reg q ∧ p.interval.span.first < pos ∧ pos < p.interval.span.last
  regs : (saves.map Save.reg).Nodup
  slots : (saves.map Save.slot).Nodup
  /-- No value lives in the slot of a save. -/
  apart : ∀ s ∈ saves, ∀ p ∈ (Liveness.settled code).place, p.home ≠ .slot s.slot
  frame : ∀ s ∈ saves, 1 ≤ s.slot ∧ s.slot ≤ size
  /-- What the call returns is not overwritten. -/
  result : PhysReg.eax ∉ saves.map Save.reg

/-- The block of a call has no stores: a call writes no virtual register. -/
theorem Homes.house_call {homes : Homes} {target : Operand} {housed : List Annotated}
    (h : homes.house (.call target) = .ok housed) :
    ∃ visits, Visited homes (.call target) visits ∧
      housed = (visits.filter (Reg.virt ·.reg ∈ (Instr.call target).uses)).map Visit.load ++
        [{ instr := .call (target.mapRegs (homes.place visits)) }] := by
  obtain ⟨visits, hvisits, rfl⟩ := ok_of_house h
  refine ⟨visits, visited_of_visits hvisits, ?_⟩
  have hstores : visits.filter (Reg.virt ·.reg ∈ (Instr.call target).defs) = [] :=
    List.filter_eq_nil_iff.mpr fun v _ => by simp [Instr.defs]
  rw [hstores]
  rfl

section
variable {code : List Instr} {pos : Nat} {target : Operand}

theorem map_reg_savesAt (placed : List Placement) (pos : Nat) :
    (savesAt placed pos).map Save.reg = savedAt placed pos := by
  have h := congrArg (List.map Prod.fst) (savesAt_map_transfer placed pos)
  rwa [List.map_map, List.zipIdx_map_fst] at h

/-- **The accumulator is not saved around a call.** -/
theorem eax_not_mem_savedAt (hi : code[pos]? = some (.call target)) :
    PhysReg.eax ∉ savedAt (Liveness.settled code).place pos := by
  intro hsaved
  apply not_occupies_of_savedAt hsaved
  exact Liveness.occupies_of_uses_or_defs rfl hi (.inr List.mem_cons_self)

/-- What the scan saves around a call. -/
theorem savesCall_savesAt {size : Nat} (hi : code[pos]? = some (.call target))
    (hsize : slotsOf (Liveness.settled code).place +
      mostSaved (Liveness.settled code).place code ≤ size) :
    SavesCall code pos size (savesAt (Liveness.settled code).place pos) := by
  refine ⟨?_, ?_, ?_, ?_, ?_, ?_⟩
  · intro q
    rw [map_reg_savesAt, mem_savedAt]
    apply and_iff_right_of_imp
    rintro ⟨p, hp, hhome, -⟩
    exact Liveness.placement_reg hp hhome
  · rw [map_reg_savesAt]
    exact nodup_savedAt _ pos
  · have h := nodup_save_slots (Liveness.settled code).place pos
    rwa [List.map_map] at h
  · intro s hs p hp hhome
    obtain ⟨-, hle⟩ := Liveness.placement_slot hp hhome
    have hlow := (slot_of_mem_savesAt hs).1
    omega
  · intro s hs
    obtain ⟨hlow, hhigh⟩ := slot_of_mem_savesAt hs
    have hmost : (savedAt (Liveness.settled code).place pos).length ≤
        mostSaved (Liveness.settled code).place code := length_savedAt_le hi rfl
    omega
  · rw [map_reg_savesAt]
    exact eax_not_mem_savedAt hi

end

/-- **What the scan puts around a call.**  Its block saves registers, fetches what the target is
made of, calls, and fetches the registers again from the slots they were saved to.  Saved are the
registers of the machine that are given to intervals that start before the call and end after it,
each once and in a slot of its own within the frame, and never the accumulator.

Slots go by their numbers here.  Offsets in the frame are 32-bit words, so that slots are cells of
their own only up to `Frame.maxSlots`. -/
theorem allocateScan_saves {code : List Instr} {a : Allocation} {pos : Nat} {target : Operand}
    (h : allocateScan code = .ok a) (hi : code[pos]? = some (.call target)) :
    ∃ blocks : List (List Annotated), a.code = blocks.flatten ∧ blocks.length = code.length ∧
      (∀ k i, code[k]? = some i → ∃ block, blocks[k]? = some block ∧
        housePlaced (Liveness.settled code).place i k = .ok block) ∧
      ∃ (saves : List Save) (loads : List Visit) (callee : Operand),
        blocks[pos]? = some (saves.map Save.store ++
          (loads.map Visit.load ++ [{ instr := .call callee }]) ++ saves.map Save.load) ∧
        SavesCall code pos a.slots saves ∧ (∀ w ∈ loads, w.scratch ∈ PhysReg.scratch) ∧
        (Instr.call target).PutApart (.call callee) := by
  obtain ⟨-, blocks, hflat, hslots, hlength, hget⟩ := blocks_of_allocateScan h
  refine ⟨blocks, hflat, hlength, hget, savesAt (Liveness.settled code).place pos, ?_⟩
  obtain ⟨block, hblock, hplaced⟩ := hget pos _ hi
  obtain ⟨housed, hhoused, ⟨hcall, -⟩ | ⟨-, rfl⟩⟩ := ok_of_housePlaced hplaced
  · cases hcall
  obtain ⟨visits, hvisited, rfl⟩ := Homes.house_call hhoused
  refine ⟨_, _, hblock, savesCall_savesAt hi (Nat.le_of_eq hslots.symm), ?_, ?_⟩
  · intro w hw
    exact hvisited.scratch w (List.mem_filter.mp hw).1
  · exact (apart_homesIn hi (Nat.le_refl _)).putApart hvisited

/-- Around the call two registers are saved, and the accumulator holds what it returns. -/
theorem allocateScan_saves_fourAcross : ∃ a, allocateScan fourAcross = .ok a ∧
    fourAcross[4]? = some (.call (.label "f")) ∧
    ∃ blocks : List (List Annotated), a.code = blocks.flatten ∧
      ∃ (saves : List Save) (loads : List Visit) (callee : Operand),
        blocks[4]? = some (saves.map Save.store ++
          (loads.map Visit.load ++ [{ instr := .call callee }]) ++ saves.map Save.load) ∧
        SavesCall fourAcross 4 5 saves ∧ .ebx ∈ saves.map Save.reg ∧ .edx ∈ saves.map Save.reg := by
  obtain ⟨a, ha, hfive⟩ := allocateScan_fourAcross
  have hcall : fourAcross[4]? = some (.call (.label "f")) := rfl
  obtain ⟨blocks, hflat, -, -, saves, loads, callee, hblock, hsaves, -⟩ :=
    allocateScan_saves ha hcall
  rw [hfive] at hsaves
  refine ⟨a, ha, hcall, blocks, hflat, saves, loads, callee, hblock, hsaves, ?_, ?_⟩
  · rw [hsaves.across, place_fourAcross]
    decide
  · rw [hsaves.across, place_fourAcross]
    decide

end TreeBackend
