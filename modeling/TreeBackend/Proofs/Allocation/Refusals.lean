import TreeBackend.Program.Assembly
import TreeBackend.Proofs.Allocation.OwnSlots
import TreeBackend.Proofs.Allocation.Calls

/-!
# What the allocators refuse

Both allocators give every register that the code mentions a home, so they refuse code for two
reasons only: it reads a register before any instruction above has written it, or an
instruction has more registers than there are scratch registers.

* `ReadUnwritten`: what the check of code finds.
* `Options.error_of_allocate`: **why an allocator refuses code.**
* `Options.exists_allocation`: code that gives neither reason is allocated.
-/

namespace TreeBackend

/-- The code reads the register at an instruction above which nothing writes it. -/
def ReadUnwritten (code : List Instr) (v : VirtualReg) : Prop :=
  ∃ before i after, code = before ++ i :: after ∧ .virt v ∈ i.reads ∧
    ∀ j ∈ before, .virt v ∉ j.defs

/-- An instruction of the code writes the register. -/
def WrittenIn (code : List Instr) (v : VirtualReg) : Prop := ∃ j ∈ code, .virt v ∈ j.defs

/-- The register is the first outside a set, in the order of `Instr.uses`, that the instruction
reads. -/
def Instr.ReadsFirst (i : Instr) (written : VirtualReg → Prop) (v : VirtualReg) : Prop :=
  ∃ earlier later, i.uses = earlier ++ .virt v :: later ∧ ¬written v ∧
    ∀ u, .virt u ∈ earlier → written u

/-- The register is the first that the code reads unwritten: at the first position that reads
such a register, the first one in the order of `Instr.uses`. -/
def FirstUnwritten (code : List Instr) (v : VirtualReg) : Prop :=
  ∃ before i after, code = before ++ i :: after ∧ (∀ u, ¬ReadUnwritten before u) ∧
    i.ReadsFirst (WrittenIn before) v

theorem FirstUnwritten.readUnwritten {code : List Instr} {v : VirtualReg}
    (h : FirstUnwritten code v) : ReadUnwritten code v := by
  obtain ⟨before, i, after, hcode, -, earlier, later, huses, hv, -⟩ := h
  refine ⟨before, i, after, hcode, ?_, fun j hj hd => hv ⟨j, hj, hd⟩⟩
  rw [← Instr.mem_uses, huses]
  exact List.mem_append_right _ List.mem_cons_self

/-! ## The check of code -/

theorem writtenIn_cons {i : Instr} {rest : List Instr} {v : VirtualReg} :
    WrittenIn (i :: rest) v ↔ .virt v ∈ i.defs ∨ WrittenIn rest v := by
  simp only [WrittenIn, List.mem_cons, exists_eq_or_imp]

/-- What the check looks for in one instruction. -/
theorem find?_virtualUses {i : Instr} {written : List VirtualReg} {v : VirtualReg} :
    i.virtualUses.find? (!written.contains ·) = some v ↔ i.ReadsFirst (· ∈ written) v := by
  rw [List.find?_eq_some_iff_append, Instr.virtualUses]
  constructor
  · rintro ⟨hv, us, vs, heq, hus⟩
    obtain ⟨l₁, l₂, huses, hl₁, hl₂⟩ := List.filterMap_eq_append_iff.mp heq
    obtain ⟨none₁, r, l₃, rfl, hnone, hr, -⟩ := List.filterMap_eq_cons_iff.mp hl₂
    obtain rfl : r = .virt v := by
      cases r <;> cases hr
      rfl
    refine ⟨l₁ ++ none₁, l₃, by rw [huses, List.append_assoc], by simpa using hv, ?_⟩
    intro u hu
    rcases List.mem_append.mp hu with hu | hu
    · have hmem : u ∈ us := by
        rw [← hl₁]
        exact mem_filterMap_virt.mpr hu
      simpa using hus u hmem
    · cases hnone _ hu
  · rintro ⟨earlier, later, huses, hv, hearlier⟩
    refine ⟨by simpa using hv, earlier.filterMap Reg.virt?, later.filterMap Reg.virt?, ?_, ?_⟩
    · rw [huses, List.filterMap_append]
      rfl
    · intro u hu
      simpa using hearlier u (mem_filterMap_virt.mp hu)

theorem Instr.ReadsFirst.congr {i : Instr} {p q : VirtualReg → Prop} {v : VirtualReg}
    (h : i.ReadsFirst p v) (hpq : ∀ u, p u ↔ q u) : i.ReadsFirst q v := by
  obtain ⟨earlier, later, huses, hv, hearlier⟩ := h
  exact ⟨earlier, later, huses, (hpq v).not.mp hv, fun u hu => (hpq u).mp (hearlier u hu)⟩

/-- The registers written so far, before any instruction. -/
theorem written_nil {written : List VirtualReg} (u : VirtualReg) :
    u ∈ written ↔ u ∈ written ∨ WrittenIn [] u := by
  simp [WrittenIn]

/-- The registers written so far, and those that the next instruction writes. -/
theorem written_cons {written : List VirtualReg} {i : Instr} {before : List Instr}
    (u : VirtualReg) : u ∈ i.virtualDefs ++ written ∨ WrittenIn before u ↔
      u ∈ written ∨ WrittenIn (i :: before) u := by
  rw [List.mem_append, writtenIn_cons, Instr.virtualDefs, mem_filterMap_virt]
  exact or_assoc.trans or_left_comm

/-- The check stops at the first instruction that reads a register outside those written so
far, at the first such register. -/
theorem checkWrittenFrom_eq_error_iff {written : List VirtualReg} {code : List Instr}
    {e : CompileError} : checkWrittenFrom written code = .error e ↔
      ∃ v before i after, e = .unwritten v ∧ code = before ++ i :: after ∧
        checkWrittenFrom written before = .ok () ∧
        i.ReadsFirst (fun u => u ∈ written ∨ WrittenIn before u) v := by
  constructor
  · intro h
    induction code generalizing written with
    | nil => cases h
    | cons i rest ih =>
        rw [checkWrittenFrom] at h
        cases hfind : i.virtualUses.find? (!written.contains ·) with
        | some v =>
            rw [hfind] at h
            cases h
            exact ⟨v, [], i, rest, rfl, rfl, rfl, (find?_virtualUses.mp hfind).congr written_nil⟩
        | none =>
            rw [hfind] at h
            obtain ⟨v, before, j, after, rfl, rfl, hbefore, hj⟩ := ih h
            refine ⟨v, i :: before, j, after, rfl, rfl, ?_, hj.congr written_cons⟩
            rw [checkWrittenFrom, hfind]
            exact hbefore
  · rintro ⟨v, before, i, after, rfl, rfl, hbefore, hi⟩
    induction before generalizing written with
    | nil =>
        have hfind := find?_virtualUses.mpr (hi.congr fun u => (written_nil u).symm)
        rw [List.nil_append, checkWrittenFrom, hfind]
    | cons j before ih =>
        rw [checkWrittenFrom] at hbefore
        cases hfind : j.virtualUses.find? (!written.contains ·) with
        | some u =>
            rw [hfind] at hbefore
            cases hbefore
        | none =>
            rw [hfind] at hbefore
            rw [List.cons_append, checkWrittenFrom, hfind]
            exact ih hbefore (hi.congr fun u => (written_cons u).symm)

/-- Code that the check accepts reads no register that nothing above has written. -/
theorem not_readUnwritten_of_checkWritten {code : List Instr} (h : checkWritten code = .ok ())
    (v : VirtualReg) : ¬ReadUnwritten code v := by
  rintro ⟨before, i, after, rfl, hread, hbefore⟩
  have hi : (before ++ i :: after)[before.length]? = some i := by simp
  rcases checkWrittenFrom_spec h hi hread with hv | ⟨k, hk, j, hj, hd⟩
  · cases hv
  · rw [List.getElem?_append_left hk] at hj
    exact hbefore j (List.mem_of_getElem? hj) hd

theorem firstUnwritten_of_checkWritten {code : List Instr} {e : CompileError}
    (h : checkWritten code = .error e) : ∃ v, e = .unwritten v ∧ FirstUnwritten code v := by
  obtain ⟨v, before, i, after, he, hcode, hbefore, hi⟩ := checkWrittenFrom_eq_error_iff.mp h
  exact ⟨v, he, before, i, after, hcode, not_readUnwritten_of_checkWritten hbefore,
    hi.congr fun u => by simp⟩

theorem checkWritten_error {code : List Instr} {e : CompileError}
    (h : checkWritten code = .error e) : ∃ v, e = .unwritten v ∧ ReadUnwritten code v := by
  obtain ⟨v, he, hv⟩ := firstUnwritten_of_checkWritten h
  exact ⟨v, he, hv.readUnwritten⟩

/-- **The check refuses the first register that the code reads unwritten**, and nothing else. -/
theorem checkWritten_eq_error_iff {code : List Instr} {e : CompileError} :
    checkWritten code = .error e ↔ ∃ v, e = .unwritten v ∧ FirstUnwritten code v := by
  refine ⟨firstUnwritten_of_checkWritten, ?_⟩
  rintro ⟨v, rfl, before, i, after, rfl, hbefore, hi⟩
  refine checkWrittenFrom_eq_error_iff.mpr ⟨v, before, i, after, rfl, rfl, ?_,
    hi.congr fun u => by simp⟩
  cases hcheck : checkWrittenFrom [] before with
  | ok => rfl
  | error e =>
      obtain ⟨u, -, hu⟩ := checkWritten_error hcheck
      exact absurd hu (hbefore u)

/-! ## Homes for all registers -/

namespace Homes

variable {homes : Homes} {e : CompileError}

theorem slotted_ok {vs : List VirtualReg} (h : ∀ v ∈ vs, ∃ home, homes.lookup v = some home) :
    ∃ slots, homes.slotted vs = .ok slots := by
  induction vs with
  | nil => exact ⟨[], rfl⟩
  | cons v rest ih =>
      obtain ⟨⟨home, hhome⟩, hrest⟩ := List.forall_mem_cons.mp h
      obtain ⟨slots, hslots⟩ := ih hrest
      rw [slotted, hhome]
      cases home with
      | reg q => exact ⟨slots, hslots⟩
      | slot n => exact ⟨(v, n) :: slots, by rw [hslots]; rfl⟩

/-- An instruction is refused exactly if more of its registers live in slots than there are
scratch registers, with their number. -/
theorem house_of_slotted {i : Instr} {slots : List (VirtualReg × Nat)}
    (h : homes.slotted i.virtuals = .ok slots) : homes.house i = .error e ↔
      PhysReg.scratch.length < slots.length ∧ e = .outOfScratch i slots.length := by
  rw [house, visits, h]
  by_cases hmany : PhysReg.scratch.length < slots.length
  · simp only [bind, Except.bind, if_pos hmany, throw, throwThe, MonadExceptOf.throw]
    simp only [hmany, true_and, Except.error.injEq, eq_comm]
  · simp only [bind, Except.bind, if_neg hmany, pure, Except.pure]
    simp only [hmany, false_and, reduceCtorEq]

/-- An instruction whose registers all have homes is refused only if it has too many of them. -/
theorem error_of_house {i : Instr} (hhomes : ∀ v ∈ i.virtuals, ∃ home, homes.lookup v = some home)
    (h : homes.house i = .error e) :
    ∃ n, e = .outOfScratch i n ∧ PhysReg.scratch.length < n ∧ n ≤ i.virtuals.length := by
  obtain ⟨slots, hslots⟩ := slotted_ok hhomes
  obtain ⟨hmany, he⟩ := (house_of_slotted hslots).mp h
  have hsub := (slotted_spec hslots).2.1
  exact ⟨slots.length, he, hmany, by simpa using hsub.length_le⟩

end Homes

theorem exists_homeIn {code : List Instr} {v : VirtualReg} {pos : Nat}
    (h : Mentions code v pos) : ∃ home, (homesIn code).lookup v = some home := by
  obtain ⟨iv, hiv, -⟩ := Liveness.covers_of_mentions h
  have hmem : iv ∈ (Liveness.settled code).intervals := List.mem_of_find?_eq_some hiv
  have hreg : iv.reg = v := by simpa using List.find?_some hiv
  have hplaced : iv ∈ (Liveness.settled code).place.map Placement.interval := by
    rw [Liveness.place, Placement.map_interval_placeFrom]
    exact List.mem_mergeSort.mpr hmem
  obtain ⟨p, hp, hpiv⟩ := List.mem_map.mp hplaced
  cases hlookup : (homesIn code).lookup v with
  | some home => exact ⟨home, rfl⟩
  | none =>
      have hentry : (v, p.home) ∈ homesIn code :=
        List.mem_map.mpr ⟨p, hp, by rw [hpiv, hreg]⟩
      have hne := List.lookup_eq_none_iff.mp hlookup _ hentry
      simp at hne

/-! ## The allocators -/

/-- An instruction of the code has more registers than there are scratch registers. -/
def Crowded (code : List Instr) : Prop :=
  ∃ i ∈ code, PhysReg.scratch.length < i.virtuals.length

instance (code : List Instr) : Decidable (Crowded code) :=
  inferInstanceAs (Decidable (∃ i ∈ code, PhysReg.scratch.length < i.virtuals.length))

section
variable {code : List Instr} {e : CompileError}

theorem error_of_allocateSlots (h : allocateSlots code = .error e) :
    checkWritten code = .error e ∨ (∃ i n, e = .outOfScratch i n) ∧ Crowded code := by
  rw [allocateSlots] at h
  rcases Except.error_of_bind h with h | ⟨_, -, h⟩
  · exact Or.inl h
  rcases Except.error_of_bind h with h | ⟨blocks, -, h⟩
  · obtain ⟨i, hi, herror⟩ := Except.error_of_mapM h
    have hhomes (v) (hv : v ∈ i.virtuals) : ∃ home, (slotHomes code).lookup v = some home :=
      exists_home (mem_virtualsIn.mpr ⟨i, hi, hv⟩)
    obtain ⟨n, rfl, hmany, hn⟩ := Homes.error_of_house hhomes herror
    exact Or.inr ⟨⟨i, n, rfl⟩, i, hi, Nat.lt_of_lt_of_le hmany hn⟩
  · cases h

/-- Saving registers refuses nothing. -/
theorem error_of_housePlaced {placed : List Placement} {i : Instr} {pos : Nat}
    (h : housePlaced placed i pos = .error e) : (homesOf placed).house i = .error e := by
  rw [housePlaced] at h
  rcases Except.error_of_bind h with h | ⟨housed, -, h⟩
  · exact h
  · split at h <;> cases h

theorem error_of_allocateScan (h : allocateScan code = .error e) :
    checkWritten code = .error e ∨ (∃ i n, e = .outOfScratch i n) ∧ Crowded code := by
  rw [allocateScan] at h
  rcases Except.error_of_bind h with h | ⟨_, -, h⟩
  · exact Or.inl h
  rcases Except.error_of_bind h with h | ⟨blocks, -, h⟩
  · obtain ⟨⟨i, pos⟩, hi, herror⟩ := Except.error_of_mapM h
    have hget : code[pos]? = some i := by
      rw [List.mk_mem_zipIdx_iff_le_and_getElem?_sub] at hi
      simpa using hi.2
    have hhomes (v) (hv : v ∈ i.virtuals) : ∃ home, (homesIn code).lookup v = some home :=
      exists_homeIn ⟨i, hget, hv⟩
    obtain ⟨n, rfl, hmany, hn⟩ := Homes.error_of_house hhomes (error_of_housePlaced herror)
    exact Or.inr ⟨⟨i, n, rfl⟩, i, List.mem_of_getElem? hget, Nat.lt_of_lt_of_le hmany hn⟩
  · cases h

/-- **An allocator refuses code that the check refuses, or that has an instruction with more
registers than there are scratch registers**, and nothing else. -/
theorem Options.error_of_allocate {o : Options} (h : o.allocate code = .error e) :
    checkWritten code = .error e ∨ (∃ i n, e = .outOfScratch i n) ∧ Crowded code := by
  rw [allocate] at h
  cases halloc : o.allocator with
  | basic =>
      rw [halloc] at h
      exact error_of_allocateSlots h
  | linearScan =>
      rw [halloc] at h
      exact error_of_allocateScan h

/-- Code that the check accepts can be allocated, if it is not crowded. -/
theorem Options.exists_allocation (o : Options) (hcheck : (checkWritten code).isOk)
    (hroom : ¬Crowded code) : ∃ a, o.allocate code = .ok a := by
  cases h : o.allocate code with
  | ok a => exact ⟨a, rfl⟩
  | error e =>
      rcases Options.error_of_allocate h with h | ⟨-, h⟩
      · rw [h] at hcheck
        cases hcheck
      · exact absurd h hroom

end

end TreeBackend
