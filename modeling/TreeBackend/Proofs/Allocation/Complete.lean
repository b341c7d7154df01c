import Mathlib.Data.List.Nodup
import TreeBackend.Proofs.Effects.Code

/-!
# Allocated code is complete and stays in its frame

What an allocator makes of an instruction is that instruction, with a machine register in the
place of each virtual one, and around it moves between machine registers and slots, each with a
note.  Three kinds of number could go wrong in it: a register that the instruction mentions could
be missing among those that are given one, two of them could be given the same one, and a move
could reach past the frame.

The registers that an instruction reads or writes are those it mentions (`Instr.mem_virtuals_iff`),
so none is missing.  Two registers of one instruction live in different registers of the machine,
because their intervals share its position, or stand in different scratch registers, or one stands
in a scratch register, where nothing lives (`Homes.putApart_of_house`).  Slots of homes and of
saves are numbered from one up to the size of the frame (`Options.blocks_of_allocate`).

* `allocate_complete`: **allocated code is complete and stays in its frame.**
-/

namespace TreeBackend

/-- The offset of a slot is four bytes below the frame pointer for each slot up to it. -/
theorem Frame.slotOffset_eq (k : Nat) : slotOffset k = Int32.ofInt (-4 * (k : Int)) := by
  have hk : Int32.ofNat k = Int32.ofInt (k : Int) := (Int32.ofInt_eq_ofNat).symm
  have h4 : Int32.ofInt (-4) = -wordBytes := rfl
  rw [slotOffset, hk, Int32.ofInt_mul, h4, Int32.neg_mul, Int32.neg_mul, Int32.mul_comm]

/-- A register with its virtual registers replaced by such of the machine. -/
def Reg.onto (f : VirtualReg → PhysReg) : Reg → Reg
  | .virt v => .phys (f v)
  | r => r

/-- The second instruction is the first with each virtual register replaced by one of the machine,
and different ones by different ones. -/
def Instr.PutApart (i j : Instr) : Prop :=
  ∃ f : VirtualReg → PhysReg, j = i.mapRegs (Reg.onto f) ∧
    ∀ v u, .virt v ∈ i.regs → .virt u ∈ i.regs → f v = f u → v = u

/-- A move between a register of the machine and one of the slots of a frame. -/
def Instr.MovesSlot (slots : Nat) (i : Instr) : Prop :=
  ∃ (q : PhysReg) (k : Nat), 1 ≤ k ∧ k ≤ slots ∧
    (i = .mov (.reg (.phys q)) (.mem (.frame (Int32.ofInt (-4 * (k : Int))))) ∨
      i = .mov (.mem (.frame (Int32.ofInt (-4 * (k : Int))))) (.reg (.phys q)))

theorem Instr.movesSlot_load {slots n : Nat} {q : PhysReg} (hpos : 0 < n) (hn : n ≤ slots) :
    (loadFrame q (Frame.slotOffset n)).MovesSlot slots :=
  ⟨q, n, hpos, hn, .inl (by rw [← Frame.slotOffset_eq]; rfl)⟩

theorem Instr.movesSlot_store {slots n : Nat} {q : PhysReg} (hpos : 0 < n) (hn : n ≤ slots) :
    (storeFrame (Frame.slotOffset n) q).MovesSlot slots :=
  ⟨q, n, hpos, hn, .inr (by rw [← Frame.slotOffset_eq]; rfl)⟩

theorem Instr.MovesSlot.isAllocated {slots : Nat} {i : Instr} (h : i.MovesSlot slots) :
    i.isAllocated := by
  obtain ⟨q, k, -, -, rfl | rfl⟩ := h <;> rfl

theorem Instr.PutApart.isAllocated {i j : Instr} (h : i.PutApart j) (hdest : .dest ∉ i.regs) :
    j.isAllocated := by
  obtain ⟨f, rfl, -⟩ := h
  rw [Instr.isAllocated, Instr.regs_mapRegs, List.all_map, List.all_eq_true]
  intro r hr
  cases r with
  | dest => exact absurd hr hdest
  | _ => rfl

/-! ## The block of an instruction -/

/-- What the block of an instruction has: the instruction on registers of the machine, and moves
between these and the slots of the frame, with notes. -/
structure Instr.BlockIn (slots : Nat) (i : Instr) (block : List Annotated) : Prop where
  kept : ∃ j, Annotated.kept block = [j] ∧ i.PutApart j
  added : ∀ b ∈ block, b.note.isSome → b.instr.MovesSlot slots

namespace Homes

variable {homes : Homes} {i : Instr} {block : List Annotated} {slots : Nat}

/-- Homes at one instruction: registers of the machine that may hold values and that no two of its
registers share, or slots of the frame. -/
structure Apart (homes : Homes) (slots : Nat) (i : Instr) : Prop where
  reg : ∀ v q, homes.lookup v = some (.reg q) → q ∈ PhysReg.allocatable
  slot : ∀ v n, homes.lookup v = some (.slot n) → 0 < n ∧ n ≤ slots
  apart : ∀ v ∈ i.virtuals, ∀ u ∈ i.virtuals, ∀ q, homes.lookup v = some (.reg q) →
    homes.lookup u = some (.reg q) → v = u

/-- **The registers of an instruction are put in different registers of the machine.** -/
theorem Apart.place_inj (h : Apart homes slots i) {visits : List Visit}
    (hvisited : Visited homes i visits) {v u : VirtualReg} (hv : v ∈ i.virtuals)
    (hu : u ∈ i.virtuals) (heq : homes.place visits (.virt v) = homes.place visits (.virt u)) :
    v = u := by
  obtain ⟨home, hhome⟩ := hvisited.housed v hv
  obtain ⟨other, hother⟩ := hvisited.housed u hu
  -- What lives in a register of the machine is in none of the scratch registers.
  have hscratch {x y : VirtualReg} {q : PhysReg} {n : Nat} (hx : homes.lookup x = some (.reg q))
      (hy : y ∈ i.virtuals) (hyn : homes.lookup y = some (.slot n)) :
      homes.place visits (.virt x) ≠ homes.place visits (.virt y) := by
    obtain ⟨w, hw, -, -, hplace⟩ := hvisited.place_slot hy hyn
    rw [place_reg hx, hplace]
    intro hsame
    injection hsame with hsame
    exact (not_scratch_of_allocatable (h.reg x q hx)).1 (hsame ▸ hvisited.scratch w hw)
  cases home with
  | reg q =>
      cases other with
      | reg q' =>
          rw [place_reg hhome, place_reg hother] at heq
          injection heq with heq
          subst heq
          exact h.apart v hv u hu q hhome hother
      | slot n => exact absurd heq (hscratch hhome hu hother)
  | slot n =>
      cases other with
      | reg q => exact absurd heq.symm (hscratch hother hv hhome)
      | slot n' =>
          obtain ⟨w, hw, rfl, -, hplace⟩ := hvisited.place_slot hv hhome
          obtain ⟨w', hw', rfl, -, hplace'⟩ := hvisited.place_slot hu hother
          rw [hplace, hplace'] at heq
          injection heq with heq
          rw [List.inj_on_of_nodup_map hvisited.scratches hw hw' heq]

/-- The instruction of a block is the one it stands for, on registers of the machine that are
apart. -/
theorem Apart.putApart (h : Apart homes slots i) {visits : List Visit}
    (hvisited : Visited homes i visits) : i.PutApart (i.mapRegs (homes.place visits)) := by
  have hplace (v : VirtualReg) (hv : .virt v ∈ i.regs) : homes.place visits (.virt v) =
      .phys ((homes.place visits (.virt v)).phys?.getD .eax) := by
    obtain ⟨q, hq, -⟩ := (hvisited.renames h.reg).virt v (Instr.mem_virtuals_of_regs hv)
    rw [hq]
    rfl
  refine ⟨fun v => (homes.place visits (.virt v)).phys?.getD .eax, i.mapRegs_congr ?_, ?_⟩
  · intro r hr
    cases r with
    | virt v => exact hplace v hr
    | _ => rfl
  · intro v u hv hu heq
    refine h.place_inj hvisited (Instr.mem_virtuals_of_regs hv) (Instr.mem_virtuals_of_regs hu) ?_
    rw [hplace v hv, hplace u hu]
    exact congrArg Reg.phys heq

theorem Apart.blockIn (h : Apart homes slots i) (hhouse : homes.house i = .ok block) :
    i.BlockIn slots block := by
  obtain ⟨visits, hvisited, hkept⟩ := kept_house hhouse
  refine ⟨⟨_, hkept, h.putApart hvisited⟩, ?_⟩
  obtain ⟨visits, hvisits, rfl⟩ := ok_of_house hhouse
  have hslot (w : Visit) (hw : w ∈ visits) : 0 < w.slot ∧ w.slot ≤ slots :=
    h.slot w.reg w.slot ((visited_of_visits hvisits).slot w hw)
  intro b hb hnote
  rcases List.mem_append.mp hb with hb | hb
  · obtain ⟨w, hw, rfl⟩ := List.mem_map.mp hb
    obtain ⟨hpos, hle⟩ := hslot w (List.mem_filter.mp hw).1
    exact Instr.movesSlot_load hpos hle
  rcases List.mem_cons.mp hb with rfl | hb
  · cases hnote
  · obtain ⟨w, hw, rfl⟩ := List.mem_map.mp hb
    obtain ⟨hpos, hle⟩ := hslot w (List.mem_filter.mp hw).1
    exact Instr.movesSlot_store hpos hle

end Homes

/-- Saves around a block leave it what it is, if the frame has room for them. -/
theorem Instr.BlockIn.housePlaced {placed : List Placement} {i : Instr} {pos slots : Nat}
    {block : List Annotated} (h : housePlaced placed i pos = .ok block)
    (hapart : Homes.Apart (homesOf placed) slots i)
    (hroom : i.isCall = true → slotsOf placed + (savedAt placed pos).length ≤ slots) :
    i.BlockIn slots block := by
  obtain ⟨housed, hhoused, ⟨-, rfl⟩ | ⟨hcall, rfl⟩⟩ := ok_of_housePlaced h
  · exact hapart.blockIn hhoused
  have hblock := hapart.blockIn hhoused
  have hslot (s : Save) (hs : s ∈ savesAt placed pos) : 0 < s.slot ∧ s.slot ≤ slots := by
    obtain ⟨hlow, hhigh⟩ := slot_of_mem_savesAt hs
    have hfits := hroom hcall
    omega
  refine ⟨by rw [Annotated.kept_saves]; exact hblock.kept, ?_⟩
  refine List.forall_mem_append.mpr ⟨List.forall_mem_append.mpr ⟨?_, hblock.added⟩, ?_⟩
  · refine List.forall_mem_map.mpr ?_
    intro s hs _
    exact Instr.movesSlot_store (hslot s hs).1 (hslot s hs).2
  · refine List.forall_mem_map.mpr ?_
    intro s hs _
    exact Instr.movesSlot_load (hslot s hs).1 (hslot s hs).2

/-! ## The blocks of the code -/

section
variable {code : List Instr} {i : Instr} {pos : Nat}

/-- The plain allocator keeps all registers apart. -/
theorem apart_slotHomes (i : Instr) :
    Homes.Apart (slotHomes code) (virtualsIn code).length i where
  reg v q hv := by
    obtain ⟨k, hk, -⟩ := slot_of_lookup hv
    cases hk
  slot v n hv := by
    obtain ⟨k, hk, hkv⟩ := slot_of_lookup hv
    cases hk
    exact ⟨Nat.succ_pos k, (List.getElem?_eq_some_iff.mp hkv).1⟩
  apart v _ u _ q hv _ := by
    obtain ⟨k, hk, -⟩ := slot_of_lookup hv
    cases hk

/-- The scan keeps the registers of an instruction apart: their intervals share its position. -/
theorem apart_homesIn (hi : code[pos]? = some i) {slots : Nat}
    (hslots : slotsOf (Liveness.settled code).place ≤ slots) :
    Homes.Apart (homesIn code) slots i where
  reg v q hv := Liveness.home_reg (Liveness.nodup_settled code) hv
  slot v n hv := by
    obtain ⟨hpos, hn⟩ := Liveness.home_slot (Liveness.nodup_settled code) hv
    omega
  apart v hv u hu q hvq huq := by
    by_contra hne
    exact Liveness.home_ne (Liveness.nodup_settled code) hvq huq hne
      (Liveness.covers_of_mentions ⟨i, hi, hv⟩) (Liveness.covers_of_mentions ⟨i, hi, hu⟩) rfl

end

/-- **An allocator makes a block for each instruction, and its moves stay in the frame.** -/
theorem Options.blocks_of_allocate {o : Options} {code : List Instr} {a : Allocation}
    (h : o.allocate code = .ok a) : ∃ blocks : List (List Annotated), a.code = blocks.flatten ∧
      List.Forall₂ (Instr.BlockIn a.slots) code blocks := by
  rw [allocate] at h
  cases halloc : o.allocator with
  | basic =>
      rw [halloc] at h
      obtain ⟨blocks, hflat, hslots, hlength, hget⟩ := blocks_of_allocateSlots h
      refine ⟨blocks, hflat, forall₂_of_getElem? hlength ?_⟩
      intro pos i hi
      obtain ⟨block, hblock, hhoused⟩ := hget pos i hi
      rw [hslots]
      exact ⟨block, hblock, (apart_slotHomes i).blockIn hhoused⟩
  | linearScan =>
      rw [halloc] at h
      obtain ⟨-, blocks, hflat, hslots, hlength, hget⟩ := blocks_of_allocateScan h
      refine ⟨blocks, hflat, forall₂_of_getElem? hlength ?_⟩
      intro pos i hi
      obtain ⟨block, hblock, hhoused⟩ := hget pos i hi
      refine ⟨block, hblock, .housePlaced hhoused (apart_homesIn hi (by omega)) ?_⟩
      intro hcall
      have hsaved : (savedAt (Liveness.settled code).place pos).length ≤
          mostSaved (Liveness.settled code).place code := length_savedAt_le hi hcall
      omega

/-- **Allocated code is complete and stays in its frame.**  Each instruction of it is one of the
machine.  What the allocator adds are moves between a machine register and a slot of the frame.
What it keeps are the instructions of the code, in order, with a machine register for each virtual
one and different ones for different ones.

Slots go by their numbers here.  Offsets in the frame are 32-bit words, so that slots are cells of
their own only up to `Frame.maxSlots`. -/
theorem allocate_complete {o : Options} {code : List Instr} {a : Allocation}
    (hdest : ∀ i ∈ code, .dest ∉ i.regs) (h : o.allocate code = .ok a) :
    (∀ b ∈ a.code, b.instr.isAllocated) ∧
      (∀ b ∈ a.code, b.note.isSome → b.instr.MovesSlot a.slots) ∧
      List.Forall₂ Instr.PutApart code (Annotated.kept a.code) := by
  obtain ⟨blocks, hflat, hblocks⟩ := Options.blocks_of_allocate h
  have hkept : List.Forall₂ Instr.PutApart code (Annotated.kept a.code) := by
    rw [hflat]
    exact Annotated.forall₂_kept_flatten (hblocks.imp fun _ _ => Instr.BlockIn.kept)
  have hadded : ∀ b ∈ a.code, b.note.isSome → b.instr.MovesSlot a.slots := by
    rw [hflat]
    intro b hb
    obtain ⟨block, hmem, hb⟩ := List.mem_flatten.mp hb
    obtain ⟨i, -, hin⟩ := exists_of_forall₂ hblocks hmem
    exact hin.added b hb
  refine ⟨?_, hadded, hkept⟩
  intro b hb
  cases hnote : b.note with
  | some note => exact (hadded b hb (by rw [hnote]; rfl)).isAllocated
  | none =>
      have hmem : b.instr ∈ Annotated.kept a.code :=
        List.mem_map_of_mem (List.mem_filter.mpr ⟨hb, by rw [hnote]; rfl⟩)
      obtain ⟨i, hi, hapart⟩ := exists_of_forall₂ hkept hmem
      exact hapart.isAllocated (hdest i hi)

/-- Four values that are in use across a call, and then its result besides: two of the five live in
registers of the machine, three in slots. -/
def fourAcross : List Instr :=
  [.mov (.reg (.temp "a")) (.imm 1), .mov (.reg (.temp "b")) (.imm 2),
   .mov (.reg (.temp "c")) (.imm 3), .mov (.reg (.temp "d")) (.imm 4),
   .call (.label "f"),
   .mov (.reg (.fresh 0)) (.phys .eax),
   .alu .add (.temp "a") (.reg (.temp "b")),
   .alu .add (.temp "c") (.reg (.temp "d")),
   .alu .add (.temp "a") (.reg (.temp "c")),
   .alu .add (.temp "a") (.reg (.fresh 0)),
   .mov (.phys .eax) (.reg (.temp "a"))] ++ Instr.epilogue

theorem place_fourAcross : (Liveness.settled fourAcross).place =
    Placement.placeFrom (Liveness.ofCode fourAcross) [] (Liveness.ofCode fourAcross).intervals := by
  have hsettled : Liveness.settled fourAcross = Liveness.ofCode fourAcross :=
    Liveness.settled_of_still (by decide)
  rw [hsettled, Liveness.place_of_sorted (by decide)]

/-- Three slots are homes, and two are for the registers that are saved around the call. -/
theorem allocateScan_fourAcross : ∃ a, allocateScan fourAcross = .ok a ∧ a.slots = 5 := by
  unfold allocateScan
  rw [show checkWritten fourAcross = .ok () from rfl, place_fourAcross]
  exact ⟨_, rfl, rfl⟩

theorem allocate_complete_fourAcross : ∃ a, Options.allocate {} fourAcross = .ok a ∧
    a.slots = 5 ∧ (∀ i ∈ fourAcross, .dest ∉ i.regs) ∧ (∀ b ∈ a.code, b.instr.isAllocated) ∧
      (∀ b ∈ a.code, b.note.isSome → b.instr.MovesSlot 5) ∧
      List.Forall₂ Instr.PutApart fourAcross (Annotated.kept a.code) := by
  obtain ⟨a, ha, hfive⟩ := allocateScan_fourAcross
  have hdest : ∀ i ∈ fourAcross, .dest ∉ i.regs := by decide
  have hcomplete := allocate_complete (o := {}) hdest ha
  rw [hfive] at hcomplete
  exact ⟨a, ha, hfive, hdest, hcomplete⟩

end TreeBackend
