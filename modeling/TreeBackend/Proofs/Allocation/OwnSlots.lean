import TreeBackend.Allocation.SlotEach
import TreeBackend.Proofs.Allocation.Blocks
import TreeBackend.Proofs.Runs

/-!
# A slot for each register preserves meaning

`Spilled` is what holds of a run of the code and a run of what the plain allocator makes of it
each time control stands before an instruction, and at the end: the machines are alike, every
virtual register is found in its slot, and the registers of the machine other than the scratch
registers are where they were.  One instruction keeps it (`Spilled.step`), whatever the flow of
control, so every run does (`allocateSlots_simulates`).  No liveness comes in: a slot belongs to
one register from the first instruction to the last.

The offsets of slots are 32-bit words, so only `Frame.maxSlots` slots are cells of their own below
the frame pointer.  A frame with more loses words (`allocateSlots_pushFirst_of_eq`).
-/

namespace TreeBackend

variable {code : List Instr} {v u : VirtualReg}

/-! ## Slots of their own -/

theorem mem_virtualsIn : v ∈ virtualsIn code ↔ ∃ i ∈ code, v ∈ i.virtuals := by
  rw [virtualsIn, List.mem_eraseDups, List.mem_flatMap]

theorem length_slotHomes (code : List Instr) :
    (slotHomes code).length = (virtualsIn code).length := by
  simp [slotHomes]

/-- A home is the slot whose number is the place of the register among all. -/
theorem slot_of_lookup {home : Home} (h : (slotHomes code).lookup v = some home) :
    ∃ k, home = .slot (k + 1) ∧ (virtualsIn code)[k]? = some v := by
  obtain ⟨l₁, l₂, heq, -⟩ := List.lookup_eq_some_iff.mp h
  have hmem : (v, home) ∈ slotHomes code := by simp [heq]
  obtain ⟨⟨u, n⟩, hu, huv⟩ := List.mem_map.mp hmem
  cases huv
  obtain ⟨hn, -, hget⟩ := List.mem_zipIdx hu
  refine ⟨n - 1, by rw [Nat.sub_add_cancel hn], ?_⟩
  rw [hget]
  exact List.getElem?_eq_getElem _

theorem exists_home (hv : v ∈ virtualsIn code) : ∃ home, (slotHomes code).lookup v = some home := by
  cases h : (slotHomes code).lookup v with
  | some home => exact ⟨home, rfl⟩
  | none =>
      obtain ⟨k, hk, rfl⟩ := List.mem_iff_getElem.mp hv
      have hmem : ((virtualsIn code)[k], Home.slot (1 + k)) ∈ slotHomes code := by
        refine List.mem_map.mpr ⟨((virtualsIn code)[k], 1 + k), ?_, rfl⟩
        rw [List.mk_mem_zipIdx_iff_le_and_getElem?_sub, Nat.add_sub_cancel_left]
        exact ⟨Nat.le_add_right 1 k, List.getElem?_eq_getElem hk⟩
      have hne := List.lookup_eq_none_iff.mp h _ hmem
      simp at hne

/-- **Every register has a slot of its own.** -/
theorem exists_slot (hv : v ∈ virtualsIn code) :
    ∃ n, (slotHomes code).lookup v = some (.slot n) ∧ 0 < n ∧ n ≤ (virtualsIn code).length ∧
      ∀ u, (slotHomes code).lookup u = some (.slot n) → u = v := by
  obtain ⟨home, hhome⟩ := exists_home hv
  obtain ⟨k, rfl, hk⟩ := slot_of_lookup hhome
  have hlt := (List.getElem?_eq_some_iff.mp hk).1
  refine ⟨k + 1, hhome, Nat.succ_pos k, hlt, ?_⟩
  intro u hu
  obtain ⟨j, hj, hju⟩ := slot_of_lookup hu
  cases hj
  exact Option.some.inj (hju.symm.trans hk)

/-- What the allocator returns: code that has passed the check, each instruction on its homes. -/
theorem ok_of_allocateSlots {a : Allocation} (h : allocateSlots code = .ok a) :
    checkWritten code = .ok () ∧ ∃ blocks, code.mapM (slotHomes code).house = .ok blocks ∧
      a = { code := blocks.flatten, slots := (slotHomes code).length } := by
  rw [allocateSlots] at h
  obtain ⟨_, hcheck, h⟩ := Except.ok_of_bind h
  obtain ⟨blocks, hblocks, h⟩ := Except.ok_of_bind h
  cases h
  exact ⟨hcheck, blocks, hblocks, rfl⟩

/-- There is a block for each instruction, in their order. -/
theorem blocks_of_allocateSlots {a : Allocation} (h : allocateSlots code = .ok a) :
    ∃ blocks : List (List Annotated), a.code = blocks.flatten ∧
      a.slots = (virtualsIn code).length ∧ blocks.length = code.length ∧
      ∀ (pos : Nat) (i : Instr), code[pos]? = some i →
        ∃ block, blocks[pos]? = some block ∧ (slotHomes code).house i = .ok block := by
  obtain ⟨-, blocks, hblocks, rfl⟩ := ok_of_allocateSlots h
  obtain ⟨hlength, hget⟩ := Except.getElem?_of_mapM hblocks
  exact ⟨blocks, rfl, length_slotHomes code, hlength, hget⟩

/-! ## Machines with their registers spilled -/

/-- What holds each time control stands before an instruction. -/
structure Spilled (code : List Instr) (m m' : Machine) : Prop where
  alike : m.Alike m'
  slots : ∀ v ∈ virtualsIn code, AtHome (slotHomes code) m m' (.virt v)
  phys : ∀ q, q ∉ PhysReg.scratch → m'.regs (.phys q) = m.regs (.phys q)

/-- The machine with the virtual registers of the code in their slots. -/
def Machine.spill (m : Machine) (code : List Instr) : Machine :=
  { m with
    frame := fun o =>
      match ((virtualsIn code).zipIdx 1).find? fun e => Frame.slotOffset e.2 = o with
      | some (v, _) => m.regs (.virt v)
      | none => m.frame o }

section
variable (hslots : (virtualsIn code).length ≤ Frame.maxSlots)
include hslots

theorem sound_slotHomes (v : VirtualReg) (home : Home)
    (h : (slotHomes code).lookup v = some home) : home.Sound := by
  obtain ⟨k, rfl, hk⟩ := slot_of_lookup h
  have hlt := (List.getElem?_eq_some_iff.mp hk).1
  exact ⟨Nat.succ_pos k, by omega⟩

/-- Registers whose slots lie at the same offset are the same. -/
theorem eq_of_slotOffset {n k : Nat} (hv : (slotHomes code).lookup v = some (.slot n))
    (hu : (slotHomes code).lookup u = some (.slot k))
    (h : Frame.slotOffset n = Frame.slotOffset k) : v = u := by
  have hn := (sound_slotHomes hslots v _ hv).2
  have hk := (sound_slotHomes hslots u _ hu).2
  obtain rfl := Frame.slotOffset_inj hn hk h
  obtain ⟨j, hj, hjv⟩ := slot_of_lookup hv
  obtain ⟨j', hj', hju⟩ := slot_of_lookup hu
  cases hj
  cases hj'
  exact Option.some.inj (hjv.symm.trans hju)

/-- **Every state of the machine has one with its registers spilled.** -/
theorem spilled_spill (m : Machine) : Spilled code m (m.spill code) := by
  have hfound {v : VirtualReg} {n : Nat} (h : (v, n) ∈ (virtualsIn code).zipIdx 1) :
      0 < n ∧ n ≤ Frame.maxSlots ∧ (virtualsIn code)[n - 1]? = some v := by
    rw [List.mk_mem_zipIdx_iff_le_and_getElem?_sub] at h
    have hlt := (List.getElem?_eq_some_iff.mp h.2).1
    exact ⟨h.1, by omega, h.2⟩
  refine ⟨⟨rfl, ?_, rfl, rfl, rfl, rfl, rfl, rfl⟩, ?_, fun q _ => rfl⟩
  · intro o ho
    have hnone : ((virtualsIn code).zipIdx 1).find? (fun e => Frame.slotOffset e.2 = o) = none := by
      rw [List.find?_eq_none]
      rintro ⟨v, n⟩ h heq
      obtain ⟨hpos, hmax, -⟩ := hfound h
      rw [decide_eq_true_eq] at heq
      exact Frame.slotOffset_neg hpos hmax (heq ▸ ho)
    simp only [Machine.spill, hnone]
  · intro v hv
    obtain ⟨n, hn, hpos, hle, -⟩ := exists_slot hv
    refine ⟨.slot n, hn, ?_⟩
    obtain ⟨k, hk, hkv⟩ := slot_of_lookup hn
    cases hk
    have hmem : (v, k + 1) ∈ (virtualsIn code).zipIdx 1 := by
      rw [List.mk_mem_zipIdx_iff_le_and_getElem?_sub]
      exact ⟨hpos, hkv⟩
    cases hfind : ((virtualsIn code).zipIdx 1).find?
        fun e => Frame.slotOffset e.2 = Frame.slotOffset (k + 1) with
    | none =>
        have hne := List.find?_eq_none.mp hfind _ hmem
        simp at hne
    | some e =>
        obtain ⟨u, n⟩ := e
        obtain ⟨-, hmax, hu⟩ := hfound (List.mem_of_find?_eq_some hfind)
        have heq : Frame.slotOffset n = Frame.slotOffset (k + 1) := by
          simpa using List.find?_some hfind
        obtain rfl := Frame.slotOffset_inj hmax (by omega) heq
        rw [Nat.add_sub_cancel, hkv] at hu
        cases hu
        simp only [Home.word, Machine.spill, hfind]

/-! ## Simulation -/

variable {p : Platform} {m m' after : Machine} {i : Instr}

omit hslots in
/-- What an instruction reads is found at home. -/
theorem Spilled.reads (h : Spilled code m m') (hi : i ∈ code) (hplain : i.Plain) :
    ∀ x ∈ i.pieceReads, AtHome (slotHomes code) m m' x := by
  intro x hx
  cases x with
  | virt v =>
      refine h.slots v (mem_virtualsIn.mpr ⟨i, hi, Instr.mem_virtuals.mpr (.inl ?_)⟩)
      rcases Instr.reg_mem_reads hx with hread | ⟨-, hreg⟩
      · exact hread
      · cases hreg
  | low q => exact congrArg Word.low (h.phys q (hplain.not_scratch_of_reads hx rfl))
  | high q => exact congrArg Word.high (h.phys q (hplain.not_scratch_of_reads hx rfl))

/-- The slots hold the registers after an instruction: those written have been put back, and
the slot of another is no slot of theirs. -/
theorem Spilled.slots_after (h : Spilled code m m')
    (hcarried : Homes.Carried (slotHomes code) p i m m' after) :
    ∀ v ∈ virtualsIn code, AtHome (slotHomes code) (i.exec p m).2 after (.virt v) := by
  intro v hv
  by_cases hd : .virt v ∈ i.defs
  · exact hcarried.writes _ (Instr.mem_pieceWrites_virt.mpr hd)
  · obtain ⟨n, hn, hpos, hle, -⟩ := exists_slot hv
    obtain ⟨home, hhome, hword⟩ := h.slots v hv
    cases hn.symm.trans hhome
    refine ⟨.slot n, hn, ?_⟩
    have hkept : after.frame (Frame.slotOffset n) = m'.frame (Frame.slotOffset n) := by
      refine hcarried.slots _ (Frame.slotOffset_neg hpos (by omega)) ?_
      intro u k hu hk heq
      exact hd (eq_of_slotOffset hslots hn hk heq ▸ hu)
    exact (hkept.trans hword).trans (Instr.virt_exec hd).symm

omit hslots in
/-- The registers of the machine are where the instruction leaves them: no home is among them. -/
theorem Spilled.phys_after (h : Spilled code m m')
    (hcarried : Homes.Carried (slotHomes code) p i m m' after) :
    ∀ q, q ∉ PhysReg.scratch → after.regs (.phys q) = (i.exec p m).2.regs (.phys q) := by
  intro q hq
  cases hcall : i.isCall with
  | true => exact hcarried.called hcall q
  | false =>
      by_cases hsp : q = .esp
      · subst hsp
        exact hcarried.alike.stackPointer
      · refine Machine.regs_of_pieces (by intro hreg; cases hreg) ?_
        intro x hx
        have hreg := Piece.reg_of_mem hx
        by_cases hw : x ∈ i.pieceWrites
        · have hwritten := hcarried.writes x hw
          cases x with
          | virt v => cases hreg
          | low r => exact hwritten
          | high r => exact hwritten
        · have hsame : (i.exec p m).2.piece x = m.piece x := by
            refine Instr.piece_exec hcall ?_ hw
            rw [hreg]
            exact fun heq => hsp (Reg.phys.inj heq)
          have hkept : after.piece x = m'.piece x := by
            refine hcarried.pieces hcall x q hreg hq hsp hw ?_
            intro v hv hhome
            obtain ⟨k, hk, -⟩ := slot_of_lookup hhome
            cases hk
          rw [hkept, hsame]
          exact Machine.piece_of_regs (by rw [hreg]; exact h.phys q hq)

/-- **The block of an instruction does what the instruction does**, and leaves all registers
spilled. -/
theorem Spilled.step (hi : i ∈ code) (hplain : i.Plain) {block : List Annotated}
    (hblock : (slotHomes code).house i = .ok block) (h : Spilled code m m') :
    ∃ after, runAll p (block.map Annotated.instr) m' = ((i.exec p m).1, after) ∧
      Spilled code (i.exec p m).2 after := by
  obtain ⟨after, hrun, hcarried⟩ := Homes.house_follows (sound_slotHomes hslots) (p := p) hblock
    hplain h.alike fun _ => h.reads hi hplain
  exact ⟨after, hrun, hcarried.alike, h.slots_after hslots hcarried, h.phys_after hcarried⟩

end

/-- **A slot for each register preserves meaning, whatever the flow of control.**  Every virtual
register has a slot of the frame to itself.  From any state, and from any instruction, a run of
the code is followed by a run of what the allocator returns, instruction for instruction: with
the same calls, pushes and stores that others can see, with the same decisions at branches, to
the same end, with every virtual register in its slot and every other register where it was.

Offsets in the frame are 32-bit words, which is why the frame must hold the slots. -/
theorem allocateSlots_simulates {code : List Instr} {a : Allocation} (hcode : PlainCode code)
    (halloc : allocateSlots code = .ok a) (hslots : a.slots ≤ Frame.maxSlots) :
    (∀ v ∈ virtualsIn code, ∃ n, (slotHomes code).lookup v = some (.slot n) ∧ 0 < n ∧
      n ≤ a.slots ∧ ∀ u, (slotHomes code).lookup u = some (.slot n) → u = v) ∧
    (∀ init, Spilled code init (init.spill code)) ∧
    ∃ start : Nat → Nat, start 0 = 0 ∧ start code.length = a.code.length ∧
      ∀ (p : Platform) (pos : Nat) (init init' : Machine), Spilled code init init' →
        ∀ (n : Nat) (spot : Spot) (m : Machine), Steps p code n (.before pos, init) (spot, m) →
          ∃ n' m', n ≤ n' ∧
            Steps p (a.code.map Annotated.instr) n' (.before (start pos), init')
              (spot.shift start, m') ∧
            Spilled code m m' := by
  obtain ⟨blocks, hflat, hcount, hlength, hget⟩ := blocks_of_allocateSlots halloc
  rw [hcount] at hslots ⊢
  have hout : a.code.map Annotated.instr = (blocks.map (·.map Annotated.instr)).flatten := by
    rw [hflat, List.map_flatten]
  have haligned : Aligned code (blocks.map (·.map Annotated.instr)) := by
    refine .of_blocks hlength fun pos i hi => ?_
    obtain ⟨block, hblock, hhoused⟩ := hget pos i hi
    exact ⟨block, hblock, .house hhoused⟩
  refine ⟨fun v hv => exists_slot hv, spilled_spill hslots,
    blockStart (blocks.map (·.map Annotated.instr)), rfl, ?_, ?_⟩
  · rw [← haligned.length, blockStart, List.take_length, ← hout, List.length_map]
  · intro p pos init init' hinit n spot m hrun
    rw [hout]
    refine haligned.simulates (fun pos i hi => ?_) hrun hinit
    obtain ⟨block, hblock, hhoused⟩ := hget pos i hi
    refine ⟨block.map Annotated.instr, ?_, (BlockFor.house hhoused).ne_nil, ?_⟩
    · rw [List.getElem?_map, hblock, Option.map_some]
    · intro m m' h
      have hmem := List.mem_of_getElem? hi
      exact h.step hslots hmem (hcode.plain i hmem) hhoused

/-! ### A loop, a call and a store through three slots -/

/-- Fills three words with what a function returns. -/
def fillWords : List Instr :=
  [.mov (.reg (.temp "base")) (.mem (.frame (Frame.argumentOffset 0))),
   .mov (.reg (.temp "i")) (.imm 0),
   .jmp (.label "test"),
   .label "body",
   .call (.label "f"),
   .mov (.reg (.fresh 0)) (.phys .eax),
   .mov (.mem { base := some (.temp "base"), index := some (.temp "i") }) (.reg (.fresh 0)),
   .alu .add (.temp "i") (.imm 4),
   .label "test",
   .cmp (.reg (.temp "i")) (.imm 12),
   .jcc .ne "body"] ++ Instr.epilogue

theorem allocateSlots_fillWords : ∃ a, allocateSlots fillWords = .ok a ∧ a.slots = 3 :=
  ⟨_, rfl, rfl⟩

theorem allocateSlots_simulates_fillWords :
    PlainCode fillWords ∧ ∃ a, allocateSlots fillWords = .ok a ∧ a.slots ≤ Frame.maxSlots ∧
      ∃ start : Nat → Nat, start 0 = 0 ∧ start fillWords.length = a.code.length ∧
        ∀ (p : Platform) (init : Machine) (n : Nat) (spot : Spot) (m : Machine),
          Steps p fillWords n (.before 0, init) (spot, m) →
            ∃ n' m', n ≤ n' ∧
              Steps p (a.code.map Annotated.instr) n' (.before 0, init.spill fillWords)
                (spot.shift start, m') ∧
              Spilled fillWords m m' := by
  have hcode : PlainCode fillWords := by decide
  obtain ⟨a, halloc, hthree⟩ := allocateSlots_fillWords
  have hslots : a.slots ≤ Frame.maxSlots := by
    rw [hthree]
    decide
  obtain ⟨-, hspilled, start, hstart, hend, hfollows⟩ :=
    allocateSlots_simulates hcode halloc hslots
  refine ⟨hcode, a, halloc, hslots, start, hstart, hend, fun p init n spot m hrun => ?_⟩
  obtain ⟨n', m', hn, hsteps, hm⟩ := hfollows p 0 init _ (hspilled init) n spot m hrun
  rw [hstart] at hsteps
  exact ⟨n', m', hn, hsteps, hm⟩

/-! ### More registers than cells -/

theorem eraseDups_of_nodup {α : Type} [BEq α] [LawfulBEq α] {l : List α} (h : l.Nodup) :
    l.eraseDups = l := by
  induction l with
  | nil => rfl
  | cons a rest ih =>
      obtain ⟨ha, hrest⟩ := List.nodup_cons.mp h
      have hfilter : rest.filter (fun b => !b == a) = rest := by
        refine List.filter_eq_self.mpr fun b hb => ?_
        have hne : b ≠ a := fun heq => ha (heq ▸ hb)
        simpa using hne
      rw [List.eraseDups_cons, hfilter, ih hrest]

/-- Sets registers, the first to `1` and the others to `0`. -/
def setRegisters (n : Nat) : List Instr :=
  (List.range n).map fun k => .mov (.reg (.fresh k)) (.imm (if k = 0 then 1 else 0))

/-- Sets registers and pushes the first. -/
def pushFirst (n : Nat) : List Instr := setRegisters n ++ [.push (.reg (.fresh 0)), .ret]

section
variable {n k : Nat} {i : Instr}

theorem cases_of_mem_pushFirst (h : i ∈ pushFirst n) :
    (∃ k w, i = .mov (.reg (.fresh k)) (.imm w)) ∨ i = .push (.reg (.fresh 0)) ∨ i = .ret := by
  simp only [pushFirst, setRegisters, List.mem_append, List.mem_map, List.mem_cons,
    List.not_mem_nil, or_false] at h
  rcases h with ⟨k, -, rfl⟩ | h
  · exact .inl ⟨k, _, rfl⟩
  · exact .inr h

theorem plainCode_pushFirst (n : Nat) : PlainCode (pushFirst n) where
  plain i hi := by
    rcases cases_of_mem_pushFirst hi with ⟨k, w, rfl⟩ | rfl | rfl
    · refine ⟨?_, ?_, List.forall_mem_nil _⟩ <;> simp [Instr.regs, Operand.regs, Reg.fresh]
    · decide
    · decide
  framePointer pos i hi hd := by
    rcases cases_of_mem_pushFirst (List.mem_of_getElem? hi) with ⟨k, w, rfl⟩ | rfl | rfl
    · simp [Instr.defs, Reg.fresh] at hd
    · cases hd
    · cases hd

theorem virtualsIn_pushFirst (hn : 0 < n) :
    virtualsIn (pushFirst n) = (List.range n).map .fresh := by
  have hset : (setRegisters n).flatMap Instr.virtuals = (List.range n).map .fresh := by
    rw [setRegisters, List.flatMap_map, List.map_eq_flatMap]
    rfl
  have hnodup : ((List.range n).map VirtualReg.fresh).Nodup :=
    List.Pairwise.map _ (fun _ _ hne heq => hne (VirtualReg.fresh.inj heq)) List.nodup_range
  have hpush : [Instr.push (.reg (.fresh 0)), .ret].flatMap Instr.virtuals = [.fresh 0] := rfl
  have hzero : [VirtualReg.fresh 0].removeAll ((List.range n).map .fresh) = [] := by
    simp [List.removeAll, hn]
  rw [virtualsIn, pushFirst, List.flatMap_append, hset, hpush, List.eraseDups_append, hzero,
    eraseDups_of_nodup hnodup]
  exact List.append_nil _

/-- Each register of the code has the slot after its number. -/
theorem lookup_pushFirst (hk : k < n) :
    (slotHomes (pushFirst n)).lookup (.fresh k) = some (.slot (k + 1)) := by
  have hvirtuals := virtualsIn_pushFirst (Nat.zero_lt_of_lt hk)
  have hmem : .fresh k ∈ virtualsIn (pushFirst n) := by
    rw [hvirtuals]
    exact List.mem_map_of_mem (List.mem_range.mpr hk)
  obtain ⟨home, hhome⟩ := exists_home hmem
  obtain ⟨j, rfl, hj⟩ := slot_of_lookup hhome
  rw [hvirtuals, List.getElem?_map, Option.map_eq_some_iff] at hj
  obtain ⟨j', hj', heq⟩ := hj
  cases heq
  obtain ⟨_, rfl⟩ := List.getElem?_eq_some_iff.mp hj'
  rw [hhome, List.getElem_range]

/-- Code that reads only registers from a list passes the check after they have been written. -/
theorem checkWrittenFrom_of_subset {written : List VirtualReg} {code : List Instr}
    (h : ∀ i ∈ code, ∀ v ∈ i.virtualUses, v ∈ written) : checkWrittenFrom written code = .ok () := by
  induction code generalizing written with
  | nil => rfl
  | cons i rest ih =>
      obtain ⟨hi, hrest⟩ := List.forall_mem_cons.mp h
      have hnone : i.virtualUses.find? (!written.contains ·) = none :=
        List.find?_eq_none.mpr fun v hv => by simpa using hi v hv
      rw [checkWrittenFrom, hnone]
      exact ih fun j hj v hv => List.mem_append_right _ (hrest j hj v hv)

theorem checkWritten_pushFirst (hn : 0 < n) : checkWritten (pushFirst n) = .ok () := by
  obtain ⟨rest, hcode⟩ : ∃ rest, pushFirst n = .mov (.reg (.fresh 0)) (.imm 1) :: rest := by
    obtain ⟨m, rfl⟩ := Nat.exists_eq_succ_of_ne_zero (Nat.ne_zero_of_lt hn)
    rw [pushFirst, setRegisters, List.range_succ_eq_map]
    exact ⟨_, rfl⟩
  rw [hcode]
  refine @checkWrittenFrom_of_subset [.fresh 0] rest fun i hi v hv => ?_
  have hmem : i ∈ pushFirst n := hcode ▸ List.mem_cons_of_mem _ hi
  rcases cases_of_mem_pushFirst hmem with ⟨k, w, rfl⟩ | rfl | rfl
  · cases hv
  · exact hv
  · cases hv

end

section
variable {homes : Homes} {v : VirtualReg} {n : Nat}

/-- An instruction with one register, which lives in a slot, works on that slot alone. -/
theorem visits_single {i : Instr} (hi : i.virtuals = [v]) (h : homes.lookup v = some (.slot n)) :
    homes.visits i = .ok [{ reg := v, slot := n, scratch := .ecx }] := by
  rw [Homes.visits, hi, Homes.slotted, h]
  rfl

theorem house_set (h : homes.lookup v = some (.slot n)) (w : Int32) :
    homes.house (.mov (.reg (.virt v)) (.imm w)) = .ok [{ instr := .mov (.phys .ecx) (.imm w) },
      Visit.store { reg := v, slot := n, scratch := .ecx }] := by
  rw [Homes.house, visits_single rfl h]
  simp [pure, Except.pure, Instr.uses, Instr.reads, Operand.regs, Instr.defs, Instr.mapRegs,
    Operand.mapRegs, Operand.phys, Operand.isMem, Homes.place, h, bind, Except.bind]

theorem house_push (h : homes.lookup v = some (.slot n)) :
    homes.house (.push (.reg (.virt v))) = .ok [
      Visit.load { reg := v, slot := n, scratch := .ecx }, { instr := .push (.phys .ecx) }] := by
  rw [Homes.house, visits_single rfl h]
  simp [pure, Except.pure, Instr.uses, Instr.reads, Operand.regs, Instr.defs, Instr.mapRegs,
    Operand.mapRegs, Operand.phys, Homes.place, h, bind, Except.bind]

/-- What setting the registers comes to: each word goes into the slot after the number of its
register. -/
def setSlots (n : Nat) : List (List Annotated) :=
  (List.range n).map fun k => [{ instr := .mov (.phys .ecx) (.imm (if k = 0 then 1 else 0)) },
    Visit.store { reg := .fresh k, slot := k + 1, scratch := .ecx }]

/-- What setting the registers and pushing the first comes to. -/
def pushSlot (n : Nat) : List (List Annotated) :=
  setSlots n ++ [[Visit.load { reg := .fresh 0, slot := 1, scratch := .ecx },
    { instr := .push (.phys .ecx) }], [{ instr := .ret }]]

theorem mapM_house_pushFirst (hn : 0 < n)
    (h : ∀ k < n, homes.lookup (.fresh k) = some (.slot (k + 1))) :
    (pushFirst n).mapM homes.house = .ok (pushSlot n) := by
  have hset : (setRegisters n).mapM homes.house = .ok (setSlots n) := by
    rw [setRegisters, List.mapM_map]
    exact Except.mapM_ok fun k hk => house_set (h k (List.mem_range.mp hk)) _
  have hpush : [Instr.push (.reg (.fresh 0)), .ret].mapM homes.house = .ok _ :=
    Except.mapM_cons_ok (house_push (h 0 hn)) (Except.mapM_cons_ok rfl rfl)
  rw [pushFirst, List.mapM_append, Except.bind_ok hset, Except.bind_ok hpush]
  rfl

theorem allocateSlots_pushFirst (hn : 0 < n) :
    allocateSlots (pushFirst n) = .ok { code := (pushSlot n).flatten, slots := n } := by
  have hslots : (slotHomes (pushFirst n)).length = n := by
    rw [length_slotHomes, virtualsIn_pushFirst hn, List.length_map, List.length_range]
  rw [allocateSlots, Except.bind_ok (checkWritten_pushFirst hn),
    Except.bind_ok (mapM_house_pushFirst hn fun k => lookup_pushFirst), hslots]
  rfl

variable {p : Platform}

theorem runAll_setRegisters (n : Nat) (m : Machine) :
    ∃ m', runAll p (setRegisters n) m = (.next, m') ∧ (0 < n → m'.regs (.fresh 0) = 1) := by
  induction n with
  | zero => exact ⟨m, rfl, fun h => absurd h (Nat.lt_irrefl 0)⟩
  | succ n ih =>
      obtain ⟨m', hrun, hfirst⟩ := ih
      refine ⟨m'.set (.fresh n) (if n = 0 then 1 else 0), ?_, fun _ => ?_⟩
      · rw [setRegisters, List.range_succ, List.map_append, ← setRegisters, runAll_append hrun]
        rfl
      · by_cases hn : n = 0
        · rw [hn]
          exact Machine.regs_set_self _ _
        · rw [Machine.regs_set_of_ne _ _ (by simp [Reg.fresh, Ne.symm hn])]
          exact hfirst (Nat.pos_of_ne_zero hn)

theorem runAll_setSlots (n : Nat) (m : Machine) :
    ∃ m', runAll p ((setSlots n).flatten.map Annotated.instr) m = (.next, m') ∧
      (1 < n → m'.frame (Frame.slotOffset n) = 0) := by
  induction n with
  | zero => exact ⟨m, rfl, fun h => absurd h (by decide)⟩
  | succ n ih =>
      obtain ⟨m', hrun, -⟩ := ih
      have hsplit : (setSlots (n + 1)).flatten.map Annotated.instr =
          (setSlots n).flatten.map Annotated.instr ++
            [.mov (.phys .ecx) (.imm (if n = 0 then 1 else 0)),
              .storeFrame (Frame.slotOffset (n + 1)) .ecx] := by
        rw [setSlots, List.range_succ, List.map_append, ← setSlots, List.flatten_append,
          List.map_append]
        rfl
      refine ⟨_, (hsplit ▸ runAll_append hrun).trans rfl, fun hn => ?_⟩
      rw [if_neg (by omega : n ≠ 0)]
      exact assign_self _ _

/-- The code pushes what it has set the first register to, and what is made of it pushes what it
has set the last one to, if the slots of the two lie at the same offset. -/
theorem allocateSlots_pushFirst_of_eq (hn : 1 < n)
    (hsame : Frame.slotOffset n = Frame.slotOffset 1) :
    ∃ a, allocateSlots (pushFirst n) = .ok a ∧ ∀ (p : Platform) (init init' : Machine),
      (∃ count m, Steps p (pushFirst n) count (.before 0, init) (.ended .ret, m) ∧
        m.trace.getLast? = some (.push 1)) ∧
      ∃ count m, Steps p (a.code.map Annotated.instr) count (.before 0, init') (.ended .ret, m) ∧
        m.trace.getLast? = some (.push 0) := by
  refine ⟨_, allocateSlots_pushFirst (Nat.zero_lt_of_lt hn), fun p init init' => ⟨?_, ?_⟩⟩
  · obtain ⟨m, hrun, hfirst⟩ := runAll_setRegisters (p := p) n init
    have hall : runAll p (pushFirst n) init = (.ret, m.push (m.regs (.fresh 0))) :=
      (runAll_append hrun).trans rfl
    obtain ⟨count, hsteps⟩ := Steps.of_runAll (congrArg Prod.fst hall)
    refine ⟨count, _, hsteps, ?_⟩
    rw [hall, hfirst (Nat.zero_lt_of_lt hn)]
    exact List.getLast?_concat
  · obtain ⟨m, hrun, hlast⟩ := runAll_setSlots (p := p) n init'
    have hflat : (pushSlot n).flatten.map Annotated.instr =
        (setSlots n).flatten.map Annotated.instr ++
          [.loadFrame .ecx (Frame.slotOffset 1), .push (.phys .ecx), .ret] := by
      rw [pushSlot, List.flatten_append, List.map_append]
      rfl
    have hall : runAll p ((pushSlot n).flatten.map Annotated.instr) init' =
        (.ret, (m.set (.phys .ecx) (m.frame (Frame.slotOffset 1))).push
          (m.frame (Frame.slotOffset 1))) := by
      rw [hflat]
      exact (runAll_append hrun).trans rfl
    obtain ⟨count, hsteps⟩ := Steps.of_runAll (congrArg Prod.fst hall)
    refine ⟨count, _, hsteps, ?_⟩
    rw [hall, ← hsame, hlast hn]
    exact List.getLast?_concat

end

/-- Slot `2 ^ 30 + 1` lies where slot `1` does.  So a frame of as many slots keeps the last register
in the cell of the first, and a run pushes the one in place of the other, wherever it starts. -/
theorem allocateSlots_crowded : PlainCode (pushFirst 1073741825) ∧
    ∃ a, allocateSlots (pushFirst 1073741825) = .ok a ∧ ∀ (p : Platform) (init init' : Machine),
      (∃ n m, Steps p (pushFirst 1073741825) n (.before 0, init) (.ended .ret, m) ∧
        m.trace.getLast? = some (.push 1)) ∧
      ∃ n m, Steps p (a.code.map Annotated.instr) n (.before 0, init') (.ended .ret, m) ∧
        m.trace.getLast? = some (.push 0) :=
  ⟨plainCode_pushFirst _, allocateSlots_pushFirst_of_eq (by decide) (by decide)⟩

end TreeBackend
