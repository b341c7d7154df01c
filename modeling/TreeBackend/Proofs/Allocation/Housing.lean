import TreeBackend.Allocation.Home
import TreeBackend.Proofs.Runs
import TreeBackend.Proofs.Semantics.Renaming

/-!
# Running an instruction on its homes

`Homes.house` surrounds an instruction with moves between slots and scratch registers.
`AtHome` says that a machine finds a piece of another machine in its home.  If all that
an instruction reads is kept, the code that `Homes.house` makes of it does what the
instruction does, keeps what the instruction writes, and touches no other home:
`Homes.house_follows`.
-/

namespace TreeBackend

/-! ## Slots -/

namespace Frame

/-- As many slots as have offsets below the frame pointer. -/
def maxSlots : Nat := 536870912

variable {n k : Nat}

theorem toInt_slotOffset (h : n ≤ maxSlots) : (slotOffset n).toInt = -4 * (n : Int) := by
  have hn : (n : Int) ≤ 536870912 := by
    have : n ≤ 536870912 := h
    omega
  have hof : (Int32.ofNat n).toInt = n := by
    rw [Int32.toInt_ofNat']
    simp only [Int.bmod, Int32.size]
    omega
  rw [slotOffset, Int32.toInt_mul, Int32.toInt_neg, hof, wordBytes]
  simp only [Int.bmod]
  have h4 : (4 : Int32).toInt = 4 := rfl
  rw [h4]
  omega

/-- Slots lie below the frame pointer. -/
theorem slotOffset_neg (hpos : 0 < n) (h : n ≤ maxSlots) : ¬0 ≤ slotOffset n := by
  rw [Int32.le_iff_toInt_le, toInt_slotOffset h]
  have h0 : (0 : Int32).toInt = 0 := rfl
  omega

/-- Different slots lie at different offsets. -/
theorem slotOffset_inj (hn : n ≤ maxSlots) (hk : k ≤ maxSlots) (h : slotOffset n = slotOffset k) :
    n = k := by
  have heq := congrArg Int32.toInt h
  rw [toInt_slotOffset hn, toInt_slotOffset hk] at heq
  omega

end Frame

/-- A machine register and a slot that a word is moved between. -/
abbrev Transfer := PhysReg × Nat

namespace Transfer

/-- Fetches the slot into the register. -/
def fetch (t : Transfer) : Instr := .loadFrame t.1 (Frame.slotOffset t.2)

/-- Puts the register into the slot. -/
def put (t : Transfer) : Instr := .storeFrame (Frame.slotOffset t.2) t.1

variable {p : Platform}

theorem exec_fetch (t : Transfer) (m : Machine) :
    t.fetch.exec p m = (.next, m.set (.phys t.1) (m.frame (Frame.slotOffset t.2))) := rfl

/-- A list of fetches sets its registers. -/
theorem runAll_fetch (ts : List Transfer) (hnodup : (ts.map Prod.fst).Nodup) (m : Machine) :
    ∃ regs, runAll p (ts.map fetch) m = (.next, { m with regs := regs }) ∧
      (∀ t ∈ ts, regs (.phys t.1) = m.frame (Frame.slotOffset t.2)) ∧
      ∀ r, (∀ t ∈ ts, r ≠ .phys t.1) → regs r = m.regs r := by
  induction ts generalizing m with
  | nil => exact ⟨m.regs, rfl, List.forall_mem_nil _, fun _ _ => rfl⟩
  | cons t rest ih =>
      rw [List.map_cons, List.nodup_cons] at hnodup
      obtain ⟨regs, hrun, hset, hother⟩ :=
        ih hnodup.2 (m.set (.phys t.1) (m.frame (Frame.slotOffset t.2)))
      refine ⟨regs, ?_, ?_, ?_⟩
      · rw [List.map_cons, runAll_cons (exec_fetch t m), hrun]
        rfl
      · intro u hu
        rcases List.mem_cons.mp hu with rfl | hu
        · have hnot : ∀ w ∈ rest, Reg.phys u.1 ≠ .phys w.1 := by
            intro w hw heq
            injection heq with heq
            exact hnodup.1 (heq ▸ List.mem_map_of_mem hw)
          rw [hother _ hnot, Machine.regs_set_self]
        · exact hset u hu
      · intro r hr
        rw [hother r fun w hw => hr w (List.mem_cons_of_mem _ hw),
          Machine.regs_set_of_ne _ _ (hr t List.mem_cons_self)]

theorem exec_put {t : Transfer} (h : ¬0 ≤ Frame.slotOffset t.2) (m : Machine) :
    t.put.exec p m =
      (.next, { m with frame := assign m.frame (Frame.slotOffset t.2) (m.regs (.phys t.1)) }) := by
  have hvisible : (Cell.frame (Frame.slotOffset t.2)).isVisible = false := by
    simp only [Cell.isVisible, decide_eq_false_iff_not]
    exact h
  have hcell : m.cell (.frame (Frame.slotOffset t.2)) = .frame (Frame.slotOffset t.2) := rfl
  rw [put, Instr.storeFrame, Instr.exec, hcell, Machine.poke, hvisible]
  simp only [Bool.false_eq_true, if_false, List.append_nil]
  rfl

/-- A list of puts sets its slots. -/
theorem runAll_put (ts : List Transfer)
    (hnodup : (ts.map fun t => Frame.slotOffset t.2).Nodup)
    (hneg : ∀ t ∈ ts, ¬0 ≤ Frame.slotOffset t.2) (m : Machine) :
    ∃ frame, runAll p (ts.map put) m = (.next, { m with frame := frame }) ∧
      (∀ t ∈ ts, frame (Frame.slotOffset t.2) = m.regs (.phys t.1)) ∧
      ∀ o, (∀ t ∈ ts, o ≠ Frame.slotOffset t.2) → frame o = m.frame o := by
  induction ts generalizing m with
  | nil => exact ⟨m.frame, rfl, List.forall_mem_nil _, fun _ _ => rfl⟩
  | cons t rest ih =>
      rw [List.map_cons, List.nodup_cons] at hnodup
      obtain ⟨frame, hrun, hset, hother⟩ :=
        ih hnodup.2 (fun u hu => hneg u (List.mem_cons_of_mem _ hu))
          { m with frame := assign m.frame (Frame.slotOffset t.2) (m.regs (.phys t.1)) }
      refine ⟨frame, ?_, ?_, ?_⟩
      · rw [List.map_cons, runAll_cons (exec_put (hneg t List.mem_cons_self) m), hrun]
      · intro u hu
        rcases List.mem_cons.mp hu with rfl | hu
        · have hnot : ∀ w ∈ rest, Frame.slotOffset u.2 ≠ Frame.slotOffset w.2 := by
            intro w hw heq
            exact hnodup.1 (List.mem_map.mpr ⟨w, hw, heq.symm⟩)
          rw [hother _ hnot]
          exact assign_self _ _
        · exact hset u hu
      · intro o ho
        rw [hother o fun w hw => ho w (List.mem_cons_of_mem _ hw)]
        exact assign_of_ne _ _ (ho t List.mem_cons_self)

end Transfer

/-! ## Homes -/

/-- The word that a home holds. -/
def Home.word (m : Machine) : Home → Word
  | reg q => m.regs (.phys q)
  | slot n => m.frame (Frame.slotOffset n)

/-- A home that an allocator may give: a register that may hold values, or a slot below
the frame pointer. -/
def Home.Sound : Home → Prop
  | reg q => q ∈ PhysReg.allocatable
  | slot n => 0 < n ∧ n ≤ Frame.maxSlots

/-- The second machine finds a piece of the first in its home, or, if it is one of a
machine register, where it was. -/
def AtHome (homes : Homes) (m m' : Machine) : Piece → Prop
  | .virt v => ∃ h, homes.lookup v = some h ∧ h.word m' = m.regs (.virt v)
  | x => m'.piece x = m.piece x

/-- The transfer of a slot that an instruction works on. -/
def Visit.transfer (w : Visit) : Transfer := (w.scratch, w.slot)

namespace Homes

variable {homes : Homes} {i : Instr} {visits : List Visit}

theorem slotted_spec {vs : List VirtualReg} {slots : List (VirtualReg × Nat)}
    (h : homes.slotted vs = .ok slots) :
    (∀ v ∈ vs, ∃ home, homes.lookup v = some home) ∧ (slots.map Prod.fst).Sublist vs ∧
      (∀ s ∈ slots, homes.lookup s.1 = some (.slot s.2)) ∧
      ∀ v ∈ vs, ∀ n, homes.lookup v = some (.slot n) → (v, n) ∈ slots := by
  induction vs generalizing slots with
  | nil =>
      cases h
      exact ⟨List.forall_mem_nil _, .slnil, List.forall_mem_nil _, List.forall_mem_nil _⟩
  | cons v rest ih =>
      rw [slotted] at h
      cases hv : homes.lookup v with
      | none =>
          rw [hv] at h
          cases h
      | some home =>
          rw [hv] at h
          cases home with
          | reg q =>
              obtain ⟨hall, hsub, hslots, hmem⟩ := ih h
              refine ⟨List.forall_mem_cons.mpr ⟨⟨_, hv⟩, hall⟩, hsub.cons v, hslots, ?_⟩
              intro u hu n hn
              rcases List.mem_cons.mp hu with rfl | hu
              · rw [hv] at hn
                cases hn
              · exact hmem u hu n hn
          | slot k =>
              cases hrest : homes.slotted rest with
              | error e =>
                  simp only [hrest] at h
                  cases h
              | ok more =>
                  simp only [hrest] at h
                  cases h
                  obtain ⟨hall, hsub, hslots, hmem⟩ := ih hrest
                  refine ⟨List.forall_mem_cons.mpr ⟨⟨_, hv⟩, hall⟩, hsub.cons_cons v,
                    List.forall_mem_cons.mpr ⟨hv, hslots⟩, ?_⟩
                  intro u hu n hn
                  rcases List.mem_cons.mp hu with rfl | hu
                  · rw [hv] at hn
                    cases hn
                    exact List.mem_cons_self
                  · exact List.mem_cons_of_mem _ (hmem u hu n hn)

/-- What the visits of an instruction are like. -/
structure Visited (homes : Homes) (i : Instr) (visits : List Visit) : Prop where
  housed : ∀ v ∈ i.virtuals, ∃ home, homes.lookup v = some home
  regs : (visits.map Visit.reg).Nodup
  scratches : (visits.map Visit.scratch).Nodup
  scratch : ∀ w ∈ visits, w.scratch ∈ PhysReg.scratch
  slot : ∀ w ∈ visits, homes.lookup w.reg = some (.slot w.slot)
  visited : ∀ v ∈ i.virtuals, ∀ n, homes.lookup v = some (.slot n) → ∃ w ∈ visits, w.reg = v

theorem nodup_eraseDups {α : Type} [BEq α] [LawfulBEq α] (l : List α) : l.eraseDups.Nodup := by
  induction h : l.length using Nat.strongRecOn generalizing l with
  | ind n ih =>
      cases l with
      | nil => exact List.nodup_nil
      | cons a rest =>
          rw [List.eraseDups_cons, List.nodup_cons]
          refine ⟨by simp, ih _ ?_ _ rfl⟩
          have hle := List.length_filter_le (fun b => !b == a) rest
          rw [List.length_cons] at h
          omega

theorem map_snd_zip_sublist {α β : Type} (as : List α) (bs : List β) :
    ((as.zip bs).map Prod.snd).Sublist bs := by
  induction as generalizing bs with
  | nil => exact List.nil_sublist _
  | cons a rest ih =>
      cases bs with
      | nil => exact .slnil
      | cons b bs => exact (ih bs).cons_cons b

theorem visited_of_visits (h : homes.visits i = .ok visits) : Visited homes i visits := by
  rw [Homes.visits] at h
  cases hs : homes.slotted i.virtuals with
  | error e =>
      rw [hs] at h
      cases h
  | ok slots =>
      rw [hs] at h
      simp only [bind, Except.bind] at h
      split at h
      · cases h
      · rename_i hlen
        cases h
        obtain ⟨hall, hsub, hslots, hmem⟩ := slotted_spec hs
        have hfst : (slots.zip PhysReg.scratch).map Prod.fst = slots :=
          List.map_fst_zip (Nat.le_of_not_lt hlen)
        have hzip : slots.zipWith (fun s p => ({ reg := s.1, slot := s.2, scratch := p } : Visit))
            PhysReg.scratch = (slots.zip PhysReg.scratch).map fun x =>
              { reg := x.1.1, slot := x.1.2, scratch := x.2 } :=
          (List.map_zip_eq_zipWith (f := fun x : (VirtualReg × Nat) × PhysReg =>
            ({ reg := x.1.1, slot := x.1.2, scratch := x.2 } : Visit))).symm
        have hmemZip {w : Visit} (hw : w ∈ slots.zipWith
            (fun s p => ({ reg := s.1, slot := s.2, scratch := p } : Visit)) PhysReg.scratch) :
            (w.reg, w.slot) ∈ slots ∧ w.scratch ∈ PhysReg.scratch := by
          rw [hzip] at hw
          obtain ⟨x, hx, rfl⟩ := List.mem_map.mp hw
          exact List.of_mem_zip hx
        refine ⟨hall, ?_, ?_, fun w hw => (hmemZip hw).2, fun w hw => hslots _ (hmemZip hw).1, ?_⟩
        · rw [hzip, List.map_map]
          have hregs : (slots.zip PhysReg.scratch).map (fun x => x.1.1) = slots.map Prod.fst := by
            conv => rhs; rw [← hfst, List.map_map]
            rfl
          show ((slots.zip PhysReg.scratch).map (fun x => x.1.1)).Nodup
          rw [hregs]
          exact hsub.nodup (nodup_eraseDups _)
        · rw [hzip, List.map_map]
          exact (map_snd_zip_sublist slots PhysReg.scratch).nodup (by decide)
        · intro v hv n hn
          have hs' : (v, n) ∈ (slots.zip PhysReg.scratch).map Prod.fst := by
            rw [hfst]
            exact hmem v hv n hn
          obtain ⟨x, hx, hxv⟩ := List.mem_map.mp hs'
          refine ⟨{ reg := x.1.1, slot := x.1.2, scratch := x.2 }, ?_, congrArg Prod.fst hxv⟩
          rw [hzip]
          exact List.mem_map_of_mem hx

/-! ### Where registers are put -/

theorem place_reg {v : VirtualReg} {q : PhysReg} (h : homes.lookup v = some (.reg q)) :
    homes.place visits (.virt v) = .phys q := by
  simp only [place, h]

theorem Visited.place_slot (hvisited : Visited homes i visits) {v : VirtualReg} {n : Nat}
    (hv : v ∈ i.virtuals) (h : homes.lookup v = some (.slot n)) :
    ∃ w ∈ visits, w.reg = v ∧ w.slot = n ∧ homes.place visits (.virt v) = .phys w.scratch := by
  obtain ⟨w, hw, hwv⟩ := hvisited.visited v hv n h
  cases hfind : visits.find? (·.reg = v) with
  | none =>
      have hne := List.find?_eq_none.mp hfind w hw
      simp [hwv] at hne
  | some u =>
      have hu := List.mem_of_find?_eq_some hfind
      have huv : u.reg = v := by simpa using List.find?_some hfind
      have hslot := hvisited.slot u hu
      rw [huv, h] at hslot
      cases hslot
      exact ⟨u, hu, huv, rfl, by simp only [place, h, hfind]⟩

theorem not_scratch_of_allocatable {q : PhysReg} (h : q ∈ PhysReg.allocatable) :
    q ∉ PhysReg.scratch ∧ q.isFrame = false := by
  revert q
  decide

theorem Visited.renames (hvisited : Visited homes i visits)
    (hregs : ∀ v q, homes.lookup v = some (.reg q) → q ∈ PhysReg.allocatable) :
    i.Renames (homes.place visits) := by
  refine ⟨fun _ => rfl, ?_⟩
  intro v hv
  obtain ⟨home, hhome⟩ := hvisited.housed v hv
  cases home with
  | reg q => exact ⟨q, place_reg hhome, (not_scratch_of_allocatable (hregs v q hhome)).2⟩
  | slot n =>
      obtain ⟨w, hw, -, -, hplace⟩ := hvisited.place_slot hv hhome
      refine ⟨w.scratch, hplace, ?_⟩
      have hscratch := hvisited.scratch w hw
      revert hscratch
      generalize w.scratch = q
      revert q
      decide

/-! ### The code of an instruction -/

/-- An instruction that writes a virtual register writes nothing else, and goes on. -/
theorem defs_eq_of_virt {v : VirtualReg} (h : .virt v ∈ i.defs) :
    i.defs = [.virt v] ∧ ∀ (p : Platform) (m : Machine), (i.exec p m).1 = .next := by
  cases i with
  | mov dst src =>
      cases dst with
      | reg d =>
          obtain rfl := List.mem_singleton.mp h
          exact ⟨rfl, fun _ _ => rfl⟩
      | _ => cases h
  | lea d r =>
      obtain rfl := List.mem_singleton.mp h
      exact ⟨rfl, fun _ _ => rfl⟩
  | pop d =>
      obtain rfl := List.mem_singleton.mp h
      exact ⟨rfl, fun _ _ => rfl⟩
  | alu op d src =>
      obtain rfl := List.mem_singleton.mp h
      exact ⟨rfl, fun _ _ => rfl⟩
  | movzx d =>
      obtain rfl := List.mem_singleton.mp h
      exact ⟨rfl, fun _ _ => rfl⟩
  | _ => simp [Instr.defs] at h

/-- What the code of an instruction on its homes has made of the machine `m'`, where the
instruction itself has run on `m`. -/
structure Carried (homes : Homes) (p : Platform) (i : Instr) (m m' after : Machine) : Prop where
  alike : (i.exec p m).2.Alike after
  writes : ∀ x ∈ i.pieceWrites, AtHome homes (i.exec p m).2 after x
  pieces : i.isCall = false → ∀ x q, x.reg = .phys q → q ∉ PhysReg.scratch → q ≠ .esp →
    x ∉ i.pieceWrites → (∀ v, .virt v ∈ i.defs → homes.lookup v ≠ some (.reg q)) →
    after.piece x = m'.piece x
  called : i.isCall = true → ∀ q, after.regs (.phys q) = (i.exec p m).2.regs (.phys q)
  slots : ∀ o, ¬0 ≤ o → (∀ v n, .virt v ∈ i.defs → homes.lookup v = some (.slot n) →
    o ≠ Frame.slotOffset n) → after.frame o = m'.frame o

/-- **What putting an instruction on its homes comes to.**  Registers that live in slots are
fetched before it, where it reads them, and put back after it, where it writes them. -/
theorem ok_of_house {block : List Annotated} (h : homes.house i = .ok block) :
    ∃ visits, homes.visits i = .ok visits ∧ block =
      (visits.filter (Reg.virt ·.reg ∈ i.uses)).map Visit.load ++
        { instr := i.mapRegs (homes.place visits) } ::
          (visits.filter (Reg.virt ·.reg ∈ i.defs)).map Visit.store := by
  rw [house] at h
  obtain ⟨visits, hvisits, h⟩ := Except.ok_of_bind h
  cases h
  exact ⟨visits, hvisits, rfl⟩

theorem house_eq {code : List Annotated} (h : homes.house i = .ok code) :
    ∃ visits, Visited homes i visits ∧ code.map Annotated.instr =
      ((visits.filter (Reg.virt ·.reg ∈ i.uses)).map Visit.transfer).map Transfer.fetch ++
        i.mapRegs (homes.place visits) ::
          ((visits.filter (Reg.virt ·.reg ∈ i.defs)).map Visit.transfer).map Transfer.put := by
  obtain ⟨visits, hvisits, rfl⟩ := ok_of_house h
  refine ⟨visits, visited_of_visits hvisits, ?_⟩
  simp only [List.map_append, List.map_cons, List.map_map]
  rfl

section
variable {p : Platform} {m m' : Machine}
variable (hsound : ∀ v home, homes.lookup v = some home → home.Sound)
include hsound

/-- What is at home stands where it is put, once the slots that are read have been fetched. -/
theorem Visited.stands (hvisited : Visited homes i visits) (hi : i.Plain) {regs : Reg → Word}
    (hkeep : ∀ r, (∀ q ∈ PhysReg.scratch, r ≠ .phys q) → regs r = m'.regs r)
    (hfetched : ∀ w ∈ visits, .virt w.reg ∈ i.uses →
      regs (.phys w.scratch) = m'.frame (Frame.slotOffset w.slot))
    {x : Piece} (hx : x ∈ i.pieceReads) (hhome : AtHome homes m m' x) :
    Stands (homes.place visits) m { m' with regs := regs } x := by
  have hphys {q : PhysReg} (hq : q ∉ PhysReg.scratch) : regs (.phys q) = m'.regs (.phys q) := by
    refine hkeep _ ?_
    rintro q' hq' heq
    cases heq
    exact hq hq'
  cases x with
  | virt v =>
      have hv : .virt v ∈ i.reads := by
        rcases Instr.reg_mem_reads hx with hv | ⟨-, hv⟩
        · exact hv
        · cases hv
      obtain ⟨home, hlookup, hword⟩ := hhome
      show regs (homes.place visits (.virt v)) = _
      cases home with
      | reg q =>
          rw [place_reg hlookup, hphys (not_scratch_of_allocatable (hsound v _ hlookup)).1]
          exact hword
      | slot n =>
          obtain ⟨w, hw, rfl, rfl, hplace⟩ :=
            hvisited.place_slot (Instr.mem_virtuals.mpr (.inl hv)) hlookup
          rw [hplace, hfetched w hw (List.mem_eraseDups.mpr hv)]
          exact hword
  | low q => exact (congrArg Word.low (hphys (hi.not_scratch_of_reads hx rfl))).trans hhome
  | high q => exact (congrArg Word.high (hphys (hi.not_scratch_of_reads hx rfl))).trans hhome

omit hsound in
/-- What stands where it is put is at home, once the slots that are written have been filled. -/
theorem Visited.atHome (hvisited : Visited homes i visits) {frame : Word → Word}
    (hfilled : ∀ w ∈ visits, .virt w.reg ∈ i.defs →
      frame (Frame.slotOffset w.slot) = m'.regs (.phys w.scratch))
    {x : Piece} (hx : x ∈ i.pieceWrites) (hstands : Stands (homes.place visits) m m' x) :
    AtHome homes m { m' with frame := frame } x := by
  cases x with
  | virt v =>
      have hv := Instr.mem_pieceWrites_virt.mp hx
      have hmem : v ∈ i.virtuals := Instr.mem_virtuals.mpr (.inr hv)
      obtain ⟨home, hlookup⟩ := hvisited.housed v hmem
      refine ⟨home, hlookup, ?_⟩
      cases home with
      | reg q =>
          rw [Stands, place_reg hlookup] at hstands
          exact hstands
      | slot n =>
          obtain ⟨w, hw, rfl, rfl, hplace⟩ := hvisited.place_slot hmem hlookup
          rw [Stands, hplace] at hstands
          exact (hfilled w hw hv).trans hstands
  | low q => exact hstands
  | high q => exact hstands

/-- **After the fetches, all that the instruction reads stands where it is put.** -/
theorem Visited.fetched (hvisited : Visited homes i visits) (hi : i.Plain) (h : m.Alike m')
    (hreads : i ≠ .ret → ∀ x ∈ i.pieceReads, AtHome homes m m' x) :
    ∃ regs, runAll p (((visits.filter (Reg.virt ·.reg ∈ i.uses)).map Visit.transfer).map
        Transfer.fetch) m' = (.next, { m' with regs := regs }) ∧
      (∀ r, (∀ q ∈ PhysReg.scratch, r ≠ .phys q) → regs r = m'.regs r) ∧
      m.Alike { m' with regs := regs } ∧
      (i ≠ .ret → ∀ x ∈ i.pieceReads,
        Stands (homes.place visits) m { m' with regs := regs } x) := by
  have hnodup : (((visits.filter (Reg.virt ·.reg ∈ i.uses)).map Visit.transfer).map
      Prod.fst).Nodup := by
    rw [List.map_map]
    exact (List.filter_sublist.map Visit.scratch).nodup hvisited.scratches
  obtain ⟨regs, hrun, hset, hother⟩ := Transfer.runAll_fetch (p := p) _ hnodup m'
  have hkeep (r : Reg) (hr : ∀ q ∈ PhysReg.scratch, r ≠ .phys q) : regs r = m'.regs r := by
    apply hother r
    intro t ht
    obtain ⟨w, hw, rfl⟩ := List.mem_map.mp ht
    exact hr _ (hvisited.scratch w (List.mem_filter.mp hw).1)
  refine ⟨regs, hrun, hkeep, ⟨h.flags, h.frame, h.stack, h.world, h.trace, h.decisions, ?_, ?_⟩, ?_⟩
  · exact (hkeep _ (by decide)).trans h.stackPointer
  · exact (hkeep _ (by decide)).trans h.framePointer
  · intro hret x hx
    refine hvisited.stands hsound hi hkeep (fun w hw huses => ?_) hx (hreads hret x hx)
    exact hset _ (List.mem_map_of_mem (List.mem_filter.mpr ⟨hw, by simpa using huses⟩))

omit hsound in
/-- An instruction writes one virtual register at most, so one visit at most writes. -/
theorem Visited.writers (hvisited : Visited homes i visits) :
    visits.filter (Reg.virt ·.reg ∈ i.defs) = [] ∨
      ∃ w ∈ visits, .virt w.reg ∈ i.defs ∧ visits.filter (Reg.virt ·.reg ∈ i.defs) = [w] := by
  cases hwriters : visits.filter (Reg.virt ·.reg ∈ i.defs) with
  | nil => exact .inl rfl
  | cons w rest =>
      have hwrites {u : Visit} (hu : u ∈ w :: rest) : u ∈ visits ∧ .virt u.reg ∈ i.defs := by
        rw [← hwriters, List.mem_filter] at hu
        simpa using hu
      have hregs : ((w :: rest).map Visit.reg).Nodup := by
        rw [← hwriters]
        exact (List.filter_sublist.map Visit.reg).nodup hvisited.regs
      obtain ⟨hw, hd⟩ := hwrites List.mem_cons_self
      obtain rfl : rest = [] := by
        cases rest with
        | nil => rfl
        | cons u more =>
            obtain ⟨-, hu⟩ := hwrites (List.mem_cons_of_mem _ List.mem_cons_self)
            rw [(defs_eq_of_virt hd).1] at hu
            have hreg : u.reg = w.reg := by simpa using hu
            simp [hreg] at hregs
      exact .inr ⟨w, hw, hd, rfl⟩

/-- **After the puts, what the instruction has written to slots is there.** -/
theorem Visited.stored (hvisited : Visited homes i visits) (here : Instr) (m₁ m₂ : Machine)
    (hexec : (here.exec p m₁) = ((i.exec p m).1, m₂)) :
    ∃ frame, runAll p (here :: ((visits.filter (Reg.virt ·.reg ∈ i.defs)).map
        Visit.transfer).map Transfer.put) m₁ = ((i.exec p m).1, { m₂ with frame := frame }) ∧
      (∀ w ∈ visits, .virt w.reg ∈ i.defs →
        frame (Frame.slotOffset w.slot) = m₂.regs (.phys w.scratch)) ∧
      ∀ o, (∀ w ∈ visits, .virt w.reg ∈ i.defs → o ≠ Frame.slotOffset w.slot) →
        frame o = m₂.frame o := by
  have hmem {w : Visit} (hw : w ∈ visits) (hd : .virt w.reg ∈ i.defs) :
      w ∈ visits.filter (Reg.virt ·.reg ∈ i.defs) :=
    List.mem_filter.mpr ⟨hw, by simpa using hd⟩
  rcases hvisited.writers with hnone | ⟨w, hw, hd, hone⟩
  · rw [hnone] at hmem ⊢
    refine ⟨m₂.frame, ?_, fun w hw hd => absurd (hmem hw hd) List.not_mem_nil, fun _ _ => rfl⟩
    rw [List.map_nil, List.map_nil, runAll, hexec]
    cases (i.exec p m).1 <;> rfl
  · rw [hone] at hmem ⊢
    have hflow := (defs_eq_of_virt hd).2 p m
    obtain ⟨hpos, hmax⟩ := hsound _ _ (hvisited.slot w hw)
    have hneg : ∀ t ∈ [w.transfer], ¬0 ≤ Frame.slotOffset t.2 := by
      intro t ht
      obtain rfl := List.mem_singleton.mp ht
      exact Frame.slotOffset_neg hpos hmax
    obtain ⟨frame, hrun, hset, hother⟩ :=
      Transfer.runAll_put (p := p) [w.transfer] (by simp) hneg m₂
    rw [hflow] at hexec
    refine ⟨frame, ?_, ?_, ?_⟩
    · rw [runAll_cons hexec, hflow]
      exact hrun
    · intro u hu hud
      obtain rfl := List.mem_singleton.mp (hmem hu hud)
      exact hset u.transfer (List.mem_singleton_self _)
    · intro o ho
      apply hother o
      intro t ht
      obtain rfl := List.mem_singleton.mp ht
      exact ho w hw hd

omit hsound in
/-- Scratch registers apart, an instruction on its homes writes what the instruction itself
does, and registers that virtual registers live in. -/
theorem Visited.mem_pieceWrites (hvisited : Visited homes i visits) (hi : i.Plain)
    (hf : i.Renames (homes.place visits)) {x : Piece} {q : PhysReg} (hq : x.reg = .phys q)
    (hscratch : q ∉ PhysReg.scratch) (h : x ∈ (i.mapRegs (homes.place visits)).pieceWrites) :
    x ∈ i.pieceWrites ∨ ∃ v, .virt v ∈ i.defs ∧ homes.lookup v = some (.reg q) := by
  rcases Instr.mem_pieceWrites_mapRegs hf hi h with hmem | ⟨v, hv, hplace⟩
  · exact .inl hmem
  rw [hq] at hplace
  have hmem : v ∈ i.virtuals := Instr.mem_virtuals.mpr (.inr hv)
  obtain ⟨home, hhome⟩ := hvisited.housed v hmem
  cases home with
  | reg q' =>
      rw [place_reg hhome] at hplace
      cases hplace
      exact .inr ⟨v, hv, hhome⟩
  | slot n =>
      obtain ⟨w, hw, -, -, hplace'⟩ := hvisited.place_slot hmem hhome
      rw [hplace'] at hplace
      cases hplace
      exact absurd (hvisited.scratch w hw) hscratch

/-- **The code of an instruction on its homes does what the instruction does**, if all that
the instruction reads is kept. -/
theorem house_follows {code : List Annotated} (hcode : homes.house i = .ok code) (hi : i.Plain)
    (h : m.Alike m') (hreads : i ≠ .ret → ∀ x ∈ i.pieceReads, AtHome homes m m' x) :
    ∃ after, runAll p (code.map Annotated.instr) m' = ((i.exec p m).1, after) ∧
      Carried homes p i m m' after := by
  obtain ⟨visits, hvisited, hcode⟩ := house_eq hcode
  obtain ⟨regs, hfetch, hkeep, halike, hstands⟩ := hvisited.fetched hsound hi h hreads
  have hf := hvisited.renames fun v q h => hsound v _ h
  obtain ⟨hflow, halike', hwrites⟩ := Instr.exec_mapRegs (p := p) hi hf halike hstands
  have hcalled := Instr.called_mapRegs (p := p) hi hf halike hstands
  generalize hm₂ : ((i.mapRegs (homes.place visits)).exec p { m' with regs := regs }).2 = m₂
    at halike' hwrites hcalled
  obtain ⟨frame, hput, hset, hother⟩ := hvisited.stored hsound (p := p) (m := m) _ _ m₂
    (Prod.ext hflow hm₂)
  have hneg (w : Visit) (hw : w ∈ visits) : ¬0 ≤ Frame.slotOffset w.slot := by
    obtain ⟨hpos, hmax⟩ := hsound _ _ (hvisited.slot w hw)
    exact Frame.slotOffset_neg hpos hmax
  refine ⟨{ m₂ with frame := frame }, ?_, ⟨?_, ?_, ?_, ?_, ?_⟩⟩
  · rw [hcode, runAll_append hfetch, hput]
  · refine { halike' with frame := ?_ }
    intro o ho
    rw [← halike'.frame o ho]
    apply hother o
    rintro w hw - rfl
    exact hneg w hw ho
  · intro x hx
    exact hvisited.atHome hset hx (hwrites x hx)
  · intro hcall x q hq hscratch hsp hx hhomes
    have hpiece : m₂.piece x = Machine.piece { m' with regs := regs } x := by
      rw [← hm₂]
      refine Instr.piece_exec (by cases i <;> first | rfl | cases hcall) ?_ ?_
      · rw [hq]
        rintro ⟨⟩
        exact hsp rfl
      · intro hmem
        rcases hvisited.mem_pieceWrites hi hf hq hscratch hmem with hmem | ⟨v, hv, hhome⟩
        · exact hx hmem
        · exact hhomes v hv hhome
    refine Eq.trans hpiece (Machine.piece_of_regs ?_)
    refine hkeep _ ?_
    rintro q' hq' heq
    rw [hq] at heq
    cases heq
    exact hscratch hq'
  · exact hcalled
  · intro o ho hslots
    have hframe : frame o = m₂.frame o := by
      apply hother o
      intro w hw hd
      exact hslots _ _ hd (hvisited.slot w hw)
    refine Eq.trans hframe ?_
    rw [← hm₂]
    exact Instr.frame_mapRegs (p := p) hi hf hstands ho

end

end Homes

end TreeBackend
