import TreeBackend.Proofs.Allocation.Placement
import TreeBackend.Proofs.Runs

/-!
# Running an instruction among placed intervals

`housePlaced` puts an instruction on its homes and surrounds a call with saves.  What it
makes does what the instruction does; whatever is live across the instruction, and has
intervals and windows to show for it, keeps its home: `housePlaced_follows`.
-/

namespace TreeBackend

/-! ## Written before read -/

theorem mem_filterMap_virt {rs : List Reg} {v : VirtualReg} :
    v ∈ rs.filterMap Reg.virt? ↔ .virt v ∈ rs := by
  rw [List.mem_filterMap]
  constructor
  · rintro ⟨r, hr, hv⟩
    cases r with
    | virt u =>
        cases hv
        exact hr
    | _ => cases hv
  · exact fun h => ⟨.virt v, h, rfl⟩

/-- Where the check passes, every register that is read has been written further up. -/
theorem checkWrittenFrom_spec {written : List VirtualReg} {code : List Instr}
    (h : checkWrittenFrom written code = .ok ()) {pos : Nat} {i : Instr} (hi : code[pos]? = some i)
    {v : VirtualReg} (hv : .virt v ∈ i.reads) :
    v ∈ written ∨ ∃ k < pos, (flowOf code (.virt v)).writes k := by
  induction code generalizing written pos with
  | nil => simp at hi
  | cons j rest ih =>
      rw [checkWrittenFrom] at h
      cases hfind : j.virtualUses.find? (!written.contains ·) with
      | some u =>
          rw [hfind] at h
          cases h
      | none =>
          rw [hfind] at h
          cases pos with
          | zero =>
              obtain rfl : j = i := by simpa using hi
              have huse : v ∈ j.virtualUses := mem_filterMap_virt.mpr (Instr.mem_uses.mpr hv)
              have hnot := List.find?_eq_none.mp hfind v huse
              exact .inl (by simpa using hnot)
          | succ pos =>
              rcases ih h (by simpa using hi) with hmem | ⟨k, hk, j', hj', hd⟩
              · rcases List.mem_append.mp hmem with hmem | hmem
                · exact .inr ⟨0, Nat.succ_pos _, j, rfl, mem_filterMap_virt.mp hmem⟩
                · exact .inl hmem
              · exact .inr ⟨k + 1, Nat.succ_lt_succ hk, j', by simpa using hj', hd⟩

/-- A register that is read, or whose interval starts further up, has been mentioned
further up. -/
theorem exists_mention_above {code : List Instr} (hcheck : checkWritten code = .ok ())
    {pos : Nat} {i : Instr} (hi : code[pos]? = some i) {v : VirtualReg}
    (hdefs : .virt v ∉ i.defs) (hcovers : (Liveness.settled code).Covers v pos) :
    ∃ k < pos, Mentions code v k := by
  obtain ⟨k, hk, hm⟩ := Liveness.exists_mention_of_covers hcovers
  by_cases hkpos : k = pos
  · subst hkpos
    obtain ⟨j, hj, hv⟩ := hm
    cases hi.symm.trans hj
    have hread : .virt v ∈ i.reads := (Instr.mem_virtuals.mp hv).resolve_right hdefs
    rcases checkWrittenFrom_spec hcheck hi hread with h | ⟨w, hw, hwrites⟩
    · cases h
    · exact ⟨w, hw, mentions_of_writes hwrites⟩
  · exact ⟨k, by omega, hm⟩

/-! ## Saves -/

/-- The transfer of a save. -/
def Save.transfer (s : Save) : Transfer := (s.reg, s.slot)

theorem mem_savedAt {placed : List Placement} {pos : Nat} {q : PhysReg} :
    q ∈ savedAt placed pos ↔ q ∈ PhysReg.callerSaved ∧ ∃ p ∈ placed,
      p.home = .reg q ∧ p.interval.span.first < pos ∧ pos < p.interval.span.last := by
  have hall : q ∈ PhysReg.all := by cases q <;> decide
  simp [savedAt, hall, and_assoc]

theorem savesAt_map_transfer (placed : List Placement) (pos : Nat) :
    (savesAt placed pos).map Save.transfer =
      (savedAt placed pos).zipIdx (slotsOf placed + 1) := by
  rw [savesAt, List.map_map]
  exact List.map_id' _

theorem mem_saves {placed : List Placement} {pos : Nat} {t : Transfer}
    (h : t ∈ (savesAt placed pos).map Save.transfer) :
    t.1 ∈ savedAt placed pos ∧ slotsOf placed < t.2 ∧
      t.2 ≤ slotsOf placed + (savedAt placed pos).length := by
  rw [savesAt_map_transfer] at h
  obtain ⟨hle, hlt, heq⟩ := List.mem_zipIdx (x := t.1) (i := t.2) h
  exact ⟨heq ▸ List.getElem_mem _, by omega, by omega⟩

/-- Slots of saves lie past those of all homes, and there are as many as there are saves. -/
theorem slot_of_mem_savesAt {placed : List Placement} {pos : Nat} {s : Save}
    (h : s ∈ savesAt placed pos) :
    slotsOf placed < s.slot ∧ s.slot ≤ slotsOf placed + (savedAt placed pos).length :=
  (mem_saves (List.mem_map_of_mem (f := Save.transfer) h)).2

theorem exists_save {placed : List Placement} {pos : Nat} {q : PhysReg}
    (h : q ∈ savedAt placed pos) : ∃ n, (q, n) ∈ (savesAt placed pos).map Save.transfer := by
  rw [savesAt_map_transfer]
  obtain ⟨k, hk, hq⟩ := List.mem_iff_getElem.mp h
  refine ⟨slotsOf placed + 1 + k, ?_⟩
  rw [List.mk_mem_zipIdx_iff_le_and_getElem?_sub]
  refine ⟨by omega, ?_⟩
  rw [Nat.add_sub_cancel_left, List.getElem?_eq_getElem hk, hq]

theorem nodup_savedAt (placed : List Placement) (pos : Nat) : (savedAt placed pos).Nodup :=
  List.filter_sublist.nodup (by decide)

theorem nodup_save_regs (placed : List Placement) (pos : Nat) :
    (((savesAt placed pos).map Save.transfer).map Prod.fst).Nodup := by
  rw [savesAt_map_transfer, List.zipIdx_map_fst]
  exact nodup_savedAt placed pos

theorem nodup_save_slots (placed : List Placement) (pos : Nat) :
    (((savesAt placed pos).map Save.transfer).map Prod.snd).Nodup := by
  rw [savesAt_map_transfer, List.zipIdx_map_snd]
  exact List.nodup_range' 1

theorem nodup_save_offsets {placed : List Placement} {pos : Nat}
    (hmax : slotsOf placed + (savedAt placed pos).length ≤ Frame.maxSlots) :
    (((savesAt placed pos).map Save.transfer).map fun t => Frame.slotOffset t.2).Nodup := by
  have hslots := nodup_save_slots placed pos
  rw [List.Nodup, List.pairwise_map] at hslots ⊢
  apply hslots.imp_of_mem
  intro t u ht hu hne heq
  have htmax := (mem_saves ht).2.2
  have humax := (mem_saves hu).2.2
  exact hne (Frame.slotOffset_inj (by omega) (by omega) heq)

/-- **What the scan makes of an instruction**: the instruction on its homes, a call between its
saves. -/
theorem ok_of_housePlaced {placed : List Placement} {i : Instr} {pos : Nat}
    {block : List Annotated} (h : housePlaced placed i pos = .ok block) :
    ∃ housed, (homesOf placed).house i = .ok housed ∧
      (i.isCall = false ∧ block = housed ∨ i.isCall = true ∧ block =
        (savesAt placed pos).map Save.store ++ housed ++ (savesAt placed pos).map Save.load) := by
  rw [housePlaced] at h
  obtain ⟨housed, hhoused, h⟩ := Except.ok_of_bind h
  refine ⟨housed, hhoused, ?_⟩
  cases hcall : i.isCall with
  | false =>
      rw [hcall] at h
      cases h
      exact .inl ⟨rfl, rfl⟩
  | true =>
      rw [hcall] at h
      cases h
      exact .inr ⟨rfl, rfl⟩

theorem housePlaced_eq {placed : List Placement} {i : Instr} {pos : Nat} {block : List Annotated}
    (h : housePlaced placed i pos = .ok block) :
    ∃ housed, (homesOf placed).house i = .ok housed ∧ block.map Annotated.instr =
      if i.isCall then
        ((savesAt placed pos).map Save.transfer).map Transfer.put ++ (housed.map Annotated.instr ++
          ((savesAt placed pos).map Save.transfer).map Transfer.fetch)
      else housed.map Annotated.instr := by
  obtain ⟨housed, hhoused, ⟨hcall, rfl⟩ | ⟨hcall, rfl⟩⟩ := ok_of_housePlaced h
  · refine ⟨block, hhoused, ?_⟩
    rw [hcall]
    rfl
  · refine ⟨housed, hhoused, ?_⟩
    simp only [hcall, List.map_append, List.map_map, List.append_assoc, if_true]
    rfl

/-! ## What survives an instruction -/

/-- The homes that the scan gives. -/
abbrev homesIn (code : List Instr) : Homes := homesOf (Liveness.settled code).place

/-- What intervals and windows say of a piece that is live across an instruction: they hold
the position, and an interval that is to survive a call starts before it and ends after it. -/
def Survives (code : List Instr) (i : Instr) (pos : Nat) : Piece → Prop
  | .virt v => (Liveness.settled code).Covers v pos ∧ (i.isCall = true →
      (∃ k < pos, (Liveness.settled code).Covers v k) ∧ (Liveness.settled code).Covers v (pos + 1))
  | .low q | .high q =>
    q ∉ PhysReg.scratch ∧ q ≠ .esp ∧ (Liveness.settled code).Occupies q pos

/-- A call writes the accumulator only. -/
theorem call_writes {callee : Operand} {x : Piece} (h : x ∈ (Instr.call callee).pieceWrites) :
    x.reg = .phys .eax :=
  Piece.reg_of_mem (by simpa [Instr.pieceWrites, Instr.pieceDefs, Instr.defs] using h)

theorem occupies_of_pieceWrites {code : List Instr} {i : Instr} {pos : Nat}
    (hi : code[pos]? = some i) {x : Piece} (hx : x ∈ i.pieceWrites) {q : PhysReg}
    (hq : x.reg = .phys q) (hframe : q.isFrame = false) :
    (Liveness.settled code).Occupies q pos := by
  apply Liveness.occupies_of_uses_or_defs hframe hi
  rcases Instr.reg_mem_defs hx with h | ⟨rfl, h⟩
  · exact .inr (hq ▸ h)
  · rw [hq] at h
    rw [h]
    exact .inl (by decide)

variable {code : List Instr} {i : Instr} {pos : Nat} {p : Platform} {m m' after : Machine}

/-- A register that is saved is in no window at the call. -/
theorem not_occupies_of_savedAt {q : PhysReg}
    (hq : q ∈ savedAt (Liveness.settled code).place pos) :
    ¬(Liveness.settled code).Occupies q pos := by
  intro hoccupies
  obtain ⟨-, r, hr, hhome, hfirst, hlast⟩ := mem_savedAt.mp hq
  exact Liveness.placement_ne_of_occupies hr (Span.contains_iff.mpr ⟨by omega, by omega⟩)
    hoccupies hhome

/-- A register that holds a value across a call is saved. -/
theorem mem_savedAt_of_survives {v : VirtualReg} {q : PhysReg}
    (hhome : (homesIn code).lookup v = some (.reg q))
    (habove : ∃ k < pos, (Liveness.settled code).Covers v k)
    (hbelow : (Liveness.settled code).Covers v (pos + 1)) :
    q ∈ savedAt (Liveness.settled code).place pos := by
  have hnodup := Liveness.nodup_settled code
  obtain ⟨r, hr, -, hrhome, hiv⟩ := Liveness.exists_placement hnodup hhome
  obtain ⟨k, hk, iv, hiv', hkpos⟩ := habove
  obtain ⟨iv', hiv'', hpos⟩ := hbelow
  cases hiv.symm.trans hiv'
  cases hiv.symm.trans hiv''
  rw [Span.contains_iff] at hkpos hpos
  exact mem_savedAt.mpr ⟨Liveness.home_reg hnodup hhome, r, hr, hrhome, by omega, by omega⟩

/-- What saving registers before a call leaves behind. -/
theorem runAll_saves
    (hmax : slotsOf (Liveness.settled code).place +
      (savedAt (Liveness.settled code).place pos).length ≤ Frame.maxSlots) (h : m.Alike m') :
    ∃ frame, runAll p (((savesAt (Liveness.settled code).place pos).map Save.transfer).map
        Transfer.put) m' = (.next, { m' with frame := frame }) ∧
      (∀ t ∈ (savesAt (Liveness.settled code).place pos).map Save.transfer,
        frame (Frame.slotOffset t.2) = m'.regs (.phys t.1)) ∧
      m.Alike { m' with frame := frame } ∧
      ∀ x, AtHome (homesIn code) m m' x → AtHome (homesIn code) m { m' with frame := frame } x := by
  have hneg (t : Transfer)
      (ht : t ∈ (savesAt (Liveness.settled code).place pos).map Save.transfer) :
      ¬0 ≤ Frame.slotOffset t.2 := by
    obtain ⟨-, hlow, hhigh⟩ := mem_saves ht
    exact Frame.slotOffset_neg (by omega) (by omega)
  obtain ⟨frame, hrun, hset, hother⟩ :=
    Transfer.runAll_put (p := p) _ (nodup_save_offsets hmax) hneg m'
  refine ⟨frame, hrun, hset, { h with frame := ?_ }, ?_⟩
  · intro o ho
    rw [← h.frame o ho]
    apply hother o
    rintro t ht rfl
    exact hneg t ht ho
  · intro x hx
    cases x with
    | virt v =>
        obtain ⟨home, hhome, hword⟩ := hx
        refine ⟨home, hhome, ?_⟩
        cases home with
        | reg q => exact hword
        | slot n =>
            refine (hother _ ?_).trans hword
            intro t ht heq
            obtain ⟨-, hlow, hhigh⟩ := mem_saves ht
            obtain ⟨-, hn⟩ := Liveness.home_slot (Liveness.nodup_settled code) hhome
            have := Frame.slotOffset_inj (by omega) (by omega) heq
            omega
    | low q => exact hx
    | high q => exact hx

section
variable (hi : code[pos]? = some i)
variable (hslots : slotsOf (Liveness.settled code).place ≤ Frame.maxSlots)
include hi

theorem covers_of_defs {v : VirtualReg} (hv : .virt v ∈ i.defs) :
    (Liveness.settled code).Covers v pos :=
  Liveness.covers_of_mentions ⟨i, hi, Instr.mem_virtuals.mpr (.inr hv)⟩

include hslots in
/-- **Pieces that survive an instruction other than a call keep their homes.** -/
theorem keeps_of_carried (hcarried : Homes.Carried (homesIn code) p i m m' after)
    (hcall : i.isCall = false) {x : Piece} (hx : x ∉ i.pieceWrites)
    (hkeeps : AtHome (homesIn code) m m' x)
    (hsurvives : Survives code i pos x) :
    AtHome (homesIn code) (i.exec p m).2 after x := by
  have hnodup := Liveness.nodup_settled code
  have hphys (y : Piece) (q : PhysReg) (hq : y.reg = .phys q) (hy : y ∉ i.pieceWrites)
      (hkept : m'.piece y = m.piece y)
      (hlive : q ∉ PhysReg.scratch ∧ q ≠ .esp ∧ (Liveness.settled code).Occupies q pos) :
      after.piece y = (i.exec p m).2.piece y := by
    obtain ⟨hscratch, hsp, hoccupies⟩ := hlive
    have hsame : (i.exec p m).2.piece y = m.piece y := by
      refine Instr.piece_exec hcall ?_ hy
      rw [hq]
      intro h
      exact hsp (Reg.phys.inj h)
    rw [hsame, ← hkept]
    apply hcarried.pieces hcall y q hq hscratch hsp hy
    intro u hu hk
    exact Liveness.home_ne_of_occupies hnodup hk (covers_of_defs hi hu) hoccupies rfl
  cases x with
  | virt v =>
      obtain ⟨home, hhome, hword⟩ := hkeeps
      obtain ⟨hcovers, -⟩ := hsurvives
      have hsame : (i.exec p m).2.regs (.virt v) = m.regs (.virt v) :=
        Instr.piece_exec (x := .virt v) hcall (by intro h; cases h) hx
      have hother {u : VirtualReg} {k : Home} (hu : .virt u ∈ i.defs)
          (hk : (homesIn code).lookup u = some k) : home ≠ k := by
        refine Liveness.home_ne hnodup hhome hk ?_ hcovers (covers_of_defs hi hu)
        rintro rfl
        exact hx (Instr.mem_pieceWrites_virt.mpr hu)
      refine ⟨home, hhome, ?_⟩
      rw [hsame, ← hword]
      cases home with
      | reg q =>
          have hq := Homes.not_scratch_of_allocatable (Liveness.home_reg hnodup hhome)
          refine Machine.regs_of_pieces (by intro h; cases h) ?_
          intro y hy
          have hyq := Piece.reg_of_mem hy
          refine hcarried.pieces hcall y q hyq hq.1 ?_ ?_ fun u hu hk => hother hu hk rfl
          · rintro rfl
            cases hq.2
          · intro hwrites
            exact Liveness.home_ne_of_occupies hnodup hhome hcovers
              (occupies_of_pieceWrites hi hwrites hyq hq.2) rfl
      | slot n =>
          obtain ⟨hpos, hn⟩ := Liveness.home_slot hnodup hhome
          refine hcarried.slots _ (Frame.slotOffset_neg hpos (by omega)) ?_
          intro u k hu hk heq
          have hk' := Liveness.home_slot hnodup hk
          have hnk := Frame.slotOffset_inj (by omega) (by omega) heq
          exact hother hu hk (congrArg Home.slot hnk)
  | low q => exact hphys (.low q) q rfl hx hkeeps hsurvives
  | high q => exact hphys (.high q) q rfl hx hkeeps hsurvives

/-- **Pieces that survive a call are in their homes again after the registers that hold them
have been fetched**, and so is the result of the call. -/
theorem keeps_of_called (hmax : slotsOf (Liveness.settled code).place +
      (savedAt (Liveness.settled code).place pos).length ≤ Frame.maxSlots)
    (hcall : i.isCall = true) {frame : Word → Word} {regs : Reg → Word}
    (hcarried : Homes.Carried (homesIn code) p i m { m' with frame := frame } after)
    (hsaved : ∀ t ∈ (savesAt (Liveness.settled code).place pos).map Save.transfer,
      frame (Frame.slotOffset t.2) = m'.regs (.phys t.1))
    (hset : ∀ t ∈ (savesAt (Liveness.settled code).place pos).map Save.transfer,
      regs (.phys t.1) = after.frame (Frame.slotOffset t.2))
    (hother : ∀ q, q ∉ savedAt (Liveness.settled code).place pos →
      regs (.phys q) = after.regs (.phys q)) {x : Piece}
    (hx : x ∈ i.pieceWrites ∨ AtHome (homesIn code) m m' x ∧
      AtHome (homesIn code) m { m' with frame := frame } x ∧ Survives code i pos x) :
    AtHome (homesIn code) (i.exec p m).2 { after with regs := regs } x := by
  have hnodup := Liveness.nodup_settled code
  obtain ⟨callee, rfl⟩ : ∃ callee, i = .call callee := by
    cases i with
    | call callee => exact ⟨callee, rfl⟩
    | _ => cases hcall
  have hphys {q : PhysReg} (hoccupies : (Liveness.settled code).Occupies q pos) :
      regs (.phys q) = ((Instr.call callee).exec p m).2.regs (.phys q) := by
    rw [hother q fun hq => not_occupies_of_savedAt hq hoccupies]
    exact hcarried.called hcall q
  cases x with
  | virt v =>
      have hnone (u : VirtualReg) : .virt u ∉ (Instr.call callee).defs := by simp [Instr.defs]
      have hx := hx.resolve_left fun hx => hnone v (Instr.mem_pieceWrites_virt.mp hx)
      obtain ⟨⟨home, hhome, hword⟩, ⟨home', hhome', hword'⟩, -, hspan⟩ := hx
      cases hhome.symm.trans hhome'
      obtain ⟨habove, hbelow⟩ := hspan hcall
      have hsame : ((Instr.call callee).exec p m).2.regs (.virt v) = m.regs (.virt v) := rfl
      refine ⟨home, hhome, ?_⟩
      rw [hsame, ← hword]
      cases home with
      | reg q =>
          obtain ⟨n, hn⟩ := exists_save (mem_savedAt_of_survives hhome habove hbelow)
          obtain ⟨-, hlow, hhigh⟩ := mem_saves hn
          refine (hset _ hn).trans (Eq.trans ?_ (hsaved _ hn))
          exact hcarried.slots _ (Frame.slotOffset_neg (by omega) (by omega)) fun u _ hu =>
            absurd hu (hnone u)
      | slot n =>
          obtain ⟨hpos, hn⟩ := Liveness.home_slot hnodup hhome
          have hframe := hcarried.slots _ (Frame.slotOffset_neg hpos (by omega)) fun u _ hu =>
            absurd hu (hnone u)
          exact (hframe.trans hword').trans hword.symm
  | low q =>
      refine congrArg Word.low (hphys ?_)
      rcases hx with hx | ⟨-, -, -, -, hoccupies⟩
      · exact occupies_of_pieceWrites hi hx rfl (by cases call_writes hx; rfl)
      · exact hoccupies
  | high q =>
      refine congrArg Word.high (hphys ?_)
      rcases hx with hx | ⟨-, -, -, -, hoccupies⟩
      · exact occupies_of_pieceWrites hi hx rfl (by cases call_writes hx; rfl)
      · exact hoccupies

include hslots in
/-- **What the scan makes of an instruction does what the instruction does**, and keeps what
the instruction writes and what survives it. -/
theorem housePlaced_follows {block : List Annotated}
    (hblock : housePlaced (Liveness.settled code).place i pos = .ok block) (hplain : i.Plain)
    (hmax : i.isCall = true → slotsOf (Liveness.settled code).place +
      (savedAt (Liveness.settled code).place pos).length ≤ Frame.maxSlots) (h : m.Alike m')
    (hreads : i ≠ .ret → ∀ x ∈ i.pieceReads, AtHome (homesIn code) m m' x) :
    ∃ after, runAll p (block.map Annotated.instr) m' = ((i.exec p m).1, after) ∧
      (i.exec p m).2.Alike after ∧
      ∀ x, (x ∈ i.pieceWrites ∨ AtHome (homesIn code) m m' x ∧ Survives code i pos x) →
        AtHome (homesIn code) (i.exec p m).2 after x := by
  have hsound (v : VirtualReg) (home : Home) (hhome : (homesIn code).lookup v = some home) :
      home.Sound := by
    cases home with
    | reg q => exact Liveness.home_reg (Liveness.nodup_settled code) hhome
    | slot n =>
        obtain ⟨hpos, hn⟩ := Liveness.home_slot (Liveness.nodup_settled code) hhome
        exact ⟨hpos, by omega⟩
  obtain ⟨housed, hhoused, hcode⟩ := housePlaced_eq hblock
  cases hcall : i.isCall with
  | false =>
      rw [hcall, if_neg Bool.false_ne_true] at hcode
      obtain ⟨after, hrun, hcarried⟩ := Homes.house_follows hsound (p := p) hhoused hplain h hreads
      refine ⟨after, hcode ▸ hrun, hcarried.alike, ?_⟩
      intro x hx
      by_cases hwrites : x ∈ i.pieceWrites
      · exact hcarried.writes x hwrites
      · obtain ⟨hkeeps, hsurvives⟩ := hx.resolve_left hwrites
        exact keeps_of_carried hi hslots hcarried hcall hwrites hkeeps hsurvives
  | true =>
      rw [hcall, if_pos rfl] at hcode
      obtain ⟨frame, hsave, hsaved, halike, hkept⟩ := runAll_saves (p := p) (hmax hcall) h
      obtain ⟨after, hrun, hcarried⟩ := Homes.house_follows hsound (p := p) hhoused hplain halike
        fun hret x hx => hkept x (hreads hret x hx)
      obtain ⟨regs, hfetch, hset, hother⟩ := Transfer.runAll_fetch (p := p)
        _ (nodup_save_regs (Liveness.settled code).place pos) after
      have hother' (q : PhysReg) (hq : q ∉ savedAt (Liveness.settled code).place pos) :
          regs (.phys q) = after.regs (.phys q) := by
        refine hother _ ?_
        intro t ht heq
        injection heq with heq
        exact hq (heq ▸ (mem_saves ht).1)
      have hframe {q : PhysReg} (hq : q.isFrame = true) :
          q ∉ savedAt (Liveness.settled code).place pos := by
        intro hmem
        have hallocatable := (mem_savedAt.mp hmem).1
        rw [(Homes.not_scratch_of_allocatable hallocatable).2] at hq
        cases hq
      have hflow : (i.exec p m).1 = .next := by
        cases i with
        | call callee => rfl
        | _ => cases hcall
      refine ⟨{ after with regs := regs }, ?_, ?_, ?_⟩
      · rw [hflow] at hrun ⊢
        rw [hcode, runAll_append hsave, runAll_append hrun, hfetch]
      · have h' := hcarried.alike
        exact ⟨h'.flags, h'.frame, h'.stack, h'.world, h'.trace, h'.decisions,
          (hother' .esp (hframe rfl)).trans h'.stackPointer,
          (hother' .ebp (hframe rfl)).trans h'.framePointer⟩
      · intro x hx
        apply keeps_of_called hi (hmax hcall) hcall hcarried hsaved hset hother'
        rcases hx with hx | ⟨hkeeps, hsurvives⟩
        · exact .inl hx
        · exact .inr ⟨hkeeps, hkept x hkeeps, hsurvives⟩

end

end TreeBackend
