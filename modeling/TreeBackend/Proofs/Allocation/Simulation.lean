import TreeBackend.Proofs.Allocation.Blocks
import TreeBackend.Proofs.Allocation.Calls

/-!
# Allocation by one scan preserves meaning

`Related` is what holds of a run of the code and a run of what the scan makes of it each
time control stands before an instruction: the machines are alike, and every piece of a
register that has been written and is still needed is in its home.  One step keeps it
(`Related.step`), so every run does (`allocateScan_simulates`).

Liveness is that of pieces of registers, and it has to be: a `setcc` keeps what it does not
write, and a call of the allocation routine reads a register that is not in its text.  For
code without the two, whole registers do (`coversLiveness_of_whole`); for code with one of
them they do not (`byteOfWord_allocation_distorted`).
-/

namespace TreeBackend

/-- Intervals and windows hold all positions at which their registers are live. -/
structure CoversLiveness (code : List Instr) : Prop where
  virt : ∀ v pos, (pieceFlow code (.virt v)).Live pos → (Liveness.settled code).Covers v pos
  phys : ∀ q, q.isFrame = false → ∀ x ∈ (Reg.phys q).pieces, ∀ pos,
    (pieceFlow code x).Live pos → (Liveness.settled code).Occupies q pos

/-- **Where instructions read and write whole registers, covering those is enough.** -/
theorem coversLiveness_of_whole {code : List Instr} (hwhole : ∀ i ∈ code, i.Whole)
    (h : CoversRegisters code) : CoversLiveness code where
  virt v pos hlive := h.virt v pos (by rwa [pieceFlow_eq_flowOf hwhole] at hlive)
  phys q hq x hx pos hlive := by
    rw [pieceFlow_eq_flowOf hwhole, Piece.reg_of_mem hx] at hlive
    exact h.phys q hq pos hlive

/-- A run from the start of the code, with the pieces of registers written so far, that
reads none but those and the frame's two registers.  A return may find anything in the
accumulator. -/
inductive CleanRun (p : Platform) (code : List Instr) (init : Machine) :
    Nat → Spot → Machine → List Piece → Prop
  | start : CleanRun p code init 0 (.before 0) init []
  | step {n pos : Nat} {m : Machine} {written : List Piece} {i : Instr}
      (h : CleanRun p code init n (.before pos) m written) (hi : code[pos]? = some i)
      (hreads : ∀ x ∈ i.pieceReads,
        x ∈ written ∨ (∃ q, x.reg = .phys q ∧ q.isFrame = true) ∨ i = .ret) :
      CleanRun p code init (n + 1) ((i.exec p m).1.spot p code (pos + 1)) (i.exec p m).2
        (i.pieceDefs ++ written)

/-! ## The blocks of the code -/

/-- What the scan makes of an instruction is a block for it. -/
theorem blockFor_housePlaced {placed : List Placement} {i : Instr} {pos : Nat}
    {block : List Annotated} (h : housePlaced placed i pos = .ok block) :
    BlockFor i (block.map Annotated.instr) := by
  obtain ⟨housed, hhoused, hcode⟩ := housePlaced_eq h
  have hfor := BlockFor.house hhoused
  rw [hcode]
  by_cases hcall : i.isCall = true
  · rw [if_pos hcall]
    refine hfor.surround (by cases i <;> first | rfl | cases hcall) ?_ ?_
    · intro j hj
      obtain ⟨t, -, rfl⟩ := List.mem_map.mp hj
      rfl
    · intro j hj
      obtain ⟨t, -, rfl⟩ := List.mem_map.mp hj
      rfl
  · rw [if_neg hcall]
    exact hfor

/-- Blocks are not empty. -/
theorem housePlaced_ne_nil {placed : List Placement} {i : Instr} {pos : Nat}
    {block : List Annotated} (h : housePlaced placed i pos = .ok block) :
    block.map Annotated.instr ≠ [] := (blockFor_housePlaced h).ne_nil

/-- What the scan returns: code that has passed the check, each instruction on its homes, and
slots for registers and for saves. -/
theorem ok_of_allocateScan {code : List Instr} {a : Allocation} (h : allocateScan code = .ok a) :
    checkWritten code = .ok () ∧ ∃ blocks, code.zipIdx.mapM
        (fun e => housePlaced (Liveness.settled code).place e.1 e.2) = .ok blocks ∧
      a = {
        code := blocks.flatten
        slots := slotsOf (Liveness.settled code).place +
          mostSaved (Liveness.settled code).place code } := by
  rw [allocateScan] at h
  obtain ⟨_, hcheck, h⟩ := Except.ok_of_bind h
  obtain ⟨blocks, hblocks, h⟩ := Except.ok_of_bind h
  cases h
  exact ⟨hcheck, blocks, hblocks, rfl⟩

/-- There is a block for each instruction, in their order. -/
theorem blocks_of_allocateScan {code : List Instr} {a : Allocation}
    (h : allocateScan code = .ok a) :
    checkWritten code = .ok () ∧ ∃ blocks : List (List Annotated), a.code = blocks.flatten ∧
      a.slots = slotsOf (Liveness.settled code).place +
        mostSaved (Liveness.settled code).place code ∧
      blocks.length = code.length ∧ ∀ (pos : Nat) (i : Instr), code[pos]? = some i →
        ∃ block, blocks[pos]? = some block ∧
          housePlaced (Liveness.settled code).place i pos = .ok block := by
  obtain ⟨hcheck, blocks, hblocks, rfl⟩ := ok_of_allocateScan h
  obtain ⟨hlength, hget⟩ := Except.getElem?_of_mapM hblocks
  refine ⟨hcheck, blocks, rfl, rfl, by simpa using hlength, ?_⟩
  intro pos i hi
  have hzip : code.zipIdx[pos]? = some (i, pos) := by simp [List.getElem?_zipIdx, hi]
  exact hget pos (i, pos) hzip

theorem aligned_of_blocks {code : List Instr} {placed : List Placement}
    {blocks : List (List Annotated)} (hlength : blocks.length = code.length)
    (hget : ∀ (pos : Nat) (i : Instr), code[pos]? = some i →
      ∃ block, blocks[pos]? = some block ∧ housePlaced placed i pos = .ok block) :
    Aligned code (blocks.map (·.map Annotated.instr)) := by
  refine .of_blocks hlength fun pos i hi => ?_
  obtain ⟨block, hblock, hhoused⟩ := hget pos i hi
  exact ⟨block, hblock, blockFor_housePlaced hhoused⟩

theorem length_savedAt_le {code : List Instr} {placed : List Placement} {pos : Nat} {i : Instr}
    (hi : code[pos]? = some i) (hcall : i.isCall = true) :
    (savedAt placed pos).length ≤ mostSaved placed code := by
  refine le_foldr_max (List.mem_map.mpr ⟨(i, pos), ?_, ?_⟩)
  · rw [List.mem_zipIdx_iff_getElem?]
    exact hi
  · simp [hcall]

/-! ## Simulation -/

/-- What holds each time control stands before an instruction. -/
structure Related (code : List Instr) (written : List Piece) (pos : Nat) (m m' : Machine) :
    Prop where
  alike : m.Alike m'
  reached : ∀ x ∈ written, (pieceFlow code x).Reached pos
  keeps : ∀ x ∈ written, (pieceFlow code x).Needed pos → AtHome (homesIn code) m m' x

/-- Alike machines keep the frame's two registers. -/
theorem Machine.Alike.keeps {homes : Homes} {m m' : Machine} (h : m.Alike m') {x : Piece}
    {q : PhysReg} (hx : x.reg = .phys q) (hq : q.isFrame = true) : AtHome homes m m' x := by
  have hregs : m'.regs (.phys q) = m.regs (.phys q) := by
    cases q with
    | esp => exact h.stackPointer
    | ebp => exact h.framePointer
    | _ => cases hq
  cases x with
  | virt v => cases hx
  | low r =>
      cases hx
      exact congrArg Word.low hregs
  | high r =>
      cases hx
      exact congrArg Word.high hregs

section
variable {code : List Instr} {a : Allocation} {p : Platform}
variable {m m' : Machine} {written : List Piece} {pos : Nat} {i : Instr}

/-- A piece that is live before an instruction and needed after it survives it. -/
theorem survives_of_live (hcode : PlainCode code) (hlive : CoversLiveness code)
    (hcheck : checkWritten code = .ok ()) (hi : code[pos]? = some i) {x : Piece}
    (hx : x ∉ i.pieceWrites) (hframe : ∀ q, x.reg = .phys q → q.isFrame = false)
    (hreached : (pieceFlow code x).Reached pos) (hneeded : (pieceFlow code x).Needed pos)
    (hnext : i.isCall = true → (pieceFlow code x).Live (pos + 1)) :
    Survives code i pos x := by
  have hphys (q : PhysReg) (hq : x.reg = .phys q) :
      q ∉ PhysReg.scratch ∧ q ≠ .esp ∧ (Liveness.settled code).Occupies q pos := by
    refine ⟨?_, ?_, hlive.phys q (hframe q hq) x (hq ▸ x.mem_pieces) pos ⟨hreached, hneeded⟩⟩
    · obtain ⟨w, j, hj, hwrites⟩ := hreached.exists_write
      exact Instr.Plain.not_scratch_of_writes (hcode.plain j (List.mem_of_getElem? hj))
        (j.pieceDefs_subset hwrites) hq
    · rintro rfl
      cases hframe _ hq
  cases x with
  | virt v =>
      have hcovers := hlive.virt v pos ⟨hreached, hneeded⟩
      refine ⟨hcovers, fun hcall => ⟨?_, hlive.virt v (pos + 1) (hnext hcall)⟩⟩
      obtain ⟨k, hk, hm⟩ := exists_mention_above hcheck hi
        (fun hd => hx (Instr.mem_pieceWrites_virt.mpr hd)) hcovers
      exact ⟨k, hk, Liveness.covers_of_mentions hm⟩
  | low q => exact hphys q rfl
  | high q => exact hphys q rfl

/-- What an instruction leaves alone, and what is needed behind it, is at home before it and
survives it. -/
theorem Related.survives (hcode : PlainCode code) (hlive : CoversLiveness code)
    (hcheck : checkWritten code = .ok ()) (hi : code[pos]? = some i)
    (h : Related code written pos m m') {next : Nat} (hedge : MayFlow code pos next)
    (hcall : i.isCall = true → next = pos + 1) {x : Piece} (hwritten : x ∈ written)
    (hx : x ∉ i.pieceWrites) (hframe : ∀ q, x.reg = .phys q → q.isFrame = false)
    (hneeded : (pieceFlow code x).Needed next) :
    AtHome (homesIn code) m m' x ∧ Survives code i pos x := by
  have hkept : ¬(pieceFlow code x).writes pos := by
    rintro ⟨j, hj, hdefs⟩
    cases hi.symm.trans hj
    exact hx (i.pieceDefs_subset hdefs)
  have hbefore : (pieceFlow code x).Needed pos := .step hkept hedge hneeded
  have hreached := h.reached x hwritten
  refine ⟨h.keeps x hwritten hbefore, ?_⟩
  refine survives_of_live hcode hlive hcheck hi hx hframe hreached hbefore fun hc => ?_
  exact hcall hc ▸ ⟨.step hreached hkept hedge, hneeded⟩

/-- **One step of the code is a run of its block**, and keeps the relation. -/
theorem Related.step (hcode : PlainCode code) (hlive : CoversLiveness code)
    (hcheck : checkWritten code = .ok ()) (hi : code[pos]? = some i) {block : List Annotated}
    (hblock : housePlaced (Liveness.settled code).place i pos = .ok block)
    (hslots : slotsOf (Liveness.settled code).place ≤ Frame.maxSlots)
    (hmax : i.isCall = true → slotsOf (Liveness.settled code).place +
      (savedAt (Liveness.settled code).place pos).length ≤ Frame.maxSlots)
    (hreads : ∀ x ∈ i.pieceReads,
      x ∈ written ∨ (∃ q, x.reg = .phys q ∧ q.isFrame = true) ∨ i = .ret)
    (h : Related code written pos m m') :
    ∃ after, runAll p (block.map Annotated.instr) m' = ((i.exec p m).1, after) ∧
      (i.exec p m).2.Alike after ∧
      (∀ next, (i.exec p m).1.spot p code (pos + 1) = .before next →
        Related code (i.pieceDefs ++ written) next (i.exec p m).2 after) ∧
      (i = .ret → ∀ x ∈ (Reg.phys .eax).pieces, x ∈ written → after.piece x = m.piece x) := by
  have hread {x : Piece} (hx : x ∈ i.pieceReads) : (pieceFlow code x).Needed pos :=
    .read ⟨i, hi, hx⟩
  obtain ⟨after, hrun, halike, hkeeps⟩ := housePlaced_follows (p := p) hi hslots hblock
    (hcode.plain i (List.mem_of_getElem? hi)) hmax h.alike (by
      intro hret x hx
      rcases hreads x hx with hw | ⟨q, hq, hframe⟩ | hret'
      · exact h.keeps x hw (hread hx)
      · exact h.alike.keeps hq hframe
      · exact absurd hret' hret)
  refine ⟨after, hrun, halike, ?_, ?_⟩
  · intro next hspot
    have hedge := mayFlow_of_exec hi hspot
    have hcall (hc : i.isCall = true) : next = pos + 1 := by
      cases i with
      | call callee =>
          cases hspot
          rfl
      | _ => cases hc
    refine ⟨halike, fun x hx => ?_, fun x hx hneeded => ?_⟩
    · by_cases hdefs : x ∈ i.pieceDefs
      · exact .write ⟨i, hi, hdefs⟩ hedge
      · refine .step (h.reached x ((List.mem_append.mp hx).resolve_left hdefs)) ?_ hedge
        rintro ⟨j, hj, hdefs'⟩
        cases hi.symm.trans hj
        exact hdefs hdefs'
    · by_cases hframe : ∃ q, x.reg = .phys q ∧ q.isFrame = true
      · obtain ⟨q, hq, hframe⟩ := hframe
        exact halike.keeps hq hframe
      apply hkeeps x
      by_cases hwrites : x ∈ i.pieceWrites
      · exact .inl hwrites
      · have hwritten : x ∈ written := (List.mem_append.mp hx).resolve_left fun hdefs =>
          hwrites (i.pieceDefs_subset hdefs)
        refine .inr (h.survives hcode hlive hcheck hi hedge hcall hwritten hwrites ?_ hneeded)
        intro q hq
        exact Bool.eq_false_iff.mpr fun hqf => hframe ⟨q, hq, hqf⟩
  · rintro rfl x hx hw
    have hneeded := hread (x := x) (by simpa [Instr.pieceReads, Instr.reads] using hx)
    have hreg := Piece.reg_of_mem hx
    have hsurvives : Survives code .ret pos x := by
      have hnone : x ∉ Instr.ret.pieceWrites := List.not_mem_nil
      refine survives_of_live hcode hlive hcheck hi hnone ?_ (h.reached x hw) hneeded
        fun hcall => by cases hcall
      intro q hq
      rw [hreg] at hq
      cases hq
      rfl
    have hkept := hkeeps x (.inr ⟨h.keeps x hw hneeded, hsurvives⟩)
    cases x with
    | virt v => cases hreg
    | low q => exact hkept
    | high q => exact hkept

end

/-- What a run of the code and a run of what the scan makes of it have in common at their
spots: each time control stands before an instruction, and at the end. -/
def Mirrors (code : List Instr) (written : List Piece) (m m' : Machine) : Spot → Prop
  | .before pos => Related code written pos m m'
  | .ended how => m.Alike m' ∧ (how = .ret →
      ∀ x ∈ (Reg.phys .eax).pieces, x ∈ written → m'.piece x = m.piece x)

/-- **Allocation by one scan preserves meaning.**  Where intervals and windows hold all
positions at which their registers are live, every run of the code that reads no register
before it has written it is followed by a run of what the scan returns: with the same
calls, pushes and stores that others can see, with the same decisions at branches, to the
same end, and with the same result if there is one. -/
theorem allocateScan_simulates {code : List Instr} {a : Allocation} (hcode : PlainCode code)
    (hlive : CoversLiveness code) (halloc : allocateScan code = .ok a)
    (hslots : a.slots ≤ Frame.maxSlots) :
    ∃ start : Nat → Nat, start 0 = 0 ∧ start code.length = a.code.length ∧
      ∀ (p : Platform) (init : Machine) (n : Nat) (spot : Spot) (m : Machine)
        (written : List Piece), CleanRun p code init n spot m written →
        ∃ n' m', n ≤ n' ∧
          Steps p (a.code.map Annotated.instr) n' (.before 0, init) (spot.shift start, m') ∧
          m.Alike m' ∧
          (spot = .ended .ret → (∀ x ∈ (Reg.phys .eax).pieces, x ∈ written) →
            m'.regs (.phys .eax) = m.regs (.phys .eax)) := by
  obtain ⟨hcheck, blocks, hflat, hcount, hlength, hget⟩ := blocks_of_allocateScan halloc
  have haligned := aligned_of_blocks hlength hget
  have hout : a.code.map Annotated.instr = (blocks.map (·.map Annotated.instr)).flatten := by
    rw [hflat, List.map_flatten]
  have hmirrors {p : Platform} {init : Machine} {n : Nat} {spot : Spot} {m : Machine}
      {written : List Piece} (hrun : CleanRun p code init n spot m written) :
      ∃ n' m', n ≤ n' ∧
        Steps p (blocks.map (·.map Annotated.instr)).flatten n' (.before 0, init)
          (spot.shift (blockStart (blocks.map (·.map Annotated.instr))), m') ∧
        Mirrors code written m m' spot := by
    induction hrun with
    | start =>
        refine ⟨0, init, Nat.le_refl 0, .refl _, .refl init, ?_, ?_⟩ <;> exact List.forall_mem_nil _
    | @step n pos m written i hrun hi hreads ih =>
        obtain ⟨n', m', hn, hsteps, hrelated⟩ := ih
        obtain ⟨block, hblock, hhoused⟩ := hget pos i hi
        obtain ⟨after, hexec, halike, hnext, hret⟩ := Related.step (p := p) hcode hlive hcheck hi
          hhoused (by omega) (fun hcall => by
            have hsaved : (savedAt (Liveness.settled code).place pos).length ≤
              mostSaved (Liveness.settled code).place code := length_savedAt_le hi hcall
            omega) hreads hrelated
        have hblock' : (blocks.map (·.map Annotated.instr))[pos]? =
            some (block.map Annotated.instr) := by
          rw [List.getElem?_map, hblock, Option.map_some]
        obtain ⟨k, hk, hmore⟩ := haligned.steps hblock' hexec (housePlaced_ne_nil hhoused)
        refine ⟨k + n', after, by omega, hsteps.trans hmore, ?_⟩
        cases hspot : (i.exec p m).1.spot p code (pos + 1) with
        | before next => exact hnext next hspot
        | ended how =>
            refine ⟨halike, ?_⟩
            rintro rfl x hx hw
            obtain rfl := eq_ret_of_spot hspot
            exact hret rfl x hx hw
  refine ⟨blockStart (blocks.map (·.map Annotated.instr)), rfl, ?_, ?_⟩
  · rw [← haligned.length, blockStart, List.take_length, ← hout, List.length_map]
  · intro p init n spot m written hrun
    obtain ⟨n', m', hn, hsteps, hmirror⟩ := hmirrors hrun
    refine ⟨n', m', hn, by rwa [hout], ?_, ?_⟩
    · cases spot with
      | before pos => exact hmirror.alike
      | ended how => exact hmirror.1
    · rintro rfl hwritten
      refine Machine.regs_of_pieces (by decide) ?_
      intro x hx
      exact hmirror.2 rfl x hx (hwritten x hx)

/-! ### A loop and a call -/

/-- The placements of code with one virtual register that no jump keeps in use longer. -/
theorem place_single {code : List Instr} {iv : Interval}
    (hiv : (Liveness.ofCode code).intervals = [iv])
    (hstill : Edge.sweep (Edge.ofCode code) iv.span.first iv.span.last = iv.span.last) :
    (Liveness.settled code).place = Placement.placeFrom (Liveness.ofCode code) [] [iv] := by
  have hsettled : Liveness.settled code = Liveness.ofCode code := by
    apply Liveness.settled_of_still
    intro iv' hiv'
    rw [hiv] at hiv'
    rwa [List.mem_singleton.mp hiv']
  rw [hsettled, Liveness.place_of_sorted (by rw [hiv]; exact List.pairwise_singleton _ _), hiv]

/-- Pushes `3`, `2` and `1`, and calls a function while a register holds what is left. -/
def countdown : List Instr :=
  [.mov (.reg (.fresh 0)) (.imm 3),
   .label "top",
   .push (.reg (.fresh 0)),
   .alu .sub (.fresh 0) (.imm 1),
   .cmp (.reg (.fresh 0)) (.imm 0),
   .jcc .ne "top",
   .call (.label "f"),
   .alu .add (.phys .eax) (.reg (.fresh 0))] ++ Instr.epilogue

theorem Flows.back_countdown {s t : Nat} (h : Flows countdown s t) (hts : t ≤ s) :
    s = 5 ∧ t = 1 := by
  have hedges : Edge.ofCode countdown = [{ source := 5, target := 1 }] := by decide
  have hmem := Edge.mem_ofCode (by decide) h hts
  rw [hedges, List.mem_singleton] at hmem
  cases hmem
  exact ⟨rfl, rfl⟩

theorem writes_countdown {r : Reg} {w : Nat} (h : (flowOf countdown r).writes w) :
    r = .fresh 0 ∨ r = .phys .eax ∧ 6 ≤ w ∨ r = .phys .esp ∨ r = .phys .ebp := by
  have hdefs : ∀ (w : Nat) (h : w < countdown.length), ∀ r ∈ countdown[w].defs,
      r = .fresh 0 ∨ r = .phys .eax ∧ 6 ≤ w ∨ r = .phys .esp ∨ r = .phys .ebp := by decide
  obtain ⟨i, hi, hd⟩ := h
  obtain ⟨hlt, rfl⟩ := List.getElem?_eq_some_iff.mp hi
  exact hdefs w hlt r hd

theorem reads_countdown {r : Reg} {u : Nat} (h : (flowOf countdown r).reads u) :
    u ≤ 10 ∧ (r = .fresh 0 → u ≤ 7) := by
  have huses : ∀ (u : Nat) (h : u < countdown.length), ∀ r ∈ countdown[u].uses,
      u ≤ 10 ∧ (r = .fresh 0 → u ≤ 7) := by decide
  obtain ⟨i, hi, hu⟩ := h
  obtain ⟨hlt, rfl⟩ := List.getElem?_eq_some_iff.mp hi
  exact huses u hlt r hu

/-- Only what is left goes around the loop. -/
theorem coversRegisters_countdown : CoversRegisters countdown := by
  have hbefore {r : Reg} {pos last : Nat} (hlive : (flowOf countdown r).Live pos)
      (hreads : ∀ u, (flowOf countdown r).reads u → u ≤ last) (hlast : 5 < last) : pos ≤ last := by
    by_cases hbeyond : last < pos
    · obtain ⟨s, t, hedge, hs, ht, -⟩ := hlive.exists_edge_back hreads hbeyond
      have := Flows.back_countdown hedge (by omega)
      omega
    · exact Nat.le_of_not_lt hbeyond
  constructor
  · intro v pos hlive
    obtain ⟨w, hw⟩ := hlive.1.exists_write
    rcases writes_countdown hw with h | ⟨h, -⟩ | h | h <;> cases h
    have hiv : (Liveness.settled countdown).interval? (.fresh 0) =
        some ⟨.fresh 0, ⟨0, 7, by decide⟩⟩ := by
      rw [Liveness.settled_of_still (by decide)]
      decide
    have hpos := hbefore hlive (fun u hu => (reads_countdown hu).2 rfl) (by decide)
    exact ⟨_, hiv, Span.contains_iff.mpr ⟨Nat.zero_le pos, hpos⟩⟩
  · intro q hq pos hlive
    obtain ⟨w, hw⟩ := hlive.1.exists_write
    rcases writes_countdown hw with h | ⟨h, -⟩ | h | h
    · cases h
    · cases h
      have hpos := hbefore hlive (fun u hu => (reads_countdown hu).1) (by decide)
      have hfirst (w : Nat) (hw : (flowOf countdown (.phys .eax)).writes w) : 6 ≤ w := by
        rcases writes_countdown hw with h | ⟨-, h⟩ | h | h
        · cases h
        · exact h
        · cases h
        · cases h
      have hwindow : ⟨6, 10, by decide⟩ ∈ (Liveness.settled countdown).windowsOf .eax := by
        rw [Liveness.windowsOf_settled]
        decide
      refine ⟨_, hwindow, Span.contains_iff.mpr ⟨?_, hpos⟩⟩
      by_cases hearly : pos < 6
      · obtain ⟨s, t, hedge, hs, ht, -⟩ := hlive.exists_edge_before hfirst hearly
        have := Flows.back_countdown hedge (by omega)
        omega
      · exact Nat.le_of_not_lt hearly
    · cases h
      cases hq
    · cases h
      cases hq

/-- One slot is for the register that is saved around the call. -/
theorem allocateScan_countdown : ∃ a, allocateScan countdown = .ok a ∧ a.slots = 1 := by
  have hplace := @place_single countdown ⟨.fresh 0, ⟨0, 7, by decide⟩⟩ (by decide) (by decide)
  unfold allocateScan
  rw [show checkWritten countdown = .ok () from rfl, hplace]
  exact ⟨_, rfl, rfl⟩

theorem allocateScan_simulates_countdown :
    PlainCode countdown ∧ CoversLiveness countdown ∧ ∃ a, allocateScan countdown = .ok a ∧
      a.slots ≤ Frame.maxSlots ∧
      ∃ start : Nat → Nat, start 0 = 0 ∧ start countdown.length = a.code.length ∧
        ∀ (p : Platform) (init : Machine) (n : Nat) (spot : Spot) (m : Machine)
          (written : List Piece), CleanRun p countdown init n spot m written →
            ∃ n' m', n ≤ n' ∧
              Steps p (a.code.map Annotated.instr) n' (.before 0, init) (spot.shift start, m') ∧
              m.Alike m' ∧
              (spot = .ended .ret → (∀ x ∈ (Reg.phys .eax).pieces, x ∈ written) →
                m'.regs (.phys .eax) = m.regs (.phys .eax)) := by
  have hcode : PlainCode countdown := by decide
  have hlive := coversLiveness_of_whole (by decide) coversRegisters_countdown
  obtain ⟨a, halloc, hone⟩ := allocateScan_countdown
  have hslots : a.slots ≤ Frame.maxSlots := by
    rw [hone]
    decide
  exact ⟨hcode, hlive, a, halloc, hslots, allocateScan_simulates hcode hlive halloc hslots⟩

/-! ### Whole registers are too coarse -/

/-- Whether code without jumps reads only registers it has written. -/
def readsWritten (written : List Reg) : List Instr → Bool
  | [] => true
  | i :: rest => i.uses.all (written.contains ·) && readsWritten (i.defs ++ written) rest

/-- By `Instr.uses` and `Instr.defs` all live registers of the code are covered and none is
read before it has been written, and yet a run of what the scan makes of it does something
else. -/
def Distorted (code : List Instr) : Prop :=
  PlainCode code ∧ LabelsOnce code ∧ CoversRegisters code ∧ readsWritten [] code = true ∧
    ∃ a, allocateScan code = .ok a ∧ ∃ (p : Platform) (init m m' : Machine) (n n' : Nat),
      Steps p code n (.before 0, init) (.ended .ret, m) ∧
      Steps p (a.code.map Annotated.instr) n' (.before 0, init) (.ended .ret, m') ∧
      m'.trace ≠ m.trace

/-- The result of the comparison goes into one byte of a word that is pushed whole. -/
def byteOfWord : List Instr :=
  [.mov (.phys .eax) (.imm 256),
   .mov (.phys .ebx) (.imm 1),
   .mov (.phys .edx) (.imm 1),
   .mov (.reg (.fresh 0)) (.imm 5),
   .push (.reg (.fresh 0)),
   .cmp (.phys .ebx) (.phys .edx),
   .setcc .eq,
   .push (.phys .eax),
   .ret]

/-- The call finds its argument in the accumulator. -/
def allocation : List Instr :=
  [.mov (.phys .eax) (.imm 8),
   .mov (.phys .ebx) (.imm 1),
   .mov (.phys .edx) (.imm 1),
   .mov (.reg (.fresh 0)) (.imm 5),
   .push (.reg (.fresh 0)),
   .cmp (.phys .ebx) (.phys .edx),
   .call (.label Reserved.allocate),
   .ret]

/-- The code with its virtual register in the accumulator. -/
def inAccumulator (code : List Instr) : List Instr :=
  code.map (·.mapRegs fun r => if r = .fresh 0 then .phys .accumulator else r)

/-- What the scan makes of the two: the accumulator looks free where its old value counts. -/
theorem allocateScan_inAccumulator {code : List Instr} (h : code = byteOfWord ∨ code = allocation) :
    ∃ a, allocateScan code = .ok a ∧ a.code.map Annotated.instr = inAccumulator code := by
  have hplace : (Liveness.settled code).place =
      Placement.placeFrom (Liveness.ofCode code) [] [⟨.fresh 0, ⟨3, 4, by decide⟩⟩] := by
    rcases h with rfl | rfl <;> exact place_single (by decide) (by decide)
  have hcheck : checkWritten code = .ok () := by
    rcases h with rfl | rfl <;> rfl
  unfold allocateScan
  rw [hcheck, hplace]
  rcases h with rfl | rfl <;> exact ⟨_, rfl, rfl⟩

/-- Nothing that is called does anything. -/
def Platform.idle : Platform where
  address _ := 0
  call _ world := { result := 0, world := world }
  system _ world := { result := 0, world := world }
  leaves _ _ := 0
  stray _ := { zero := false, less := false }
  wraps := true

def Machine.blank : Machine where
  regs _ := 0
  flags := { zero := false, less := false }
  frame _ := 0
  stack _ := 0
  world := { data := fun _ _ => 0, heap := fun _ => 0 }
  trace := []
  decisions := []

theorem byteOfWord_allocation_distorted : Distorted byteOfWord ∧ Distorted allocation := by
  have distorted {code : List Instr} (h : code = byteOfWord ∨ code = allocation)
      (hcode : PlainCode code) (hlabels : LabelsOnce code)
      (hstraight : ∀ i ∈ code, i.jumpTarget? = none) (hreads : readsWritten [] code = true)
      (hret : (runAll .idle code .blank).1 = .ret)
      (hret' : (runAll .idle (inAccumulator code) .blank).1 = .ret)
      (hne : (runAll .idle (inAccumulator code) .blank).2.trace ≠
        (runAll .idle code .blank).2.trace) : Distorted code := by
    obtain ⟨a, halloc, hhoused⟩ := allocateScan_inAccumulator h
    obtain ⟨n, hsteps⟩ := Steps.of_runAll hret
    obtain ⟨n', hsteps'⟩ := Steps.of_runAll hret'
    refine ⟨hcode, hlabels, coversRegisters_of_straight hstraight, hreads, a, halloc, ?_⟩
    exact ⟨.idle, .blank, _, _, n, n', hsteps, hhoused ▸ hsteps', hne⟩
  constructor
  · apply distorted (.inl rfl) <;> decide +kernel
  · apply distorted (.inr rfl) <;> decide +kernel

end TreeBackend
