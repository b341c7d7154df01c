import TreeBackend.Proofs.Allocation.Flow
import TreeBackend.Proofs.Semantics.Pieces

/-!
# Runs of code with jumps

`Steps` runs a list of instructions from position to position.  A jump leads to the first
label it names: by its name, or by its address if the jump is computed.

Code that is made of one block for each instruction of a list, with labels standing for
themselves, lands where the list does: `Aligned.steps` takes the run of one block for a
run of the whole, and `Aligned.simulates` goes on from there to whole runs.

`MayFlow` is the graph of such runs, and `pieceFlow` that of the pieces of registers along
them.
-/

namespace TreeBackend

/-- How a run ends. -/
inductive Ending where
  | ret
  | fault
  /-- Control has left for a place outside the code. -/
  | left (target : Target)
deriving DecidableEq

/-- Where control is. -/
inductive Spot where
  | before (pos : Nat)
  | ended (how : Ending)
deriving DecidableEq

/-- Whether an instruction is a label that a jump leads to. -/
def Target.names (p : Platform) : Target → Instr → Bool
  | label l, .label l' => l = l'
  | address w, .label l' => p.address l' = w
  | _, _ => false

/-- Where a jump leads to in the code. -/
def landing? (p : Platform) (code : List Instr) (t : Target) : Option Nat :=
  code.findIdx? (t.names p)

/-- Where control is after an instruction that stands before the position `next`. -/
def Flow.spot (p : Platform) (code : List Instr) (next : Nat) : Flow → Spot
  | .next => .before next
  | .goto t =>
    match landing? p code t with
    | some pos => .before pos
    | none => .ended (.left t)
  | .ret => .ended .ret
  | .fault => .ended .fault

/-- The same spot in code whose positions start at others. -/
def Spot.shift (start : Nat → Nat) : Spot → Spot
  | before pos => before (start pos)
  | ended how => ended how

/-- A number of steps of a run. -/
inductive Steps (p : Platform) (code : List Instr) : Nat → Spot × Machine → Spot × Machine → Prop
  | refl (c : Spot × Machine) : Steps p code 0 c c
  | step {n pos : Nat} {m : Machine} {i : Instr} {c : Spot × Machine} (hi : code[pos]? = some i)
      (h : Steps p code n ((i.exec p m).1.spot p code (pos + 1), (i.exec p m).2) c) :
      Steps p code (n + 1) (.before pos, m) c

variable {p : Platform} {code : List Instr} {m m' : Machine}

theorem Steps.trans {a b : Nat} {c d e : Spot × Machine} (h : Steps p code a c d)
    (h' : Steps p code b d e) : Steps p code (b + a) c e := by
  induction h with
  | refl => exact h'
  | step hi _ ih => exact .step hi (ih h')

/-- A block that stands somewhere in the code is run as it is by itself. -/
theorem Steps.block (pre block post : List Instr) {f : Flow} (hcode : code = pre ++ (block ++ post))
    (hrun : runAll p block m = (f, m')) :
    ∃ n, Steps p code n (.before pre.length, m)
      (f.spot p code (pre.length + block.length), m') ∧ (block ≠ [] → 0 < n) := by
  induction block generalizing pre m with
  | nil =>
      cases hrun
      exact ⟨0, .refl _, fun h => absurd rfl h⟩
  | cons i rest ih =>
      have hi : code[pre.length]? = some i := by simp [hcode]
      rw [runAll] at hrun
      cases hexec : i.exec p m with
      | mk g m₁ =>
          rw [hexec] at hrun
          by_cases hg : g = .next
          · subst hg
            obtain ⟨n, hn, -⟩ := ih (pre ++ [i]) (by simp [hcode]) hrun
            refine ⟨n + 1, .step hi ?_, fun _ => Nat.succ_pos n⟩
            rw [hexec]
            rw [List.length_append, List.length_singleton] at hn
            rw [List.length_cons, Nat.add_comm rest.length, ← Nat.add_assoc]
            exact hn
          · have hstop : (g, m₁) = (f, m') := by
              cases g with
              | next => exact absurd rfl hg
              | _ => exact hrun
            cases hstop
            refine ⟨1, .step hi ?_, fun _ => Nat.one_pos⟩
            rw [hexec]
            have hspot (next next' : Nat) : f.spot p code next = f.spot p code next' := by
              cases f with
              | next => exact absurd rfl hg
              | _ => rfl
            rw [hspot (pre.length + 1) (pre.length + (i :: rest).length)]
            exact .refl _

theorem Steps.of_runAll (h : (runAll p code m).1 = .ret) :
    ∃ n, Steps p code n (.before 0, m) (.ended .ret, (runAll p code m).2) := by
  have hrun : runAll p code m = (.ret, (runAll p code m).2) := Prod.ext h rfl
  obtain ⟨n, hsteps, -⟩ := Steps.block [] code [] (List.append_nil code).symm hrun
  exact ⟨n, hsteps⟩

/-- Only a return ends a run as one. -/
theorem eq_ret_of_spot {i : Instr} {next : Nat}
    (h : (i.exec p m).1.spot p code next = .ended .ret) : i = .ret := by
  have hflow : (i.exec p m).1 = .ret := by
    cases hf : (i.exec p m).1 with
    | ret => rfl
    | goto t =>
        rw [hf, Flow.spot] at h
        split at h <;> cases h
    | _ =>
        rw [hf] at h
        cases h
  cases i with
  | ret => rfl
  | mov dst src => cases dst <;> cases hflow
  | idiv src =>
      simp only [Instr.exec] at hflow
      split at hflow <;> cases hflow
  | jcc c l =>
      simp only [Instr.exec] at hflow
      split at hflow <;> cases hflow
  | _ => cases hflow

/-! ## Code made of blocks -/

/-- Where a block starts. -/
def blockStart (blocks : List (List Instr)) (k : Nat) : Nat := (blocks.take k).flatten.length

/-- There is a block for each instruction, and labels stand for themselves only. -/
structure Aligned (code : List Instr) (blocks : List (List Instr)) : Prop where
  length : blocks.length = code.length
  label : ∀ (k : Nat) (l : String), code[k]? = some (.label l) → blocks[k]? = some [.label l]
  other : ∀ (k : Nat) (i : Instr) (block : List Instr), code[k]? = some i →
    blocks[k]? = some block →
    Peephole.isLabel i = false → ∀ j ∈ block, Peephole.isLabel j = false

theorem Target.isLabel_of_names {t : Target} {i : Instr} (h : t.names p i = true) :
    ∃ l, i = .label l := by
  cases i with
  | label l => exact ⟨l, rfl⟩
  | _ => cases t <;> cases h

namespace Aligned

variable {blocks : List (List Instr)}

theorem tail {i : Instr} {block : List Instr} (h : Aligned (i :: code) (block :: blocks)) :
    Aligned code blocks where
  length := by simpa using h.length
  label k l hk := by simpa using h.label (k + 1) l (by simpa using hk)
  other k j b hk hb := h.other (k + 1) j b (by simpa using hk) (by simpa using hb)

/-- A jump leads to the block of the label it leads to in the list. -/
theorem landing?_flatten (h : Aligned code blocks) (t : Target) :
    landing? p blocks.flatten t = (landing? p code t).map (blockStart blocks) := by
  induction code generalizing blocks with
  | nil =>
      obtain rfl : blocks = [] := List.eq_nil_of_length_eq_zero h.length
      rfl
  | cons i rest ih =>
      cases blocks with
      | nil => cases h.length
      | cons block more =>
          have hrest := ih h.tail
          rw [landing?] at hrest ⊢
          rw [List.flatten_cons, List.findIdx?_append, landing?, List.findIdx?_cons, hrest]
          have hstart (k : Nat) : blockStart (block :: more) (k + 1) =
              blockStart more k + block.length := by
            simp [blockStart, Nat.add_comm]
          have hmap : ((landing? p rest t).map (blockStart more)).map (· + block.length) =
              ((landing? p rest t).map (· + 1)).map (blockStart (block :: more)) := by
            cases landing? p rest t with
            | none => rfl
            | some k => simp [hstart]
          by_cases hi : t.names p i = true
          · obtain ⟨l, rfl⟩ := Target.isLabel_of_names hi
            obtain rfl : block = [.label l] := by simpa using h.label 0 l rfl
            simp [hi, blockStart]
          · have hnone : block.findIdx? (t.names p) = none := by
              rw [List.findIdx?_eq_none_iff]
              intro j hj
              by_cases hlabel : Peephole.isLabel i = true
              · obtain ⟨l, rfl⟩ : ∃ l, i = .label l := by
                  cases i with
                  | label l => exact ⟨l, rfl⟩
                  | _ => cases hlabel
                obtain rfl : block = [.label l] := by simpa using h.label 0 l rfl
                rw [List.mem_singleton.mp hj]
                simpa using hi
              · have hother := h.other 0 i block rfl rfl (by simpa using hlabel) j hj
                cases hnames : t.names p j with
                | false => rfl
                | true =>
                    obtain ⟨l, rfl⟩ := Target.isLabel_of_names hnames
                    cases hother
            rw [hnone, if_neg hi]
            exact hmap

theorem spot_flatten (h : Aligned code blocks) (next : Nat) (f : Flow) :
    f.spot p blocks.flatten (blockStart blocks next) =
      (f.spot p code next).shift (blockStart blocks) := by
  cases f with
  | goto t =>
      rw [Flow.spot, Flow.spot, h.landing?_flatten]
      cases landing? p code t <;> rfl
  | _ => rfl

/-- **The run of one block is a run of the whole, from the start of the block to where the
instruction leads.** -/
theorem steps (h : Aligned code blocks) {k : Nat} {block : List Instr} {f : Flow}
    (hk : blocks[k]? = some block) (hrun : runAll p block m = (f, m')) (hne : block ≠ []) :
    ∃ n, 0 < n ∧ Steps p blocks.flatten n (.before (blockStart blocks k), m)
      ((f.spot p code (k + 1)).shift (blockStart blocks), m') := by
  obtain ⟨hlt, hget⟩ := List.getElem?_eq_some_iff.mp hk
  have hsplit : blocks = blocks.take k ++ block :: blocks.drop (k + 1) := by
    rw [← hget, List.getElem_cons_drop, List.take_append_drop]
  have hcode : blocks.flatten =
      (blocks.take k).flatten ++ (block ++ (blocks.drop (k + 1)).flatten) := by
    conv => lhs; rw [hsplit]
    rw [List.flatten_append, List.flatten_cons]
  have hnext : blockStart blocks (k + 1) = blockStart blocks k + block.length := by
    rw [blockStart, blockStart, List.take_add_one, hk, List.flatten_append, List.length_append]
    simp
  obtain ⟨n, hsteps, hpos⟩ := Steps.block _ _ _ hcode hrun
  refine ⟨n, hpos hne, ?_⟩
  rw [← h.spot_flatten, hnext]
  exact hsteps

/-- **What each block keeps of its instruction, a run of the blocks keeps of a run of the
code**, step for step. -/
theorem simulates (h : Aligned code blocks) {R : Machine → Machine → Prop}
    (hstep : ∀ (pos : Nat) (i : Instr), code[pos]? = some i → ∃ block, blocks[pos]? = some block ∧
      block ≠ [] ∧ ∀ m m', R m m' →
        ∃ after, runAll p block m' = ((i.exec p m).1, after) ∧ R (i.exec p m).2 after)
    {n : Nat} {c d : Spot × Machine} (hrun : Steps p code n c d) (hc : R c.2 m') :
    ∃ n' after, n ≤ n' ∧ Steps p blocks.flatten n' (c.1.shift (blockStart blocks), m')
      (d.1.shift (blockStart blocks), after) ∧ R d.2 after := by
  induction hrun generalizing m' with
  | refl c => exact ⟨0, m', Nat.le_refl 0, .refl _, hc⟩
  | @step n pos m i d hi _ ih =>
      obtain ⟨block, hblock, hne, hfollows⟩ := hstep pos i hi
      obtain ⟨after, hexec, hafter⟩ := hfollows m m' hc
      obtain ⟨k, hk, hfirst⟩ := h.steps hblock hexec hne
      obtain ⟨n', last, hn, hrest, hlast⟩ := ih hafter
      exact ⟨n' + k, last, by omega, hfirst.trans hrest, hlast⟩

end Aligned

/-! ## Where values flow along a run -/

/-- Control may go from one position to another: as in `Flows`, or by a computed jump, which
may lead to any label. -/
inductive MayFlow (code : List Instr) : Nat → Nat → Prop
  | direct {s t : Nat} (h : Flows code s t) : MayFlow code s t
  | computed {s t : Nat} {op : Operand} {l : String} (hs : code[s]? = some (.jmp op))
      (hop : ∀ l, op ≠ .label l) (ht : code[t]? = some (.label l)) : MayFlow code s t

/-- How a piece of a register flows through a list of instructions. -/
def pieceFlow (code : List Instr) (x : Piece) : ValueFlow where
  edge := MayFlow code
  writes q := ∃ i, code[q]? = some i ∧ x ∈ i.pieceDefs
  reads q := ∃ i, code[q]? = some i ∧ x ∈ i.pieceReads

/-- Whether an instruction jumps to a place that it computes. -/
def Instr.jumpsAnywhere : Instr → Bool
  | jmp (.label _) => false
  | jmp _ => true
  | _ => false

/-- An instruction that reads and writes whole registers, those of `Instr.reads` and
`Instr.defs`, and does not jump to a place that it computes. -/
structure Instr.Whole (i : Instr) : Prop where
  reads : i.pieceReads = i.reads.flatMap Reg.pieces
  defs : i.pieceDefs = i.defs.flatMap Reg.pieces
  direct : i.jumpsAnywhere = false

instance (i : Instr) : Decidable i.Whole :=
  decidable_of_iff (i.pieceReads = i.reads.flatMap Reg.pieces ∧
    i.pieceDefs = i.defs.flatMap Reg.pieces ∧ i.jumpsAnywhere = false)
    ⟨fun ⟨hr, hd, hj⟩ => ⟨hr, hd, hj⟩, fun ⟨hr, hd, hj⟩ => ⟨hr, hd, hj⟩⟩

/-- Where instructions read and write whole registers, their pieces flow with them. -/
theorem pieceFlow_eq_flowOf (hwhole : ∀ i ∈ code, i.Whole) (x : Piece) :
    pieceFlow code x = flowOf code x.reg := by
  have hedge : MayFlow code = Flows code := by
    funext s t
    refine propext ⟨?_, .direct⟩
    intro h
    cases h with
    | direct h => exact h
    | @computed op l hs hop ht =>
        have hdirect := (hwhole _ (List.mem_of_getElem? hs)).direct
        cases op with
        | label l' => exact absurd rfl (hop l')
        | _ => cases hdirect
  have hwrites (q : Nat) : (pieceFlow code x).writes q = (flowOf code x.reg).writes q := by
    refine propext (exists_congr fun i => and_congr_right fun hi => ?_)
    rw [(hwhole i (List.mem_of_getElem? hi)).defs, Reg.mem_flatMap_pieces]
  have hreads (q : Nat) : (pieceFlow code x).reads q = (flowOf code x.reg).reads q := by
    refine propext (exists_congr fun i => and_congr_right fun hi => ?_)
    rw [(hwhole i (List.mem_of_getElem? hi)).reads, Reg.mem_flatMap_pieces, Instr.mem_uses]
  rw [pieceFlow, flowOf, ValueFlow.mk.injEq]
  exact ⟨hedge, funext hwrites, funext hreads⟩

theorem landing?_label {t : Target} {q : Nat} (h : landing? p code t = some q) :
    ∃ l, code[q]? = some (.label l) ∧ t.names p (.label l) = true := by
  rw [landing?, List.findIdx?_eq_some_iff_getElem] at h
  obtain ⟨hlt, hnames, -⟩ := h
  obtain ⟨l, hl⟩ := Target.isLabel_of_names hnames
  refine ⟨l, ?_, hl ▸ hnames⟩
  rw [List.getElem?_eq_getElem hlt, hl]

/-- An instruction takes control along the graph. -/
theorem mayFlow_of_exec {i : Instr} {s t : Nat} (hi : code[s]? = some i)
    (h : (i.exec p m).1.spot p code (s + 1) = .before t) : MayFlow code s t := by
  have hnext (hleaves : Peephole.leaves i = false) (ht : t = s + 1) : MayFlow code s t :=
    ht ▸ .direct (.next hi hleaves)
  have hstays (hleaves : Peephole.leaves i = false)
      (hflow : (i.exec p m).1 = .next ∨ (i.exec p m).1 = .fault) : MayFlow code s t := by
    rcases hflow with hflow | hflow
    · rw [hflow] at h
      cases h
      exact hnext hleaves rfl
    · rw [hflow] at h
      cases h
  have hgoto {target : Target} (hflow : (i.exec p m).1 = .goto target) :
      ∃ l, code[t]? = some (.label l) ∧ target.names p (.label l) = true := by
    rw [hflow, Flow.spot] at h
    cases hland : landing? p code target with
    | none =>
        rw [hland] at h
        cases h
    | some q =>
        rw [hland] at h
        cases h
        exact landing?_label hland
  cases i with
  | mov dst src => cases dst <;> exact hstays rfl (by simp [Instr.exec])
  | idiv src =>
      apply hstays rfl
      simp only [Instr.exec]
      cases Word.divide p.wraps m.dividend (m.value p src) <;> simp
  | jmp there =>
      obtain ⟨l, hl, hnames⟩ := hgoto rfl
      by_cases hlabel : ∃ l', there = .label l'
      · obtain ⟨l', rfl⟩ := hlabel
        have heq : l' = l := by simpa [Machine.target, Target.names] using hnames
        exact .direct (.jump hi rfl (heq ▸ hl))
      · exact .computed hi (fun l' hl' => hlabel ⟨l', hl'⟩) hl
  | jcc c l =>
      cases htaken : c.holds m.flags with
      | false =>
          refine hstays rfl (.inl ?_)
          simp [Instr.exec, htaken]
      | true =>
          obtain ⟨l', hl', hnames⟩ := @hgoto (.label l) (by simp [Instr.exec, htaken])
          have heq : l = l' := by simpa [Target.names] using hnames
          exact .direct (.jump hi rfl (heq ▸ hl'))
  | ret => cases h
  | _ => exact hstays rfl (.inl rfl)

end TreeBackend
