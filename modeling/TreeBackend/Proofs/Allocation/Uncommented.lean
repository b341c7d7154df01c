import TreeBackend.Proofs.Allocation.Renamed
import TreeBackend.Proofs.Allocation.Renumbered
import TreeBackend.Proofs.Allocation.Simulation
import TreeBackend.Proofs.Peephole.Meaning

/-!
# Allocation looks through comments

A comment has a position like any instruction, so leaving comments out moves all that comes after
them.  But what is left keeps its order: the instruction at a position `k` of the code without
comments stands at a position `siteOf code k` of the code (`spread_siteOf`), and `siteOf code` is
strictly monotone.  Intervals, windows and jumps are renumbered by it, and each instruction is put
on the homes it would have without the comments.

* `Spread`: code with comments put between its instructions.
* `Spread.settled_eq`: its intervals and windows are renumbered.
* `Allocation.sameOutcome_of_comments`: **comments change nothing but comments in what the
  allocators and the passes after them make of code.**
-/

namespace TreeBackend

/-- The instructions without the comments among them. -/
def withoutComments (code : List Instr) : List Instr := code.filter (!·.isComment)

/-- Where an instruction stands that has a position in the code without comments. -/
def siteOf : List Instr → Nat → Nat
  | [], k => k
  | i :: rest, k =>
    if i.isComment then siteOf rest k + 1
    else
      match k with
      | 0 => 0
      | k + 1 => siteOf rest k + 1

theorem strictMono_siteOf (code : List Instr) : StrictMono (siteOf code) := by
  induction code with
  | nil => exact strictMono_id
  | cons i rest ih =>
      intro j k hjk
      cases hcomment : i.isComment with
      | true =>
          simp only [siteOf, hcomment, if_true]
          exact Nat.succ_lt_succ (ih hjk)
      | false =>
          obtain ⟨k, rfl⟩ : ∃ n, k = n + 1 := ⟨k - 1, by omega⟩
          cases j with
          | zero => simp [siteOf, hcomment]
          | succ j =>
              simp only [siteOf, hcomment, Bool.false_eq_true, if_false]
              exact Nat.succ_lt_succ (ih (Nat.lt_of_succ_lt_succ hjk))

/-- The positions of instructions, in their order. -/
def siteEmbedding (code : List Instr) : Nat ↪o Nat := .ofStrictMono _ (strictMono_siteOf code)

/-- Code from a position on, and the same code with comments put between its instructions: the
instruction at a position `k` of the one stands at the position `σ k` of the other. -/
inductive Spread (σ : Nat → Nat) : Nat → List Instr → Nat → List Instr → Prop
  | nil (pos pos' : Nat) : Spread σ pos [] pos' []
  | comment {pos pos' : Nat} {code code' : List Instr} (text : String)
      (rest : Spread σ pos code (pos' + 1) code') : Spread σ pos code pos' (.comment text :: code')
  | instr {pos pos' : Nat} {code code' : List Instr} (i : Instr) (site : σ pos = pos')
      (rest : Spread σ (pos + 1) code (pos' + 1) code') :
      Spread σ pos (i :: code) pos' (i :: code')

theorem spread_of_site {σ : Nat → Nat} {code : List Instr} {pos pos' : Nat}
    (hσ : ∀ k, σ (pos + k) = pos' + siteOf code k) :
    Spread σ pos (withoutComments code) pos' code := by
  induction code generalizing pos pos' with
  | nil => exact .nil pos pos'
  | cons i rest ih =>
      cases hcomment : i.isComment with
      | true =>
          obtain ⟨text, rfl⟩ : ∃ text, i = .comment text := by
            cases i with
            | comment text => exact ⟨text, rfl⟩
            | _ => cases hcomment
          refine .comment text (ih fun k => ?_)
          have := hσ k
          simp only [siteOf, hcomment, if_true] at this
          omega
      | false =>
          have hcons : withoutComments (i :: rest) = i :: withoutComments rest := by
            simp [withoutComments, hcomment]
          rw [hcons]
          refine .instr i ?_ (ih fun k => ?_)
          · have := hσ 0
            simpa [siteOf, hcomment] using this
          · have := hσ (k + 1)
            simp only [siteOf, hcomment, Bool.false_eq_true, if_false] at this
            rw [show pos + 1 + k = pos + (k + 1) by omega]
            omega

/-- **Code is spread over the places that its comments leave.** -/
theorem spread_siteOf (code : List Instr) :
    Spread (siteEmbedding code) 0 (withoutComments code) 0 code :=
  spread_of_site fun k => by rw [Nat.zero_add, Nat.zero_add]; rfl

namespace Spread

/-! ## Registers -/

section
variable {σ : Nat → Nat} {pos pos' : Nat} {code code' : List Instr}

theorem checkWrittenFrom_eq (h : Spread σ pos code pos' code') (written : List VirtualReg) :
    checkWrittenFrom written code' = checkWrittenFrom written code := by
  induction h generalizing written with
  | nil => rfl
  | comment text _ ih => exact ih written
  | instr i _ _ ih => simp only [checkWrittenFrom, ih]

theorem slotHomes_eq (h : Spread σ pos code pos' code') : slotHomes code' = slotHomes code := by
  have hvirtuals : code'.flatMap Instr.virtuals = code.flatMap Instr.virtuals := by
    induction h with
    | nil => rfl
    | comment text _ ih => exact ih
    | instr i _ _ ih => rw [List.flatMap_cons, List.flatMap_cons, ih]
  rw [slotHomes, slotHomes, virtualsIn, virtualsIn, hvirtuals]

end

/-! ## Intervals and windows -/

variable {σ : Nat ↪o Nat} {pos pos' : Nat} {code code' : List Instr}

theorem intervalsFrom_eq (h : Spread σ pos code pos' code') (found : List Interval) :
    Liveness.intervalsFrom (found.map (Interval.renumber σ)) pos' code' =
      (Liveness.intervalsFrom found pos code).map (Interval.renumber σ) := by
  induction h generalizing found with
  | nil => rfl
  | comment text _ ih => exact ih found
  | instr i hsite _ ih =>
      rw [Liveness.intervalsFrom, Liveness.intervalsFrom, ← hsite, Liveness.foldl_touch_renumber,
        hsite, ih]

theorem windowsFrom_eq (h : Spread σ pos code pos' code') (p : PhysReg) (found : List Span) :
    Liveness.windowsFrom p (found.map (Span.renumber σ)) pos' code' =
      (Liveness.windowsFrom p found pos code).map (Span.renumber σ) := by
  induction h generalizing found with
  | nil => rfl
  | comment text _ ih => exact ih found
  | instr i hsite _ ih =>
      rw [Liveness.windowsFrom, Liveness.windowsFrom, ← hsite, Liveness.note_renumber, hsite, ih]

theorem positionFrom?_eq (h : Spread σ pos code pos' code') (l : String) :
    Edge.positionFrom? l pos' code' = (Edge.positionFrom? l pos code).map σ := by
  induction h with
  | nil => rfl
  | comment text _ ih =>
      rw [Edge.positionFrom?, ih]
      cases Edge.positionFrom? l _ _ <;> rfl
  | instr i hsite _ ih =>
      rw [Edge.positionFrom?, Edge.positionFrom?, ih]
      cases Edge.positionFrom? l _ _ with
      | some later => rfl
      | none =>
          by_cases hlabel : i = .label l
          · rw [Option.map_none, if_pos hlabel, if_pos hlabel, ← hsite, Option.map_some]
          · rw [Option.map_none, if_neg hlabel, if_neg hlabel, Option.map_none]

theorem edgesFrom_eq {whole whole' : List Instr} (hwhole : Spread σ 0 whole 0 whole')
    (h : Spread σ pos code pos' code') :
    Edge.edgesFrom whole' pos' code' = (Edge.edgesFrom whole pos code).map (Edge.renumber σ) := by
  induction h with
  | nil => rfl
  | comment text _ ih => exact ih
  | instr i hsite _ ih =>
      have htarget : i.jumpTarget?.bind (Edge.positionFrom? · 0 whole') =
          (i.jumpTarget?.bind (Edge.positionFrom? · 0 whole)).map σ := by
        cases i.jumpTarget? with
        | none => rfl
        | some l => exact hwhole.positionFrom?_eq l
      rw [Edge.edgesFrom, Edge.edgesFrom, htarget, ih]
      cases i.jumpTarget?.bind (Edge.positionFrom? · 0 whole) with
      | none => rfl
      | some target => rw [Option.map_some, ← hsite, List.map_cons, Edge.renumber]

/-- **Between comments the code has renumbered intervals and windows.** -/
theorem settled_eq (h : Spread σ 0 code 0 code') :
    Liveness.settled code' = (Liveness.settled code).renumber σ := by
  have hintervals := h.intervalsFrom_eq []
  have hedges : Edge.ofCode code' = (Edge.ofCode code).map (Edge.renumber σ) := edgesFrom_eq h h
  have hwindows (p : PhysReg) : Liveness.windowsIn code' p =
      (Liveness.windowsIn code p).map (Span.renumber σ) := by
    rw [Liveness.windowsIn, Liveness.windowsIn]
    cases p.isFrame with
    | true => rfl
    | false => exact (congrArg _ (h.windowsFrom_eq p [])).trans List.map_reverse.symm
  have hsettle (iv : Interval) :
      ({ iv.renumber σ with span := (iv.renumber σ).span.settle (Edge.ofCode code') } : Interval) =
        Interval.renumber σ { iv with span := iv.span.settle (Edge.ofCode code) } := by
    rw [hedges]
    exact congrArg (Interval.mk iv.reg) (iv.span.settle_renumber σ (Edge.ofCode code))
  rw [List.map_nil] at hintervals
  rw [Liveness.settled, Liveness.settled, Liveness.settle, Liveness.settle, Liveness.renumber,
    Liveness.ofCode, Liveness.ofCode, hintervals]
  simp only [hwindows, List.map_map, Function.comp_def, hsettle]

theorem place_eq (h : Spread σ 0 code 0 code') :
    (Liveness.settled code').place = (Liveness.settled code).place.map (Placement.renumber σ) := by
  rw [h.settled_eq, Liveness.place_renumber]

end Spread

/-! ## Instructions on their homes -/

/-- Blocks of code one after the other, without the comments. -/
def bareBlocks (blocks : List (List Annotated)) : List Annotated := Peephole.bare blocks.flatten

theorem map_bareBlocks_cons (block : List Annotated)
    (rest : Except CompileError (List (List Annotated))) :
    (do pure (block :: (← rest))).map bareBlocks =
      (rest.map bareBlocks).map (Peephole.bare block ++ ·) := by
  cases rest with
  | error e => rfl
  | ok blocks => exact congrArg Except.ok (Peephole.bare_append block blocks.flatten)

namespace Spread

section
variable {σ : Nat → Nat} {pos pos' : Nat} {code code' : List Instr}

/-- What is greatest among the instructions is greatest between comments, if comments are worth
nothing. -/
theorem foldr_max_eq {f f' : Instr × Nat → Nat} (hcomment : ∀ t k, f' (.comment t, k) = 0)
    (hinstr : ∀ i k, f' (i, σ k) = f (i, k)) (h : Spread σ pos code pos' code') :
    ((code'.zipIdx pos').map f').foldr max 0 = ((code.zipIdx pos).map f).foldr max 0 := by
  induction h with
  | nil => rfl
  | comment text _ ih =>
      rw [List.zipIdx_cons, List.map_cons, List.foldr_cons, hcomment, Nat.zero_max, ih]
  | instr i hsite _ ih =>
      rw [List.zipIdx_cons, List.zipIdx_cons, List.map_cons, List.map_cons, List.foldr_cons,
        List.foldr_cons, ih, ← hsite, hinstr]

/-- Instructions that become the same code become the same code between comments, if comments
become comments. -/
theorem bareBlocks_mapM {f f' : Instr × Nat → Except CompileError (List Annotated)}
    (hcomment : ∀ t k, f' (.comment t, k) = .ok [{ instr := .comment t }])
    (hinstr : ∀ i k, f' (i, σ k) = f (i, k)) (h : Spread σ pos code pos' code') :
    ((code'.zipIdx pos').mapM f').map bareBlocks = ((code.zipIdx pos).mapM f).map bareBlocks := by
  induction h with
  | nil => rfl
  | comment text _ ih =>
      rw [List.zipIdx_cons, List.mapM_cons, hcomment]
      refine (map_bareBlocks_cons _ _).trans ?_
      rw [ih]
      cases List.mapM f _ <;> rfl
  | instr i hsite _ ih =>
      rw [List.zipIdx_cons, List.zipIdx_cons, List.mapM_cons, List.mapM_cons, ← hsite, hinstr,
        hsite]
      cases f (i, _) with
      | error e => rfl
      | ok block =>
          refine (map_bareBlocks_cons _ _).trans ?_
          rw [ih]
          exact (map_bareBlocks_cons _ _).symm

end

variable {σ : Nat ↪o Nat} {code code' : List Instr}

theorem mostSaved_eq (h : Spread σ 0 code 0 code') (placed : List Placement) :
    mostSaved (placed.map (Placement.renumber σ)) code' = mostSaved placed code := by
  refine h.foldr_max_eq (fun t k => rfl) fun i k => ?_
  show (if i.isCall then (savedAt (placed.map _) (σ k)).length else 0) = _
  rw [savedAt_renumber]

theorem mapM_housePlaced (h : Spread σ 0 code 0 code') (placed : List Placement) :
    (code'.zipIdx.mapM fun e =>
      housePlaced (placed.map (Placement.renumber σ)) e.1 e.2).map bareBlocks =
    (code.zipIdx.mapM fun e => housePlaced placed e.1 e.2).map bareBlocks :=
  h.bareBlocks_mapM (fun _ _ => rfl) fun i k => housePlaced_renumber σ placed i k

theorem mapM_house (h : Spread σ 0 code 0 code') (homes : Homes) :
    (code'.mapM homes.house).map bareBlocks = (code.mapM homes.house).map bareBlocks := by
  have hzip (code : List Instr) : code.mapM homes.house =
      code.zipIdx.mapM fun e => homes.house e.1 := by
    conv_lhs => rw [← List.zipIdx_map_fst 0 code, List.mapM_map]
    rfl
  rw [hzip, hzip]
  refine h.bareBlocks_mapM (fun t k => ?_) (fun i k => ?_)
  · rfl
  · rfl

end Spread

/-! ## Outcomes -/

namespace Allocation

/-- An allocation without the comments in its code. -/
def bare (a : Allocation) : Allocation := { a with code := Peephole.bare a.code }

/-- The same outcome but for comments: the same error, or frames of one size and code that is the
same without the comments, and still is when it has been tidied up. -/
inductive SameOutcome : Except CompileError Allocation → Except CompileError Allocation → Prop
  | refused (e : CompileError) : SameOutcome (.error e) (.error e)
  | accepted {a b : Allocation} (slots : a.slots = b.slots)
      (code : Peephole.bare a.code = Peephole.bare b.code)
      (tidied : Peephole.bare (Peephole.tidy a.code) = Peephole.bare (Peephole.tidy b.code)) :
      SameOutcome (.ok a) (.ok b)

theorem sameOutcome_of_map_bare {x y : Except CompileError Allocation}
    (h : x.map bare = y.map bare) : SameOutcome x y := by
  cases x with
  | error e =>
      cases y with
      | error e' =>
          cases h
          exact .refused e
      | ok b => cases h
  | ok a =>
      cases y with
      | error e' => cases h
      | ok b =>
          obtain ⟨hcode, hslots⟩ := Allocation.mk.inj (Except.ok.inj h)
          refine .accepted hslots hcode ?_
          rw [Peephole.bare_tidy, Peephole.bare_tidy, hcode]

/-- Blocks that are the same without comments make allocations that are. -/
theorem map_bare_of_blocks {x y : Except CompileError (List (List Annotated))} (slots : Nat)
    (h : x.map bareBlocks = y.map bareBlocks) :
    (do pure { code := (← x).flatten, slots := slots : Allocation}).map bare =
      (do pure { code := (← y).flatten, slots := slots : Allocation}).map bare := by
  have hmap (x : Except CompileError (List (List Annotated))) :
      (do pure { code := (← x).flatten, slots := slots : Allocation}).map bare =
        (x.map bareBlocks).map fun code => { code, slots } := by
    cases x <;> rfl
  rw [hmap, hmap, h]

theorem allocateSlots_withoutComments (code : List Instr) :
    (allocateSlots code).map bare = (allocateSlots (withoutComments code)).map bare := by
  have hspread := spread_siteOf code
  have hwritten : checkWritten code = checkWritten (withoutComments code) :=
    hspread.checkWrittenFrom_eq []
  rw [allocateSlots, allocateSlots, hwritten, hspread.slotHomes_eq]
  cases checkWritten (withoutComments code) with
  | error e => rfl
  | ok _ => exact map_bare_of_blocks _ (hspread.mapM_house _)

theorem allocateScan_withoutComments (code : List Instr) :
    (allocateScan code).map bare = (allocateScan (withoutComments code)).map bare := by
  have hspread := spread_siteOf code
  have hwritten : checkWritten code = checkWritten (withoutComments code) :=
    hspread.checkWrittenFrom_eq []
  rw [allocateScan_eq, allocateScan_eq, hwritten, hspread.place_eq, slotsOf_renumber,
    hspread.mostSaved_eq]
  cases checkWritten (withoutComments code) with
  | error e => rfl
  | ok _ => exact map_bare_of_blocks _ (hspread.mapM_housePlaced _)

/-- **Comments change nothing but comments.**  Code that differs in comments only is refused with
the same error or gets a frame of the same size and the same instructions, from either allocator,
and tidying up leaves the same of them. -/
theorem sameOutcome_of_comments {code code' : List Instr}
    (h : withoutComments code = withoutComments code') :
    SameOutcome (allocateSlots code) (allocateSlots code') ∧
      SameOutcome (allocateScan code) (allocateScan code') := by
  refine ⟨sameOutcome_of_map_bare ?_, sameOutcome_of_map_bare ?_⟩
  · rw [allocateSlots_withoutComments, allocateSlots_withoutComments code', h]
  · rw [allocateScan_withoutComments, allocateScan_withoutComments code', h]

end Allocation

/-- The countdown with comments at its jump, around its call and at both ends. -/
def remarkedCountdown : List Instr :=
  [.comment "count down",
   .mov (.reg (.fresh 0)) (.imm 3),
   .label "top",
   .comment "once more",
   .push (.reg (.fresh 0)),
   .alu .sub (.fresh 0) (.imm 1),
   .cmp (.reg (.fresh 0)) (.imm 0),
   .jcc .ne "top",
   .comment "nothing is left",
   .comment "f may overwrite registers",
   .call (.label "f"),
   .comment "f has returned",
   .alu .add (.phys .eax) (.reg (.fresh 0))] ++ Instr.epilogue ++ [.comment "done"]

theorem Allocation.sameOutcome_remarkedCountdown :
    withoutComments countdown = withoutComments remarkedCountdown ∧
      SameOutcome (allocateSlots countdown) (allocateSlots remarkedCountdown) ∧
      SameOutcome (allocateScan countdown) (allocateScan remarkedCountdown) ∧
      ∃ a, allocateScan countdown = .ok a ∧ a.slots = 1 := by
  have hsame : withoutComments countdown = withoutComments remarkedCountdown := by decide
  obtain ⟨hslots, hscan⟩ := sameOutcome_of_comments hsame
  exact ⟨hsame, hslots, hscan, allocateScan_countdown⟩

end TreeBackend
