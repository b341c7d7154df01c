import TreeBackend.Proofs.Peephole.Meaning
import TreeBackend.Proofs.Program.Symbols

/-!
# Where functions end

A function gets the code that leaves it behind its body, unless the body ends in a return.  Tidying
up may drop that code again, and what stands before it, but only where control does not come to, and
so the last instruction that stays is still one that control leaves at.

* `Peephole.Closes`: code whose last instruction, comments apart, is a return or a jump.
* `Peephole.Closes.tidy`: tidied code is closed if the code is.
* `not_halts_pastEnd`: no run of closed code goes past its end.
* `Function.never_falls_through`: **an assembled function ends in a return or a jump, and control
  never goes on behind it.**
-/

namespace TreeBackend.Peephole

/-- The last instruction is one that control leaves at, but for comments behind it. -/
inductive Closes : List Annotated → Prop
  | last (a : Annotated) (after : List Annotated) (hleaves : leaves a.instr = true)
      (hafter : ∀ b ∈ after, b.instr.isComment = true) : Closes (a :: after)
  | cons (a : Annotated) {rest : List Annotated} (h : Closes rest) : Closes (a :: rest)

theorem eq_of_leaves {i : Instr} (h : leaves i = true) : i = .ret ∨ ∃ target, i = .jmp target := by
  cases i with
  | ret => exact .inl rfl
  | jmp target => exact .inr ⟨target, rfl⟩
  | _ => cases h

/-- What control leaves at is no idle move, no label and no comment. -/
theorem plain_of_leaves {i : Instr} (h : leaves i = true) :
    isIdle i = false ∧ isLabel i = false ∧ i.isComment = false := by
  rcases eq_of_leaves h with rfl | ⟨target, rfl⟩
  · exact ⟨rfl, rfl, rfl⟩
  · exact ⟨rfl, rfl, rfl⟩

namespace Closes

variable {code : List Annotated}

theorem append (before : List Annotated) (h : Closes code) : Closes (before ++ code) := by
  induction before with
  | nil => exact h
  | cons a _ ih => exact .cons a ih

/-- Closed code splits at its last instruction. -/
theorem split (h : Closes code) : ∃ before a after, code = before ++ a :: after ∧
    leaves a.instr = true ∧ ∀ b ∈ after, b.instr.isComment = true := by
  induction h with
  | last a after hleaves hafter => exact ⟨[], a, after, rfl, hleaves, hafter⟩
  | cons a _ ih =>
      obtain ⟨before, b, after, rfl, hleaves, hafter⟩ := ih
      exact ⟨a :: before, b, after, rfl, hleaves, hafter⟩

/-! ## Tidying up -/

theorem dropIdle (h : Closes code) : Closes (Peephole.dropIdle code) := by
  induction h with
  | last a after hleaves hafter =>
      obtain ⟨hstays, -, -⟩ := plain_of_leaves hleaves
      rw [Peephole.dropIdle, List.filter_cons_of_pos (by simp [hstays])]
      exact .last a _ hleaves fun b hb => hafter b (List.mem_filter.mp hb).1
  | @cons a rest _ ih =>
      cases hidle : isIdle a.instr with
      | true =>
          rw [Peephole.dropIdle, List.filter_cons_of_neg (by simp [hidle])]
          exact ih
      | false =>
          rw [Peephole.dropIdle, List.filter_cons_of_pos (by simp [hidle])]
          exact .cons a ih

/-- What stays of closed code is closed.  Only if control does not come to its start may nothing
but comments stay. -/
theorem dropUnreachedFrom (h : Closes code) (reached : Bool) :
    Closes (Peephole.dropUnreachedFrom reached code) ∨
      reached = false ∧
        ∀ b ∈ Peephole.dropUnreachedFrom reached code, b.instr.isComment = true := by
  induction h generalizing reached with
  | last a after hleaves hafter =>
      obtain ⟨-, hlabel, hcomment⟩ := plain_of_leaves hleaves
      have hrest (b : Annotated) (hb : b ∈ Peephole.dropUnreachedFrom false after) :
          b.instr.isComment = true :=
        hafter b ((dropUnreachedFrom_sublist false after).subset hb)
      rw [Peephole.dropUnreachedFrom, if_neg (by simp [hlabel]), if_neg (by simp [hcomment])]
      cases reached with
      | true =>
          rw [if_pos rfl, hleaves]
          exact .inl (.last a _ hleaves hrest)
      | false => exact .inr ⟨rfl, hrest⟩
  | @cons a rest _ ih =>
      rw [Peephole.dropUnreachedFrom]
      by_cases hlabel : isLabel a.instr = true
      · rw [if_pos hlabel]
        rcases ih true with hclosed | ⟨hfalse, -⟩
        · exact .inl (.cons a hclosed)
        · cases hfalse
      rw [if_neg hlabel]
      by_cases hcomment : a.instr.isComment = true
      · rw [if_pos hcomment]
        rcases ih reached with hclosed | ⟨hfalse, hrest⟩
        · exact .inl (.cons a hclosed)
        · exact .inr ⟨hfalse, List.forall_mem_cons.mpr ⟨hcomment, hrest⟩⟩
      rw [if_neg hcomment]
      cases reached with
      | false =>
          rcases ih false with hclosed | hrest
          · exact .inl hclosed
          · exact .inr hrest
      | true =>
          rw [if_pos rfl]
          rcases ih (!leaves a.instr) with hclosed | ⟨hleaves, hrest⟩
          · exact .inl (.cons a hclosed)
          · -- control leaves at this instruction, and nothing but comments stays behind it
            exact .inl (.last a _ (by simpa using hleaves) hrest)

theorem dropFallthrough (h : Closes code) : Closes (Peephole.dropFallthrough code) := by
  induction h with
  | last a after hleaves hafter =>
      have hnext : next? after = none := by
        rw [next?, List.find?_eq_none.mpr fun b hb => by simp [hafter b hb]]
        rfl
      have hstays : isFallthrough after a.instr = false := by
        unfold isFallthrough
        rw [hnext]
        split <;> rfl
      rw [Peephole.dropFallthrough, hstays, if_neg (by decide)]
      exact .last a _ hleaves fun b hb => hafter b ((dropFallthrough_sublist after).subset hb)
  | @cons a rest _ ih =>
      rw [Peephole.dropFallthrough]
      split
      · exact ih
      · exact .cons a ih

/-- **Tidied code is closed if the code is.** -/
theorem tidy (h : Closes code) : Closes (Peephole.tidy code) := by
  rcases h.dropIdle.dropUnreachedFrom true with hclosed | ⟨htrue, -⟩
  · exact hclosed.dropFallthrough
  · cases htrue

/-! ## The end of a body -/

theorem of_endsInReturn (h : endsInReturn code = true) : Closes code := by
  rw [endsInReturn] at h
  cases hlast : code.reverse.find? (!·.instr.isComment) with
  | none =>
      rw [hlast] at h
      cases h
  | some a =>
      rw [hlast, Option.map_some, Option.getD_some] at h
      obtain ⟨-, after, before, hreverse, hafter⟩ := List.find?_eq_some_iff_append.mp hlast
      have hcode : code = before.reverse ++ a :: after.reverse := by
        rw [← List.reverse_reverse code, hreverse]
        simp
      have hleaves : leaves a.instr = true := by
        cases hi : a.instr with
        | ret => rfl
        | _ => simp [hi, Instr.isRet] at h
      rw [hcode]
      refine (Closes.last a _ hleaves fun b hb => ?_).append _
      simpa using hafter b (List.mem_reverse.mp hb)

/-- A body is closed when it has got the code that leaves the function. -/
theorem closeBody (code : List Annotated) : Closes (TreeBackend.closeBody code) := by
  rw [TreeBackend.closeBody]
  split
  · next hret => exact of_endsInReturn hret
  · exact append code (.cons _ (.cons _ (.last _ [] rfl (List.forall_mem_nil _))))

end Closes

end TreeBackend.Peephole

namespace TreeBackend

open Peephole (Closes leaves)

variable {code before after : List Instr} {i : Instr}

/-! ## Runs of closed code -/

/-- **No run goes past the end of code in which only comments stand behind an instruction that
control leaves at**, wherever control comes in. -/
theorem not_halts_pastEnd (hcode : code = before ++ i :: after) (hleaves : leaves i = true)
    (hafter : ∀ j ∈ after, j.isComment = true) (p : Platform) (entry : Option Target)
    (m m' : Machine) (log : List Moment) :
    ¬Halts p code (entrySpot p code entry, m) log .pastEnd m' := by
  have hi : code[before.length]? = some i := by simp [hcode]
  -- control comes no further than to the last instruction
  have hlabel (pos : Nat) (l : String) (hl : code[pos]? = some (.label l)) :
      pos ≤ before.length := by
    by_cases hbeyond : before.length < pos
    · obtain ⟨k, rfl⟩ : ∃ k, pos = before.length + (k + 1) := ⟨pos - before.length - 1, by omega⟩
      rw [hcode, List.getElem?_append_right (by omega), Nat.add_sub_cancel_left,
        List.getElem?_cons_succ] at hl
      cases hafter _ (List.mem_of_getElem? hl)
    · omega
  have hnext (pos : Nat) (j : Instr) (hpos : pos ≤ before.length) (hj : code[pos]? = some j)
      (hstays : leaves j = false) : pos + 1 ≤ before.length := by
    have hne : pos ≠ before.length := by
      rintro rfl
      rw [hi] at hj
      cases hj
      rw [hleaves] at hstays
      cases hstays
    omega
  rintro ⟨n, spot, hrun, hhalt⟩
  have hspot := hrun.isLive hnext hlabel (isLive_entrySpot hlabel (Nat.zero_le _) entry)
  cases spot with
  | ended how => cases hhalt
  | before pos =>
      have hpos : pos ≤ before.length := hspot
      have hlength := (List.getElem?_eq_some_iff.mp hi).1
      rw [Spot.halt?, if_pos (by omega)] at hhalt
      cases hhalt

/-! ## Functions -/

theorem Options.closes_tidy (o : Options) {code : List Annotated} (h : Closes code) :
    Closes (o.tidy code) := by
  rw [tidy]
  split
  · exact h.tidy
  · exact h

section
variable {o : Options} {f : Function} {t t' : TileTable} {selected : List Instr}
  {allocated : Allocation}

/-- **Control never falls out of a function.**  A function whose body can be selected and allocated
is assembled, and its last line but for comments returns or jumps.  Wherever control comes into the
function, it does not go past its end. -/
theorem Function.never_falls_through (hselect : f.body.tileBody t = .ok selected t')
    (halloc : o.allocate selected = .ok allocated) :
    ∃ lines, f.assemble o t = .ok lines t' ∧
      (∃ (before : List Line) (a : Annotated) (after : List Annotated),
        lines = before ++ .code a :: after.map .code ∧
        (a.instr = .ret ∨ ∃ target, a.instr = .jmp target) ∧
        ∀ b ∈ after, b.instr.isComment = true) ∧
      ∀ (p : Platform) (entry : Option Target) (m m' : Machine) (log : List Moment),
        ¬Halts p (Line.instrs lines) (entrySpot p (Line.instrs lines) entry, m) log
          .pastEnd m' := by
  have hassemble := assemble_of_stages hselect halloc
  have hclosed := Options.closes_tidy o (.closeBody allocated.code)
  obtain ⟨before, a, after, heq, hleaves, hafter⟩ := hclosed.split
  rw [linesOf, heq, List.map_append, List.map_cons, ← List.append_assoc] at hassemble
  refine ⟨_, hassemble, ⟨_, a, after, rfl, Peephole.eq_of_leaves hleaves, hafter⟩, ?_⟩
  have hinstrs (start : List Line) : Line.instrs (start ++ .code a :: after.map .code) =
      Line.instrs start ++ a.instr :: after.map Annotated.instr := by
    rw [Line.instrs_append, ← List.map_cons, Line.instrs_map_code, List.map_cons]
  exact not_halts_pastEnd (hinstrs _) hleaves (List.forall_mem_map.mpr hafter)

end

/-- A function that counts forever.  Its body ends in a jump and a comment, so the code that leaves
it is put there and dropped again. -/
def countForever : Function where
  label := "count"
  params := 0
  body := .seq ⟨0⟩
    [.move ⟨1⟩ (.temp ⟨2⟩ "n" false) (.const ⟨3⟩ 0),
     .label ⟨4⟩ "again",
     .move ⟨5⟩ (.temp ⟨6⟩ "n" false)
       (.binop ⟨7⟩ .add (.temp ⟨8⟩ "n" false) (.const ⟨9⟩ 1)),
     .jump ⟨10⟩ (.name ⟨11⟩ "again" false),
     .comment ⟨12⟩ "control does not come here"]

theorem Function.never_falls_through_countForever : ∃ selected t' allocated,
    countForever.body.tileBody {} = .ok selected t' ∧
      Options.allocate { allocator := .basic } selected = .ok allocated ∧
      ∃ lines, countForever.assemble { allocator := .basic } {} = .ok lines t' ∧
        (∃ (before : List Line) (a : Annotated) (after : List Annotated),
          lines = before ++ .code a :: after.map .code ∧
          (a.instr = .ret ∨ ∃ target, a.instr = .jmp target) ∧
          ∀ b ∈ after, b.instr.isComment = true) ∧
        ∀ (p : Platform) (entry : Option Target) (m m' : Machine) (log : List Moment),
          ¬Halts p (Line.instrs lines) (entrySpot p (Line.instrs lines) entry, m) log
            .pastEnd m' := by
  obtain ⟨selected, t', hselect, allocated, halloc⟩ :
      ∃ selected t', countForever.body.tileBody {} = .ok selected t' ∧
        ∃ allocated, Options.allocate { allocator := .basic } selected = .ok allocated :=
    ⟨_, _, rfl, _, rfl⟩
  exact ⟨selected, t', allocated, hselect, halloc, never_falls_through hselect halloc⟩

end TreeBackend
