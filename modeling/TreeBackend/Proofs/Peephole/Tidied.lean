import TreeBackend.Proofs.Peephole.Sift

/-!
# Code with nothing left to drop

Tidied code is defined by what stands in it, not by the passes.  Each pass brings about one part of
that, and no later pass undoes it: dropping instructions brings no idle move back, and dropping a
jump to the next label leaves what stands in front of it with that same label next.

* `Tidied`: code without idle moves, unreached instructions and jumps to the next label.
* `tidied_tidy`: **tidying up leaves such code.**
* `tidy_eq_self_iff`: it changes nothing about such code, and only about such code.
* `tidy_idempotent`: **tidying up once is enough, and every label and every comment stays.**
-/

namespace TreeBackend.Peephole

/-- Every instruction has a property that may hang on what comes behind it. -/
def Throughout (P : Instr → List Annotated → Prop) : List Annotated → Prop
  | [] => True
  | a :: rest => P a.instr rest ∧ Throughout P rest

/-- What comes next is a label, if anything comes at all. -/
def LabelNext (code : List Annotated) : Prop := ∀ i ∈ next? code, isLabel i = true

/-- Where control leaves, a label comes next. -/
def Reached (code : List Annotated) : Prop :=
  Throughout (fun i rest => leaves i = true → LabelNext rest) code

/-- No jump goes to the label that comes next. -/
def Turning (code : List Annotated) : Prop :=
  Throughout (fun i rest => isFallthrough rest i = false) code

/-- There is nothing to drop. -/
structure Tidied (code : List Annotated) : Prop where
  busy : ∀ a ∈ code, isIdle a.instr = false
  reached : Reached code
  turning : Turning code

/-- Labels and comments, which are no machine code. -/
def isMark (i : Instr) : Bool := isLabel i || i.isComment

variable {a : Annotated} {i : Instr} {code rest : List Annotated} {reached : Bool}

/-! ## Labels and comments -/

theorem isMark_of_isLabel (h : isLabel i = true) : isMark i = true := by simp [isMark, h]

theorem isMark_of_isComment (h : i.isComment = true) : isMark i = true := by simp [isMark, h]

/-- A label or a comment is no idle move, and control goes on behind it. -/
theorem plain_of_isMark (h : isMark i = true) : isIdle i = false ∧ leaves i = false := by
  cases i with
  | label l => exact ⟨rfl, rfl⟩
  | comment t => exact ⟨rfl, rfl⟩
  | _ => cases h

theorem isComment_of_isLabel (h : isLabel i = true) : i.isComment = false := by
  cases i with
  | label l => rfl
  | _ => cases h

/-! ## What comes next -/

theorem next?_cons_of_comment (h : a.instr.isComment = true) : next? (a :: rest) = next? rest := by
  rw [next?, next?, List.find?_cons_of_neg (by simp [h])]

theorem next?_cons_of_not_comment (h : a.instr.isComment = false) :
    next? (a :: rest) = some a.instr := by
  rw [next?, List.find?_cons_of_pos (by simp [h])]
  rfl

theorem labelNext_nil : LabelNext [] := by
  intro i hi
  cases hi

theorem labelNext_cons_of_isLabel (h : isLabel a.instr = true) : LabelNext (a :: rest) := by
  intro i hi
  rw [next?_cons_of_not_comment (isComment_of_isLabel h)] at hi
  cases hi
  exact h

theorem labelNext_cons_of_comment (h : a.instr.isComment = true) :
    LabelNext (a :: rest) ↔ LabelNext rest := by
  rw [LabelNext, LabelNext, next?_cons_of_comment h]

/-! ## Unreached code -/

/-- Where control does not come to, nothing but comments stays in front of the next label. -/
theorem labelNext_dropUnreachedFrom (code : List Annotated) :
    LabelNext (dropUnreachedFrom false code) := by
  induction code with
  | nil => exact labelNext_nil
  | cons a rest ih =>
      rw [dropUnreachedFrom]
      split
      · next hlabel => exact labelNext_cons_of_isLabel hlabel
      split
      · next hcomment => exact (labelNext_cons_of_comment hcomment).mpr ih
      · exact ih

theorem reached_dropUnreachedFrom (reached : Bool) (code : List Annotated) :
    Reached (dropUnreachedFrom reached code) := by
  fun_induction dropUnreachedFrom reached code with
  | case1 => trivial
  | case2 reached a rest hlabel ih =>
      refine ⟨fun hleaves => ?_, ih⟩
      rw [(plain_of_isMark (isMark_of_isLabel hlabel)).2] at hleaves
      cases hleaves
  | case3 reached a rest _ hcomment ih =>
      refine ⟨fun hleaves => ?_, ih⟩
      rw [(plain_of_isMark (isMark_of_isComment hcomment)).2] at hleaves
      cases hleaves
  | case4 a rest _ _ ih =>
      refine ⟨fun hleaves => ?_, ih⟩
      rw [hleaves]
      exact labelNext_dropUnreachedFrom rest
  | case5 reached a rest _ _ _ ih => exact ih

/-- Nothing is dropped of reached code, if control comes to its start or to a label there. -/
theorem dropUnreachedFrom_eq_self (h : Reached code) (hstart : reached = true ∨ LabelNext code) :
    dropUnreachedFrom reached code = code := by
  induction code generalizing reached with
  | nil => rfl
  | cons a rest ih =>
      rw [dropUnreachedFrom]
      by_cases hlabel : isLabel a.instr = true
      · rw [if_pos hlabel, ih h.2 (.inl rfl)]
      rw [if_neg hlabel]
      by_cases hcomment : a.instr.isComment = true
      · rw [if_pos hcomment, ih h.2 (hstart.imp_right (labelNext_cons_of_comment hcomment).mp)]
      rw [if_neg hcomment]
      rcases hstart with rfl | hnext
      · rw [if_pos rfl, ih h.2]
        cases hleaves : leaves a.instr with
        | true => exact .inr (h.1 hleaves)
        | false => exact .inl rfl
      · -- the instruction itself comes next, and it is no label
        rw [Bool.not_eq_true] at hcomment
        exact absurd (hnext a.instr (next?_cons_of_not_comment hcomment)) hlabel

/-! ## Jumps to the next label -/

theorem isFallthrough_congr (h : next? code = next? rest) (i : Instr) :
    isFallthrough code i = isFallthrough rest i := by
  unfold isFallthrough
  rw [h]

theorem isFallthrough_of_not_leaves (h : leaves i = false) : isFallthrough rest i = false := by
  unfold isFallthrough
  split
  · cases h
  · rfl

theorem isFallthrough_of_isMark (h : isMark i = true) : isFallthrough rest i = false :=
  isFallthrough_of_not_leaves (plain_of_isMark h).2

theorem next?_dropFallthrough (h : LabelNext code) : next? (dropFallthrough code) = next? code := by
  induction code with
  | nil => rfl
  | cons a rest ih =>
      cases hcomment : a.instr.isComment with
      | true =>
          rw [dropFallthrough, isFallthrough_of_isMark (isMark_of_isComment hcomment),
            if_neg Bool.false_ne_true, next?_cons_of_comment hcomment,
            next?_cons_of_comment hcomment, ih ((labelNext_cons_of_comment hcomment).mp h)]
      | false =>
          have hlabel := h a.instr (next?_cons_of_not_comment hcomment)
          rw [dropFallthrough, isFallthrough_of_isMark (isMark_of_isLabel hlabel),
            if_neg Bool.false_ne_true, next?_cons_of_not_comment hcomment,
            next?_cons_of_not_comment hcomment]

/-- Reached code stays reached without its jumps to the next label, and no such jump is left.
Where control leaves, the label that comes next stays. -/
theorem Reached.dropFallthrough (h : Reached code) :
    Reached (dropFallthrough code) ∧ Turning (dropFallthrough code) := by
  induction code with
  | nil => exact ⟨trivial, trivial⟩
  | cons a rest ih =>
      obtain ⟨hreached, hturning⟩ := ih h.2
      rw [Peephole.dropFallthrough]
      cases hfalls : isFallthrough rest a.instr with
      | true =>
          rw [if_pos rfl]
          exact ⟨hreached, hturning⟩
      | false =>
          rw [if_neg Bool.false_ne_true]
          refine ⟨⟨fun hleaves => ?_, hreached⟩, ⟨?_, hturning⟩⟩
          · rw [LabelNext, next?_dropFallthrough (h.1 hleaves)]
            exact h.1 hleaves
          · cases hleaves : leaves a.instr with
            | true => rw [isFallthrough_congr (next?_dropFallthrough (h.1 hleaves)), hfalls]
            | false => exact isFallthrough_of_not_leaves hleaves

theorem dropFallthrough_eq_self (h : Turning code) : dropFallthrough code = code := by
  induction code with
  | nil => rfl
  | cons a rest ih => rw [dropFallthrough, h.1, if_neg Bool.false_ne_true, ih h.2]

/-! ## All three passes -/

/-- **Tidying up leaves tidied code.** -/
theorem tidied_tidy (code : List Annotated) : Tidied (tidy code) := by
  obtain ⟨hreached, hturning⟩ := (reached_dropUnreachedFrom true (dropIdle code)).dropFallthrough
  refine ⟨fun a ha => ?_, hreached, hturning⟩
  have hsub : (tidy code).Sublist (dropIdle code) :=
    (dropFallthrough_sublist _).trans (dropUnreachedFrom_sublist true _)
  simpa using (List.mem_filter.mp (hsub.subset ha)).2

theorem Tidied.tidy_eq (h : Tidied code) : tidy code = code := by
  have hidle : dropIdle code = code :=
    List.filter_eq_self.mpr fun a ha => by rw [h.busy a ha]; rfl
  rw [tidy, hidle, dropUnreached, dropUnreachedFrom_eq_self h.reached (.inl rfl),
    dropFallthrough_eq_self h.turning]

/-- Tidying up leaves code alone exactly if there is nothing to drop. -/
theorem tidy_eq_self_iff : tidy code = code ↔ Tidied code :=
  ⟨fun h => h ▸ tidied_tidy code, Tidied.tidy_eq⟩

/-- Labels and comments stay, in their order. -/
theorem filter_isMark_tidy (code : List Annotated) :
    (tidy code).filter (isMark ·.instr) = code.filter (isMark ·.instr) := by
  rw [tidy, dropFallthrough_eq_sift, Sieve.filter_sift, dropUnreached_eq_sift, Sieve.filter_sift,
    dropIdle_eq_sift, Sieve.filter_sift]
  · intro _ _ a ha
    simp [Sieve.filtering, (plain_of_isMark ha).1]
  · intro _ _ a ha
    rw [isMark] at ha
    simp [unreachedSieve, ha]
  · intro _ rest a ha
    simp [fallthroughSieve, isFallthrough_of_isMark ha]

theorem mem_tidy_of_isMark (h : isMark a.instr = true) (ha : a ∈ code) : a ∈ tidy code := by
  have hmem : a ∈ code.filter (isMark ·.instr) := List.mem_filter.mpr ⟨ha, h⟩
  rw [← filter_isMark_tidy] at hmem
  exact (List.mem_filter.mp hmem).1

/-- **Tidying up once is enough**, whatever the code, and however its labels are defined.  It leaves
instructions out and changes none, and no label and no comment is left out. -/
theorem tidy_idempotent (code : List Annotated) :
    tidy (tidy code) = tidy code ∧ (tidy code).Sublist code ∧
      (tidy code).filter (isMark ·.instr) = code.filter (isMark ·.instr) :=
  ⟨(tidied_tidy code).tidy_eq, tidy_sublist code, filter_isMark_tidy code⟩

end TreeBackend.Peephole
