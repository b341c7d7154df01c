import TreeBackend.Proofs.Peephole.Sift
import TreeBackend.Proofs.Semantics.Behaviour

/-!
# Tidied code does the same

The passes leave out what control does not come to, and instructions that do nothing but go on
to the next one: moves of a register to itself, and jumps to the label that comes next.  To
that end comments count as instructions of the latter kind, so that a jump and its label can
be looked at without what stands between them.

* `Sieve.thins`: what a pass has to keep of the code.
* `bare_tidy`: comments can be left out before the passes or after them.
* `sameBehaviour_tidy`: **tidied code makes the same calls, pushes and stores on the same
  machines as the code it comes from, and ends in the same way.**
-/

namespace TreeBackend.Peephole

/-- The instructions of annotated code. -/
def instrs (code : List Annotated) : List Instr := code.map Annotated.instr

/-- The code without its comments. -/
def bare (code : List Annotated) : List Annotated := code.filter (!·.instr.isComment)

/-- The same can be seen of two lists of instructions, wherever control comes in. -/
def Alike (p : Platform) (code code' : List Annotated) : Prop :=
  ∀ (entry : Option Target) (m : Machine), SameBehaviour p (instrs code) (instrs code')
    (entrySpot p (instrs code) entry, m) (entrySpot p (instrs code') entry, m)

variable {p : Platform} {code code' code'' : List Annotated}

theorem Alike.symm (h : Alike p code code') : Alike p code' code := fun entry m =>
  (h entry m).symm

theorem Alike.trans (h : Alike p code code') (h' : Alike p code' code'') :
    Alike p code code'' := fun entry m => (h entry m).trans (h' entry m)

theorem getElem?_instrs {pos : Nat} {i : Instr} (h : (instrs code)[pos]? = some i) :
    ∃ a, code[pos]? = some a ∧ a.instr = i := by
  rw [instrs, List.getElem?_map] at h
  exact Option.map_eq_some_iff.mp h

theorem landing?_instrs (t : Target) :
    landing? p (instrs code) t = code.findIdx? fun a => t.names p a.instr := by
  rw [landing?, instrs, List.findIdx?_map]
  rfl

theorem labelsOnce_of_sublist (h : code'.Sublist code) (hlabels : LabelsOnce (instrs code)) :
    LabelsOnce (instrs code') :=
  List.Pairwise.sublist (h.map _) hlabels

/-! ## Instructions that do nothing -/

theorem idles_of_exec {pos : Nat} {i : Instr} (heffect : i.isEffect = false)
    (hexec : ∀ m, i.exec p m = (.next, m)) : Idles p (instrs code) pos i :=
  ⟨heffect, fun m => by rw [hexec m]; rfl⟩

/-- A move of a register to itself leaves the machine as it is. -/
theorem exec_of_isIdle {i : Instr} (h : isIdle i = true) (m : Machine) :
    i.exec p m = (.next, m) := by
  unfold isIdle at h
  split at h
  · rename_i d s
    have hds : d = s := by simpa using h
    subst hds
    have hset : m.set d (m.regs d) = m := by
      refine Machine.ext ?_ rfl rfl rfl rfl rfl rfl
      funext r
      by_cases hr : r = d
      · rw [hr, Machine.regs_set_self]
      · rw [Machine.regs_set_of_ne _ _ hr]
    exact congrArg (Prod.mk Flow.next) hset
  · cases h

theorem isEffect_of_isIdle {i : Instr} (h : isIdle i = true) : i.isEffect = false := by
  unfold isIdle at h
  split at h
  · rfl
  · cases h

theorem idles_comment {pos : Nat} {i : Instr} (h : i.isComment = true) :
    Idles p (instrs code) pos i := by
  cases i with
  | comment t => exact idles_of_exec rfl fun m => rfl
  | _ => cases h

/-- A jump to the label that comes next only goes on. -/
theorem idles_fallthrough {pos : Nat} {i : Instr} (hlabels : LabelsOnce (instrs code))
    (hbare : ∀ b ∈ code, b.instr.isComment = false)
    (h : isFallthrough (code.drop (pos + 1)) i = true) : Idles p (instrs code) pos i := by
  unfold isFallthrough at h
  split at h
  · rename_i l
    have hnext : next? (code.drop (pos + 1)) = some (.label l) := by simpa using h
    -- without comments the next instruction stands at the next position
    obtain ⟨b, hb, hbl⟩ := Option.map_eq_some_iff.mp hnext
    have hlabel : (instrs code)[pos + 1]? = some (.label l) := by
      cases hdrop : code.drop (pos + 1) with
      | nil =>
          rw [hdrop] at hb
          cases hb
      | cons c rest =>
          have hc : c ∈ code := List.mem_of_mem_drop (hdrop ▸ List.mem_cons_self)
          rw [hdrop, List.find?_cons_of_pos (by simp [hbare c hc])] at hb
          cases hb
          rw [instrs, List.getElem?_map, ← List.head?_drop, hdrop, List.head?_cons,
            Option.map_some, hbl]
    have hland : landing? p (instrs code) (.label l) = some (pos + 1) := by
      cases hfound : landing? p (instrs code) (.label l) with
      | none =>
          have hnone := List.findIdx?_eq_none_iff.mp hfound _ (List.mem_of_getElem? hlabel)
          simp [Target.names] at hnone
      | some q =>
          obtain ⟨l', hl', hnames⟩ := landing?_label hfound
          have heq : l = l' := by simpa [Target.names] using hnames
          rw [hlabels.eq hlabel (heq ▸ hl')]
    refine ⟨rfl, fun m => ?_⟩
    show (Flow.spot p (instrs code) (pos + 1) (.goto (.label l)), m) = _
    rw [Flow.spot, hland]
  · cases h

/-! ## Passes -/

/-- **A pass that keeps labels and all that control comes to, idle instructions apart, leaves
code that does the same.**  The state tells whether control comes to a place, and behind a
label it always does. -/
theorem Sieve.thins {σ : Type} (v : Sieve σ Annotated) (s : σ) (reached : σ → Prop)
    (hstart : reached s)
    (hlabel : ∀ s rest a, isLabel a.instr = true →
      v.stays s rest a = true ∧ reached (v.after s a))
    (hnext : ∀ s a, reached s → leaves a.instr = false → reached (v.after s a))
    (hidle : ∀ pos a, code[pos]? = some a → reached (v.stateAt s code pos) →
      v.stays (v.stateAt s code pos) (code.drop (pos + 1)) a = false →
      Idles p (instrs code) pos a.instr) :
    Thins p (instrs code) (instrs (v.sift s code)) (v.rank s code) fun pos =>
      reached (v.stateAt s code pos) ∨ ∃ l, (instrs code)[pos]? = some (.label l) where
  zero := Sieve.rank_zero
  start := Or.inl hstart
  keeps pos i hlive hi := by
    obtain ⟨a, ha, rfl⟩ := getElem?_instrs hi
    cases hstays : v.stays (v.stateAt s code pos) (code.drop (pos + 1)) a with
    | true =>
        obtain ⟨hget, hrank⟩ := Sieve.getElem?_sift ha hstays
        refine Or.inl ⟨?_, hrank⟩
        rw [instrs, List.getElem?_map, hget, Option.map_some]
    | false =>
        rcases hlive with hreached | ⟨l, hl⟩
        · exact Or.inr ⟨hidle pos a ha hreached hstays, Sieve.rank_succ_of_dropped ha hstays⟩
        · have ha' : a.instr = .label l := Option.some.inj (hi.symm.trans hl)
          rw [(hlabel _ _ a (by rw [ha']; rfl)).1] at hstays
          cases hstays
  next pos i hlive hi hleaves := by
    obtain ⟨a, ha, rfl⟩ := getElem?_instrs hi
    refine Or.inl ?_
    rw [Sieve.stateAt_succ ha]
    rcases hlive with hreached | ⟨l, hl⟩
    · exact hnext _ a hreached hleaves
    · have ha' : a.instr = .label l := Option.some.inj (hi.symm.trans hl)
      exact (hlabel _ (code.drop (pos + 1)) a (by rw [ha']; rfl)).2
  label pos l hl := Or.inr ⟨l, hl⟩
  landing t := by
    rw [landing?_instrs, landing?_instrs]
    refine Sieve.findIdx?_sift _ fun s rest a ha => (hlabel s rest a ?_).1
    obtain ⟨l, hl⟩ := Target.isLabel_of_names ha
    rw [hl]
    rfl
  length pos hpos := by
    rw [instrs, List.length_map] at hpos ⊢
    exact Sieve.rank_of_length_le hpos

/-- Filters that leave out instructions that do nothing leave code that does the same. -/
theorem alike_filter (f : Annotated → Bool) (hlabel : ∀ a, isLabel a.instr = true → f a = true)
    (hidle : ∀ pos a, f a = false → Idles p (instrs code) pos a.instr) :
    Alike p code (code.filter f) := by
  rw [← Sieve.sift_filtering f () code]
  exact (Sieve.thins (Sieve.filtering f) () (fun _ => True) trivial
    (fun _ _ a ha => ⟨hlabel a ha, trivial⟩) (fun _ _ _ _ => trivial)
    (fun pos a _ _ ha => hidle pos a ha)).sameBehaviour

theorem alike_dropIdle (p : Platform) (code : List Annotated) : Alike p code (dropIdle code) := by
  refine alike_filter _ (fun a ha => ?_) fun pos a ha => ?_
  · cases hi : a.instr with
    | label l => rfl
    | _ => simp [hi, isLabel] at ha
  · have hidle : isIdle a.instr = true := by simpa using ha
    exact idles_of_exec (isEffect_of_isIdle hidle) (exec_of_isIdle hidle)

theorem alike_bare (p : Platform) (code : List Annotated) : Alike p code (bare code) := by
  refine alike_filter _ (fun a ha => ?_) fun pos a ha => idles_comment (by simpa using ha)
  cases hi : a.instr with
  | label l => rfl
  | _ => simp [hi, isLabel] at ha

theorem alike_dropUnreached (p : Platform) (code : List Annotated) :
    Alike p code (dropUnreached code) := by
  rw [dropUnreached_eq_sift]
  refine (Sieve.thins unreachedSieve true (· = true) rfl (fun s rest a ha => ?_)
    (fun s a hs hleaves => ?_) (fun pos a _ hreached hstays => ?_)).sameBehaviour
  · simp [unreachedSieve, ha]
  · simp [unreachedSieve, hs, hleaves]
  · -- where control comes to, all instructions stay
    have hstays' : (isLabel a.instr || a.instr.isComment ||
        unreachedSieve.stateAt true code pos) = false := hstays
    simp [hreached] at hstays'

theorem alike_dropFallthrough (p : Platform) (hlabels : LabelsOnce (instrs code))
    (hbare : ∀ b ∈ code, b.instr.isComment = false) : Alike p code (dropFallthrough code) := by
  rw [dropFallthrough_eq_sift]
  refine (Sieve.thins fallthroughSieve () (fun _ => True) trivial (fun s rest a ha => ?_)
    (fun _ _ _ _ => trivial) (fun pos a _ _ hstays => ?_)).sameBehaviour
  · refine ⟨?_, trivial⟩
    cases hi : a.instr with
    | label l => simp [fallthroughSieve, hi, isFallthrough]
    | _ => simp [hi, isLabel] at ha
  · exact idles_fallthrough hlabels hbare (by simpa [fallthroughSieve] using hstays)

/-! ## Comments -/

theorem bare_append (code code' : List Annotated) :
    bare (code ++ code') = bare code ++ bare code' := List.filter_append ..

theorem bare_cons_of_comment {a : Annotated} (h : a.instr.isComment = true)
    (rest : List Annotated) : bare (a :: rest) = bare rest := by
  rw [bare, List.filter_cons_of_neg (by simp [h]), bare]

theorem bare_cons_of_not_comment {a : Annotated} (h : a.instr.isComment = false)
    (rest : List Annotated) : bare (a :: rest) = a :: bare rest := by
  rw [bare, List.filter_cons_of_pos (by simp [h]), bare]

/-- Idle moves can be dropped before or after the comments. -/
theorem bare_dropIdle (code : List Annotated) : bare (dropIdle code) = dropIdle (bare code) := by
  rw [dropIdle, dropIdle, bare, bare, List.filter_filter, List.filter_filter]
  exact List.filter_congr fun a _ => Bool.and_comm ..

/-- Code that control does not come to can be dropped before or after the comments. -/
theorem bare_dropUnreachedFrom (reached : Bool) (code : List Annotated) :
    bare (dropUnreachedFrom reached code) = dropUnreachedFrom reached (bare code) := by
  fun_induction dropUnreachedFrom reached code with
  | case1 => rfl
  | case2 reached a rest hlabel ih =>
      have hcomment : a.instr.isComment = false := by
        cases hi : a.instr with
        | label l => rfl
        | _ => simp [hi, isLabel] at hlabel
      rw [bare_cons_of_not_comment hcomment, bare_cons_of_not_comment hcomment, ih,
        dropUnreachedFrom, if_pos hlabel]
  | case3 reached a rest _ hcomment ih =>
      rw [bare_cons_of_comment hcomment, bare_cons_of_comment hcomment, ih]
  | case4 a rest hlabel hcomment ih =>
      rw [Bool.not_eq_true] at hcomment
      rw [bare_cons_of_not_comment hcomment, bare_cons_of_not_comment hcomment, ih,
        dropUnreachedFrom, if_neg hlabel, hcomment]
      rfl
  | case5 reached a rest hlabel hcomment hreached ih =>
      rw [Bool.not_eq_true] at hcomment hreached
      rw [bare_cons_of_not_comment hcomment, ih, hreached, dropUnreachedFrom, if_neg hlabel,
        hcomment]
      rfl

/-- Comments do not matter to what comes next. -/
theorem next?_bare (code : List Annotated) : next? (bare code) = next? code := by
  rw [next?, next?, bare, List.find?_filter]
  simp

/-- Jumps to the next label can be dropped before or after the comments. -/
theorem bare_dropFallthrough (code : List Annotated) :
    bare (dropFallthrough code) = dropFallthrough (bare code) := by
  have hfalls (rest : List Annotated) (i : Instr) :
      isFallthrough (bare rest) i = isFallthrough rest i := by
    unfold isFallthrough
    rw [next?_bare]
  fun_induction dropFallthrough code with
  | case1 => rfl
  | case2 a rest h ih =>
      have hcomment : a.instr.isComment = false := by
        cases hi : a.instr with
        | comment t => simp [hi, isFallthrough] at h
        | _ => rfl
      rw [bare_cons_of_not_comment hcomment, dropFallthrough, hfalls, if_pos h, ih]
  | case3 a rest h ih =>
      cases hcomment : a.instr.isComment with
      | true => rw [bare_cons_of_comment hcomment, bare_cons_of_comment hcomment, ih]
      | false =>
          rw [bare_cons_of_not_comment hcomment, bare_cons_of_not_comment hcomment,
            dropFallthrough, hfalls, if_neg h, ih]

/-! ## All three passes -/

/-- **Tidying up looks through comments**: they can be left out before it or after it. -/
theorem bare_tidy (code : List Annotated) : bare (tidy code) = tidy (bare code) := by
  rw [tidy, bare_dropFallthrough, dropUnreached, bare_dropUnreachedFrom, bare_dropIdle]
  rfl

/-- **Tidied code does what the code does that it comes from**, if no label is defined twice.
From the start, or from where a jump from outside leads, both come to the same calls, pushes and
stores on the same machines, and are over in the same way with the same machine, or never. -/
theorem sameBehaviour_tidy (code : List Annotated)
    (hlabels : LabelsOnce (code.map Annotated.instr)) (p : Platform) (entry : Option Target)
    (m : Machine) :
    SameBehaviour p (code.map Annotated.instr) ((tidy code).map Annotated.instr)
      (entrySpot p (code.map Annotated.instr) entry, m)
      (entrySpot p ((tidy code).map Annotated.instr) entry, m) := by
  have hreached : (dropUnreached (dropIdle code)).Sublist code :=
    (dropUnreachedFrom_sublist true _).trans List.filter_sublist
  have hjumps : Alike p (bare (dropUnreached (dropIdle code))) (bare (tidy code)) := by
    rw [tidy, bare_dropFallthrough]
    refine alike_dropFallthrough p ?_ fun b hb => ?_
    · exact labelsOnce_of_sublist (List.filter_sublist.trans hreached) hlabels
    · simpa using (List.mem_filter.mp hb).2
  have halike : Alike p code (tidy code) :=
    (alike_dropIdle p code).trans <| (alike_dropUnreached p _).trans <|
      (alike_bare p _).trans <| hjumps.trans (alike_bare p _).symm
  exact halike entry m

/-- Code with an idle move, a jump over a comment to the next label, a computed jump, and
instructions that control does not come to. -/
def untidy : List Annotated :=
  [{ instr := .mov (.phys .ebx) (.phys .ebx) },
   { instr := .mov (.phys .eax) (.label "again") },
   { instr := .jmp (.label "again") },
   { instr := .push (.phys .ebx) },
   { instr := .comment "loop" },
   { instr := .label "again" },
   { instr := .storeFrame (-4) .ebx, note := some "spill x" },
   { instr := .call (.label "f") },
   { instr := .cmp (.phys .ebx) (.imm 0) },
   { instr := .jcc .eq "done" },
   { instr := .jmp (.phys .eax) },
   { instr := .mov (.phys .eax) (.imm 1) },
   { instr := .label "done" },
   { instr := .ret },
   { instr := .ret }]

theorem sameBehaviour_tidy_untidy : LabelsOnce (untidy.map Annotated.instr) ∧
    (tidy untidy).length = 10 ∧ ∀ (p : Platform) (entry : Option Target) (m : Machine),
      SameBehaviour p (untidy.map Annotated.instr) ((tidy untidy).map Annotated.instr)
        (entrySpot p (untidy.map Annotated.instr) entry, m)
        (entrySpot p ((tidy untidy).map Annotated.instr) entry, m) := by
  have hlabels : LabelsOnce (untidy.map Annotated.instr) := by decide
  exact ⟨hlabels, by decide, sameBehaviour_tidy untidy hlabels⟩

end TreeBackend.Peephole
