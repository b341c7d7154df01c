import TreeBackend.Proofs.Allocation.Renamed
import TreeBackend.Proofs.Program.Selection

/-!
# Separate compilation

The units of a program share one table, and selection leaves in it the number of the next register
to make up.  Nothing else goes from unit to unit, and that number is seen only in the notes of the
allocator.

* `Peephole.tidy_forall₂`: tidying up looks at instructions only.
* `Function.assemble_raise`, `CanonicalUnit.assemble_alike`: assembly from two numbers on.
* `emit_separate`: **the text of a unit does not hang on the units around it.**
-/

namespace TreeBackend

/-- The same line, or the same instruction with a note that names another made-up register. -/
inductive Line.SameButFresh : Line → Line → Prop
  | same (l : Line) : SameButFresh l l
  | restored (i : Instr) (n k : Nat) : SameButFresh
    (.code { instr := i, note := some ("restore " ++ (VirtualReg.fresh n).text) })
    (.code { instr := i, note := some ("restore " ++ (VirtualReg.fresh k).text) })
  | spilled (i : Instr) (n k : Nat) : SameButFresh
    (.code { instr := i, note := some ("spill " ++ (VirtualReg.fresh n).text) })
    (.code { instr := i, note := some ("spill " ++ (VirtualReg.fresh k).text) })

theorem Line.SameButFresh.symm {l k : Line} (h : l.SameButFresh k) : k.SameButFresh l := by
  cases h with
  | same => exact .same l
  | restored i n k => exact .restored i k n
  | spilled i n k => exact .spilled i k n

theorem Line.sameButFresh_refl (lines : List Line) :
    List.Forall₂ SameButFresh lines lines := List.forall₂_same.mpr fun l _ => .same l

/-- Without notes there is no difference. -/
theorem Line.render_eq {lines lines' : List Line} (h : List.Forall₂ SameButFresh lines lines') :
    render false lines = render false lines' := by
  have htexts : lines.filterMap (text? false) = lines'.filterMap (text? false) := by
    induction h with
    | nil => rfl
    | @cons l l' _ _ hfirst _ ih =>
        have htext : l.text? false = l'.text? false := by cases hfirst <;> rfl
        rw [List.filterMap_cons, List.filterMap_cons, htext, ih]
  rw [render, render, htexts]

theorem Annotated.Renamed.instr_eq {ρ : VirtualReg → VirtualReg} {a b : Annotated}
    (h : Renamed ρ a b) : a.instr = b.instr := by
  cases h <;> rfl

/-- Registers of the program keep their names. -/
theorem Annotated.Renamed.sameButFresh {d : Nat} {a b : Annotated} (h : Renamed (.raise d) a b) :
    (Line.code a).SameButFresh (.code b) := by
  cases h with
  | same => exact .same _
  | load v =>
      obtain ⟨reg, slot, scratch⟩ := v
      cases reg with
      | temp x => exact .same _
      | fresh n => exact .restored _ n (n + d)
  | store v =>
      obtain ⟨reg, slot, scratch⟩ := v
      cases reg with
      | temp x => exact .same _
      | fresh n => exact .spilled _ n (n + d)

/-! ## Tidying up -/

section
variable {R : Annotated → Annotated → Prop} {as bs : List Annotated}

theorem map_instr_eq (hR : ∀ a b, R a b → a.instr = b.instr) (h : List.Forall₂ R as bs) :
    as.map Annotated.instr = bs.map Annotated.instr := by
  rw [← List.forall₂_eq_eq_eq, List.forall₂_map_left_iff, List.forall₂_map_right_iff]
  exact h.imp hR

theorem endsInReturn_congr (h : as.map Annotated.instr = bs.map Annotated.instr) :
    endsInReturn as = endsInReturn bs := by
  have hlast (code : List Annotated) :
      (code.reverse.find? (!·.instr.isComment)).map Annotated.instr =
        (code.map Annotated.instr).reverse.find? (!·.isComment) := by
    rw [← List.map_reverse, List.find?_map]
    rfl
  have hreturns (code : List Annotated) : endsInReturn code =
      ((code.map Annotated.instr).reverse.find? (!·.isComment)).elim false Instr.isRet := by
    rw [endsInReturn, ← hlast]
    cases code.reverse.find? (!·.instr.isComment) <;> rfl
  rw [hreturns, hreturns, h]

namespace Peephole

theorem next?_congr (h : as.map Annotated.instr = bs.map Annotated.instr) :
    next? as = next? bs := by
  have hnext (code : List Annotated) :
      next? code = (code.map Annotated.instr).find? (!·.isComment) := by
    rw [next?, List.find?_map]
    rfl
  rw [hnext, hnext, h]

variable (hR : ∀ a b, R a b → a.instr = b.instr)
include hR

theorem dropUnreachedFrom_forall₂ (h : List.Forall₂ R as bs) (reached : Bool) :
    List.Forall₂ R (dropUnreachedFrom reached as) (dropUnreachedFrom reached bs) := by
  induction h generalizing reached with
  | nil => exact .nil
  | cons hfirst _ ih =>
      rw [dropUnreachedFrom, dropUnreachedFrom, hR _ _ hfirst]
      split
      · exact .cons hfirst (ih true)
      split
      · exact .cons hfirst (ih reached)
      split
      · exact .cons hfirst (ih _)
      · exact ih false

theorem dropFallthrough_forall₂ (h : List.Forall₂ R as bs) :
    List.Forall₂ R (dropFallthrough as) (dropFallthrough bs) := by
  induction h with
  | nil => exact .nil
  | @cons a b as bs hfirst hrest ih =>
      have hfalls : isFallthrough as b.instr = isFallthrough bs b.instr := by
        unfold isFallthrough
        rw [next?_congr (map_instr_eq hR hrest)]
      rw [dropFallthrough, dropFallthrough, hR a b hfirst, hfalls]
      split
      · exact ih
      · exact .cons hfirst ih

/-- **Tidying up looks at instructions only.** -/
theorem tidy_forall₂ (h : List.Forall₂ R as bs) : List.Forall₂ R (tidy as) (tidy bs) := by
  have hidle : List.Forall₂ R (dropIdle as) (dropIdle bs) :=
    List.rel_filter (fun a b hab => by simp only [hR a b hab]) h
  exact dropFallthrough_forall₂ hR (dropUnreachedFrom_forall₂ hR hidle true)

end Peephole

end

/-! ## Assembly from two numbers on -/

section
variable {o o' : Options} {d : Nat} {t t' : TileTable}

theorem Options.tidy_forall₂ {R : Annotated → Annotated → Prop} {as bs : List Annotated}
    (hR : ∀ a b, R a b → a.instr = b.instr) (hpeephole : o.peephole = o'.peephole)
    (h : List.Forall₂ R as bs) : List.Forall₂ R (o.tidy as) (o'.tidy bs) := by
  rw [tidy, tidy, hpeephole]
  split
  · exact Peephole.tidy_forall₂ hR h
  · exact h

theorem Options.allocate_congr (halloc : o.allocator = o'.allocator) (code : List Instr) :
    o.allocate code = o'.allocate code := by
  rw [allocate, allocate, halloc]

variable (halloc : o.allocator = o'.allocator) (hpeephole : o.peephole = o'.peephole)
include halloc hpeephole

/-- A function is assembled alike from a higher number on. -/
theorem Function.assemble_raise {f : Function} {lines : List Line}
    (h : f.assemble o t = .ok lines t') :
    ∃ lines', f.assemble o' (t.raise d) = .ok lines' (t'.raise d) ∧
      List.Forall₂ Line.SameButFresh lines lines' := by
  obtain ⟨selected, allocated, hselected, hallocated, rfl⟩ := stages_of_assemble h
  rw [o.allocate_congr halloc] at hallocated
  obtain ⟨allocated', hallocated', hslots, hcode⟩ :=
    Options.allocate_renamed (VirtualReg.raise_injective d) hallocated
  have hinstr (a b : Annotated) (h : a.Renamed (.raise d) b) : a.instr = b.instr := h.instr_eq
  have hclosed : List.Forall₂ (Annotated.Renamed (.raise d)) (closeBody allocated.code)
      (closeBody allocated'.code) := by
    rw [closeBody, closeBody, ← endsInReturn_congr (map_instr_eq hinstr hcode)]
    split
    · exact hcode
    · exact List.rel_append hcode (List.forall₂_same.mpr fun a _ => .same a)
  have htidy := Options.tidy_forall₂ hinstr hpeephole hclosed
  have hbody := List.forall₂_map_left_iff.mpr (List.forall₂_map_right_iff.mpr
    (htidy.imp fun _ _ h => h.sameButFresh))
  have hselected' : f.body.tileBody (t.raise d) =
      .ok (selected.map (Instr.renamed (.raise d))) (t'.raise d) :=
    Stmt.raises_tileBody f.body t selected t' hselected
  refine ⟨_, assemble_of_stages hselected' hallocated', ?_⟩
  rw [linesOf, linesOf, hslots]
  exact List.rel_append (Line.sameButFresh_refl _) hbody

theorem Function.mapM_assemble_raise {fs : List Function} {lines : List (List Line)}
    (h : fs.mapM (Function.assemble o) t = .ok lines t') :
    ∃ lines', fs.mapM (Function.assemble o') (t.raise d) = .ok lines' (t'.raise d) ∧
      List.Forall₂ (List.Forall₂ Line.SameButFresh) lines lines' := by
  induction fs generalizing t lines with
  | nil =>
      cases h
      exact ⟨[], rfl, .nil⟩
  | cons f rest ih =>
      obtain ⟨first, t₁, more, hfirst, hmore, rfl⟩ := ok_of_mapM_cons h
      obtain ⟨first', hfirst', hsame⟩ := Function.assemble_raise halloc hpeephole hfirst
      obtain ⟨more', hmore', hmoreSame⟩ := ih hmore
      exact ⟨first' :: more', mapM_cons_ok hfirst' hmore', .cons hsame hmoreSame⟩

end

namespace CanonicalUnit

variable {o₁ o₂ : Options} {u : CanonicalUnit} {t₁ t₁' t₂ t₂' : TileTable}
  {a₁ a₂ : UnitLines × List Instr}

/-- **A unit is assembled alike, whatever has been assembled before it.** -/
theorem assemble_alike (halloc : o₁.allocator = o₂.allocator)
    (hpeephole : o₁.peephole = o₂.peephole) (h₁ : u.assemble o₁ t₁ = .ok a₁ t₁')
    (h₂ : u.assemble o₂ t₂ = .ok a₂ t₂') :
    a₁.1.name = u.name ∧ a₂.1.name = u.name ∧
      List.Forall₂ Line.SameButFresh a₁.1.lines a₂.1.lines := by
  -- The table with the lower number is raised to the other one.
  wlog hle : t₁.nextFresh ≤ t₂.nextFresh generalizing o₁ o₂ t₁ t₁' t₂ t₂' a₁ a₂
  · obtain ⟨hname₂, hname₁, hlines⟩ :=
      this halloc.symm hpeephole.symm h₂ h₁ (Nat.le_of_not_le hle)
    exact ⟨hname₁, hname₂, hlines.flip.imp fun _ _ h => h.symm⟩
  obtain ⟨lines₁, startup₁⟩ := a₁
  obtain ⟨lines₂, startup₂⟩ := a₂
  obtain ⟨functions₁, s₁, _, hfunctions₁, -, rfl, -⟩ := stages_of_assemble h₁
  obtain ⟨functions₂, s₂, _, hfunctions₂, -, rfl, -⟩ := stages_of_assemble h₂
  obtain ⟨functions, hraised, hsame⟩ := Function.mapM_assemble_raise
    (d := t₂.nextFresh - t₁.nextFresh) halloc hpeephole hfunctions₁
  have htable : t₁.forget.raise (t₂.nextFresh - t₁.nextFresh) = t₂.forget := by
    rw [TileTable.raise, TileTable.forget, TileTable.forget]
    simp only [List.map_nil, Nat.add_sub_cancel' hle]
  rw [htable, hfunctions₂] at hraised
  cases hraised
  exact ⟨rfl, rfl, List.rel_append (Line.sameButFresh_refl _) (List.rel_flatten hsame)⟩

end CanonicalUnit

/-! ## Programs -/

/-- The text of a unit of a program is that of the lines that the unit has been assembled to. -/
theorem getElem?_of_emit {o : Options} {units : List CanonicalUnit} {p : Program}
    (h : emit o units = .ok p) {k : Nat} {u : CanonicalUnit} (hu : units[k]? = some u) :
    ∃ a t t', u.assemble o t = .ok a t' ∧
      p.units[k]? = some { name := a.1.name, text := Line.render o.comments a.1.lines } := by
  obtain ⟨whole, hwhole, rfl⟩ := Except.ok_of_map h
  obtain ⟨entry, assembled, startup, t, -, hassembled, -, hunits, -⟩ := stages_of_assemble hwhole
  obtain ⟨a, ha, s₁, s₂, hua⟩ := getElem?_of_forall₂ (forall₂_of_mapM hassembled) hu
  refine ⟨a, s₁, s₂, hua, ?_⟩
  simp [Assembly.render, hunits, ha]

/-- **The text of a unit does not hang on the units around it**, nor on the entry point and the
place of the unit among the others.  If the allocator's notes are written, then they may name
made-up registers by other numbers; all else is the same. -/
theorem emit_separate {o₁ o₂ : Options} (halloc : o₁.allocator = o₂.allocator)
    (hpeephole : o₁.peephole = o₂.peephole) {units₁ units₂ : List CanonicalUnit}
    {p₁ p₂ : Program} (h₁ : emit o₁ units₁ = .ok p₁) (h₂ : emit o₂ units₂ = .ok p₂)
    {u : CanonicalUnit} {i j : Nat} (hi : units₁[i]? = some u) (hj : units₂[j]? = some u) :
    ∃ lines₁ lines₂, List.Forall₂ Line.SameButFresh lines₁ lines₂ ∧
      p₁.units[i]? = some { name := u.name, text := Line.render o₁.comments lines₁ } ∧
      p₂.units[j]? = some { name := u.name, text := Line.render o₂.comments lines₂ } ∧
      (o₁.comments = false → o₂.comments = false → p₁.units[i]? = p₂.units[j]?) := by
  obtain ⟨a₁, t₁, t₁', hu₁, htext₁⟩ := getElem?_of_emit h₁ hi
  obtain ⟨a₂, t₂, t₂', hu₂, htext₂⟩ := getElem?_of_emit h₂ hj
  obtain ⟨hname₁, hname₂, hlines⟩ := CanonicalUnit.assemble_alike halloc hpeephole hu₁ hu₂
  rw [hname₁] at htext₁
  rw [hname₂] at htext₂
  refine ⟨a₁.1.lines, a₂.1.lines, hlines, htext₁, htext₂, fun hc₁ hc₂ => ?_⟩
  rw [htext₁, htext₂, hc₁, hc₂, Line.render_eq hlines]

/-- A unit whose function returns the sum of a product and a difference. -/
def summingUnit : CanonicalUnit where
  name := "B"
  functions := [⟨"B.f", 2, .ret ⟨0⟩ (some (.binop ⟨1⟩ .add
    (.binop ⟨2⟩ .mul (.temp ⟨3⟩ "_ARG0" false) (.temp ⟨4⟩ "_ARG1" false))
    (.binop ⟨5⟩ .sub (.temp ⟨6⟩ "_ARG0" false) (.const ⟨7⟩ 1))))⟩]
  fields := []
  inits := []
  start := []

/-- A unit whose function makes up registers of its own. -/
def countingUnit : CanonicalUnit where
  name := "A"
  functions := [⟨"A.main", 0, .seq ⟨0⟩ [.exp ⟨1⟩ (.const ⟨2⟩ 3), .ret ⟨3⟩ (some (.const ⟨4⟩ 0))]⟩]
  fields := []
  inits := []
  start := []

theorem emit_separate_summingUnit : ∃ p₁ p₂,
    emit { allocator := .basic, comments := false } [summingUnit] = .ok p₁ ∧
    emit { allocator := .basic, comments := false, entry := some "B.f" }
      [countingUnit, summingUnit] = .ok p₂ ∧
    p₁.units[0]? = p₂.units[1]? := by
  have h₁ : (emit { allocator := .basic, comments := false } [summingUnit]).isOk := by
    decide +kernel
  have h₂ : (emit { allocator := .basic, comments := false, entry := some "B.f" }
      [countingUnit, summingUnit]).isOk := by decide +kernel
  obtain ⟨p₁, hp₁⟩ := Except.exists_of_isOk h₁
  obtain ⟨p₂, hp₂⟩ := Except.exists_of_isOk h₂
  obtain ⟨_, _, -, -, -, hsame⟩ := emit_separate (by rfl) (by rfl) hp₁ hp₂
    (i := 0) (j := 1) (by rfl) (by rfl)
  exact ⟨p₁, p₂, hp₁, hp₂, hsame rfl rfl⟩

end TreeBackend
