import TreeBackend.Program.Compile
import TreeBackend.Proofs.Lowering.Locals
import TreeBackend.Proofs.Runs
import Mathlib.Data.List.Nodup

/-!
# The temporaries of the startup code

What the units want run at the start is merged into one body, and each temporary of a unit
gets the name of the unit and a point in front, unless its name starts like that already.
Names of units may have points in them too, so two temporaries can end up under one name.

* `scopedName_eq`: the name in the startup code, as the unit's name in front of what the
  temporary's name has after it.
* `scopedName_eq_iff`: two temporaries end up under one name exactly if one of them `Meets`
  the other.
* `scoped_eq_iff`: **which temporaries of a program share a register of the startup code.**
-/

namespace TreeBackend

/-! ## Names with a unit in front -/

/-- The name of a unit, a point, and a name. -/
def qualify (unit name : String) : String := unit ++ "." ++ name

/-- What a name has after the name of a unit and a point, or all of it if it does not
start with these. -/
def stem (unit name : String) : String :=
  ((Text.after? (unit ++ ".").toList name.toList).map String.ofList).getD name

theorem toList_qualify (u x : String) :
    (qualify u x).toList = u.toList ++ '.' :: x.toList := by
  rw [qualify, String.toList_append, String.toList_append, List.append_assoc]
  rfl

theorem qualify_ne_self (u r : String) : qualify u r ≠ u := by
  intro h
  have hlength := congrArg (List.length ∘ String.toList) h
  simp only [Function.comp, toList_qualify, List.length_append, List.length_cons] at hlength
  omega

/-- Two pairs of names are one name, if the unit of one goes on in the other. -/
theorem qualify_eq_iff {u v x y : String} : qualify u x = qualify v y ↔
    (u = v ∧ x = y) ∨ (∃ r, v = qualify u r ∧ x = qualify r y) ∨
      ∃ r, u = qualify v r ∧ y = qualify r x := by
  constructor
  · intro h
    have hlist := congrArg String.toList h
    rw [toList_qualify, toList_qualify] at hlist
    -- the longer of the two units starts with the other one
    rcases List.append_eq_append_iff.mp hlist with ⟨more, hv, hx⟩ | ⟨more, hu, hy⟩
    · cases more with
      | nil =>
          rw [List.append_nil] at hv
          rw [List.nil_append, List.cons.injEq] at hx
          exact Or.inl ⟨(String.toList_inj.mp hv).symm, String.toList_inj.mp hx.2⟩
      | cons c r =>
          rw [List.cons_append, List.cons.injEq] at hx
          obtain ⟨rfl, hx⟩ := hx
          refine Or.inr (Or.inl ⟨String.ofList r, ?_, ?_⟩)
          · rw [← String.toList_inj, toList_qualify, String.toList_ofList, hv]
          · rw [← String.toList_inj, toList_qualify, String.toList_ofList, hx]
    · cases more with
      | nil =>
          rw [List.append_nil] at hu
          rw [List.nil_append, List.cons.injEq] at hy
          exact Or.inl ⟨String.toList_inj.mp hu, (String.toList_inj.mp hy.2).symm⟩
      | cons c r =>
          rw [List.cons_append, List.cons.injEq] at hy
          obtain ⟨rfl, hy⟩ := hy
          refine Or.inr (Or.inr ⟨String.ofList r, ?_, ?_⟩)
          · rw [← String.toList_inj, toList_qualify, String.toList_ofList, hu]
          · rw [← String.toList_inj, toList_qualify, String.toList_ofList, hy]
  · have hassoc (a b c : String) : qualify a (qualify b c) = qualify (qualify a b) c := by
      rw [← String.toList_inj]
      simp only [toList_qualify, List.append_assoc, List.cons_append]
    rintro (⟨rfl, rfl⟩ | ⟨r, rfl, rfl⟩ | ⟨r, rfl, rfl⟩)
    · rfl
    · exact hassoc u r y
    · exact (hassoc v r x).symm

theorem stem_qualify (u x : String) : stem u (qualify u x) = x := by
  have hlist : (qualify u x).toList = (u ++ ".").toList ++ x.toList := String.toList_append
  rw [stem, hlist, Text.after?_append, Option.map_some, Option.getD_some, String.ofList_toList]

/-- A name starts with the unit and a point, or it is its own stem. -/
theorem stem_cases (u x : String) :
    x = qualify u (stem u x) ∨ ((∀ y, x ≠ qualify u y) ∧ stem u x = x) := by
  by_cases h : ∃ y, x = qualify u y
  · obtain ⟨y, rfl⟩ := h
    exact Or.inl (by rw [stem_qualify])
  · refine Or.inr ⟨fun y hy => h ⟨y, hy⟩, ?_⟩
    rw [stem]
    cases hafter : Text.after? (u ++ ".").toList x.toList with
    | none => rfl
    | some rest =>
        refine absurd ⟨String.ofList rest, ?_⟩ h
        rw [← String.toList_inj, Text.eq_append_of_after? hafter, toList_qualify,
          String.toList_ofList, String.toList_append, List.append_assoc]
        rfl

/-! ## Names in the startup code -/

/-- The name that a temporary of a unit gets has the name of the unit in front. -/
theorem scopedName_eq (u x : String) : scopedName u x = qualify u (stem u x) := by
  rw [scopedName]
  rcases stem_cases u x with h | ⟨hbare, hstem⟩
  · have hstarts : (u ++ ".").toList.isPrefixOf x.toList = true := by
      rw [List.isPrefixOf_iff_prefix]
      refine ⟨(stem u x).toList, ?_⟩
      rw [← String.toList_append]
      exact congrArg String.toList h.symm
    rw [if_pos hstarts]
    exact h
  · rw [hstem, if_neg]
    · rfl
    · intro hstarts
      obtain ⟨rest, hrest⟩ := List.isPrefixOf_iff_prefix.mp hstarts
      refine hbare (String.ofList rest) ?_
      rw [← String.toList_inj, ← hrest, toList_qualify, String.toList_ofList,
        String.toList_append, List.append_assoc]
      rfl

/-- The temporary `x` of the unit `u` gets the name that `y` of `v` gets: within one unit `y`
is `x` with the unit in front; else the name of `v` goes on, after `u` and a point, with what
`x` goes on with. -/
def Meets (u v x y : String) : Prop :=
  (u = v ∧ (∀ z, x ≠ qualify u z) ∧ y = qualify u x) ∨
    ∃ r, v = qualify u r ∧ stem u x = qualify r (stem v y)

/-- Within a unit, a name gets the name of another one if it is that name without the unit. -/
theorem stem_eq_iff {u x y : String} (hne : x ≠ y) : stem u x = stem u y ↔
    ((∀ z, x ≠ qualify u z) ∧ y = qualify u x) ∨ ((∀ z, y ≠ qualify u z) ∧ x = qualify u y) := by
  constructor
  · intro h
    rcases stem_cases u x with hx | ⟨hx, hstem⟩ <;> rcases stem_cases u y with hy | ⟨hy, hstem'⟩
    · exact absurd (hx.trans ((congrArg (qualify u) h).trans hy.symm)) hne
    · exact Or.inr ⟨hy, by rw [← hstem', ← h, ← hx]⟩
    · exact Or.inl ⟨hx, by rw [← hstem, h, ← hy]⟩
    · exact absurd (hstem.symm.trans (h.trans hstem')) hne
  · rintro (⟨hx, rfl⟩ | ⟨hy, rfl⟩)
    · rw [stem_qualify, ((stem_cases u x).resolve_left (hx _)).2]
    · rw [stem_qualify, ((stem_cases u y).resolve_left (hy _)).2]

/-- **Two temporaries get one name exactly if one of them meets the other.** -/
theorem scopedName_eq_iff {u v x y : String} (hne : (u, x) ≠ (v, y)) :
    scopedName u x = scopedName v y ↔ Meets u v x y ∨ Meets v u y x := by
  rw [scopedName_eq, scopedName_eq, qualify_eq_iff]
  by_cases huv : u = v
  · subst huv
    have hxy : x ≠ y := fun h => hne (by rw [h])
    have hself (z w : String) : ¬ ∃ r, u = qualify u r ∧ z = qualify r w := by
      rintro ⟨r, h, -⟩
      exact qualify_ne_self u r h.symm
    simp only [Meets, hself, or_false, true_and]
    exact stem_eq_iff hxy
  · simp only [Meets, huv, Ne.symm huv, false_and, false_or]

/-! ## The temporaries of a program -/

/-- The temporaries that are registers in what a unit wants run at the start. -/
def CanonicalUnit.startupTemps (u : CanonicalUnit) : List String :=
  (Stmt.localsAll u.startup).filter fun x => Storage.ofTemp x false = .register x

theorem Reg.scoped_temp (u x : String) : Reg.scoped u (.temp x) = .temp (scopedName u x) := rfl

theorem Reg.temp_inj {x y : String} : Reg.temp x = Reg.temp y ↔ x = y := by
  simp only [Reg.temp, Reg.virt.injEq, VirtualReg.temp.injEq]

theorem SourceUnit.canonicalize_name {u : SourceUnit} {c : CanonicalUnit}
    (h : u.canonicalize = .ok c) : c.name = u.name := by
  obtain ⟨τ, hrun⟩ := SourceUnit.canonicalize_eq_ok.mp h
  obtain ⟨functions, σ₁, inits, σ₂, start, -, -, -, rfl⟩ := SourceUnit.canonical_trees hrun
  rfl

theorem names_of_canonicalize {units : List SourceUnit} {canonical : List CanonicalUnit}
    (h : units.mapM SourceUnit.canonicalize = .ok canonical) :
    canonical.map CanonicalUnit.name = units.map SourceUnit.name :=
  map_eq_of_forall₂ ((Except.forall₂_of_mapM h).imp fun _ _ => SourceUnit.canonicalize_name)

/-- **Two temporaries share a register of the startup code exactly if one of them meets the
other**, in a program whose units have distinct names.  So none do if no unit has a
temporary together with one of that name behind its own, and no unit's name goes on from
another's with a point. -/
theorem scoped_eq_iff {units : List SourceUnit} {canonical : List CanonicalUnit}
    (h : units.mapM SourceUnit.canonicalize = .ok canonical)
    (hnames : (units.map SourceUnit.name).Nodup) :
    ∀ c ∈ canonical, ∀ d ∈ canonical, ∀ x ∈ c.startupTemps, ∀ y ∈ d.startupTemps,
      (c, x) ≠ (d, y) →
        (Reg.scoped c.name (.temp x) = Reg.scoped d.name (.temp y) ↔
          Meets c.name d.name x y ∨ Meets d.name c.name y x) := by
  intro c hc d hd x _ y _ hne
  rw [← names_of_canonicalize h] at hnames
  have hpair : (c.name, x) ≠ (d.name, y) := by
    intro heq
    obtain ⟨hname, rfl⟩ := Prod.mk.inj heq
    exact hne (by rw [List.inj_on_of_nodup_map hnames hc hd hname])
  rw [Reg.scoped_temp, Reg.scoped_temp, Reg.temp_inj]
  exact scopedName_eq_iff hpair

/-- Two units, the name of one going on from the other's: `B.x` of `A` and `x` of `A.B`. -/
def dottedUnits : List SourceUnit := [
  { name := "A"
    functions := [⟨"A.main", 0, .ret ⟨1⟩ (some (.const ⟨0⟩ 0))⟩]
    fields := []
    start := [.move ⟨4⟩ (.temp ⟨2⟩ "B.x" false) (.const ⟨3⟩ 1)]
    supply := { scope := "A", nextNode := 5 } },
  { name := "A.B"
    functions := []
    fields := []
    start := [.move ⟨2⟩ (.temp ⟨0⟩ "x" false) (.const ⟨1⟩ 2)]
    supply := { scope := "A.B", nextNode := 3 } }]

/-- A unit that sets `t0` and then calls a function with an argument, which is parked in the
made-up temporary `T.t0`. -/
def parkingUnits : List SourceUnit := [
  { name := "T"
    functions := [⟨"T.main", 0, .ret ⟨1⟩ (some (.const ⟨0⟩ 0))⟩]
    fields := []
    start := [.move ⟨4⟩ (.temp ⟨2⟩ "t0" false) (.const ⟨3⟩ 5),
      .call ⟨7⟩ (.name ⟨5⟩ "g" false) [.const ⟨6⟩ 1]]
    supply := { scope := "T", nextNode := 8 } }]

theorem scoped_eq_iff_dottedUnits : ∃ canonical,
    dottedUnits.mapM SourceUnit.canonicalize = .ok canonical ∧
    (dottedUnits.map SourceUnit.name).Nodup ∧
    ∀ c ∈ canonical, ∀ d ∈ canonical, ∀ x ∈ c.startupTemps, ∀ y ∈ d.startupTemps,
      (c, x) ≠ (d, y) →
        (Reg.scoped c.name (.temp x) = Reg.scoped d.name (.temp y) ↔
          Meets c.name d.name x y ∨ Meets d.name c.name y x) := by
  have hnames : (dottedUnits.map SourceUnit.name).Nodup := by decide
  exact ⟨_, rfl, hnames, scoped_eq_iff rfl hnames⟩

/-- Units with distinct names in which two temporaries share a register of the startup code:
temporaries of two units, and two of one unit, one of them made up. -/
theorem scoped_not_injective :
    (∃ canonical, dottedUnits.mapM SourceUnit.canonicalize = .ok canonical ∧
      (dottedUnits.map SourceUnit.name).Nodup ∧
      ∃ c ∈ canonical, ∃ d ∈ canonical, c.name ≠ d.name ∧
        ∃ x ∈ c.startupTemps, ∃ y ∈ d.startupTemps,
          Reg.scoped c.name (.temp x) = Reg.scoped d.name (.temp y)) ∧
    ∃ canonical, parkingUnits.mapM SourceUnit.canonicalize = .ok canonical ∧
      ∃ c ∈ canonical, ∃ x ∈ c.startupTemps, ∃ y ∈ c.startupTemps, x ≠ y ∧
        Reg.scoped c.name (.temp x) = Reg.scoped c.name (.temp y) := by
  refine ⟨⟨_, rfl, by decide, _, List.mem_cons_self, _, List.mem_cons_of_mem _ List.mem_cons_self,
    by decide, "B.x", by decide, "x", by decide, by decide⟩, ⟨_, rfl, _, List.mem_cons_self,
    "t0", by decide, Supply.tempName "T" 0, by decide, by decide, by decide⟩⟩

end TreeBackend
