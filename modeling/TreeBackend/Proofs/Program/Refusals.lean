import TreeBackend.Proofs.Accesses.Code
import TreeBackend.Proofs.Lowering.Refusals
import TreeBackend.Proofs.Program.Identity
import TreeBackend.Proofs.Tile.Narrow

/-!
# What a compilation refuses

`Refusal units e` says that `e` is a cause that lies in the program: a move with a bad target, a
call of the allocation routine with a wrong number of arguments, labels that do not fit, or a
temporary that the program reads before it writes it.  All other causes would speak of trees that
lowering has left, of nodes met twice, or of too few scratch registers, and none of them occurs, as
long as the supplies of the units fit into 32 bits.

* `SourceUnit.startAccesses`: what a unit reads and writes at the start, under the names that
  its temporaries have there.
* `error_of_assembleUnits`: why canonical units cannot be assembled.
* `compile_refusals`: **a compilation comes out well or is refused for a cause in the program.**
-/

namespace TreeBackend

/-! ## Accesses at the start -/

/-- A register of a unit in the startup code. -/
def VirtualReg.scoped (unit : String) : VirtualReg → VirtualReg
  | .temp x => .temp (scopedName unit x)
  | .fresh n => .fresh n

/-- What a canonical unit reads and writes at the start. -/
def CanonicalUnit.startAccesses (u : CanonicalUnit) : List Access :=
  (Stmt.accessesAll u.startup).map (Access.rename (VirtualReg.scoped u.name))

/-- What a unit reads and writes at the start: in its statements, and then in the initial values
of its fields. -/
def SourceUnit.startAccesses (u : SourceUnit) : List Access :=
  (u.start.flatMap Stmt.accesses ++ u.fields.flatMap fun f => f.init.accesses).map
    (Access.rename (VirtualReg.scoped u.name))

theorem accessesOf_scoped (unit : String) (code : List Instr) :
    accessesOf (code.map (Instr.mapRegs (Reg.scoped unit))) =
      (accessesOf code).map (Access.rename (VirtualReg.scoped unit)) := by
  refine accessesOf_mapRegs (fun q => rfl) (fun r => ?_) code
  cases r with
  | virt v => cases v <;> rfl
  | _ => rfl

/-- At the start, a unit reads and writes temporaries. -/
theorem SourceUnit.onTemps_startAccesses (u : SourceUnit) : OnTemps u.startAccesses := by
  have htemps : OnTemps (u.start.flatMap Stmt.accesses ++
      u.fields.flatMap fun f => f.init.accesses) :=
    (OnTemps.flatMap Stmt.onTemps).append (.flatMap fun f => f.init.onTemps)
  refine List.forall_mem_map.mpr fun access haccess => ?_
  obtain ⟨x, hx⟩ := htemps access haccess
  exact ⟨scopedName u.name x, by rw [Access.reg_rename, hx, VirtualReg.scoped]⟩

section
variable {u : SourceUnit} {c : CanonicalUnit}

/-- Lowering exposes nothing in the functions of a unit. -/
theorem SourceUnit.canonicalize_functions (h : u.canonicalize = .ok c) {f : Function}
    (hf : f ∈ c.functions) : ∃ g ∈ u.functions, Refines g.body.accesses f.body.accesses := by
  obtain ⟨τ, hrun⟩ := SourceUnit.canonicalize_eq_ok.mp h
  obtain ⟨functions, σ₁, inits, σ₂, start, hfunctions, -, -, rfl⟩ :=
    SourceUnit.canonical_trees hrun
  obtain ⟨g, hg, σ, τ', hgf⟩ := exists_of_mem_mapM hfunctions hf
  obtain ⟨body, hbody, rfl⟩ := Function.canonical_body hgf
  exact ⟨g, hg, Stmt.canonical_refines hbody⟩

/-- Lowering exposes nothing at the start. -/
theorem SourceUnit.canonicalize_start (h : u.canonicalize = .ok c) :
    Refines u.startAccesses c.startAccesses := by
  obtain ⟨τ, hrun⟩ := SourceUnit.canonicalize_eq_ok.mp h
  obtain ⟨functions, σ₁, inits, σ₂, start, -, hinits, hstart, rfl⟩ :=
    SourceUnit.canonical_trees hrun
  refine Refines.map ?_ _
  rw [CanonicalUnit.startup, Stmt.accessesAll_eq_flatMap, List.flatMap_append]
  refine Refines.append (.flatMap ?_) (.flatMap ?_)
  · refine (forall₂_of_mapM hstart).imp ?_
    rintro s B ⟨σ, τ', hB⟩
    exact Stmt.canonical_refines hB
  · refine (forall₂_of_mapM hinits).imp ?_
    rintro f B ⟨σ, τ', hB⟩
    exact Field.canonical_refines hB

end

/-! ## Assembly -/

/-- Code is refused only for a register that is exposed in it, if it is narrow. -/
theorem Options.error_of_allocate_narrow {o : Options} {code : List Instr} {e : CompileError}
    (hnarrow : Narrow code) (h : o.allocate code = .error e) :
    ∃ v, e = .unwritten v ∧ Exposed v (accessesOf code) := by
  rcases Options.error_of_allocate h with h | ⟨-, hcrowded⟩
  · obtain ⟨v, rfl, hv⟩ := checkWritten_error h
    exact ⟨v, rfl, exposed_of_readUnwritten hv⟩
  · exact absurd hcrowded hnarrow.not_crowded

theorem error_of_entryOf {functions : List String} {asked : Option String} {e : CompileError}
    (h : entryOf functions asked = .error e) :
    (∃ l, e = .repeatedFunction l) ∨ (∃ l, e = .unknownEntry l) ∨ e = .noEntry := by
  unfold entryOf at h
  split at h
  · cases h
    exact Or.inl ⟨_, rfl⟩
  · split at h
    · split at h
      · cases h
      · cases h
        exact Or.inr (Or.inl ⟨_, rfl⟩)
    · cases h
    · cases h
      exact Or.inr (Or.inr rfl)

section
variable {o : Options} {canonical : List CanonicalUnit} {t t' : TileTable}

/-- The code that assembled units leave for the start is narrow, and exposes no more than they
do at the start. -/
theorem refines_assembled (hc : ∀ c ∈ canonical, c.Selectable)
    {assembled : List (UnitLines × List Instr)}
    (h : canonical.mapM (CanonicalUnit.assemble o) t = .ok assembled t') :
    Narrow (assembled.flatMap Prod.snd) ∧
      Refines (canonical.flatMap CanonicalUnit.startAccesses)
        (accessesOf (assembled.flatMap Prod.snd)) := by
  have hcode : List.Forall₂ (fun c a => Narrow a.2 ∧ Refines c.startAccesses (accessesOf a.2))
      canonical assembled := by
    refine ((List.forall₂_and_left _ _).mpr ⟨hc, forall₂_of_mapM h⟩).imp ?_
    rintro c ⟨lines, startup⟩ ⟨hselectable, t₁, t₂, hassemble⟩
    obtain ⟨-, n, rfl⟩ := CanonicalUnit.ok_of_assemble hselectable hassemble
    refine ⟨(Stmt.narrow_emitAll _ n).mapRegs _, ?_⟩
    rw [accessesOf_scoped]
    exact (Stmt.refines_emitAll c.startup n fun s hs => (hselectable.startup hs).1).map _
  constructor
  · intro i hi
    obtain ⟨a, ha, hi⟩ := List.mem_flatMap.mp hi
    obtain ⟨c, -, hnarrow, -⟩ := exists_of_forall₂ hcode ha
    exact hnarrow i hi
  · rw [accessesOf, List.flatMap_assoc]
    exact .flatMap (hcode.imp fun c a h => h.2)

/-- **Why canonical units cannot be assembled**: there is no entry point, the allocation routine
is called with another number of arguments than one, or a function or the start exposes a
register. -/
theorem error_of_assembleUnits (hc : ∀ c ∈ canonical, c.Selectable) {e : CompileError}
    (h : assembleUnits o canonical t = .error e t') :
    ((∃ l, e = .repeatedFunction l) ∨ (∃ l, e = .unknownEntry l) ∨ e = .noEntry) ∨
      (∃ n, n ≠ 1 ∧ e = .allocationArity n) ∨
      ∃ v, e = .unwritten v ∧ ((∃ c ∈ canonical, ∃ f ∈ c.functions, Exposed v f.body.accesses) ∨
        Exposed v (canonical.flatMap CanonicalUnit.startAccesses)) := by
  rw [assembleUnits] at h
  rcases error_of_bind h with h | ⟨entry, t₁, -, h⟩
  · exact Or.inl (error_of_entryOf (error_of_ofExcept h))
  rcases error_of_bind h with h | ⟨assembled, t₂, hassembled, h⟩
  · obtain ⟨before, c, after, lines, t₂, rfl, -, h⟩ := error_of_mapM h
    have hmem : c ∈ before ++ c :: after := by simp
    rcases CanonicalUnit.error_of_assemble (hc c hmem) h with h | ⟨f, hf, n, h⟩
    · exact Or.inr (Or.inl h)
    · obtain ⟨v, rfl, hv⟩ := Options.error_of_allocate_narrow (f.body.narrow_emit n) h
      have hrefines := Stmt.refines_emit f.body n ((hc c hmem).function hf).1
      exact Or.inr (Or.inr ⟨v, rfl, Or.inl ⟨c, hmem, f, hf, hrefines.exposed hv⟩⟩)
  rcases error_of_bind h with h | ⟨startup, t₃, -, h⟩
  · obtain ⟨hnarrow, hrefines⟩ := refines_assembled hc hassembled
    obtain ⟨v, rfl, hv⟩ := Options.error_of_allocate_narrow hnarrow (error_of_ofExcept h)
    exact Or.inr (Or.inr ⟨v, rfl, Or.inr (hrefines.exposed hv)⟩)
  · cases h

end

/-! ## Compilation -/

/-- The program reads a register before it writes it, in the body of a function or in what all
units together run at the start, jumps and labels ignored. -/
def ReadsUnwritten (units : List SourceUnit) (v : VirtualReg) : Prop :=
  (∃ u ∈ units, ∃ f ∈ u.functions, Exposed v f.body.accesses) ∨
    Exposed v (units.flatMap SourceUnit.startAccesses)

/-- The causes that lie in the program itself. -/
inductive Refusal (units : List SourceUnit) : CompileError → Prop
  | invalidTarget (target : Expr) : Refusal units (.invalidTarget target)
  | repeatedFunction (label : String) : Refusal units (.repeatedFunction label)
  | unknownEntry (label : String) : Refusal units (.unknownEntry label)
  | noEntry : Refusal units .noEntry
  | allocationArity {count : Nat} (h : count ≠ 1) : Refusal units (.allocationArity count)
  | unwritten {x : String} (h : ReadsUnwritten units (.temp x)) :
    Refusal units (.unwritten (.temp x))

section
variable {units : List SourceUnit} {canonical : List CanonicalUnit} {v : VirtualReg}

/-- A program reads temporaries only. -/
theorem ReadsUnwritten.exists_temp (h : ReadsUnwritten units v) : ∃ x, v = .temp x := by
  rcases h with ⟨u, -, f, -, h⟩ | h
  · exact f.body.onTemps _ h.mem
  · obtain ⟨u, -, h⟩ := List.mem_flatMap.mp h.mem
    exact u.onTemps_startAccesses _ h

/-- What canonical units read unwritten, their sources do. -/
theorem readsUnwritten_of_canonicalize (h : units.mapM SourceUnit.canonicalize = .ok canonical)
    (hv : (∃ c ∈ canonical, ∃ f ∈ c.functions, Exposed v f.body.accesses) ∨
      Exposed v (canonical.flatMap CanonicalUnit.startAccesses)) : ReadsUnwritten units v := by
  have hpairs := Except.forall₂_of_mapM h
  rcases hv with ⟨c, hc, f, hf, hv⟩ | hv
  · obtain ⟨u, hu, huc⟩ := exists_of_forall₂ hpairs hc
    obtain ⟨g, hg, hrefines⟩ := SourceUnit.canonicalize_functions huc hf
    exact Or.inl ⟨u, hu, g, hg, hrefines.exposed hv⟩
  · refine Or.inr (Refines.exposed (.flatMap (hpairs.imp ?_)) hv)
    exact fun u c huc => SourceUnit.canonicalize_start huc

theorem selectable_of_canonicalize (hunits : ∀ u ∈ units, u.Identified)
    (h : units.mapM SourceUnit.canonicalize = .ok canonical) : ∀ c ∈ canonical, c.Selectable := by
  intro c hc
  obtain ⟨u, hu, huc⟩ := exists_of_forall₂ (Except.forall₂_of_mapM h) hc
  obtain ⟨τ, hrun⟩ := SourceUnit.canonicalize_eq_ok.mp huc
  exact (hunits u hu).selectable hrun

/-- Ids in 32 bits make no difference where lowering has not gone past them. -/
theorem compileWrapped_eq (hunits : ∀ u ∈ units, u.Identified)
    (hfits : ∀ u ∈ units, u.supplyLeft.nextNode < Supply.limit) (o : Options) :
    compileWrapped units o = compile units o := by
  cases h : units.mapM SourceUnit.canonicalize with
  | error e => rw [compileWrapped, compile, h]; rfl
  | ok canonical =>
      have hkept : ∀ c ∈ canonical, c.wrapped = c := by
        intro c hc
        obtain ⟨u, hu, huc⟩ := exists_of_forall₂ (Except.forall₂_of_mapM h) hc
        obtain ⟨τ, hrun⟩ := SourceUnit.canonicalize_eq_ok.mp huc
        have hleft : u.supplyLeft = τ := by
          rw [SourceUnit.supplyLeft, EStateM.run, hrun]
        refine CanonicalUnit.wrapped_eq_self fun i hi => ?_
        exact Nat.lt_trans ((hunits u hu).below_canonical hrun i hi) (hleft ▸ hfits u hu)
      rw [compileWrapped, compile, Except.bind_ok h, Except.bind_ok h, map_eq_self hkept]

/-- A compilation that fails fails in lowering, or else when the canonical units are assembled. -/
theorem error_of_compile {o : Options} {e : CompileError} (h : compile units o = .error e) :
    (∃ u ∈ units, u.canonicalize = .error e) ∨
      ∃ canonical t, units.mapM SourceUnit.canonicalize = .ok canonical ∧
        assembleUnits o canonical {} = .error e t := by
  rw [compile] at h
  rcases Except.error_of_bind h with h | ⟨canonical, hcanonical, h⟩
  · exact Or.inl (Except.error_of_mapM h)
  have hemit : emit o canonical = .error e := by
    cases hverify : o.verify with
    | false =>
        rw [hverify] at h
        exact h
    | true =>
        rw [hverify, if_pos rfl, checkUnits_of_canonicalize hcanonical] at h
        exact h
  refine Or.inr ⟨canonical, ?_⟩
  rw [emit, assemble] at hemit
  cases hrun : (assembleUnits o canonical).run {} with
  | ok a t =>
      rw [hrun] at hemit
      cases hemit
  | error e' t =>
      rw [hrun] at hemit
      cases hemit
      exact ⟨t, hcanonical, hrun⟩

/-- **A compilation comes out well or is refused for a cause that lies in the program**, if the
nodes of each unit have ids of their own and lowering does not use up its supply.  So it is with
both allocators, and whether or not the check of trees is asked for. -/
theorem compile_refusals (hunits : ∀ u ∈ units, u.Identified)
    (hfits : ∀ u ∈ units, u.supplyLeft.Fits) (o : Options) :
    (∃ p, compileWrapped units o = .ok p) ∨
      ∃ e, compileWrapped units o = .error e ∧ Refusal units e := by
  rw [compileWrapped_eq hunits fun u hu => (hfits u hu).node]
  cases h : compile units o with
  | ok p => exact Or.inl ⟨p, rfl⟩
  | error e =>
      refine Or.inr ⟨e, rfl, ?_⟩
      rcases error_of_compile h with ⟨u, -, h⟩ | ⟨canonical, t, hcanonical, h⟩
      · obtain ⟨target, rfl⟩ := SourceUnit.error_of_canonicalize h
        exact .invalidTarget target
      rcases error_of_assembleUnits (selectable_of_canonicalize hunits hcanonical) h with
        (⟨l, rfl⟩ | ⟨l, rfl⟩ | rfl) | ⟨n, hn, rfl⟩ | ⟨v, rfl, hv⟩
      · exact .repeatedFunction l
      · exact .unknownEntry l
      · exact .noEntry
      · exact .allocationArity hn
      · have hread := readsUnwritten_of_canonicalize hcanonical hv
        obtain ⟨x, rfl⟩ := hread.exists_temp
        exact .unwritten hread

end

/-- A unit that adds what its function returns to `y` at the start, and has not set `y`. -/
def unsetUnit : SourceUnit where
  name := "T"
  functions := [⟨"T.main", 0, .seq ⟨0⟩ [.move ⟨1⟩ (.temp ⟨2⟩ "n" false) (.const ⟨3⟩ 7),
    .ret ⟨4⟩ (some (.binop ⟨5⟩ .div (.temp ⟨6⟩ "n" false) (.const ⟨7⟩ 2)))]⟩]
  fields := [⟨"T.x", .const ⟨8⟩ 1⟩]
  start := [.move ⟨9⟩ (.temp ⟨10⟩ "z" false)
    (.binop ⟨11⟩ .add (.temp ⟨12⟩ "y" false) (.call ⟨13⟩ (.name ⟨14⟩ "T.main" true) []))]
  supply := { scope := "T", nextNode := 15 }

theorem compile_refusals_unsetUnit : (∀ u ∈ [unsetUnit], u.Identified) ∧
    (∀ u ∈ [unsetUnit], u.supplyLeft.Fits) ∧
    ∃ e, compileWrapped [unsetUnit] { allocator := .basic } = .error e ∧
      Refusal [unsetUnit] e := by
  have hunits : ∀ u ∈ [unsetUnit], u.Identified :=
    List.forall_mem_singleton.mpr ⟨by decide +kernel, by decide +kernel⟩
  have hfits : ∀ u ∈ [unsetUnit], u.supplyLeft.Fits :=
    List.forall_mem_singleton.mpr (by decide +kernel)
  have hfails : (compileWrapped [unsetUnit] { allocator := .basic }).isOk = false := by
    decide +kernel
  refine ⟨hunits, hfits, ?_⟩
  rcases compile_refusals hunits hfits _ with ⟨p, hp⟩ | h
  · rw [hp] at hfails
    cases hfails
  · exact h

/-- Lowering goes well and uses up the supply, and then selection comes to one id twice. -/
theorem compileWrapped_exhaustedUnit : (∀ u ∈ [exhaustedUnit], u.Identified) ∧
    compileWrapped [exhaustedUnit] { allocator := .basic } = .error (.repeatedNode ⟨1⟩) :=
  ⟨List.forall_mem_singleton.mpr ⟨by decide +kernel, by decide +kernel⟩, rfl⟩

end TreeBackend
