import TreeBackend.Program.Assembly
import TreeBackend.Proofs.Lowering.Closure
import TreeBackend.Proofs.Tile.Visits

/-!
# Selecting the trees of a unit

A unit is assembled with an empty table: first its functions, one after the other, and then
what it wants run at the start.  If its trees are canonical and no two of their nodes share an
id, then each tree is selected in a table that has none of its nodes.

* `CanonicalUnit.ok_of_assemble`: the code that an assembled unit leaves for the start.
* `CanonicalUnit.error_of_assemble`: why a unit cannot be assembled.
* `CanonicalUnit.Reaches.new`: **selection never comes to a node that the table has.**
* `Function.stages_of_assemble`, `stages_of_assemble`, `compile_eq_ok`: how functions and programs
  have been assembled.
-/

namespace TreeBackend

open TileTable

theorem TileTable.lacks_forget (t : TileTable) (ids : List NodeId) : t.forget.Lacks ids :=
  fun _ _ => rfl

/-- Code with the instructions behind it that leave the function, unless it ends in a return. -/
def closeBody (code : List Annotated) : List Annotated :=
  if endsInReturn code then code else code ++ Instr.epilogue.map fun i => { instr := i }

namespace Function

/-- The lines of a function whose code has been allocated. -/
def linesOf (o : Options) (f : Function) (a : Allocation) : List Line :=
  .blank :: .entry f.label :: Line.ofCode (prologue a.slots) ++
    (o.tidy (closeBody a.code)).map .code

variable {o : Options} {f : Function} {t t' : TileTable}

/-- The stages of the assembly of a function: its body is selected, and the code is allocated. -/
theorem stages_of_assemble {lines : List Line} (h : f.assemble o t = .ok lines t') :
    ∃ code allocated, f.body.tileBody t = .ok code t' ∧ o.allocate code = .ok allocated ∧
      lines = f.linesOf o allocated := by
  rw [assemble] at h
  obtain ⟨code, t₁, hcode, h⟩ := ok_of_bind h
  obtain ⟨allocated, t₂, hallocated, h⟩ := ok_of_bind h
  cases h
  obtain ⟨hok, rfl⟩ := ok_of_ofExcept hallocated
  exact ⟨code, allocated, hcode, hok, rfl⟩

theorem assemble_of_stages {code : List Instr} {allocated : Allocation}
    (hcode : f.body.tileBody t = .ok code t') (hallocated : o.allocate code = .ok allocated) :
    f.assemble o t = .ok (f.linesOf o allocated) t' := by
  rw [assemble, bind_ok hcode, hallocated]
  rfl

theorem error_of_assemble {e : CompileError} (h : f.assemble o t = .error e t') :
    f.body.tileBody t = .error e t' ∨
      ∃ code t₁, f.body.tileBody t = .ok code t₁ ∧ o.allocate code = .error e := by
  rw [assemble] at h
  rcases error_of_bind h with h | ⟨code, t₁, hcode, h⟩
  · exact Or.inl h
  rcases error_of_bind h with h | ⟨allocated, t₂, -, h⟩
  · exact Or.inr ⟨code, t₁, hcode, error_of_ofExcept h⟩
  · cases h

end Function

/-- Bodies that are selected one after the other come to the code of all of them, and call the
allocation routine with one argument. -/
theorem Stmt.ok_of_mapM_tileBody {body : List Stmt} {codes : List (List Instr)} {t t' : TileTable}
    (hc : ∀ s ∈ body, s.Canonical) (hn : (Stmt.idsAll body).Nodup) (hl : t.Lacks (Stmt.idsAll body))
    (h : body.mapM Stmt.tileBody t = .ok codes t') :
    Stmt.AllocateSingly body ∧ codes.flatten = (Stmt.emitAll body t.nextFresh).1 := by
  induction body generalizing t codes with
  | nil =>
      cases h
      rw [Stmt.emitAll]
      exact ⟨trivial, rfl⟩
  | cons s rest ih =>
      obtain ⟨code, t₁, more, hs, hrest, rfl⟩ := ok_of_mapM_cons h
      rw [Stmt.idsAll] at hn hl
      obtain ⟨hns, hnr, hdisjoint⟩ := List.nodup_append.mp hn
      obtain ⟨hcs, hcr⟩ := List.forall_mem_cons.mp hc
      obtain ⟨hsingle, rfl, hnext, hgrows⟩ :=
        Stmt.ok_of_tileBody hcs hns (hl.mono (List.subset_append_left _ _)) hs
      have hlr : t₁.Lacks (Stmt.idsAll rest) :=
        hgrows.lacks (hl.mono (List.subset_append_right _ _)) fun i hr hi =>
          hdisjoint i hi i hr rfl
      obtain ⟨hsingly, hcode⟩ := ih hcr hnr hlr hrest
      rw [List.flatten_cons, hcode, hnext, Stmt.emitAll]
      exact ⟨⟨hsingle, hsingly⟩, rfl⟩

namespace CanonicalUnit

/-- All trees of the unit are canonical, and no two of their nodes share an id. -/
structure Selectable (u : CanonicalUnit) : Prop where
  canonical : ∀ s ∈ u.trees, s.Canonical
  nodup : (Stmt.idsAll u.trees).Nodup

section
variable {o : Options} {u : CanonicalUnit} {t t₁ t₂ t' : TileTable}

/-- The ids of the unit's trees, those of the functions first. -/
theorem idsAll_trees (u : CanonicalUnit) : Stmt.idsAll u.trees =
    (u.functions.flatMap fun f => f.body.ids) ++ Stmt.idsAll u.startup := by
  rw [Stmt.idsAll_eq_flatMap, Stmt.idsAll_eq_flatMap, trees, List.flatMap_append, List.flatMap_map]

theorem Selectable.function (h : u.Selectable) {f : Function} (hf : f ∈ u.functions) :
    f.body.Canonical ∧ f.body.ids.Nodup := by
  have hmem : f.body ∈ u.trees := List.mem_append_left _ (List.mem_map_of_mem hf)
  exact ⟨h.canonical _ hmem, h.nodup.sublist (Stmt.ids_sublist_idsAll hmem)⟩

theorem Selectable.startup (h : u.Selectable) {s : Stmt} (hs : s ∈ u.startup) :
    s.Canonical ∧ s.ids.Nodup := by
  have hmem : s ∈ u.trees := List.mem_append_right _ hs
  exact ⟨h.canonical _ hmem, h.nodup.sublist (Stmt.ids_sublist_idsAll hmem)⟩

/-- What the assembly of a function enters are nodes of its body. -/
theorem Selectable.grows_function (h : u.Selectable) {f : Function} (hf : f ∈ u.functions)
    {lines : List Line} (hl : t.Lacks f.body.ids) (hrun : f.assemble o t = .ok lines t') :
    t.Grows t' f.body.ids := by
  obtain ⟨code, -, hcode, -, -⟩ := Function.stages_of_assemble hrun
  obtain ⟨hc, hn⟩ := h.function hf
  exact (Stmt.ok_of_tileBody hc hn hl hcode).2.2.2

theorem Selectable.grows_startup (h : u.Selectable) {s : Stmt} (hs : s ∈ u.startup)
    {code : List Instr} (hl : t.Lacks s.ids) (hrun : s.tileBody t = .ok code t') :
    t.Grows t' s.ids := by
  obtain ⟨hc, hn⟩ := h.startup hs
  exact (Stmt.ok_of_tileBody hc hn hl hrun).2.2.2

/-- Each function finds its nodes new when its turn comes. -/
theorem Selectable.lacks_function (h : u.Selectable) {before after : List Function} {f : Function}
    {lines : List (List Line)} (hf : u.functions = before ++ f :: after)
    (hrun : before.mapM (Function.assemble o) t.forget = .ok lines t₁) :
    t₁.Lacks f.body.ids := by
  have hn := h.nodup
  rw [idsAll_trees, hf, List.nodup_append] at hn
  refine lacks_of_mapM (fun f : Function => f.body.ids) (fun g hg t b t' hl hrun => ?_) hn.1
    (lacks_forget t _) hrun
  exact h.grows_function (by simp [hf, hg]) hl hrun

/-- What is run at the start finds its nodes new once the functions are through. -/
theorem Selectable.lacks_startup (h : u.Selectable) {lines : List (List Line)}
    (hrun : u.functions.mapM (Function.assemble o) t.forget = .ok lines t₁) :
    t₁.Lacks (Stmt.idsAll u.startup) := by
  have hn := h.nodup
  rw [idsAll_trees] at hn
  obtain ⟨hnf, -, hdisjoint⟩ := List.nodup_append.mp hn
  have hgrows := grows_of_mapM (fun f : Function => f.body.ids)
    (fun f hf _ _ _ hl hf' => h.grows_function hf hl hf') hnf (lacks_forget t _) hrun
  exact hgrows.lacks (lacks_forget t _) fun i hi hf => hdisjoint i hf i hi rfl

/-- Each statement to run at the start finds its nodes new when its turn comes. -/
theorem Selectable.lacks_statement (h : u.Selectable) {lines : List (List Line)}
    {before after : List Stmt} {s : Stmt} {codes : List (List Instr)}
    (hfunctions : u.functions.mapM (Function.assemble o) t.forget = .ok lines t₁)
    (hs : u.startup = before ++ s :: after) (hrun : before.mapM Stmt.tileBody t₁ = .ok codes t₂) :
    t₂.Lacks s.ids := by
  have hl := h.lacks_startup hfunctions
  have hn := h.nodup
  rw [idsAll_trees] at hn
  have hnodup := (List.nodup_append.mp hn).2.1
  rw [Stmt.idsAll_eq_flatMap, hs] at hnodup hl
  refine lacks_of_mapM Stmt.ids (fun r hr t b t' hl hrun => ?_) hnodup hl hrun
  exact h.grows_startup (by simp [hs, hr]) hl hrun

/-! ## Assembled units -/

/-- The stages of the assembly of a unit: with no tile in the table at first, its functions are
assembled one after the other, and then the code is selected that it wants run at the start. -/
theorem stages_of_assemble {lines : UnitLines} {startup : List Instr}
    (h : u.assemble o t = .ok (lines, startup) t') : ∃ functions t₁ codes,
      u.functions.mapM (Function.assemble o) t.forget = .ok functions t₁ ∧
      u.startup.mapM Stmt.tileBody t₁ = .ok codes t' ∧
      lines = { name := u.name, lines := .segment ".text" :: .blank :: u.exports.map .offer ++
        u.imports.map .need ++ functions.flatten } ∧
      startup = codes.flatten.map (Instr.mapRegs (Reg.scoped u.name)) := by
  rw [assemble] at h
  obtain ⟨_, t₁, hforget, h⟩ := ok_of_bind h
  obtain ⟨functions, t₂, hfunctions, h⟩ := ok_of_bind h
  obtain ⟨code, t₃, hstartup, h⟩ := ok_of_bind h
  cases h
  cases hforget
  rw [selectStartup] at hstartup
  obtain ⟨codes, t₄, hcodes, hstartup⟩ := ok_of_bind hstartup
  cases hstartup
  exact ⟨functions, t₂, codes, hfunctions, hcodes, rfl, rfl⟩

/-- The code that an assembled unit leaves for the start: that of its statements, with the
unit's names on the temporaries. -/
theorem ok_of_assemble (hu : u.Selectable) {lines : UnitLines} {startup : List Instr}
    (h : u.assemble o t = .ok (lines, startup) t') :
    Stmt.AllocateSingly u.startup ∧
      ∃ n, startup = (Stmt.emitAll u.startup n).1.map (Instr.mapRegs (Reg.scoped u.name)) := by
  obtain ⟨functions, t₁, codes, hfunctions, hcodes, -, rfl⟩ := stages_of_assemble h
  have hn := hu.nodup
  rw [idsAll_trees, List.nodup_append] at hn
  obtain ⟨hsingly, hcode⟩ := Stmt.ok_of_mapM_tileBody (fun s hs => (hu.startup hs).1) hn.2.1
    (hu.lacks_startup hfunctions) hcodes
  exact ⟨hsingly, t₁.nextFresh, by rw [hcode]⟩

/-- **Why a unit cannot be assembled**: one of its trees calls the allocation routine with
another number of arguments than one, or the allocator refuses the code of a function. -/
theorem error_of_assemble (hu : u.Selectable) {e : CompileError}
    (h : u.assemble o t = .error e t') :
    (∃ n, n ≠ 1 ∧ e = .allocationArity n) ∨
      ∃ f ∈ u.functions, ∃ n, o.allocate (f.body.emit n).1 = .error e := by
  rw [assemble] at h
  rcases error_of_bind h with h | ⟨_, t₁, hforget, h⟩
  · cases h
  cases hforget
  rcases error_of_bind h with h | ⟨functions, t₂, hfunctions, h⟩
  · obtain ⟨before, f, after, lines, t₂, hf, hbefore, h⟩ := error_of_mapM h
    have hmem : f ∈ u.functions := by simp [hf]
    obtain ⟨hc, hn⟩ := hu.function hmem
    have hl := hu.lacks_function hf hbefore
    rcases Function.error_of_assemble h with h | ⟨code, t₃, hcode, h⟩
    · exact Or.inl (Stmt.error_of_tileBody hc hn hl h)
    · rw [(Stmt.ok_of_tileBody hc hn hl hcode).2.1] at h
      exact Or.inr ⟨f, hmem, t₂.nextFresh, h⟩
  rcases error_of_bind h with h | ⟨code, t₃, -, h⟩
  · rw [selectStartup] at h
    rcases error_of_bind h with h | ⟨codes, t₃, -, h⟩
    · obtain ⟨before, s, after, codes, t₃, hs, hbefore, h⟩ := error_of_mapM h
      obtain ⟨hc, hn⟩ := hu.startup (s := s) (by simp [hs])
      exact Or.inl (Stmt.error_of_tileBody hc hn (hu.lacks_statement hfunctions hs hbefore) h)
    · cases h
  · cases h

end

/-! ## The nodes that the assembly of a unit comes to -/

/-- The assembly of a unit comes to a node, and finds this table there: in the body of a
function, after the functions before it, or in a statement to run at the start, after all
functions and the statements before it. -/
inductive Reaches (o : Options) (u : CanonicalUnit) (t : TileTable) : Node → TileTable → Prop
  | function {before after : List Function} {f : Function} {lines : List (List Line)}
    {t₁ t' : TileTable} {x : Node} (hf : u.functions = before ++ f :: after)
    (hrun : before.mapM (Function.assemble o) t.forget = .ok lines t₁)
    (hx : (Node.stmt f.body).Reaches t₁ x t') : Reaches o u t x t'
  | statement {lines : List (List Line)} {before after : List Stmt} {s : Stmt}
    {codes : List (List Instr)} {t₁ t₂ t' : TileTable} {x : Node}
    (hfunctions : u.functions.mapM (Function.assemble o) t.forget = .ok lines t₁)
    (hs : u.startup = before ++ s :: after) (hrun : before.mapM Stmt.tileBody t₁ = .ok codes t₂)
    (hx : (Node.stmt s).Reaches t₂ x t') : Reaches o u t x t'

/-- **The assembly of a unit comes to new nodes only.** -/
theorem Reaches.new {o : Options} {u : CanonicalUnit} {t t' : TileTable} {x : Node}
    (h : Reaches o u t x t') (hu : u.Selectable) : t'.contains x.id = false := by
  cases h with
  | @function before after f _ _ _ _ hf hrun hx =>
      obtain ⟨hc, hn⟩ := hu.function (f := f) (by simp [hf])
      exact Node.Reaches.new hx hc hn (hu.lacks_function hf hrun)
  | @statement _ before after s _ _ _ _ _ hfunctions hs hrun hx =>
      obtain ⟨hc, hn⟩ := hu.startup (s := s) (by simp [hs])
      exact Node.Reaches.new hx hc hn (hu.lacks_statement hfunctions hs hrun)

end CanonicalUnit

/-! ## Assembled programs -/

/-- The stages of the assembly of a program: the entry point is found, the units are assembled one
after the other, and what they want run at the start is allocated. -/
theorem stages_of_assemble {o : Options} {units : List CanonicalUnit} {a : Assembly}
    (h : assemble o units = .ok a) : ∃ entry assembled startup t,
      entryOf (units.flatMap CanonicalUnit.exports) o.entry = .ok entry ∧
      units.mapM (CanonicalUnit.assemble o) {} = .ok assembled t ∧
      o.allocate (assembled.flatMap Prod.snd) = .ok startup ∧
      a.units = assembled.map Prod.fst ∧
      a.startup = startupLines (units.flatMap CanonicalUnit.fields)
        (startupImports (units.flatMap CanonicalUnit.startup)
          (units.flatMap CanonicalUnit.fields) entry)
        startup.slots (o.tidy startup.code) entry := by
  cases hrun : (assembleUnits o units).run {} with
  | error e t' =>
      simp only [assemble, hrun] at h
      cases h
  | ok whole t' =>
      simp only [assemble, hrun] at h
      cases h
      obtain ⟨entry, t₁, hentry, hrun⟩ := ok_of_bind hrun
      obtain ⟨hok, rfl⟩ := ok_of_ofExcept hentry
      obtain ⟨assembled, t₂, hassembled, hrun⟩ := ok_of_bind hrun
      obtain ⟨startup, t₃, hstartup, hrun⟩ := ok_of_bind hrun
      cases hrun
      exact ⟨entry, assembled, startup, t₂, hok, hassembled, (ok_of_ofExcept hstartup).1, rfl,
        rfl⟩

theorem firstRepeated?_eq_none {seen functions : List String}
    (h : firstRepeated? seen functions = none) : functions.Nodup ∧ ∀ s ∈ functions, s ∉ seen := by
  induction functions generalizing seen with
  | nil => exact ⟨List.nodup_nil, List.forall_mem_nil _⟩
  | cons s rest ih =>
      rw [firstRepeated?] at h
      split at h
      · cases h
      · rename_i hs
        obtain ⟨hn, hfresh⟩ := ih h
        rw [List.contains_iff_mem] at hs
        refine ⟨List.nodup_cons.mpr ⟨fun hmem => hfresh s hmem List.mem_cons_self, hn⟩, ?_⟩
        exact List.forall_mem_cons.mpr ⟨hs, fun x hx => mt (List.mem_cons_of_mem s) (hfresh x hx)⟩

/-- The entry point is one of the functions, and none of these is repeated. -/
theorem entryOf_eq_ok {functions : List String} {asked : Option String} {entry : String}
    (h : entryOf functions asked = .ok entry) : functions.Nodup ∧ entry ∈ functions := by
  unfold entryOf at h
  split at h
  · cases h
  · rename_i hnone
    refine ⟨(firstRepeated?_eq_none hnone).1, ?_⟩
    split at h
    · split at h
      · rename_i hmem
        cases h
        exact List.contains_iff_mem.mp hmem
      · cases h
    · cases h
      exact List.mem_cons_self
    · cases h

/-- A program is compiled by lowering its units and assembling them; the check between the two
never refuses anything. -/
theorem compile_eq_ok {units : List SourceUnit} {o : Options} {p : Program} :
    compile units o = .ok p ↔ ∃ canonical a, units.mapM SourceUnit.canonicalize = .ok canonical ∧
      assemble o canonical = .ok a ∧ p = a.render o.comments := by
  have hemit {canonical : List CanonicalUnit}
      (h : units.mapM SourceUnit.canonicalize = .ok canonical) :
      compile units o = (assemble o canonical).map (Assembly.render o.comments) := by
    rw [compile, Except.bind_ok h, emit]
    split
    · rw [checkUnits_of_canonicalize h]
      rfl
    · rfl
  constructor
  · intro h
    obtain ⟨canonical, hcanonical, -⟩ := Except.ok_of_bind (compile.eq_1 units o ▸ h)
    rw [hemit hcanonical] at h
    obtain ⟨a, ha, hp⟩ := Except.ok_of_map h
    exact ⟨canonical, a, hcanonical, ha, hp⟩
  · rintro ⟨canonical, a, hcanonical, ha, rfl⟩
    rw [hemit hcanonical, ha]
    rfl

end TreeBackend
