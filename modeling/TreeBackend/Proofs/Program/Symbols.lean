import TreeBackend.Proofs.Peephole.Tidied
import TreeBackend.Proofs.Program.Identity
import TreeBackend.Proofs.Tile.Symbols

/-!
# No undefined symbols

Allocation, tidying up and the code around a body refer to no further symbols and keep all labels:
`SameSymbols`.  So what the artifact of a unit refers to is what its trees refer to, and the imports
are computed from those.

* `Options.sameSymbols_allocate`, `Options.sameSymbols_tidy`, `Function.sameSymbols_assemble`.
* `CanonicalUnit.symbolsOf_functions`, `symbolsOf_startup`: code has the symbols of its trees.
* `symbols_defined`: **no artifact refers to a symbol that it neither defines nor imports.**
-/

namespace TreeBackend

/-- The instruction on a line. -/
def Line.instr? : Line → Option Instr
  | code a => some a.instr
  | _ => none

/-- The instructions of an artifact. -/
def Line.instrs (lines : List Line) : List Instr := lines.filterMap instr?

theorem Line.instrs_append (a b : List Line) : instrs (a ++ b) = instrs a ++ instrs b :=
  List.filterMap_append

@[simp] theorem Line.instrs_map_code (code : List Annotated) :
    instrs (code.map .code) = code.map Annotated.instr := by
  rw [instrs, List.filterMap_map]
  exact congrFun List.filterMap_eq_map code

@[simp] theorem Line.instrs_ofCode (code : List Instr) : instrs (ofCode code) = code := by
  rw [instrs, ofCode, List.filterMap_map]
  exact List.filterMap_some

theorem Line.instrs_flatten (lines : List (List Line)) :
    instrs lines.flatten = lines.flatMap instrs := by
  induction lines with
  | nil => rfl
  | cons first rest ih => rw [List.flatten_cons, instrs_append, ih, List.flatMap_cons]

theorem Line.instrs_cons_other {l : Line} (h : l.instr? = none) (rest : List Line) :
    instrs (l :: rest) = instrs rest := List.filterMap_cons_none h

theorem Line.instrs_map_other {line : String → Line} (h : ∀ x, (line x).instr? = none)
    (xs : List String) : instrs (xs.map line) = [] :=
  List.filterMap_eq_nil_iff.mpr (List.forall_mem_map.mpr fun x _ => h x)

/-- The second code refers to no symbol that the first one does not refer to, and has the same
labels. -/
structure SameSymbols (code out : List Instr) : Prop where
  refers : ∀ {S}, Refers S code → Refers S out
  labels : ∀ l, .label l ∈ out ↔ .label l ∈ code

namespace SameSymbols

variable {a b a' b' c : List Instr}

theorem refl (a : List Instr) : SameSymbols a a := ⟨fun h => h, fun _ => Iff.rfl⟩

theorem trans (h : SameSymbols a b) (h' : SameSymbols b c) : SameSymbols a c :=
  ⟨fun hS => h'.refers (h.refers hS), fun l => (h'.labels l).trans (h.labels l)⟩

theorem append (h : SameSymbols a a') (h' : SameSymbols b b') :
    SameSymbols (a ++ b) (a' ++ b') where
  refers hS := by
    obtain ⟨ha, hb⟩ := List.forall_mem_append.mp hS
    exact (h.refers ha).append (h'.refers hb)
  labels l := by rw [List.mem_append, List.mem_append, h.labels, h'.labels]

/-- Code that has neither symbols nor labels. -/
theorem quiet (h : ∀ i ∈ a, i.symbols = [] ∧ Peephole.isLabel i = false) : SameSymbols [] a where
  refers _ := refers_of_nil fun i hi => (h i hi).1
  labels l := by
    refine iff_of_false (fun hl => ?_) List.not_mem_nil
    exact Bool.noConfusion (h _ hl).2

/-- Code around the code. -/
theorem surround (h : SameSymbols a b) {before after : List Instr}
    (hbefore : ∀ i ∈ before, i.symbols = [] ∧ Peephole.isLabel i = false)
    (hafter : ∀ i ∈ after, i.symbols = [] ∧ Peephole.isLabel i = false) :
    SameSymbols a (before ++ b ++ after) := by
  have hboth := ((quiet hbefore).append h).append (quiet hafter)
  rwa [List.nil_append, List.append_nil] at hboth

theorem mapRegs (f : Reg → Reg) (a : List Instr) : SameSymbols a (a.map (Instr.mapRegs f)) where
  refers h := h.mapRegs f
  labels l := by simp [Instr.mapRegs_eq_label]

/-- Blocks for the instructions of the code. -/
theorem flatten {code : List Instr} {blocks : List (List Annotated)}
    (h : List.Forall₂ (fun i block => SameSymbols [i] (block.map Annotated.instr)) code blocks) :
    SameSymbols code (blocks.flatten.map Annotated.instr) := by
  induction h with
  | nil => exact .refl []
  | cons hfirst _ ih =>
      rw [List.flatten_cons, List.map_append]
      exact hfirst.append ih

end SameSymbols

/-! ## Allocation -/

/-- **What an allocator puts around an instruction refers to no symbol.** -/
theorem Housed.sameSymbols {i : Instr} {block : List Annotated} (h : Housed i block) :
    SameSymbols [i] (block.map Annotated.instr) := by
  cases h with
  | @intro homes housed saves _ hhouse =>
      obtain ⟨visits, -, rfl⟩ := Homes.ok_of_house hhouse
      have hhere := SameSymbols.mapRegs (homes.place visits) [i]
      simp only [List.map_append, List.map_cons, List.map_map]
      rw [List.append_cons]
      refine (hhere.surround ?_ ?_).surround ?_ ?_ <;>
      · intro j hj
        obtain ⟨t, -, rfl⟩ := List.mem_map.mp hj
        exact ⟨rfl, rfl⟩

/-- **An allocator refers to no further symbols and keeps all labels.** -/
theorem Options.sameSymbols_allocate {o : Options} {code : List Instr} {a : Allocation}
    (h : o.allocate code = .ok a) : SameSymbols code (a.code.map Annotated.instr) := by
  obtain ⟨blocks, hflat, hblocks⟩ := housed_of_allocate h
  rw [hflat]
  exact .flatten (hblocks.imp fun _ _ => Housed.sameSymbols)

/-! ## Tidying up -/

/-- **Tidying up leaves symbols out and no labels.** -/
theorem Options.sameSymbols_tidy (o : Options) (code : List Annotated) :
    SameSymbols (code.map Annotated.instr) ((o.tidy code).map Annotated.instr) := by
  rw [tidy]
  split
  · have hsub := (Peephole.tidy_sublist code).map Annotated.instr
    refine ⟨fun hS i hi => hS i (hsub.subset hi), fun l => ⟨fun hl => hsub.subset hl, fun hl => ?_⟩⟩
    obtain ⟨a, ha, hal⟩ := List.mem_map.mp hl
    have hmark : Peephole.isMark a.instr = true := by
      rw [hal]
      rfl
    exact List.mem_map.mpr ⟨a, Peephole.mem_tidy_of_isMark hmark ha, hal⟩
  · exact .refl _

/-! ## Artifacts -/

theorem quiet_prologue (slots : Nat) :
    ∀ i ∈ prologue slots, i.symbols = [] ∧ Peephole.isLabel i = false := by
  intro i hi
  rw [prologue] at hi
  split at hi
  · revert i
    decide
  · simp only [List.cons_append, List.nil_append, List.mem_cons, List.not_mem_nil, or_false] at hi
    rcases hi with rfl | rfl | rfl <;> exact ⟨rfl, rfl⟩

section
variable {o : Options} {t t' : TileTable}

/-- **A function refers to the symbols of its code and has the labels of its code.** -/
theorem Function.sameSymbols_assemble {f : Function} {lines : List Line}
    (h : f.assemble o t = .ok lines t') :
    ∃ code, f.body.tileBody t = .ok code t' ∧ SameSymbols code (Line.instrs lines) := by
  obtain ⟨code, allocated, hcode, hallocated, rfl⟩ := stages_of_assemble h
  refine ⟨code, hcode, ?_⟩
  have hallocate := Options.sameSymbols_allocate hallocated
  have hclosed : SameSymbols code ((closeBody allocated.code).map Annotated.instr) := by
    rw [closeBody]
    split
    · exact hallocate
    · rw [List.map_append]
      exact hallocate.surround (List.forall_mem_nil _) (by decide)
  have htidy := hclosed.trans (o.sameSymbols_tidy _)
  have hlines := htidy.surround (quiet_prologue allocated.slots) (List.forall_mem_nil _)
  rw [List.append_nil] at hlines
  rw [linesOf, Line.instrs_append, Line.instrs_map_code]
  show SameSymbols code (Line.instrs (Line.ofCode _) ++ _)
  rw [Line.instrs_ofCode]
  exact hlines

end

/-- The trees have the labels that they want to find. -/
def Stmt.LabelsFound (body : List Stmt) : Prop :=
  ∀ l ∈ Stmt.localNamesAll body, .label l ∈ Stmt.effectsAll body

instance (body : List Stmt) : Decidable (Stmt.LabelsFound body) :=
  inferInstanceAs (Decidable (∀ l ∈ Stmt.localNamesAll body, .label l ∈ Stmt.effectsAll body))

/-- Code refers to no symbol but those that the trees refer to, the labels that they want to find
in it and the run-time system, and has the labels of the trees. -/
structure SymbolsOf (body : List Stmt) (out : List Instr) : Prop where
  refers : ∀ {S}, Reserved.runtime ⊆ S → Stmt.referencesAll body ⊆ S →
    Stmt.localNamesAll body ⊆ S → Refers S out
  labels : ∀ l, .label l ∈ Stmt.effectsAll body → .label l ∈ out

namespace SymbolsOf

variable {body more : List Stmt} {out out' : List Instr}

theorem nil : SymbolsOf [] [] where
  refers _ _ _ := refers_nil
  labels l h := by
    rw [Stmt.effectsAll_nil] at h
    cases h

theorem emitAll (hc : ∀ s ∈ body, s.Canonical) (n : Nat) :
    SymbolsOf body (Stmt.emitAll body n).1 where
  refers hruntime hr hl := Stmt.refers_emitAll hruntime body n hr hl
  labels _ h := Stmt.label_mem_emitAll body n hc h

theorem emit {s : Stmt} (hc : s.Canonical) (n : Nat) : SymbolsOf [s] (s.emit n).1 := by
  have h := emitAll (List.forall_mem_singleton.mpr hc) n
  simpa [Stmt.emitAll] using h

theorem trans (h : SymbolsOf body out) (hsame : SameSymbols out out') : SymbolsOf body out' where
  refers hruntime hr hl := hsame.refers (h.refers hruntime hr hl)
  labels l hl := (hsame.labels l).mpr (h.labels l hl)

theorem append (h : SymbolsOf body out) (h' : SymbolsOf more out') :
    SymbolsOf (body ++ more) (out ++ out') where
  refers hruntime hr hl := by
    rw [Stmt.referencesAll_append, List.append_subset] at hr
    rw [Stmt.localNamesAll_append, List.append_subset] at hl
    exact (h.refers hruntime hr.1 hl.1).append (h'.refers hruntime hr.2 hl.2)
  labels l hl := by
    rw [Stmt.effectsAll_append] at hl
    rcases List.mem_append.mp hl with hl | hl
    · exact List.mem_append_left _ (h.labels l hl)
    · exact List.mem_append_right _ (h'.labels l hl)

theorem flatMap {α β : Type} {trees : α → List Stmt} {code : β → List Instr} {as : List α}
    {bs : List β} (h : List.Forall₂ (fun a b => SymbolsOf (trees a) (code b)) as bs) :
    SymbolsOf (as.flatMap trees) (bs.flatMap code) := by
  induction h with
  | nil => exact .nil
  | cons hfirst _ ih => exact hfirst.append ih

/-- Where the trees have the labels that they want to find, all symbols of the code are labels
in it, references of the trees, or symbols of the run-time system. -/
theorem defined (h : SymbolsOf body out)
    (hlabels : Stmt.LabelsFound body) {i : Instr}
    {s : String} (hi : i ∈ out) (hs : s ∈ i.symbols) :
    .label s ∈ out ∨ s ∈ Stmt.referencesAll body ∨ s ∈ Reserved.runtime := by
  have hrefers := h.refers (S := Stmt.localNamesAll body ++ (Stmt.referencesAll body ++
      Reserved.runtime)) (fun x hx => by simp [hx]) (fun x hx => by simp [hx])
    (List.subset_append_left _ _)
  rcases List.mem_append.mp (hrefers i hi hs) with hlocal | hs
  · exact .inl (h.labels s (hlabels s hlocal))
  · exact .inr (List.mem_append.mp hs)

end SymbolsOf

namespace CanonicalUnit

variable {o : Options} {u : CanonicalUnit} {t t' : TileTable} {lines : UnitLines}
  {startup : List Instr}

theorem instrs_lines (exports imports : List String) (functions : List (List Line)) :
    Line.instrs (.segment ".text" :: .blank :: exports.map .offer ++ imports.map .need ++
      functions.flatten) = functions.flatMap Line.instrs := by
  rw [Line.instrs_append, Line.instrs_append, Line.instrs_cons_other rfl,
    Line.instrs_cons_other rfl, Line.instrs_map_other fun _ => rfl,
    Line.instrs_map_other fun _ => rfl, Line.instrs_flatten]
  rfl

/-- **The artifact of a unit has the symbols of its functions.** -/
theorem symbolsOf_functions (hu : u.Selectable) (h : u.assemble o t = .ok (lines, startup) t') :
    SymbolsOf (u.functions.map Function.body) (Line.instrs lines.lines) := by
  obtain ⟨functions, t₁, codes, hfunctions, -, rfl, -⟩ := stages_of_assemble h
  have hn := hu.nodup
  rw [idsAll_trees, List.nodup_append] at hn
  have hsteps := TileTable.steps_of_mapM (fun f : Function => f.body.ids)
    (fun f hf _ _ _ hl hf' => hu.grows_function hf hl hf') hn.1 (TileTable.lacks_forget t _)
    hfunctions
  have hcode : List.Forall₂ (fun f lines => SymbolsOf [f.body] (Line.instrs lines)) u.functions
      functions := by
    refine ((List.forall₂_and_left _ _).mpr ⟨fun f hf => hf, hsteps⟩).imp ?_
    rintro f lines ⟨hf, t₁, t₂, hl, hassemble⟩
    obtain ⟨code, hcode, hsame⟩ := Function.sameSymbols_assemble hassemble
    obtain ⟨hc, hn⟩ := hu.function hf
    obtain rfl := (Stmt.ok_of_tileBody hc hn hl hcode).2.1
    exact (SymbolsOf.emit hc _).trans hsame
  rw [instrs_lines, List.map_eq_flatMap]
  exact .flatMap hcode

theorem symbolsOf_startup (hu : u.Selectable) (h : u.assemble o t = .ok (lines, startup) t') :
    SymbolsOf u.startup startup := by
  obtain ⟨-, n, rfl⟩ := ok_of_assemble hu h
  exact (SymbolsOf.emitAll (fun s hs => (hu.startup hs).1) n).trans (.mapRegs _ _)

/-- The artifact of a unit refers to its labels, exports and imports only. -/
theorem defined_of_assemble (hu : u.Selectable)
    (hfound : Stmt.LabelsFound (u.functions.map Function.body))
    (h : u.assemble o t = .ok (lines, startup) t') {i : Instr} {s : String}
    (hi : i ∈ Line.instrs lines.lines) (hs : s ∈ i.symbols) :
    .label s ∈ Line.instrs lines.lines ∨ s ∈ u.exports ∨ s ∈ u.imports := by
  rcases (symbolsOf_functions hu h).defined hfound hi hs with hlabel | hs | hs
  · exact .inl hlabel
  · by_cases hexport : s ∈ u.exports
    · exact .inr (.inl hexport)
    · exact .inr (.inr (Symbols.mem_imports.mpr (.inl ⟨hs, hexport⟩)))
  · exact .inr (.inr (Symbols.mem_imports.mpr (.inr hs)))

end CanonicalUnit

section
variable {o : Options} {units : List CanonicalUnit} {t t' : TileTable}
  {assembled : List (UnitLines × List Instr)} {startup : Allocation}

/-- What is run at the start has the labels of the code that the assembled units leave for it. -/
theorem sameSymbols_startup (h : o.allocate (assembled.flatMap Prod.snd) = .ok startup) :
    SameSymbols (assembled.flatMap Prod.snd) ((o.tidy startup.code).map Annotated.instr) :=
  (Options.sameSymbols_allocate h).trans (o.sameSymbols_tidy startup.code)

/-- **What is run at the start has the symbols of the trees to run at the start.** -/
theorem symbolsOf_startup (hall : ∀ u ∈ units, u.Selectable)
    (hassembled : units.mapM (CanonicalUnit.assemble o) t = .ok assembled t')
    (h : o.allocate (assembled.flatMap Prod.snd) = .ok startup) :
    SymbolsOf (units.flatMap CanonicalUnit.startup)
      ((o.tidy startup.code).map Annotated.instr) := by
  have hcode : List.Forall₂ (fun u made => SymbolsOf u.startup made.2) units assembled := by
    refine ((List.forall₂_and_left _ _).mpr ⟨hall, forall₂_of_mapM hassembled⟩).imp ?_
    rintro u ⟨lines, code⟩ ⟨hu, t₁, t₂, hassemble⟩
    exact CanonicalUnit.symbolsOf_startup hu hassemble
  exact (SymbolsOf.flatMap hcode).trans (sameSymbols_startup h)

end

/-- What starts the program refers to what the units want run at the start refers to, and to the
entry point. -/
theorem instrs_startupLines (fields imports : List String) (slots : Nat) (body : List Annotated)
    (entry : String) : Line.instrs (startupLines fields imports slots body entry) =
      prologue slots ++ body.map Annotated.instr ++ exitSequence entry := by
  have hother (l : Line) (h : l.instr? = none) (rest : List Line) :
      Line.instrs (l :: rest) = Line.instrs rest := Line.instrs_cons_other h rest
  have hmap (line : String → Line) (h : ∀ x, (line x).instr? = none) (xs : List String) :
      Line.instrs (xs.map line) = [] := Line.instrs_map_other h xs
  simp only [startupLines, Line.instrs_append, Line.instrs_ofCode, Line.instrs_map_code,
    hmap .cell fun _ => rfl, hmap .offer fun _ => rfl, hmap .need fun _ => rfl,
    hother (.segment _) rfl, hother .blank rfl, hother (.offer _) rfl, hother (.entry _) rfl,
    List.nil_append]

/-- **No artifact refers to a symbol that it neither defines nor imports**, if its trees have the
labels that they want to find.  In the artifact of a unit all symbols are labels, exports or
imports; in the startup artifact they are labels, static fields or imports. -/
theorem symbols_defined {o : Options} {units : List CanonicalUnit} {p : Program}
    (h : emit o units = .ok p) : ∃ a, assemble o units = .ok a ∧ p = a.render o.comments ∧
      (∀ (k : Nat) (u : CanonicalUnit), units[k]? = some u → u.check = .ok () → u.ids.Nodup →
        Stmt.LabelsFound (u.functions.map Function.body) →
          ∃ artifact, a.units[k]? = some artifact ∧
            ∀ i ∈ Line.instrs artifact.lines, ∀ s ∈ i.symbols,
              .label s ∈ Line.instrs artifact.lines ∨ s ∈ u.exports ∨ s ∈ u.imports) ∧
      ((∀ u ∈ units, u.check = .ok () ∧ u.ids.Nodup) →
        Stmt.LabelsFound (units.flatMap CanonicalUnit.startup) →
          ∃ entry, entryOf (units.flatMap CanonicalUnit.exports) o.entry = .ok entry ∧
            ∀ i ∈ Line.instrs a.startup, ∀ s ∈ i.symbols,
              .label s ∈ Line.instrs a.startup ∨ s ∈ units.flatMap CanonicalUnit.fields ∨
                s ∈ startupImports (units.flatMap CanonicalUnit.startup)
                  (units.flatMap CanonicalUnit.fields) entry) := by
  obtain ⟨a, ha, rfl⟩ := Except.ok_of_map h
  obtain ⟨entry, assembled, startup, t, hentry, hassembled, hstartup, hunits, hlines⟩ :=
    stages_of_assemble ha
  have hselectable {u : CanonicalUnit} (hcheck : u.check = .ok ()) (hn : u.ids.Nodup) :
      u.Selectable := ⟨CanonicalUnit.check_eq_ok.mp hcheck, hn⟩
  refine ⟨a, ha, rfl, ?_, ?_⟩
  · intro k u hu hcheck hn hfound
    obtain ⟨made, hmade, t₁, t₂, hassemble⟩ :=
      getElem?_of_forall₂ (forall₂_of_mapM hassembled) hu
    refine ⟨made.1, by rw [hunits, List.getElem?_map, hmade]; rfl, fun i hi s hs => ?_⟩
    exact CanonicalUnit.defined_of_assemble (hselectable hcheck hn) hfound hassemble hi hs
  · intro hall hfound
    refine ⟨entry, hentry, ?_⟩
    have hbody := symbolsOf_startup (fun u hu => hselectable (hall u hu).1 (hall u hu).2)
      hassembled hstartup
    have himport {s : String} (hs : s ∈ Stmt.referencesAll (units.flatMap CanonicalUnit.startup) ++
        [entry]) : s ∈ units.flatMap CanonicalUnit.fields ∨
          s ∈ startupImports (units.flatMap CanonicalUnit.startup)
            (units.flatMap CanonicalUnit.fields) entry := by
      by_cases hfield : s ∈ units.flatMap CanonicalUnit.fields
      · exact .inl hfield
      · exact .inr (Symbols.mem_imports.mpr (.inl ⟨hs, hfield⟩))
    rw [hlines, instrs_startupLines]
    intro i hi s hs
    rcases List.mem_append.mp hi with hi | hi
    rcases List.mem_append.mp hi with hi | hi
    · rw [(quiet_prologue startup.slots i hi).1] at hs
      cases hs
    · rcases hbody.defined hfound hi hs with hlabel | hs | hs
      · exact .inl (List.mem_append_left _ (List.mem_append_right _ hlabel))
      · exact .inr (himport (List.mem_append_left _ hs))
      · exact .inr (.inr (Symbols.mem_imports.mpr (.inr hs)))
    · have hentries : Refers [entry] (exitSequence entry) := by
        simp [Refers, exitSequence, Instr.symbols, Operand.symbols, Operand.phys]
      exact .inr (himport (List.mem_append_right _ (hentries i hi hs)))

/-- A unit whose function stores quotients into a field until what another function returns is
zero, and whose start skips a call. -/
def dividingUnit : CanonicalUnit where
  name := "T"
  functions := [⟨"T.f", 0, .seq ⟨0⟩ [.label ⟨1⟩ "again",
    .move ⟨2⟩ (.temp ⟨3⟩ "T.x" true) (.binop ⟨4⟩ .div (.temp ⟨5⟩ "T.x" true) (.const ⟨6⟩ 2)),
    .call ⟨7⟩ (.name ⟨8⟩ "g" false) [], .cjump ⟨9⟩ (.temp ⟨10⟩ "_RET" false) "again" "done",
    .label ⟨11⟩ "done", .ret ⟨12⟩ none]⟩]
  fields := ["T.x"]
  inits := [.move ⟨13⟩ (.temp ⟨14⟩ "T.x" true) (.const ⟨15⟩ 7)]
  start := [.jump ⟨16⟩ (.name ⟨17⟩ "skip" false), .call ⟨18⟩ (.name ⟨19⟩ "T.f" true) [],
    .label ⟨20⟩ "skip"]

theorem symbols_defined_dividingUnit : ∃ (p : Program) (a : Assembly),
    emit { allocator := .basic } [dividingUnit] = .ok p ∧ p = a.render true ∧
    dividingUnit.check = .ok () ∧ dividingUnit.ids.Nodup ∧
    (∃ artifact, a.units[0]? = some artifact ∧ ∀ i ∈ Line.instrs artifact.lines, ∀ s ∈ i.symbols,
      .label s ∈ Line.instrs artifact.lines ∨ s ∈ dividingUnit.exports ∨
        s ∈ dividingUnit.imports) ∧
    ∀ i ∈ Line.instrs a.startup, ∀ s ∈ i.symbols, .label s ∈ Line.instrs a.startup ∨
      s ∈ ["T.x"] ∨ s ∈ startupImports dividingUnit.startup ["T.x"] "T.f" := by
  have hcheck : dividingUnit.check = .ok () := rfl
  have hn : dividingUnit.ids.Nodup := by decide +kernel
  have hok : (emit { allocator := .basic } [dividingUnit]).isOk := by decide +kernel
  obtain ⟨p, hp⟩ := Except.exists_of_isOk hok
  obtain ⟨a, -, hrender, hunits, hstartup⟩ := symbols_defined hp
  obtain ⟨entry, hentry, hsymbols⟩ := hstartup (List.forall_mem_singleton.mpr ⟨hcheck, hn⟩)
    (by decide +kernel)
  cases hentry
  exact ⟨p, a, hp, hrender, hcheck, hn, hunits 0 dividingUnit rfl hcheck hn (by decide +kernel),
    hsymbols⟩

end TreeBackend
