import TreeBackend.Proofs.Effects.Labels
import TreeBackend.Proofs.Program.Lexemes
import TreeBackend.Proofs.Program.Scoping
import TreeBackend.Proofs.Program.Symbols

/-!
# Programs that can be linked

The artifacts of a program can be linked if their files have different names, no artifact both
offers and asks for a symbol, and no function and no static field is defined twice.  Of all this a
program is refused for repeated functions only.  The rest hangs on the names in the program.

* `CanonicalUnit.artifactOf_assemble`, `declarations_startupLines`: what an artifact offers, asks
  for and has a place for.
* `labels_of_assemble`, `mem_labels_of_assemble`: the labels in the code of a program.
* `Assembly.nodup_files`, `oneSided_iff`, `definesOnce_of_namesApart`, `namesApart_of_definesOnce`.
* `compile_linkable`: **which names make a program that can be linked.**
-/

namespace TreeBackend

/-! ## What stands on the lines of an artifact -/

theorem filterMap_cons_toList {α β : Type} (f : α → Option β) (a : α) (rest : List α) :
    (a :: rest).filterMap f = (f a).toList ++ rest.filterMap f := by
  rw [List.filterMap_cons]
  cases f a <;> rfl

/-- The label that an instruction sets. -/
def Instr.label? : Instr → Option String
  | label l => some l
  | _ => none

namespace Line

/-- The symbol that a line makes known to other files. -/
def offered? : Line → Option String
  | offer s => some s
  | _ => none

/-- The symbol of another file that a line asks for. -/
def needed? : Line → Option String
  | need s => some s
  | _ => none

/-- The static field or the function that has its place on a line. -/
def placed? : Line → Option String
  | cell s | entry s => some s
  | _ => none

def offers (lines : List Line) : List String := lines.filterMap offered?

def needs (lines : List Line) : List String := lines.filterMap needed?

def places (lines : List Line) : List String := lines.filterMap placed?

/-- The labels in the code of an artifact. -/
def labels (lines : List Line) : List String := (instrs lines).filterMap Instr.label?

theorem mem_labels {l : String} {lines : List Line} :
    l ∈ labels lines ↔ .label l ∈ instrs lines := by
  rw [labels, List.mem_filterMap]
  constructor
  · rintro ⟨i, hi, hl⟩
    cases i <;> cases hl
    exact hi
  · exact fun h => ⟨.label l, h, rfl⟩

/-- A view of lines that sees declarations only. -/
structure Declarative (f : Line → Option String) : Prop where
  blank : f .blank = none
  segment : ∀ s, f (.segment s) = none
  code : ∀ a, f (.code a) = none

theorem declarative_offered? : Declarative offered? := ⟨rfl, fun _ => rfl, fun _ => rfl⟩

theorem declarative_needed? : Declarative needed? := ⟨rfl, fun _ => rfl, fun _ => rfl⟩

theorem declarative_placed? : Declarative placed? := ⟨rfl, fun _ => rfl, fun _ => rfl⟩

end Line

section
variable {f : Line → Option String} (hf : Line.Declarative f)
include hf

theorem Line.Declarative.filterMap_code (code : List Annotated) :
    (code.map Line.code).filterMap f = [] :=
  List.filterMap_eq_nil_iff.mpr (List.forall_mem_map.mpr fun a _ => hf.code a)

theorem Line.Declarative.filterMap_ofCode (code : List Instr) : (ofCode code).filterMap f = [] :=
  List.filterMap_eq_nil_iff.mpr (List.forall_mem_map.mpr fun _ _ => hf.code _)

theorem Function.filterMap_assemble {o : Options} {fn : Function} {t t' : TileTable}
    {lines : List Line} (h : fn.assemble o t = .ok lines t') :
    lines.filterMap f = (f (.entry fn.label)).toList := by
  obtain ⟨-, allocated, -, -, rfl⟩ := stages_of_assemble h
  rw [linesOf, List.filterMap_append, hf.filterMap_code, List.append_nil,
    List.filterMap_cons_none hf.blank, filterMap_cons_toList, hf.filterMap_ofCode, List.append_nil]

/-- A view of the lines of functions that have been assembled sees where they start. -/
theorem Function.filterMap_flatten {o : Options} {functions : List Function}
    {lines : List (List Line)} (h : List.Forall₂ (fun fn lines => ∃ (t t' : TileTable),
      fn.assemble o t = .ok lines t') functions lines) :
    lines.flatten.filterMap f = (functions.map label).filterMap fun s => f (.entry s) := by
  induction h with
  | nil => rfl
  | cons hfirst _ ih =>
      obtain ⟨t, t', hassemble⟩ := hfirst
      rw [List.flatten_cons, List.filterMap_append, filterMap_assemble hf hassemble, ih,
        List.map_cons, filterMap_cons_toList]

theorem CanonicalUnit.filterMap_assemble {o : Options} {u : CanonicalUnit} {t t' : TileTable}
    {lines : UnitLines} {startup : List Instr} (h : u.assemble o t = .ok (lines, startup) t') :
    lines.lines.filterMap f = (u.exports.filterMap fun s => f (.offer s)) ++
      (u.imports.filterMap fun s => f (.need s)) ++ u.exports.filterMap fun s => f (.entry s) := by
  obtain ⟨functions, t₁, codes, hfunctions, -, rfl, -⟩ := stages_of_assemble h
  rw [List.filterMap_append, Function.filterMap_flatten hf (forall₂_of_mapM hfunctions),
    List.filterMap_append, List.filterMap_cons_none (hf.segment _),
    List.filterMap_cons_none hf.blank, List.filterMap_map, List.filterMap_map]
  rfl

theorem filterMap_startupLines (fields imports : List String) (slots : Nat)
    (body : List Annotated) (entry : String) :
    (startupLines fields imports slots body entry).filterMap f =
      (fields.filterMap fun s => f (.cell s)) ++ ((fields.filterMap fun s => f (.offer s)) ++
        (f (.offer Reserved.start)).toList ++ (imports.filterMap fun s => f (.need s)) ++
          (f (.entry Reserved.start)).toList) := by
  simp only [startupLines, List.filterMap_append, filterMap_cons_toList, hf.blank, hf.segment,
    hf.filterMap_code, hf.filterMap_ofCode, List.filterMap_map, Option.toList_none,
    List.nil_append, List.append_nil, List.append_assoc]
  rfl

end

/-- The artifact of a unit, which offers the functions that have their places in it, and asks for
what the unit imports. -/
structure UnitLines.ArtifactOf (u : CanonicalUnit) (artifact : UnitLines) : Prop where
  name : artifact.name = u.name
  offers : Line.offers artifact.lines = u.exports
  needs : Line.needs artifact.lines = u.imports
  places : Line.places artifact.lines = u.exports

theorem CanonicalUnit.artifactOf_assemble {o : Options} {u : CanonicalUnit} {t t' : TileTable}
    {lines : UnitLines} {startup : List Instr} (h : u.assemble o t = .ok (lines, startup) t') :
    lines.ArtifactOf u where
  name := by
    obtain ⟨functions, t₁, codes, -, -, rfl, -⟩ := stages_of_assemble h
    rfl
  offers := by
    rw [Line.offers, filterMap_assemble Line.declarative_offered? h]
    simp [Line.offered?]
  needs := by
    rw [Line.needs, filterMap_assemble Line.declarative_needed? h]
    simp [Line.needed?]
  places := by
    rw [Line.places, filterMap_assemble Line.declarative_placed? h]
    simp [Line.placed?]

/-- The startup artifact offers the static fields and the start, which have their places in it. -/
theorem declarations_startupLines (fields imports : List String) (slots : Nat)
    (body : List Annotated) (entry : String) :
    Line.offers (startupLines fields imports slots body entry) = fields ++ [Reserved.start] ∧
      Line.needs (startupLines fields imports slots body entry) = imports ∧
      Line.places (startupLines fields imports slots body entry) = fields ++ [Reserved.start] := by
  refine ⟨?_, ?_, ?_⟩
  · rw [Line.offers, filterMap_startupLines Line.declarative_offered?]
    simp [Line.offered?]
  · rw [Line.needs, filterMap_startupLines Line.declarative_needed?]
    simp [Line.needed?]
  · rw [Line.places, filterMap_startupLines Line.declarative_placed?]
    simp [Line.placed?]

/-! ## Names -/

namespace CanonicalUnit

/-- The functions and the static fields of a program. -/
def globals (units : List CanonicalUnit) : List String :=
  units.flatMap exports ++ units.flatMap fields

end CanonicalUnit

open CanonicalUnit (globals)

/-- What a program defines: the static fields and the functions, and the labels in its code. -/
def Assembly.definitions (a : Assembly) : List String :=
  a.artifacts.flatMap Line.places ++ a.artifacts.flatMap Line.labels

/-- No artifact both offers and asks for a symbol. -/
def Assembly.OneSided (a : Assembly) : Prop :=
  ∀ lines ∈ a.artifacts, ∀ s ∈ Line.offers lines, s ∉ Line.needs lines

instance (a : Assembly) : Decidable a.OneSided :=
  inferInstanceAs (Decidable (∀ lines ∈ a.artifacts, ∀ s ∈ Line.offers lines, s ∉ Line.needs lines))

/-- None of the symbols is defined twice, in one artifact or in two. -/
def Assembly.DefinesOnce (symbols : List String) (a : Assembly) : Prop :=
  ∀ s ∈ symbols, a.definitions.count s ≤ 1

instance (symbols : List String) (a : Assembly) : Decidable (a.DefinesOnce symbols) :=
  inferInstanceAs (Decidable (∀ s ∈ symbols, a.definitions.count s ≤ 1))

/-- No function and no static field has the name of a routine of the run-time system, and the start
of the process is neither the entry point nor referred to by what is run at the start, unless it
is a static field. -/
structure ImportsApart (units : List CanonicalUnit) (entry : String) : Prop where
  runtime : ∀ s ∈ globals units, s ∉ Reserved.runtime
  start : Reserved.start ∈ units.flatMap CanonicalUnit.fields ∨
    Reserved.start ∉ Stmt.referencesAll (units.flatMap CanonicalUnit.startup) ++ [entry]

instance (units : List CanonicalUnit) (entry : String) : Decidable (ImportsApart units entry) :=
  decidable_of_iff (_ ∧ _) ⟨fun h => ⟨h.1, h.2⟩, fun h => ⟨h.runtime, h.start⟩⟩

/-- No static field is repeated or has the name of a function, and none of them has the name of the
start of the process or of a label in the trees. -/
structure NamesApart (units : List CanonicalUnit) : Prop where
  fields : (units.flatMap CanonicalUnit.fields).Nodup
  functions : ∀ s ∈ units.flatMap CanonicalUnit.exports, s ∉ units.flatMap CanonicalUnit.fields
  start : Reserved.start ∉ globals units
  labels : ∀ s ∈ globals units, .label s ∉ Stmt.effectsAll (units.flatMap CanonicalUnit.trees)

instance (units : List CanonicalUnit) : Decidable (NamesApart units) :=
  decidable_of_iff (_ ∧ _ ∧ _ ∧ _)
    ⟨fun h => ⟨h.1, h.2.1, h.2.2.1, h.2.2.2⟩, fun h => ⟨h.fields, h.functions, h.start, h.labels⟩⟩

/-! ## Whole programs -/

theorem compilerLexemes_labelIn {L : String → Prop} : CompilerLexemes (Lexeme.LabelIn L) where
  runtime _ _ := trivial
  start := trivial
  segments _ _ := trivial
  notes := ⟨fun _ _ => ⟨trivial, trivial⟩, fun _ => ⟨trivial, trivial⟩⟩

section
variable {o : Options} {units : List CanonicalUnit} {a : Assembly}

/-- The artifacts of a program: one for each unit, and that of the startup code. -/
theorem artifacts_of_assemble (h : assemble o units = .ok a) :
    List.Forall₂ UnitLines.ArtifactOf units a.units ∧
      ∃ entry, entryOf (units.flatMap CanonicalUnit.exports) o.entry = .ok entry ∧
        Line.offers a.startup = units.flatMap CanonicalUnit.fields ++ [Reserved.start] ∧
        Line.needs a.startup = startupImports (units.flatMap CanonicalUnit.startup)
          (units.flatMap CanonicalUnit.fields) entry ∧
        Line.places a.startup = units.flatMap CanonicalUnit.fields ++ [Reserved.start] := by
  obtain ⟨entry, assembled, startup, t, hentry, hassembled, -, hunits, hstartup⟩ :=
    stages_of_assemble h
  refine ⟨?_, entry, hentry, ?_⟩
  · rw [hunits, List.forall₂_map_right_iff]
    refine (forall₂_of_mapM hassembled).imp ?_
    rintro u ⟨lines, code⟩ ⟨t₁, t₂, hassemble⟩
    exact CanonicalUnit.artifactOf_assemble hassemble
  · rw [hstartup]
    exact declarations_startupLines _ _ _ _ _

/-- **The files of a program have different names exactly if no unit has the name of the startup
artifact**, provided that the units have different names. -/
theorem Assembly.nodup_files (h : assemble o units = .ok a)
    (hnames : (units.map CanonicalUnit.name).Nodup) (c : Bool) :
    ((a.render c).files.map Prod.fst).Nodup ↔ "main" ∉ units.map CanonicalUnit.name := by
  have hunits : a.units.map UnitLines.name = units.map CanonicalUnit.name :=
    map_eq_of_forall₂ ((artifacts_of_assemble h).1.imp fun _ _ h => h.name)
  have hfiles : (a.render c).files.map Prod.fst =
      (units.map CanonicalUnit.name ++ ["main"]).map (· ++ ".s") := by
    rw [← hunits]
    simp [render, Program.files, Program.startupFile, Function.comp_def]
  have hinj : Function.Injective fun name : String => name ++ ".s" :=
    fun _ _ h => (String.append_left_inj ".s").mp h
  rw [hfiles, List.nodup_map_iff hinj, ← List.concat_eq_append, List.nodup_concat]
  exact and_iff_left hnames

/-- What has a place in a program are its functions, its static fields and the start. -/
theorem places_of_assemble (h : assemble o units = .ok a) :
    a.artifacts.flatMap Line.places = globals units ++ [Reserved.start] := by
  obtain ⟨hartifacts, entry, -, -, -, hplaces⟩ := artifacts_of_assemble h
  have hunits : a.units.flatMap (fun x => Line.places x.lines) =
      units.flatMap CanonicalUnit.exports := by
    rw [List.flatMap_def, List.flatMap_def,
      map_eq_of_forall₂ (hartifacts.imp fun _ _ h => h.places)]
  rw [Assembly.artifacts, List.flatMap_append, List.flatMap_map, List.flatMap_singleton, hunits,
    hplaces, globals, List.append_assoc]

/-- The labels of the startup artifact are those of the code that is run at the start. -/
theorem label_mem_startupLines {fields imports : List String} {slots : Nat}
    {body : List Annotated} {entry l : String} :
    .label l ∈ Line.instrs (startupLines fields imports slots body entry) ↔
      .label l ∈ body.map Annotated.instr := by
  have hbefore : .label l ∉ prologue slots := fun hl => Bool.noConfusion (quiet_prologue _ _ hl).2
  have hafter : .label l ∉ exitSequence entry := by simp [exitSequence]
  rw [instrs_startupLines, List.mem_append, List.mem_append, or_iff_left hafter,
    or_iff_right hbefore]

/-- **The labels in the code of a program are those of its trees.** -/
theorem labels_of_assemble (h : assemble o units = .ok a) {l : String}
    (hl : l ∈ a.artifacts.flatMap Line.labels) :
    .label l ∈ Stmt.effectsAll (units.flatMap CanonicalUnit.trees) := by
  let L (l : String) : Prop := .label l ∈ Stmt.effectsAll (units.flatMap CanonicalUnit.trees)
  have htree {u : CanonicalUnit} (hu : u ∈ units) {s : Stmt} (hs : s ∈ u.trees) :
      s.Within (Lexeme.LabelIn L) := by
    refine Stmt.within_labelIn s fun l hl => ?_
    show .label l ∈ Stmt.effectsAll _
    rw [Stmt.effectsAll_eq_flatMap, List.flatMap_assoc]
    exact List.mem_flatMap.mpr ⟨u, hu, List.mem_flatMap.mpr ⟨s, hs, hl⟩⟩
  have hunit (u : CanonicalUnit) (hu : u ∈ units) : u.Within (Lexeme.LabelIn L) :=
    { functions := fun f hf =>
        ⟨trivial, htree hu (List.mem_append_left _ (List.mem_map_of_mem hf))⟩
      fields := fun _ _ => trivial
      startup := fun s hs => htree hu (List.mem_append_right _ hs)
      temps := fun _ _ => trivial }
  obtain ⟨lines, hlines, hl⟩ := List.mem_flatMap.mp hl
  obtain ⟨line, hline, hcode⟩ := List.mem_filterMap.mp (Line.mem_labels.mp hl)
  have hwithin := within_of_assemble compilerLexemes_labelIn hunit h lines hlines line hline
  cases line with
  | code b =>
      obtain ⟨i, note⟩ := b
      cases hcode
      exact (hwithin (.label l) (List.mem_append_left _ (List.mem_singleton_self _))).1
  | _ => cases hcode

/-- The labels of the trees are in the code, if the trees are canonical and no two nodes of a unit
share an id. -/
theorem mem_labels_of_assemble (hall : ∀ u ∈ units, u.Selectable) (h : assemble o units = .ok a)
    {l : String} (hl : .label l ∈ Stmt.effectsAll (units.flatMap CanonicalUnit.trees)) :
    l ∈ a.artifacts.flatMap Line.labels := by
  obtain ⟨entry, assembled, startup, t, -, hassembled, hallocate, hunits, hstartup⟩ :=
    stages_of_assemble h
  rw [Stmt.effectsAll_eq_flatMap, List.flatMap_assoc] at hl
  obtain ⟨u, hu, hl⟩ := List.mem_flatMap.mp hl
  rw [← Stmt.effectsAll_eq_flatMap, CanonicalUnit.trees, Stmt.effectsAll_append,
    List.mem_append] at hl
  refine List.mem_flatMap.mpr ?_
  rcases hl with hl | hl
  · obtain ⟨made, hmade, t₁, t₂, hassemble⟩ :=
      exists_of_forall₂ (forall₂_of_mapM hassembled).flip hu
    refine ⟨made.1.lines, List.mem_append_left _ ?_, Line.mem_labels.mpr ?_⟩
    · rw [hunits, List.map_map]
      exact List.mem_map_of_mem hmade
    · exact (CanonicalUnit.symbolsOf_functions (hall u hu) hassemble).labels l hl
  · refine ⟨a.startup, List.mem_append_right _ (List.mem_singleton_self _),
      Line.mem_labels.mpr ?_⟩
    rw [hstartup, label_mem_startupLines]
    refine (symbolsOf_startup hall hassembled hallocate).labels l ?_
    rw [Stmt.effectsAll_eq_flatMap] at hl ⊢
    rw [List.flatMap_assoc]
    exact List.mem_flatMap.mpr ⟨u, hu, hl⟩

/-! ## Clashes -/

/-- No element of the first list is repeated in both exactly if the first list has no repetition
and shares nothing with the second. -/
theorem count_append_le_one_iff {L R : List String} :
    (∀ s ∈ L, (L ++ R).count s ≤ 1) ↔ L.Nodup ∧ ∀ s ∈ L, s ∉ R := by
  simp only [List.count_append, List.nodup_iff_count_le_one]
  constructor
  · intro h
    refine ⟨fun s => ?_, fun s hs hR => ?_⟩
    · by_cases hs : s ∈ L
      · exact Nat.le_trans (Nat.le_add_right _ _) (h s hs)
      · rw [List.count_eq_zero_of_not_mem hs]
        exact Nat.zero_le _
    · have hL := List.count_pos_iff.mpr hs
      have hR := List.count_pos_iff.mpr hR
      have hboth := h s hs
      omega
  · rintro ⟨hL, hR⟩ s hs
    rw [List.count_eq_zero_of_not_mem (hR s hs)]
    exact hL s

/-- When nothing is defined twice. -/
theorem definesOnce_iff (h : assemble o units = .ok a) :
    a.DefinesOnce (globals units) ↔
      (units.flatMap CanonicalUnit.fields).Nodup ∧
      (∀ s ∈ units.flatMap CanonicalUnit.exports, s ∉ units.flatMap CanonicalUnit.fields) ∧
      Reserved.start ∉ globals units ∧
      ∀ s ∈ globals units, s ∉ a.artifacts.flatMap Line.labels := by
  obtain ⟨-, entry, hentry, -⟩ := artifacts_of_assemble h
  rw [Assembly.DefinesOnce, Assembly.definitions, places_of_assemble h, List.append_assoc,
    count_append_le_one_iff, globals, List.nodup_append', and_iff_right (entryOf_eq_ok hentry).1,
    and_assoc]
  refine and_congr_right fun _ => and_congr Iff.rfl ?_
  simp only [List.singleton_append, List.mem_cons, not_or]
  constructor
  · intro hapart
    exact ⟨fun hstart => (hapart _ hstart).1 rfl, fun s hs => (hapart s hs).2⟩
  · rintro ⟨hstart, hlabels⟩ s hs
    exact ⟨fun heq => hstart (heq ▸ hs), hlabels s hs⟩

/-- **No function and no static field is defined twice** if the names keep apart. -/
theorem definesOnce_of_namesApart (h : assemble o units = .ok a) (hapart : NamesApart units) :
    a.DefinesOnce (globals units) :=
  (definesOnce_iff h).mpr ⟨hapart.fields, hapart.functions, hapart.start, fun s hs hl =>
    hapart.labels s hs (labels_of_assemble h hl)⟩

theorem namesApart_of_definesOnce (h : assemble o units = .ok a)
    (hall : ∀ u ∈ units, u.Selectable) (honce : a.DefinesOnce (globals units)) :
    NamesApart units := by
  obtain ⟨hfields, hfunctions, hstart, hlabels⟩ := (definesOnce_iff h).mp honce
  exact ⟨hfields, hfunctions, hstart, fun s hs hl =>
    hlabels s hs (mem_labels_of_assemble hall h hl)⟩

/-- What an artifact defines itself it imports only if all artifacts do. -/
theorem Symbols.mem_imports_of_mem {x : String} {references defined : List String}
    (hx : x ∈ defined) : x ∈ imports references defined ↔ x ∈ Reserved.runtime := by
  rw [mem_imports]
  exact or_iff_right fun h => h.2 hx

/-- **No artifact both offers and asks for a symbol** exactly if imports keep apart. -/
theorem oneSided_iff (h : assemble o units = .ok a) {entry : String}
    (hentry : entryOf (units.flatMap CanonicalUnit.exports) o.entry = .ok entry) :
    a.OneSided ↔ ImportsApart units entry := by
  obtain ⟨hartifacts, entry', hentry', hoffers, hneeds, -⟩ := artifacts_of_assemble h
  cases hentry.symm.trans hentry'
  have hunits : (∀ lines ∈ a.units.map UnitLines.lines, ∀ s ∈ Line.offers lines,
      s ∉ Line.needs lines) ↔ ∀ s ∈ units.flatMap CanonicalUnit.exports, s ∉ Reserved.runtime := by
    constructor
    · intro hall s hs
      obtain ⟨u, hu, hs⟩ := List.mem_flatMap.mp hs
      obtain ⟨artifact, hmem, hartifact⟩ := exists_of_forall₂ hartifacts.flip hu
      have hside := hall _ (List.mem_map_of_mem hmem)
      rw [hartifact.offers, hartifact.needs] at hside
      exact mt (Symbols.mem_imports_of_mem hs).mpr (hside s hs)
    · intro hall lines hlines
      obtain ⟨artifact, hmem, rfl⟩ := List.mem_map.mp hlines
      obtain ⟨u, hu, hartifact⟩ := exists_of_forall₂ hartifacts hmem
      rw [hartifact.offers, hartifact.needs]
      intro s hs
      exact mt (Symbols.mem_imports_of_mem hs).mp (hall s (List.mem_flatMap.mpr ⟨u, hu, hs⟩))
  have hstart : Reserved.start ∉ Line.needs a.startup ↔
      Reserved.start ∈ units.flatMap CanonicalUnit.fields ∨ Reserved.start ∉
        Stmt.referencesAll (units.flatMap CanonicalUnit.startup) ++ [entry] := by
    have hruntime : Reserved.start ∉ Reserved.runtime := by decide
    rw [hneeds, startupImports, Symbols.mem_imports, or_iff_left hruntime, not_and_or, not_not,
      or_comm]
  have hfields : (∀ s ∈ units.flatMap CanonicalUnit.fields, s ∉ Line.needs a.startup) ↔
      ∀ s ∈ units.flatMap CanonicalUnit.fields, s ∉ Reserved.runtime := by
    rw [hneeds]
    exact forall₂_congr fun s hs => not_congr (Symbols.mem_imports_of_mem hs)
  rw [Assembly.OneSided, Assembly.artifacts, List.forall_mem_append, List.forall_mem_singleton,
    hunits, hoffers, List.forall_mem_append, List.forall_mem_singleton, hfields, hstart,
    ← and_assoc, ← List.forall_mem_append]
  exact ⟨fun h => ⟨h.1, h.2⟩, fun h => ⟨h.runtime, h.start⟩⟩

end

/-- **Which names make a program that can be linked.**  Its files have different names exactly if
no unit has the name of the startup artifact; no artifact both offers and asks for a symbol exactly
if imports keep apart; and no function and no static field is defined twice if the names keep
apart, and, where no two nodes of a unit share an id, only then. -/
theorem compile_linkable {o : Options} {units : List SourceUnit} {p : Program}
    (hnames : (units.map SourceUnit.name).Nodup) (h : compile units o = .ok p) :
    ∃ canonical entry a, units.mapM SourceUnit.canonicalize = .ok canonical ∧
      entryOf (canonical.flatMap CanonicalUnit.exports) o.entry = .ok entry ∧
      assemble o canonical = .ok a ∧ p = a.render o.comments ∧
      ((p.files.map Prod.fst).Nodup ↔ "main" ∉ units.map SourceUnit.name) ∧
      (a.OneSided ↔ ImportsApart canonical entry) ∧
      (NamesApart canonical → a.DefinesOnce (globals canonical)) ∧
      ((∀ u ∈ canonical, u.ids.Nodup) → a.DefinesOnce (globals canonical) →
        NamesApart canonical) := by
  obtain ⟨canonical, a, hcanonical, ha, rfl⟩ := compile_eq_ok.mp h
  obtain ⟨-, entry, hentry, -⟩ := artifacts_of_assemble ha
  rw [← names_of_canonicalize hcanonical] at hnames ⊢
  refine ⟨canonical, entry, a, hcanonical, hentry, ha, rfl, Assembly.nodup_files ha hnames _,
    oneSided_iff ha hentry, definesOnce_of_namesApart ha, fun hids =>
      namesApart_of_definesOnce ha fun c hc => ?_⟩
  obtain ⟨u, -, hu⟩ := exists_of_forall₂ (Except.forall₂_of_mapM hcanonical) hc
  exact ⟨CanonicalUnit.check_eq_ok.mp (SourceUnit.check_of_canonicalize hu), hids c hc⟩

/-- A unit with one function. -/
def unitWith (name function : String) (fields : List String) (body start : List Stmt) :
    SourceUnit where
  name := name
  functions := [⟨function, 0, .seq ⟨0⟩ (body ++ [.ret ⟨1⟩ none])⟩]
  fields := fields.zipIdx.map fun f => ⟨f.1, .const ⟨10 + f.2⟩ 0⟩
  start := start
  supply := { scope := name, nextNode := 20 }

/-- Two units: the function of the one calls that of the other until a static field of the other
is zero. -/
def linkedUnits : List SourceUnit := [
  unitWith "Main" "Main.run" []
    [.label ⟨2⟩ "again", .call ⟨3⟩ (.name ⟨4⟩ "Count.down" false) [],
      .cjump ⟨5⟩ (.temp ⟨6⟩ "Count.left" true) "again" "done", .label ⟨7⟩ "done"]
    [.move ⟨8⟩ (.temp ⟨9⟩ "Count.left" true) (.const ⟨10⟩ 3)],
  unitWith "Count" "Count.down" ["Count.left", "Count.calls"]
    [.move ⟨2⟩ (.temp ⟨3⟩ "Count.left" true)
      (.binop ⟨4⟩ .sub (.temp ⟨5⟩ "Count.left" true) (.const ⟨6⟩ 1))] []]

theorem compile_linkable_linkedUnits : ∃ (p : Program) (canonical : List CanonicalUnit)
    (a : Assembly), (linkedUnits.map SourceUnit.name).Nodup ∧
      compile linkedUnits { allocator := .basic } = .ok p ∧
      linkedUnits.mapM SourceUnit.canonicalize = .ok canonical ∧ p = a.render true ∧
      NamesApart canonical ∧ (∀ u ∈ canonical, u.ids.Nodup) ∧ (p.files.map Prod.fst).Nodup ∧
      a.OneSided ∧ a.DefinesOnce (globals canonical) := by
  have hnames : (linkedUnits.map SourceUnit.name).Nodup := by decide +kernel
  have hok : (compile linkedUnits { allocator := .basic }).isOk := by decide +kernel
  have hcanonical : ∃ canonical, linkedUnits.mapM SourceUnit.canonicalize = .ok canonical ∧
      NamesApart canonical ∧ ImportsApart canonical "Main.run" ∧
      (∀ u ∈ canonical, u.ids.Nodup) ∧
      ∃ entry, entryOf (canonical.flatMap CanonicalUnit.exports) none = .ok entry ∧
        entry = "Main.run" := by
    decide +kernel
  obtain ⟨p, hp⟩ := Except.exists_of_isOk hok
  obtain ⟨canonical, hlower, hapart, himports, hids, _, hfirst, rfl⟩ := hcanonical
  obtain ⟨canonical', entry, a, hlower', hentry, ha, hrender, hfiles, hsided, honce, -⟩ :=
    compile_linkable hnames hp
  cases hlower.symm.trans hlower'
  cases hfirst.symm.trans hentry
  exact ⟨p, canonical, a, hnames, hp, hlower, hrender, hapart, hids,
    hfiles.mpr (by decide +kernel), hsided.mpr himports, honce hapart⟩

/-- A program of units with different names comes out well, and what it is compiled to has some
property. -/
def CompilesTo (units : List SourceUnit) (P : List CanonicalUnit → Program → Assembly → Prop) :
    Prop :=
  (units.map SourceUnit.name).Nodup ∧
    ∃ p, compile units { allocator := .basic } = .ok p ∧
      ∃ canonical, units.mapM SourceUnit.canonicalize = .ok canonical ∧
        ∃ a, assemble { allocator := .basic } canonical = .ok a ∧ p = a.render true ∧
          P canonical p a

/-- A function or a static field with the name of a routine of the run-time system, and a start that
refers to the start of the process. -/
def clashingImports : List (List SourceUnit) := [
  [unitWith "T" "__malloc" [] [] []],
  [unitWith "T" "T.f" ["__exception"] [] []],
  [unitWith "T" "T.f" [] [] [.call ⟨2⟩ (.name ⟨3⟩ "_start" false) []]]]

/-- Static fields that are repeated, in one unit or in two, a function and a static field of one
name, either of them with the name of the start of the process, and a function with the name of a
label. -/
def clashingNames : List (List SourceUnit) := [
  [unitWith "T" "T.f" ["T.x", "T.x"] [] []],
  [unitWith "T" "T.f" ["x"] [] [], unitWith "U" "U.f" ["x"] [] []],
  [unitWith "T" "T.f" ["T.f"] [] []],
  [unitWith "T" "_start" [] [] []],
  [unitWith "T" "T.f" ["_start"] [] []],
  [unitWith "T" "T.f" [] [.label ⟨2⟩ "T.f"] []]]

/-- **Programs with clashing names come out well, but cannot be linked.** -/
theorem compile_clashes :
    (CompilesTo [unitWith "main" "T.f" [] [] []] fun _ p _ => ¬(p.files.map Prod.fst).Nodup) ∧
      (∀ units ∈ clashingImports, CompilesTo units fun _ _ a => ¬a.OneSided) ∧
      ∀ units ∈ clashingNames, CompilesTo units fun canonical _ a =>
        ¬a.DefinesOnce (globals canonical) := by
  unfold CompilesTo
  decide +kernel

end TreeBackend
