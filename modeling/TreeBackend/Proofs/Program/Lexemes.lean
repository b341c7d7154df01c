import TreeBackend.Proofs.Allocation.Annotations
import TreeBackend.Proofs.Lowering.Lexemes
import TreeBackend.Proofs.Program.Selection
import TreeBackend.Proofs.Tile.Memo

/-!
# The lexemes of artifacts

All text in an artifact is the program's or the compiler's own: if the lexemes of the units belong
to a vocabulary, and those that the compiler brings in do, then so do the lexemes of all lines.
Ids may be repeated, so this does not go through the code of single trees, but through the tables
that selection leaves.

* `SourceUnit.canonicalize_within`: lowering a unit keeps within the vocabulary.
* `Function.safe_assemble`, `CanonicalUnit.within_assemble`: so does assembling it.
* `within_of_assemble`: **the artifacts of a program keep within the vocabulary**, and mention no
  temporaries but in notes.
-/

namespace TreeBackend

variable {V : Lexeme → Prop}

/-- All artifacts of a program. -/
def Assembly.artifacts (a : Assembly) : List (List Line) :=
  a.units.map UnitLines.lines ++ [a.startup]

/-! ## Lines -/

/-- The lexemes of a line. -/
def Line.lexemes : Line → List Lexeme
  | blank => []
  | segment s | offer s | need s | cell s | entry s => [.name s]
  | code a => a.lexemes

/-- The lexemes of a line belong to the vocabulary. -/
def Line.Within (V : Lexeme → Prop) (l : Line) : Prop := ∀ w ∈ l.lexemes, V w

/-- The vocabulary has the lexemes that the compiler brings in by itself. -/
structure CompilerLexemes (V : Lexeme → Prop) : Prop where
  runtime : ∀ s ∈ Reserved.runtime, V (.name s)
  start : V (.name Reserved.start)
  segments : ∀ s ∈ [".data", ".text"], V (.name s)
  notes : NotesWithin V

namespace Line

theorem within_declaration {line : String → Line} (hline : ∀ s, (line s).lexemes = [.name s])
    {symbols : List String} (h : ∀ s ∈ symbols, V (.name s)) :
    ∀ l ∈ symbols.map line, l.Within (Lexeme.Settled V) := by
  refine List.forall_mem_map.mpr fun s hs => ?_
  rw [Within, hline]
  exact List.forall_mem_singleton.mpr ⟨h s hs, nofun⟩

theorem within_code {code : List Annotated} (h : ∀ b ∈ code, b.Within V) :
    ∀ l ∈ code.map Line.code, l.Within V := List.forall_mem_map.mpr h

/-- Instructions without notes. -/
theorem within_ofCode {code : List Instr} (h : Says V code) : ∀ l ∈ ofCode code, l.Within V :=
  List.forall_mem_map.mpr fun i hi => Annotated.within_iff.mpr ⟨h i hi, nofun⟩

end Line

theorem lexemes_prologue (slots : Nat) : ∀ i ∈ prologue slots, i.lexemes = [] := by
  rw [prologue]
  split
  · decide
  · refine List.forall_mem_append.mpr ⟨by decide, List.forall_mem_singleton.mpr rfl⟩

theorem Options.mem_of_mem_tidy {o : Options} {code : List Annotated} {b : Annotated}
    (h : b ∈ o.tidy code) : b ∈ code := by
  rw [tidy] at h
  split at h
  · exact (Peephole.tidy_sublist code).subset h
  · exact h

/-! ## Units -/

/-- The lexemes of a unit belong to the vocabulary, and so do its temporaries in the startup
code. -/
structure CanonicalUnit.Within (V : Lexeme → Prop) (u : CanonicalUnit) : Prop where
  functions : ∀ f ∈ u.functions, V (.name f.label) ∧ f.body.Within V
  fields : ∀ s ∈ u.fields, V (.name s)
  startup : ∀ s ∈ u.startup, s.Within V
  temps : ∀ x, V (.temp x) → V (.temp (scopedName u.name x))

/-- The lexemes of a unit belong to the vocabulary, and so do those that are made up from its
supply and its name. -/
structure SourceUnit.Within (V : Lexeme → Prop) (u : SourceUnit) : Prop where
  functions : ∀ f ∈ u.functions, V (.name f.label) ∧ f.body.Within V
  fields : ∀ f ∈ u.fields, V (.name f.name) ∧ f.init.Within V
  start : ∀ s ∈ u.start, s.Within V
  supply : u.supply.Mints V
  temps : ∀ x, V (.temp x) → V (.temp (scopedName u.name x))

/-- **Lowering a unit keeps within the vocabulary.** -/
theorem SourceUnit.canonicalize_within {u : SourceUnit} {c : CanonicalUnit} (hu : u.Within V)
    (h : u.canonicalize = .ok c) : c.Within V := by
  obtain ⟨τ, h⟩ := canonicalize_eq_ok.mp h
  obtain ⟨functions, σ₁, inits, σ₂, start, hfunctions, hinits, hstart, rfl⟩ := canonical_trees h
  obtain ⟨hf, hσ₁⟩ := hu.supply.mapM (P := fun f => V (.name f.label) ∧ f.body.Within V)
    (fun f hf σ τ f' hσ hrun => by
      obtain ⟨hlabel, hbody⟩ := hu.functions f hf
      obtain ⟨⟨heq, hbody'⟩, hτ⟩ := Function.canonical_within hσ hbody hrun
      exact ⟨⟨heq ▸ hlabel, hbody'⟩, hτ⟩) hfunctions
  obtain ⟨hi, hσ₂⟩ := hσ₁.mapM (P := Stmt.Within V)
    (fun f hf σ τ B hσ hrun =>
      Field.canonical_within hσ (hu.fields f hf).1 (hu.fields f hf).2 hrun) hinits
  obtain ⟨hs, -⟩ := hσ₂.mapM (P := Stmt.Within V)
    (fun s hs σ τ B hσ hrun => Stmt.canonical_within hσ (hu.start s hs) hrun) hstart
  exact {
    functions := hf
    fields := List.forall_mem_map.mpr fun f hf => (hu.fields f hf).1
    startup := List.forall_mem_append.mpr ⟨hs, hi⟩
    temps := hu.temps }

namespace Tiling

variable {α β : Type} {t : TileTable}

theorem safe_ofExcept (x : Except CompileError α) :
    Safe V (ofExcept x : Tiling α) t fun a _ => x = .ok a := by
  cases x with
  | ok a => exact safe_pure rfl
  | error e => exact safe_throw e _

theorem safe_mapM {f : β → Tiling α} {P : α → Prop} : ∀ (bs : List β) (t : TileTable),
    (∀ b ∈ bs, ∀ t, Safe V (f b) t fun a _ => P a) →
      Safe V (bs.mapM f) t fun as _ => ∀ a ∈ as, P a
  | [], t, _ => safe_pure (List.forall_mem_nil _)
  | b :: rest, t, h => by
    obtain ⟨hb, hrest⟩ := List.forall_mem_cons.mp h
    rw [List.mapM_cons]
    exact (hb t).bind fun a t₁ _ ha => (safe_mapM rest t₁ hrest).bind fun more t₂ _ hmore =>
      safe_pure (List.forall_mem_cons.mpr ⟨ha, hmore⟩)

end Tiling

open Tiling

section
variable (hV : CompilerLexemes V) {o : Options}
include hV

/-- **Assembling a function keeps within the vocabulary.** -/
theorem Function.safe_assemble {f : Function} (hlabel : V (.name f.label)) (hbody : f.body.Within V)
    (t : TileTable) : Safe V (f.assemble o) t fun lines _ =>
      ∀ l ∈ lines, l.Within (Lexeme.Settled V) := by
  refine (Stmt.safe_tileBody hV.runtime hbody).bind fun selected t₁ _ hselected =>
    (safe_ofExcept _).bind fun allocated t₂ _ hallocated => safe_pure ?_
  have hallocated := Options.within_allocate hV.notes hselected hallocated
  have hclosed : ∀ b ∈ closeBody allocated.code, b.Within (Lexeme.Settled V) := by
    rw [closeBody]
    split
    · exact hallocated
    · refine List.forall_mem_append.mpr ⟨hallocated, List.forall_mem_map.mpr fun i hi => ?_⟩
      exact Annotated.within_iff.mpr ⟨Instr.within_of_nil (lexemes_epilogue i hi), nofun⟩
  refine List.forall_mem_append.mpr ⟨List.forall_mem_cons.mpr ⟨List.forall_mem_nil _,
    List.forall_mem_cons.mpr ⟨?_, ?_⟩⟩, ?_⟩
  · exact List.forall_mem_singleton.mpr ⟨hlabel, nofun⟩
  · exact Line.within_ofCode (.of_nil (lexemes_prologue allocated.slots))
  · exact Line.within_code fun b hb => hclosed b (Options.mem_of_mem_tidy hb)

namespace CanonicalUnit

variable {u : CanonicalUnit}

omit hV in
/-- The code of a unit that is run at the start keeps within the vocabulary under the names that
it has there. -/
theorem Within.scoped_code {code : List Instr} (hu : u.Within V) (h : Says V code) :
    Says V (code.map (Instr.mapRegs (Reg.scoped u.name))) := by
  refine List.forall_mem_map.mpr fun i hi => ?_
  refine (h i hi).mapRegs (fun _ h => h) (fun _ h => h) (fun _ h => h) fun r _ hr => ?_
  cases r with
  | virt v =>
      cases v with
      | temp x => exact List.forall_mem_singleton.mpr (hu.temps x (List.forall_mem_singleton.mp hr))
      | fresh n => exact hr
  | _ => exact hr

theorem Within.imports (hu : u.Within V) : ∀ s ∈ u.imports, V (.name s) := by
  intro s hs
  rcases Symbols.mem_imports.mp hs with ⟨hs, -⟩ | hs
  · refine Stmt.referencesAll_within _ ?_ s hs
    exact List.forall_mem_map.mpr fun f hf => (hu.functions f hf).2
  · exact hV.runtime s hs

omit hV in
theorem Within.exports (hu : u.Within V) : ∀ s ∈ u.exports, V (.name s) :=
  List.forall_mem_map.mpr fun f hf => (hu.functions f hf).1

/-- **The artifact of a unit, and the code it wants run at the start, keep within the
vocabulary.** -/
theorem within_assemble (hu : u.Within V) {t t' : TileTable} {lines : UnitLines}
    {startup : List Instr} (h : u.assemble o t = .ok (lines, startup) t') :
    (∀ l ∈ lines.lines, l.Within (Lexeme.Settled V)) ∧ Says V startup := by
  obtain ⟨functions, t₁, codes, hfunctions, hcodes, rfl, rfl⟩ := stages_of_assemble h
  obtain ⟨-, ht₁, hlines⟩ := (safe_mapM u.functions t.forget fun f hf t =>
    Function.safe_assemble hV (hu.functions f hf).1 (hu.functions f hf).2 t).of_ok
      (TileTable.grounded_forget t) hfunctions
  obtain ⟨-, -, hstartup⟩ := (safe_mapM u.startup t₁ fun s hs t =>
    Stmt.safe_tileBody hV.runtime (hu.startup s hs)).of_ok ht₁ hcodes
  constructor
  · refine List.forall_mem_append.mpr ⟨List.forall_mem_append.mpr ⟨?_, ?_⟩, ?_⟩
    · refine List.forall_mem_cons.mpr ⟨?_, List.forall_mem_cons.mpr ⟨List.forall_mem_nil _, ?_⟩⟩
      · exact List.forall_mem_singleton.mpr ⟨hV.segments _ (by decide), nofun⟩
      · exact Line.within_declaration (fun _ => rfl) hu.exports
    · exact Line.within_declaration (fun _ => rfl) (hu.imports hV)
    · intro l hl
      obtain ⟨code, hcode, hl⟩ := List.mem_flatten.mp hl
      exact hlines code hcode l hl
  · refine hu.scoped_code fun i hi => ?_
    obtain ⟨code, hcode, hi⟩ := List.mem_flatten.mp hi
    exact hstartup code hcode i hi

end CanonicalUnit

/-! ## Programs -/

theorem within_startupLines {fields imports : List String} {slots : Nat} {body : List Annotated}
    {entry : String} (hfields : ∀ s ∈ fields, V (.name s)) (himports : ∀ s ∈ imports, V (.name s))
    (hbody : ∀ b ∈ body, b.Within (Lexeme.Settled V)) (hentry : V (.name entry)) :
    ∀ l ∈ startupLines fields imports slots body entry, l.Within (Lexeme.Settled V) := by
  have hname {l : Line} {s : String} (hl : l.lexemes = [.name s]) (hs : V (.name s)) :
      l.Within (Lexeme.Settled V) := by
    rw [Line.Within, hl]
    exact List.forall_mem_singleton.mpr ⟨hs, nofun⟩
  have hexit : Says (Lexeme.Settled V) (exitSequence entry) := by
    have hcall : (Instr.call (.label entry)).Within (Lexeme.Settled V) :=
      List.forall_mem_singleton.mpr ⟨hentry, nofun⟩
    simp [Says, exitSequence, hcall, Instr.within_of_nil, Instr.lexemes, Instr.symbols, Instr.marks,
      Instr.regs, Operand.symbols, Operand.regs, Operand.phys, Reg.lexemes]
  have hblank : Line.blank.Within (Lexeme.Settled V) := List.forall_mem_nil _
  simp only [startupLines, List.forall_mem_append, List.forall_mem_cons, and_assoc]
  exact ⟨hname rfl (hV.segments _ (by decide)), Line.within_declaration (fun _ => rfl) hfields,
    hblank, hname rfl (hV.segments _ (by decide)),
    Line.within_declaration (fun _ => rfl) hfields, hname rfl hV.start,
    Line.within_declaration (fun _ => rfl) himports, hblank, hname rfl hV.start,
    Line.within_ofCode (.of_nil (lexemes_prologue slots)), Line.within_code hbody,
    Line.within_ofCode hexit⟩

/-- **The artifacts of a program keep within the vocabulary**, and mention no temporaries but in
notes. -/
theorem within_of_assemble {units : List CanonicalUnit} {a : Assembly}
    (hunits : ∀ u ∈ units, u.Within V) (h : assemble o units = .ok a) :
    ∀ lines ∈ a.artifacts, ∀ l ∈ lines, l.Within (Lexeme.Settled V) := by
  obtain ⟨entry, assembled, startup, t, hentry, hassembled, hallocate, ha, hstartup⟩ :=
    stages_of_assemble h
  have hmade : ∀ made ∈ assembled, (∀ l ∈ made.1.lines, l.Within (Lexeme.Settled V)) ∧
      Says V made.2 := by
    rintro ⟨lines, code⟩ hmade
    obtain ⟨u, hu, t₁, t₂, hassemble⟩ := exists_of_mem_mapM hassembled hmade
    exact CanonicalUnit.within_assemble hV (hunits u hu) hassemble
  have hfields : ∀ s ∈ units.flatMap CanonicalUnit.fields, V (.name s) :=
    List.forall_mem_flatMap.mpr fun u hu => (hunits u hu).fields
  have hexports : ∀ s ∈ units.flatMap CanonicalUnit.exports, V (.name s) :=
    List.forall_mem_flatMap.mpr fun u hu => (hunits u hu).exports
  have hfirst := hexports entry (entryOf_eq_ok hentry).2
  refine List.forall_mem_append.mpr ⟨?_, List.forall_mem_singleton.mpr ?_⟩
  · rw [ha, List.map_map]
    exact List.forall_mem_map.mpr fun made hmem => (hmade made hmem).1
  · rw [hstartup]
    refine within_startupLines hV hfields (fun s hs => ?_) (fun b hb => ?_) hfirst
    · rcases Symbols.mem_imports.mp hs with ⟨hs, -⟩ | hs
      · rcases List.mem_append.mp hs with hs | hs
        · refine Stmt.referencesAll_within _ ?_ s hs
          exact List.forall_mem_flatMap.mpr fun u hu => (hunits u hu).startup
        · rwa [List.mem_singleton.mp hs]
      · exact hV.runtime s hs
    · refine Options.within_allocate hV.notes ?_ hallocate b (Options.mem_of_mem_tidy hb)
      exact List.forall_mem_flatMap.mpr fun made hmem => (hmade made hmem).2

end

end TreeBackend
