import TreeBackend.Proofs.Program.Lexemes
import TreeBackend.Proofs.Text.Instructions

/-!
# Comments and code

A program written out with comments, and uncommented as a text, is compared with the program
written out without comments.  The names in its code are bare, so nothing but a comment can make a
difference, and on each line what stays of the comment are its strays.  So the two texts are the
same exactly if no comment has strays.

* `Line.uncommentLines_text`: what stays of a line.
* `Line.uncomment_render_iff`, `Assembly.uncommented_render_iff`: when nothing but code stays.
* `Assembly.clean_of_assemble`: the lines of a program with clean names are clean.
* `compile_uncommented_iff`: **when comments never become code.**
-/

namespace TreeBackend

open Text

/-! ## Lines -/

/-- What goes along with the elements of a list does not show exactly if it is empty. -/
theorem flatMap_append_eq_iff {α β : Type} {f g : α → List β} {as : List α} :
    (as.flatMap fun a => f a ++ g a) = as.flatMap f ↔ ∀ a ∈ as, g a = [] := by
  constructor
  · intro h
    have hlength := congrArg List.length h
    clear h
    have hle (bs : List α) : (bs.flatMap f).length ≤ (bs.flatMap fun a => f a ++ g a).length := by
      induction bs with
      | nil => exact Nat.le.refl
      | cons b rest ih =>
          simp only [List.flatMap_cons, List.length_append]
          omega
    induction as with
    | nil => exact List.forall_mem_nil _
    | cons a rest ih =>
        have hrest := hle rest
        simp only [List.flatMap_cons, List.length_append] at hlength
        have hg : (g a).length = 0 := by omega
        exact List.forall_mem_cons.mpr ⟨List.eq_nil_of_length_eq_zero hg, ih (by omega)⟩
  · intro h
    rw [List.flatMap_def, List.flatMap_def]
    refine congrArg List.flatten (List.map_congr_left fun a ha => ?_)
    rw [h a ha, List.append_nil]

theorem flatMap_filterMap {α β γ : Type} (f : α → Option β) (g : β → List γ) (as : List α) :
    (as.filterMap f).flatMap g = as.flatMap fun a => (f a).toList.flatMap g := by
  induction as with
  | nil => rfl
  | cons a rest ih =>
      rw [List.filterMap_cons, List.flatMap_cons, ← ih]
      cases f a <;> simp

namespace Line

/-- The comment on a line: one of the program, a note of the allocator, or both. -/
def remark? : Line → Option String
  | code { instr := .comment t, note := none } => some t
  | code { instr := .comment t, note := some note } => some (t ++ " ; " ++ note)
  | code a => a.note
  | _ => none

/-- The comments on lines. -/
def remarks (lines : List Line) : List String := lines.filterMap remark?

/-- What is written with comments and without them, and the comment, on a line with code, on one
with code and a comment, and on one with a comment. -/
inductive Written : Option String → Option String → Option String → Prop where
  | code (s : String) : Written (some s) (some s) none
  | noted {s : String} (h : isBlank s.toList = false) (remark : String) :
      Written (some (s ++ " ; " ++ remark)) (some s) (some remark)
  | remark (remark : String) : Written (some ("   " ++ " ; " ++ remark)) none (some remark)

theorem written (l : Line) : Written (l.text? true) (l.text? false) l.remark? := by
  cases l with
  | code a =>
      obtain ⟨i, note⟩ := a
      have hcomment (t : String) : (Instr.comment t).text = "   " ++ " ; " ++ t := by
        simp [Instr.text, Instr.body, ← String.toList_inj]
      cases i with
      | comment t =>
          cases note with
          | none => simpa [text?, Annotated.text?, Instr.isComment, remark?, hcomment]
              using Written.remark t
          | some note =>
              have h := Written.remark (t ++ " ; " ++ note)
              simpa [text?, Annotated.text?, Instr.isComment, remark?, hcomment,
                String.append_assoc] using h
      | _ =>
          cases note with
          | none => exact .code _
          | some note => exact .noted (Instr.isBlank_text _) note
  | _ => exact .code _

/-- What stands on a line when comments are not wanted is bare. -/
def BareCode (l : Line) : Prop := ∀ s, l.text? false = some s → Bare s

/-- The strays of the comment on a line. -/
def strays (l : Line) : List (List Char) := l.remark?.toList.flatMap Text.strays

/-- **What stays of a line is its code, and the strays of its comment.** -/
theorem uncommentLines_text {l : Line} (h : l.BareCode) :
    ((l.text? true).toList.flatMap fun s => uncommentLines s.toList) =
      ((l.text? false).map String.toList).toList ++ l.strays := by
  have hw := l.written
  unfold BareCode at h
  rw [strays]
  generalize l.text? true = full, l.text? false = bare, l.remark? = remark at *
  cases hw with
  | code s => simp [uncommentLines_code (h s rfl)]
  | noted hs remark =>
      rw [Option.toList_some, List.flatMap_singleton, uncommentLines_remark (h _ rfl), hs]
      simp
  | remark remark =>
      have hblank : isBlank "   ".toList = true := by decide
      rw [Option.toList_some, List.flatMap_singleton, uncommentLines_remark (by decide), hblank]
      simp

theorem toList_render (comments : Bool) (lines : List Line) : (render comments lines).toList =
    lines.flatMap fun l => ((l.text? comments).map String.toList).toList.flatMap (· ++ ['\n']) := by
  rw [render, toList_join_lines, List.map_filterMap, flatMap_filterMap]

theorem toList_uncomment_render (lines : List Line) : (uncomment (render true lines)).toList =
    lines.flatMap fun l => ((l.text? true).toList.flatMap fun s => uncommentLines s.toList).flatMap
      (· ++ ['\n']) := by
  rw [render, toList_uncomment_join, flatMap_filterMap, List.flatMap_assoc]

theorem strays_eq_nil {l : Line} : l.strays = [] ↔ ∀ r, l.remark? = some r → StaysComment r := by
  cases h : l.remark? with
  | none => simp [strays, h]
  | some r => simp [strays, h, StaysComment]

/-- **An artifact with comments is uncommented to the artifact without comments exactly if its
comments stay comments.** -/
theorem uncomment_render_iff {lines : List Line} (h : ∀ l ∈ lines, l.BareCode) :
    uncomment (render true lines) = render false lines ↔ ∀ r ∈ remarks lines, StaysComment r := by
  have hlines : (uncomment (render true lines)).toList = lines.flatMap fun l =>
      ((l.text? false).map String.toList).toList.flatMap (· ++ ['\n']) ++
        l.strays.flatMap (· ++ ['\n']) := by
    rw [toList_uncomment_render, List.flatMap_def, List.flatMap_def]
    refine congrArg List.flatten (List.map_congr_left fun l hl => ?_)
    rw [uncommentLines_text (h l hl), List.flatMap_append]
  rw [← String.toList_inj, hlines, toList_render, flatMap_append_eq_iff]
  simp only [remarks, List.mem_filterMap]
  constructor
  · rintro hall r ⟨l, hl, hr⟩
    have hnil := List.flatMap_eq_nil_iff.mp (hall l hl)
    refine strays_eq_nil.mp (List.eq_nil_iff_forall_not_mem.mpr fun line hline => ?_) r hr
    exact absurd (hnil line hline) (by simp)
  · intro hall l hl
    rw [strays_eq_nil.mpr fun r hr => hall r ⟨l, hl, hr⟩, List.flatMap_nil]

end Line

/-- The texts of a program without their comments. -/
def Program.uncommented (p : Program) : Program where
  units := p.units.map fun u => { name := u.name, text := uncomment u.text }
  startup := uncomment p.startup

namespace Assembly

/-- The comments in all artifacts of a program. -/
def remarks (a : Assembly) : List String := a.artifacts.flatMap Line.remarks

/-- **A program with comments is uncommented to the program without comments exactly if its
comments stay comments.** -/
theorem uncommented_render_iff {a : Assembly}
    (h : ∀ lines ∈ a.artifacts, ∀ l ∈ lines, l.BareCode) :
    (a.render true).uncommented = a.render false ↔ ∀ r ∈ a.remarks, StaysComment r := by
  have htexts : (a.render true).uncommented = a.render false ↔ ∀ lines ∈ a.artifacts,
      uncomment (Line.render true lines) = Line.render false lines := by
    rw [artifacts, List.forall_mem_append, List.forall_mem_singleton, List.forall_mem_map]
    simp [Program.uncommented, render]
  rw [htexts, remarks, List.forall_mem_flatMap]
  exact forall₂_congr fun lines hl => Line.uncomment_render_iff (h lines hl)

end Assembly

/-! ## Clean programs -/

/-- A vocabulary in which names are bare, and comments and temporaries of some kind. -/
def Lexeme.Clean (P : String → Prop) : Lexeme → Prop
  | .name s | .label s => Bare s
  | .remark s | .temp s => P s

/-- A kind of texts to which all belong that are on one line, and with two texts both in a row. -/
structure TextKind (P : String → Prop) : Prop where
  oneLine : ∀ {s}, OneLine s → P s
  append : ∀ {s t}, P s → P t → P (s ++ t)

theorem textKind_any : TextKind fun _ => True := ⟨fun _ => trivial, fun _ _ => trivial⟩

theorem textKind_oneLine : TextKind OneLine :=
  ⟨fun h => h, fun hs ht => oneLine_append.mpr ⟨hs, ht⟩⟩

/-- The names in a unit are bare, and its comments and temporaries of some kind, as are the names
from which temporaries are made up. -/
structure SourceUnit.Clean (P : String → Prop) (u : SourceUnit) : Prop where
  name : P u.name
  scope : P u.supply.scope
  functions : ∀ f ∈ u.functions, Bare f.label ∧ f.body.Within (Lexeme.Clean P)
  fields : ∀ f ∈ u.fields, Bare f.name ∧ f.init.Within (Lexeme.Clean P)
  start : ∀ s ∈ u.start, s.Within (Lexeme.Clean P)

section
variable {P : String → Prop}

instance [DecidablePred P] : DecidablePred (Lexeme.Clean P)
  | .name s | .label s => inferInstanceAs (Decidable (Bare s))
  | .remark s | .temp s => inferInstanceAs (Decidable (P s))

instance [DecidablePred P] (u : SourceUnit) : Decidable (u.Clean P) :=
  decidable_of_iff (_ ∧ _ ∧ _ ∧ _ ∧ _)
    ⟨fun h => ⟨h.1, h.2.1, h.2.2.1, h.2.2.2.1, h.2.2.2.2⟩,
      fun h => ⟨h.name, h.scope, h.functions, h.fields, h.start⟩⟩

/-- What is written of an instruction without temporaries is bare. -/
theorem Instr.Within.bareParts {i : Instr} (h : i.Within (Lexeme.Settled (Lexeme.Clean P))) :
    i.BareParts where
  symbols s hs :=
    (h (.name s) (List.mem_append_left _ (List.mem_append_left _ (List.mem_map_of_mem hs)))).1
  label l hl := by
    subst hl
    exact (h (.label l) (List.mem_singleton_self _)).1
  regs r hr := by
    refine Reg.bare_text fun x hx => ?_
    subst hx
    have htemp : .temp x ∈ i.lexemes :=
      List.mem_append_right _ (List.mem_flatMap.mpr ⟨_, hr, List.mem_singleton_self _⟩)
    exact (h _ htemp).2 x rfl

theorem Line.bareCode_of_within {l : Line} (h : l.Within (Lexeme.Settled (Lexeme.Clean P))) :
    l.BareCode := by
  intro s hs
  cases l with
  | blank =>
      cases hs
      decide
  | segment x | offer x | need x =>
      cases hs
      exact bare_append.mpr ⟨by decide, (h _ (List.mem_singleton_self _)).1⟩
  | cell x | entry x =>
      cases hs
      exact bare_append.mpr ⟨(h _ (List.mem_singleton_self _)).1, by decide⟩
  | code a =>
      have hbare := (Annotated.within_iff.mp h).1.bareParts
      rw [text?, Annotated.text?] at hs
      cases hcomment : a.instr.isComment with
      | true => simp [hcomment] at hs
      | false =>
          have htext : s = a.instr.text := by
            cases hnote : a.note <;> simpa [hcomment, hnote, eq_comm] using hs
          rw [htext]
          exact Instr.bare_text hbare hcomment

section
variable (hP : TextKind P)
include hP

theorem Line.remark_of_within {l : Line} (h : l.Within (Lexeme.Settled (Lexeme.Clean P)))
    {r : String} (hr : l.remark? = some r) : P r := by
  cases l with
  | code a =>
      obtain ⟨i, note⟩ := a
      obtain ⟨hi, hnote⟩ := Annotated.within_iff.mp h
      have hcomment {t : String} (ht : i = .comment t) : P t := by
        subst ht
        exact (hi (.remark t) (List.mem_singleton_self _)).1
      cases i with
      | comment t =>
          cases note with
          | none =>
              cases hr
              exact hcomment rfl
          | some note =>
              cases hr
              exact hP.append (hP.append (hcomment rfl) (hP.oneLine (by decide))) (hnote note rfl).1
      | _ => exact (hnote r hr).1
  | _ => cases hr

theorem compilerLexemes_clean : CompilerLexemes (Lexeme.Clean P) where
  runtime := (by decide : ∀ s ∈ Reserved.runtime, Bare s)
  start := (by decide : Bare Reserved.start)
  segments := (by decide : ∀ s ∈ [".data", ".text"], Bare s)
  notes := {
    transfer := fun v hv => by
      have hlabel : P v.label := by
        cases v with
        | temp x => exact hv (.temp x) (List.mem_singleton_self _)
        | fresh n => exact hP.oneLine (bare_append.mpr ⟨by decide, bare_nat n⟩).oneLine
      exact ⟨hP.append (hP.oneLine (by decide)) hlabel, hP.append (hP.oneLine (by decide)) hlabel⟩
    save := fun p => by
      have hname : P p.name := hP.oneLine p.bare_name.oneLine
      exact ⟨hP.append (hP.oneLine (by decide)) hname, hP.append (hP.oneLine (by decide)) hname⟩ }

theorem SourceUnit.Clean.within {u : SourceUnit} (h : u.Clean P) :
    u.Within (Lexeme.Clean P) where
  functions := h.functions
  fields := h.fields
  start := h.start
  supply := {
    result := hP.oneLine (by decide)
    temps := fun n => hP.append (hP.append h.scope (hP.oneLine (by decide)))
      (hP.oneLine (bare_nat n).oneLine) }
  temps x hx := by
    rw [Lexeme.Clean, scopedName]
    split
    · exact hx
    · exact hP.append (hP.append h.name (hP.oneLine (by decide))) hx

/-- The lines of a program with clean names have bare code, and comments of the same kind. -/
theorem Assembly.clean_of_assemble {units : List SourceUnit} {canonical : List CanonicalUnit}
    {o : Options} {a : Assembly} (hunits : ∀ u ∈ units, u.Clean P)
    (hcanonical : units.mapM SourceUnit.canonicalize = .ok canonical)
    (h : assemble o canonical = .ok a) :
    (∀ lines ∈ a.artifacts, ∀ l ∈ lines, l.BareCode) ∧ ∀ r ∈ a.remarks, P r := by
  have hwithin := within_of_assemble (compilerLexemes_clean hP) (fun c hc => by
    obtain ⟨u, hu, hlower⟩ := exists_of_forall₂ (Except.forall₂_of_mapM hcanonical) hc
    exact u.canonicalize_within ((hunits u hu).within hP) hlower) h
  refine ⟨fun lines hlines l hl => Line.bareCode_of_within (hwithin lines hlines l hl), ?_⟩
  refine List.forall_mem_flatMap.mpr fun lines hlines r hr => ?_
  obtain ⟨l, hl, hr⟩ := List.mem_filterMap.mp hr
  exact Line.remark_of_within hP (hwithin lines hlines l hl) hr

end

end

/-- Whether comments are wanted does not matter to the lines of a program. -/
theorem assemble_comments (o : Options) (comments : Bool) (units : List CanonicalUnit) :
    assemble { o with comments } units = assemble o units := rfl

/-- **When comments never become code.**  A program with bare names comes out well with comments
if it does so without them, and the texts with comments, taken without their comments, are the texts
without comments exactly if every comment and every note in its artifacts stays a comment.  This is
so whenever its comments and temporaries have no line breaks in them. -/
theorem compile_uncommented_iff {o : Options} {units : List SourceUnit} {p : Program}
    (hunits : ∀ u ∈ units, u.Clean fun _ => True) (h : compile units o = .ok p) :
    ∃ canonical a, units.mapM SourceUnit.canonicalize = .ok canonical ∧
      assemble o canonical = .ok a ∧
      (∀ comments, compile units { o with comments } = .ok (a.render comments)) ∧
      ((a.render true).uncommented = a.render false ↔ ∀ r ∈ a.remarks, StaysComment r) ∧
      ((∀ u ∈ units, u.Clean OneLine) → (a.render true).uncommented = a.render false) := by
  obtain ⟨canonical, a, hcanonical, ha, -⟩ := compile_eq_ok.mp h
  have hiff := Assembly.uncommented_render_iff
    (Assembly.clean_of_assemble textKind_any hunits hcanonical ha).1
  refine ⟨canonical, a, hcanonical, ha, fun comments => ?_, hiff, fun hlines => ?_⟩
  · have hsame := (assemble_comments o comments canonical).trans ha
    exact compile_eq_ok.mpr ⟨canonical, a, hcanonical, hsame, rfl⟩
  · have hremarks := (Assembly.clean_of_assemble textKind_oneLine hlines hcanonical ha).2
    exact hiff.mpr fun r hr => (hremarks r hr).staysComment

/-- A unit that has comments and temporaries with semicolons and instructions in them. -/
def remarkedUnit : SourceUnit where
  name := "T"
  functions := [⟨"T.f", 1, .seq ⟨0⟩ [.comment ⟨1⟩ "n ; int 0x80",
    .move ⟨2⟩ (.temp ⟨3⟩ " ;n" false)
      (.binop ⟨4⟩ .mul (.temp ⟨5⟩ "_ARG0" false) (.const ⟨6⟩ 3)),
    .ret ⟨7⟩ (some (.temp ⟨8⟩ " ;n" false))]⟩]
  fields := [⟨"T.x", .const ⟨9⟩ 7⟩]
  start := [.comment ⟨10⟩ "", .move ⟨11⟩ (.temp ⟨12⟩ "a:" false)
    (.call ⟨13⟩ (.name ⟨14⟩ "T.f" true) [.temp ⟨15⟩ "T.x" true])]
  supply := { scope := "T", nextNode := 16 }

theorem compile_uncommented_iff_remarkedUnit : ∃ a : Assembly,
    (∀ u ∈ [remarkedUnit], u.Clean fun _ => True) ∧ (∀ u ∈ [remarkedUnit], u.Clean OneLine) ∧
    (∀ comments, compile [remarkedUnit] { allocator := .basic, comments } =
      .ok (a.render comments)) ∧
    (a.render true).uncommented = a.render false := by
  have hany : ∀ u ∈ [remarkedUnit], u.Clean fun _ => True := by decide +kernel
  have hlines : ∀ u ∈ [remarkedUnit], u.Clean OneLine := by decide +kernel
  have hok : (compile [remarkedUnit] { allocator := .basic }).isOk := by decide +kernel
  obtain ⟨p, hp⟩ := Except.exists_of_isOk hok
  obtain ⟨-, a, -, -, hcompile, -, hsame⟩ := compile_uncommented_iff hany hp
  exact ⟨a, hany, hlines, hcompile, hsame hlines⟩

/-- A unit with a comment of two lines. -/
def twoLineUnit : SourceUnit where
  name := "T"
  functions := [⟨"T.f", 0, .seq ⟨0⟩ [.comment ⟨1⟩ "exit\n    int 0x80", .ret ⟨2⟩ none]⟩]
  fields := []
  start := []
  supply := { scope := "T", nextNode := 3 }

/-- **The second line of a comment becomes code**: it stays when the comments are taken out, and is
not there when the program is written without comments. -/
theorem comment_becomes_code :
    (∀ u ∈ [twoLineUnit], Bare u.name ∧ u.Clean fun _ => True) ∧
      ∃ commented, compile [twoLineUnit] { comments := true } = .ok commented ∧
        ∃ bare, compile [twoLineUnit] { comments := false } = .ok bare ∧
          commented.uncommented ≠ bare := by
  decide +kernel

end TreeBackend
