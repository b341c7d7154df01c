import TreeBackend.X86.Instr

/-!
# Tidying up

Three passes over allocated code: moves of a register to itself go, code that
nothing can reach goes, and jumps to the place that comes next anyway go.
Labels and comments stay, and nothing is added: `tidy_sublist`.
-/

namespace TreeBackend.Peephole

/-- Whether an instruction moves a register to itself. -/
def isIdle : Instr → Bool
  | .mov (.reg d) (.reg s) => d = s
  | _ => false

/-- Drops the moves of a register to itself. -/
def dropIdle (code : List Annotated) : List Annotated := code.filter (!isIdle ·.instr)

/-- Whether control never goes on to the next instruction. -/
def leaves : Instr → Bool
  | .ret | .jmp _ => true
  | _ => false

def isLabel : Instr → Bool
  | .label _ => true
  | _ => false

/-- Drops what stands between an instruction that control leaves at and the next
label; `reached` says whether control comes to the start. -/
def dropUnreachedFrom : Bool → List Annotated → List Annotated
  | _, [] => []
  | reached, a :: rest =>
    if isLabel a.instr then a :: dropUnreachedFrom true rest
    else if a.instr.isComment then a :: dropUnreachedFrom reached rest
    else if reached then a :: dropUnreachedFrom (!leaves a.instr) rest
    else dropUnreachedFrom false rest

/-- Drops the code that nothing can reach. -/
def dropUnreached (code : List Annotated) : List Annotated := dropUnreachedFrom true code

/-- The first instruction that is not a comment. -/
def next? (code : List Annotated) : Option Instr :=
  (code.find? (!·.instr.isComment)).map Annotated.instr

/-- Whether an instruction jumps to the label that comes next. -/
def isFallthrough (rest : List Annotated) : Instr → Bool
  | .jmp (.label l) => next? rest = some (.label l)
  | _ => false

/-- Drops the jumps to the label that comes next. -/
def dropFallthrough : List Annotated → List Annotated
  | [] => []
  | a :: rest =>
    if isFallthrough rest a.instr then dropFallthrough rest else a :: dropFallthrough rest

/-- All three passes. -/
def tidy (code : List Annotated) : List Annotated :=
  dropFallthrough (dropUnreached (dropIdle code))

theorem dropUnreachedFrom_sublist (reached : Bool) (code : List Annotated) :
    (dropUnreachedFrom reached code).Sublist code := by
  fun_induction dropUnreachedFrom reached code with
  | case1 => exact .slnil
  | case2 _ a rest _ ih => exact ih.cons_cons a
  | case3 _ a rest _ _ ih => exact ih.cons_cons a
  | case4 a rest _ _ ih => exact ih.cons_cons a
  | case5 _ a rest _ _ _ ih => exact ih.cons a

theorem dropFallthrough_sublist (code : List Annotated) : (dropFallthrough code).Sublist code := by
  fun_induction dropFallthrough code with
  | case1 => exact .slnil
  | case2 a rest _ ih => exact ih.cons a
  | case3 a rest _ ih => exact ih.cons_cons a

/-- Tidying up only leaves instructions out. -/
theorem tidy_sublist (code : List Annotated) : (tidy code).Sublist code :=
  (dropFallthrough_sublist _).trans
    ((dropUnreachedFrom_sublist true _).trans List.filter_sublist)

end TreeBackend.Peephole
