import TreeBackend.Proofs.Names

/-!
# Taking comments out of a text

`uncomment` takes the comments out of a text and knows nothing of how the text was made: on each
line it deletes everything from the first ` ;` on, and it drops the lines on which nothing but
white space is left.  A comment that has line breaks in it is not deleted as a whole: `strays` are
the lines of it that stay.

* `uncommentLines_code`, `uncommentLines_remark`: what stays of a line without a comment, and of
  one with a comment.
* `toList_uncomment_join`: **a text that is made of lines is uncommented line by line.**
-/

namespace TreeBackend.Text

/-- What stands on a line in front of its first ` ;`, if it has one. -/
def beforeComment? : List Char → Option (List Char)
  | ' ' :: ';' :: _ => some []
  | c :: rest => (beforeComment? rest).map (c :: ·)
  | [] => none

/-- Whether there is nothing but white space on a line. -/
def isBlank (line : List Char) : Bool := line.all Char.isWhitespace

/-- A line without its comment.  Nothing stays of a line that has only a comment. -/
def uncommentLine (line : List Char) : Option (List Char) :=
  match beforeComment? line with
  | none => some line
  | some code => if isBlank code then none else some code

/-- The lines of a text without their comments. -/
def uncommentLines (text : List Char) : List (List Char) :=
  (text.splitOn '\n').filterMap uncommentLine

/-- A text without its comments. -/
def uncomment (text : String) : String :=
  String.ofList (['\n'].intercalate (uncommentLines text.toList))

/-- What stays of a comment: its lines behind the first one, without comments of their own. -/
def strays (remark : String) : List (List Char) :=
  (remark.toList.splitOn '\n').tail.filterMap uncommentLine

/-- All lines of a comment are comments, its first one being taken for granted. -/
def StaysComment (remark : String) : Prop := strays remark = []

instance (remark : String) : Decidable (StaysComment remark) :=
  inferInstanceAs (Decidable (strays remark = []))

/-- There is no line break and no semicolon in the text. -/
def Bare (s : String) : Prop := '\n' ∉ s.toList ∧ ';' ∉ s.toList

instance (s : String) : Decidable (Bare s) := inferInstanceAs (Decidable (_ ∧ _))

/-- There is no line break in the text. -/
def OneLine (s : String) : Prop := '\n' ∉ s.toList

instance (s : String) : Decidable (OneLine s) := inferInstanceAs (Decidable (¬_))

/-! ### Bare texts -/

theorem Bare.oneLine {s : String} (h : Bare s) : OneLine s := h.1

@[simp] theorem bare_append {s t : String} : Bare (s ++ t) ↔ Bare s ∧ Bare t := by
  simp only [Bare, String.toList_append, List.mem_append, not_or]
  exact and_and_and_comm

@[simp] theorem oneLine_append {s t : String} : OneLine (s ++ t) ↔ OneLine s ∧ OneLine t := by
  simp [OneLine]

/-- Numerals are bare. -/
theorem bare_nat (n : Nat) : Bare (toString n) := by
  have hdigit {c : Char} (hc : c ∈ (toString n).toList) : c.isDigit = true := by
    rw [toList_toString_nat] at hc
    exact isDigit_of_mem_decimal hc
  exact ⟨fun h => absurd (hdigit h) (by decide), fun h => absurd (hdigit h) (by decide)⟩

theorem bare_int (i : Int) : Bare (toString i) := by
  cases i with
  | ofNat n => exact bare_nat n
  | negSucc n => exact bare_append.mpr ⟨by decide, bare_nat (n + 1)⟩

theorem bare_intercalate {sep : String} (hsep : Bare sep) : ∀ {parts : List String},
    (∀ s ∈ parts, Bare s) → Bare (sep.intercalate parts)
  | [], _ => ⟨List.not_mem_nil, List.not_mem_nil⟩
  | [s], h => by simpa using h s List.mem_cons_self
  | s :: t :: rest, h => by
    obtain ⟨hs, hrest⟩ := List.forall_mem_cons.mp h
    rw [String.intercalate_cons_cons]
    exact bare_append.mpr ⟨bare_append.mpr ⟨hs, hsep⟩, bare_intercalate hsep hrest⟩

/-! ### Lines -/

theorem beforeComment?_of_not_mem {line : List Char} (h : ';' ∉ line) :
    beforeComment? line = none := by
  fun_induction beforeComment? line with
  | case1 rest => simp at h
  | case2 c rest _ ih => rw [ih fun hc => h (List.mem_cons_of_mem c hc)]; rfl
  | case3 => rfl

theorem beforeComment?_append {code : List Char} (h : ';' ∉ code) (rest : List Char) :
    beforeComment? (code ++ ' ' :: ';' :: rest) = some code := by
  induction code with
  | nil => rfl
  | cons c code ih =>
      obtain ⟨hc, hcode⟩ := not_or.mp (mt List.mem_cons.mpr h)
      have hnext : ∀ tail, c = ' ' → code ++ ' ' :: ';' :: rest ≠ ';' :: tail := by
        intro tail _ heq
        cases code with
        | nil => simp at heq
        | cons d code => exact hcode (by simp_all)
      rw [List.cons_append, beforeComment?.eq_2 _ _ hnext, ih hcode]
      rfl

/-- What has no separator in it goes to the first part. -/
theorem splitOn_append_of_not_mem {a : Char} {xs : List Char} (h : a ∉ xs) (ys : List Char) :
    (xs ++ ys).splitOn a = (ys.splitOn a).modifyHead (xs ++ ·) := by
  induction xs with
  | nil =>
      obtain ⟨first, rest, hsplit⟩ := List.exists_cons_of_ne_nil (List.splitOn_ne_nil a ys)
      rw [List.nil_append, hsplit]
      rfl
  | cons x xs ih =>
      obtain ⟨hx, hxs⟩ := not_or.mp (mt List.mem_cons.mpr h)
      have hne : (x == a) = false := beq_false_of_ne (Ne.symm hx)
      rw [List.splitOn] at ih ⊢
      rw [List.cons_append, List.splitOnP_cons_eq_if_modifyHead, hne, if_neg Bool.false_ne_true,
        ih hxs, List.modifyHead_modifyHead]
      rfl

theorem splitOn_of_not_mem {a : Char} {xs : List Char} (h : a ∉ xs) : xs.splitOn a = [xs] := by
  have hsplit := splitOn_append_of_not_mem h []
  rwa [List.append_nil, List.splitOn_nil, List.modifyHead_cons, List.append_nil] at hsplit

theorem uncommentLine_append {code : List Char} (h : ';' ∉ code) (rest : List Char) :
    uncommentLine (code ++ ' ' :: ';' :: rest) = if isBlank code then none else some code := by
  rw [uncommentLine, beforeComment?_append h]

/-- A line without a comment stays as it is. -/
theorem uncommentLines_code {code : String} (h : Bare code) :
    uncommentLines code.toList = [code.toList] := by
  rw [uncommentLines, splitOn_of_not_mem h.1, List.filterMap_cons, List.filterMap_nil,
    uncommentLine, beforeComment?_of_not_mem h.2]

/-- What stays of a line with a comment is the code in front of it, if there is any, and the
strays. -/
theorem uncommentLines_remark {code : String} (h : Bare code) (remark : String) :
    uncommentLines (code ++ " ; " ++ remark).toList =
      (if isBlank code.toList then [] else [code.toList]) ++ strays remark := by
  obtain ⟨first, rest, hsplit⟩ :=
    List.exists_cons_of_ne_nil (List.splitOn_ne_nil '\n' remark.toList)
  have hbefore : '\n' ∉ (code ++ " ; ").toList := oneLine_append.mpr ⟨h.oneLine, by decide⟩
  have hline : (code ++ " ; ").toList ++ first = code.toList ++ ' ' :: ';' :: (' ' :: first) := by
    simp
  rw [uncommentLines, String.toList_append, splitOn_append_of_not_mem hbefore, strays, hsplit,
    List.modifyHead_cons, List.tail_cons, List.filterMap_cons, hline, uncommentLine_append h.2]
  cases isBlank code.toList <;> rfl

/-- A comment on one line stays a comment. -/
theorem OneLine.staysComment {remark : String} (h : OneLine remark) : StaysComment remark := by
  rw [StaysComment, strays, splitOn_of_not_mem h]
  rfl

/-! ### Texts of lines -/

theorem uncommentLines_lines (lines : List (List Char)) :
    uncommentLines (lines.flatMap (· ++ ['\n'])) = lines.flatMap uncommentLines ++ [[]] := by
  induction lines with
  | nil => rfl
  | cons line rest ih =>
      rw [uncommentLines] at ih ⊢
      rw [List.flatMap_cons, List.append_assoc, List.singleton_append,
        List.splitOn_append_cons_self, List.filterMap_append, ih, List.flatMap_cons,
        List.append_assoc]
      rfl

theorem intercalate_lines (lines : List (List Char)) :
    ['\n'].intercalate (lines ++ [[]]) = lines.flatMap (· ++ ['\n']) := by
  induction lines with
  | nil => rfl
  | cons line rest ih =>
      obtain ⟨next, more, hrest⟩ := List.exists_cons_of_ne_nil
        (List.append_ne_nil_of_right_ne_nil rest (List.cons_ne_nil [] []))
      rw [List.cons_append, hrest, List.intercalate_cons_cons, ← hrest, ih, List.flatMap_cons]

theorem toList_join_lines (lines : List String) :
    (String.join (lines.map (· ++ "\n"))).toList =
      (lines.map String.toList).flatMap (· ++ ['\n']) := by
  simp [String.toList_join, List.flatMap_map]

/-- **A text that is made of lines is uncommented line by line.** -/
theorem toList_uncomment_join (lines : List String) :
    (uncomment (String.join (lines.map (· ++ "\n")))).toList =
      (lines.flatMap fun s => uncommentLines s.toList).flatMap (· ++ ['\n']) := by
  rw [uncomment, String.toList_ofList, toList_join_lines, uncommentLines_lines, intercalate_lines,
    List.flatMap_map]

end TreeBackend.Text
