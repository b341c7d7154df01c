/-!
# Numerals inside names

A 64-bit numeral is an optional plus sign and at least one ASCII digit, leading
zeros allowed, with a value below `UInt64.size`.
-/

namespace TreeBackend.Text

/-- The value of a list of decimal digits, the most significant first. -/
def ofDigits (cs : List Char) : Nat := cs.foldl (fun n c => 10 * n + (c.toNat - '0'.toNat)) 0

/-- The digits of a numeral, without the sign. -/
def unsigned : List Char → List Char
  | '+' :: rest => rest
  | cs => cs

/-- The value of a 64-bit numeral. -/
def numeral64? (cs : List Char) : Option Nat :=
  let digits := unsigned cs
  if digits.isEmpty || !digits.all Char.isDigit || UInt64.size ≤ ofDigits digits then none
  else some (ofDigits digits)

/-- What follows a given beginning, if the text has it. -/
def after? : List Char → List Char → Option (List Char)
  | [], text => some text
  | c :: stem, d :: text => if c = d then after? stem text else none
  | _ :: _, [] => none

theorem after?_append (stem text : List Char) : after? stem (stem ++ text) = some text := by
  induction stem with
  | nil => rfl
  | cons c stem ih => simpa [after?] using ih

theorem eq_append_of_after? {stem text rest : List Char} (h : after? stem text = some rest) :
    text = stem ++ rest := by
  fun_induction after? stem text with
  | case1 => simpa using h
  | case2 stem d text ih => rw [ih h]; rfl
  | case3 => simp at h
  | case4 => simp at h

end TreeBackend.Text
