import TreeBackend.Text.Unseen

/-!
# Quoted text

A text in double quotes, with everything that would not show spelled out: the
quote and the backslash behind a backslash, tab, line feed, carriage return and
NUL by their letters, and any other unseen character by its code point, in lower
case and without leading zeros.  Everything else stands for itself, the single
quote included.
-/

namespace TreeBackend.Text

/-- The hexadecimal digits of a number, in lower case and without leading zeros. -/
def hex (n : Nat) : String := String.ofList (Nat.toDigits 16 n)

/-- One character of a quoted text. -/
def quoteChar (c : Char) : String :=
  if c = '"' then "\\\""
  else if c = '\\' then "\\\\"
  else if c = '\t' then "\\t"
  else if c = '\n' then "\\n"
  else if c = '\r' then "\\r"
  else if c.toNat = 0 then "\\0"
  else if isUnseen c then "\\u\x7b" ++ hex c.toNat ++ "\x7d"
  else c.toString

/-- A text in double quotes. -/
def quote (s : String) : String := "\"" ++ String.join (s.toList.map quoteChar) ++ "\""

end TreeBackend.Text
