/-!
# Tokens of a settings file

Settings are written as JSON, and of JSON they need brackets, colons, commas,
strings and the three words; no setting is a number.  The reader takes strings
strictly: no raw control character, no unknown escape, and the two halves of a
surrogate pair only together.
-/

namespace TreeBackend.Options

/-- A token. -/
inductive Token where
  | openBrace | closeBrace | openBracket | closeBracket | colon | comma
  | null
  | bool (b : Bool)
  | string (s : String)
deriving DecidableEq, Repr

namespace Token

/-- The value of a hexadecimal digit of either case. -/
def hexDigit? (c : Char) : Option Nat :=
  if '0' ≤ c ∧ c ≤ '9' then some (c.toNat - '0'.toNat)
  else if 'a' ≤ c ∧ c ≤ 'f' then some (c.toNat - 'a'.toNat + 10)
  else if 'A' ≤ c ∧ c ≤ 'F' then some (c.toNat - 'A'.toNat + 10)
  else none

/-- The value of four hexadecimal digits. -/
def hex4? (a b c d : Char) : Option Nat := do
  let a ← hexDigit? a
  let b ← hexDigit? b
  let c ← hexDigit? c
  let d ← hexDigit? d
  pure (((a * 16 + b) * 16 + c) * 16 + d)

def isHighSurrogate (n : Nat) : Bool := 0xD800 ≤ n && n < 0xDC00

def isLowSurrogate (n : Nat) : Bool := 0xDC00 ≤ n && n < 0xE000

/-- The character of a surrogate pair. -/
def pairChar (high low : Nat) : Char :=
  Char.ofNat (0x10000 + (high - 0xD800) * 0x400 + (low - 0xDC00))

/-- The character that a letter stands for behind a backslash. -/
def escape? : Char → Option Char
  | '"' => some '"'
  | '\\' => some '\\'
  | '/' => some '/'
  | 'b' => some '\x08'
  | 'f' => some '\x0c'
  | 'n' => some '\n'
  | 'r' => some '\r'
  | 't' => some '\t'
  | _ => none

mutual

/-- The tokens of a text. -/
def scan : List Char → Option (List Token)
  | [] => some []
  | '{' :: rest => (scan rest).map (openBrace :: ·)
  | '}' :: rest => (scan rest).map (closeBrace :: ·)
  | '[' :: rest => (scan rest).map (openBracket :: ·)
  | ']' :: rest => (scan rest).map (closeBracket :: ·)
  | ':' :: rest => (scan rest).map (colon :: ·)
  | ',' :: rest => (scan rest).map (comma :: ·)
  | 'n' :: 'u' :: 'l' :: 'l' :: rest => (scan rest).map (null :: ·)
  | 't' :: 'r' :: 'u' :: 'e' :: rest => (scan rest).map (bool true :: ·)
  | 'f' :: 'a' :: 'l' :: 's' :: 'e' :: rest => (scan rest).map (bool false :: ·)
  | '"' :: rest => scanString [] rest
  | ' ' :: rest | '\t' :: rest | '\n' :: rest | '\r' :: rest => scan rest
  | _ :: _ => none
termination_by structural text => text

/-- The tokens of a text that starts inside a string, with the characters of the
string so far, the last one first. -/
def scanString (read : List Char) : List Char → Option (List Token)
  | '"' :: rest => (scan rest).map (string (String.ofList read.reverse) :: ·)
  | '\\' :: 'u' :: a :: b :: c :: d :: rest =>
    match hex4? a b c d with
    | none => none
    | some n =>
      if isLowSurrogate n then none
      else if isHighSurrogate n then
        match rest with
        | '\\' :: 'u' :: e :: f :: g :: h :: rest =>
          match hex4? e f g h with
          | some low =>
            if isLowSurrogate low then scanString (pairChar n low :: read) rest else none
          | none => none
        | _ => none
      else scanString (Char.ofNat n :: read) rest
  | '\\' :: c :: rest =>
    match escape? c with
    | some x => scanString (x :: read) rest
    | none => none
  | c :: rest => if c = '\\' ∨ c.toNat < 0x20 then none else scanString (c :: read) rest
  | [] => none
termination_by structural text => text

end

end Token

end TreeBackend.Options
