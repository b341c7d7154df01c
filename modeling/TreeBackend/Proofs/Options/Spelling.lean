import TreeBackend.Options.Token

/-!
# How a settings file may be spelled

The tokens of a settings file may be written in many ways: blanks may stand around each of them, and
a character of a string may stand for itself, or be escaped by a letter, by its number or by the
numbers of a surrogate pair.  `Written` lists these ways without a look at the reader.

* `Token.CharSpelling`, `Token.Spelling`: how a character and a string may be written.
* `Token.Written`: how tokens may be written.
* `Token.scan_of_written`: **the reader finds the tokens, however they are written.**
-/

namespace TreeBackend.Options.Token

/-- The characters that may stand between tokens. -/
def blanks : List Char := [' ', '\t', '\n', '\r']

/-- The letters that stand for a character behind a backslash. -/
def letters : List (Char × Char) :=
  [('"', '"'), ('\\', '\\'), ('/', '/'), ('b', '\x08'), ('f', '\x0c'), ('n', '\n'), ('r', '\r'),
    ('t', '\t')]

/-- A hexadecimal digit of a value, in either case. -/
def HexDigit (value : Nat) (c : Char) : Prop :=
  c = Nat.digitChar value ∨ c = (Nat.digitChar value).toUpper

instance (value : Nat) (c : Char) : Decidable (HexDigit value c) :=
  inferInstanceAs (Decidable (_ ∨ _))

/-- The four hexadecimal digits of a number. -/
inductive Hex4 (n : Nat) : List Char → Prop
  | digits {a b c d : Char} (hn : n < 0x10000) (ha : HexDigit (n / 0x1000) a)
    (hb : HexDigit (n / 0x100 % 0x10) b) (hc : HexDigit (n / 0x10 % 0x10) c)
    (hd : HexDigit (n % 0x10) d) : Hex4 n [a, b, c, d]

/-- The ways to write a character inside a string: as it is, unless it is a quote, a backslash or a
control character, by a letter, by its number, or by the two numbers of its surrogate pair. -/
inductive CharSpelling (c : Char) : List Char → Prop
  | plain (hcontrol : 0x20 ≤ c.toNat) (hquote : c ≠ '"') (hbackslash : c ≠ '\\') :
    CharSpelling c [c]
  | letter {l : Char} (h : (l, c) ∈ letters) : CharSpelling c ['\\', l]
  | number {digits : List Char} (h : Hex4 c.toNat digits) : CharSpelling c ('\\' :: 'u' :: digits)
  | pair {high low : List Char} (h : 0x10000 ≤ c.toNat)
    (hhigh : Hex4 (0xD800 + (c.toNat - 0x10000) / 0x400) high)
    (hlow : Hex4 (0xDC00 + (c.toNat - 0x10000) % 0x400) low) :
    CharSpelling c ('\\' :: 'u' :: high ++ '\\' :: 'u' :: low)

/-- The ways to write characters inside a string. -/
inductive Spelling : List Char → List Char → Prop
  | nil : Spelling [] []
  | cons {c : Char} {cs text more : List Char} (hc : CharSpelling c text) (h : Spelling cs more) :
    Spelling (c :: cs) (text ++ more)

/-- The text of a token that has only one. -/
def fixed? : Token → Option String
  | openBrace => some "\x7b"
  | closeBrace => some "\x7d"
  | openBracket => some "["
  | closeBracket => some "]"
  | colon => some ":"
  | comma => some ","
  | null => some "null"
  | bool b => some (if b then "true" else "false")
  | string _ => none

/-- The ways to write a token. -/
inductive Lexeme : Token → List Char → Prop
  | fixed {t : Token} {s : String} (h : t.fixed? = some s) : Lexeme t s.toList
  | string {s : String} {text : List Char} (h : Spelling s.toList text) :
    Lexeme (.string s) ('"' :: text ++ ['"'])

/-- The ways to write tokens one after the other, with blanks before, between and behind them. -/
inductive Written : List Token → List Char → Prop
  | nil : Written [] []
  | blank {c : Char} {tokens : List Token} {text : List Char} (hc : c ∈ blanks)
    (h : Written tokens text) : Written tokens (c :: text)
  | token {t : Token} {tokens : List Token} {lexeme text : List Char} (ht : Lexeme t lexeme)
    (h : Written tokens text) : Written (t :: tokens) (lexeme ++ text)

theorem Written.append {tokens more : List Token} {text rest : List Char} (h : Written tokens text)
    (h' : Written more rest) : Written (tokens ++ more) (text ++ rest) := by
  induction h with
  | nil => exact h'
  | blank hc _ ih => exact .blank hc ih
  | token ht _ ih =>
      rw [List.append_assoc]
      exact .token ht ih

/-! ## Numbers -/

theorem hexDigit?_of_hexDigit {v : Nat} (hv : v < 16) {c : Char} (h : HexDigit v c) :
    hexDigit? c = some v := by
  have hall : ∀ v < 16, hexDigit? (Nat.digitChar v) = some v ∧
      hexDigit? (Nat.digitChar v).toUpper = some v := by decide
  rcases h with rfl | rfl
  · exact (hall v hv).1
  · exact (hall v hv).2

theorem hex4?_of_hex4 {n : Nat} {a b c d : Char} (h : Hex4 n [a, b, c, d]) :
    hex4? a b c d = some n := by
  cases h with
  | digits hn ha hb hc hd =>
      rw [hex4?, hexDigit?_of_hexDigit (by omega) ha, hexDigit?_of_hexDigit (by omega) hb,
        hexDigit?_of_hexDigit (by omega) hc, hexDigit?_of_hexDigit (by omega) hd]
      show some _ = some n
      congr 1
      omega

theorem Hex4.exists_digits {n : Nat} {text : List Char} (h : Hex4 n text) :
    ∃ a b c d, text = [a, b, c, d] ∧ hex4? a b c d = some n := by
  cases h with
  | @digits a b c d hn ha hb hc hd =>
      exact ⟨a, b, c, d, rfl, hex4?_of_hex4 (.digits hn ha hb hc hd)⟩

/-- The number of a character lies below or above the surrogates. -/
theorem toNat_cases (c : Char) : c.toNat < 0xD800 ∨ 0xE000 ≤ c.toNat ∧ c.toNat < 0x110000 := c.valid

theorem not_surrogate (c : Char) :
    isLowSurrogate c.toNat = false ∧ isHighSurrogate c.toNat = false := by
  have hcases := toNat_cases c
  simp only [isLowSurrogate, isHighSurrogate, Bool.and_eq_false_iff, decide_eq_false_iff_not]
  omega

/-- The numbers of a surrogate pair are the two halves, and give the character back. -/
theorem surrogates {c : Char} (h : 0x10000 ≤ c.toNat) :
    isLowSurrogate (0xD800 + (c.toNat - 0x10000) / 0x400) = false ∧
      isHighSurrogate (0xD800 + (c.toNat - 0x10000) / 0x400) = true ∧
      isLowSurrogate (0xDC00 + (c.toNat - 0x10000) % 0x400) = true ∧
      pairChar (0xD800 + (c.toNat - 0x10000) / 0x400)
        (0xDC00 + (c.toNat - 0x10000) % 0x400) = c := by
  have hcases := toNat_cases c
  refine ⟨?_, ?_, ?_, ?_⟩
  · simp only [isLowSurrogate, Bool.and_eq_false_iff, decide_eq_false_iff_not]
    omega
  · simp only [isHighSurrogate, Bool.and_eq_true, decide_eq_true_eq]
    omega
  · simp only [isLowSurrogate, Bool.and_eq_true, decide_eq_true_eq]
    omega
  · rw [pairChar, show 0x10000 + (0xD800 + (c.toNat - 0x10000) / 0x400 - 0xD800) * 0x400 +
        (0xDC00 + (c.toNat - 0x10000) % 0x400 - 0xDC00) = c.toNat by omega, Char.ofNat_toNat]

/-! ## Strings -/

theorem escape?_of_mem {l c : Char} (h : (l, c) ∈ letters) : l ≠ 'u' ∧ escape? l = some c := by
  have hall : ∀ p ∈ letters, p.1 ≠ 'u' ∧ escape? p.1 = some p.2 := by decide
  exact hall (l, c) h

variable {c : Char} {cs text rest read : List Char} {tokens : List Token}

/-- A character is read, however it is written. -/
theorem scanString_of_charSpelling (h : CharSpelling c text) :
    scanString read (text ++ rest) = scanString (c :: read) rest := by
  cases h with
  | plain hcontrol hquote hbackslash =>
      rw [List.singleton_append, scanString,
        if_neg (not_or.mpr ⟨hbackslash, by omega⟩)]
      · exact hquote
      · exact fun _ _ _ _ _ h => absurd h hbackslash
      · exact fun _ _ h => absurd h hbackslash
  | letter h =>
      obtain ⟨hu, hescape⟩ := escape?_of_mem h
      rw [List.cons_append, List.singleton_append, scanString, hescape]
      exact fun _ _ _ _ _ h => absurd h hu
  | number h =>
      obtain ⟨a, b, d, e, rfl, hn⟩ := h.exists_digits
      obtain ⟨hlow, hhigh⟩ := not_surrogate c
      show scanString read ('\\' :: 'u' :: a :: b :: d :: e :: rest) = _
      rw [scanString, hn]
      dsimp only
      rw [hlow, hhigh, if_neg Bool.false_ne_true, if_neg Bool.false_ne_true, Char.ofNat_toNat]
  | pair hplane hhigh hlow =>
      obtain ⟨a, b, d, e, rfl, hn⟩ := hhigh.exists_digits
      obtain ⟨a', b', d', e', rfl, hm⟩ := hlow.exists_digits
      obtain ⟨hfirst, hsecond, hthird, hchar⟩ := surrogates hplane
      show scanString read ('\\' :: 'u' :: a :: b :: d :: e ::
        '\\' :: 'u' :: a' :: b' :: d' :: e' :: rest) = _
      rw [scanString, hn]
      dsimp only
      rw [hfirst, hsecond, if_neg Bool.false_ne_true, if_pos rfl]
      simp only [hm]
      rw [hthird, if_pos rfl, hchar]

/-- A string is read up to its closing quote, however it is written. -/
theorem scanString_of_spelling (h : Spelling cs text) : scanString read (text ++ '"' :: rest) =
    (scan rest).map (string (String.ofList (read.reverse ++ cs)) :: ·) := by
  induction h generalizing read with
  | nil => rw [List.nil_append, scanString, List.append_nil]
  | cons hc _ ih =>
      rw [List.append_assoc, scanString_of_charSpelling hc, ih, List.reverse_cons,
        List.append_assoc, List.singleton_append]

/-! ## Tokens -/

theorem scan_of_lexeme {t : Token} (h : Lexeme t text) :
    scan (text ++ rest) = (scan rest).map (t :: ·) := by
  cases h with
  | fixed h =>
      cases t with
      | bool b => cases b <;> cases h <;> exact scan.eq_def _
      | string => cases h
      | _ =>
          cases h
          exact scan.eq_def _
  | @string s text h =>
      rw [List.append_assoc, List.cons_append, List.singleton_append, scan,
        scanString_of_spelling h, List.reverse_nil, List.nil_append, String.ofList_toList]

/-- **The reader finds the tokens, however they are written.** -/
theorem scan_of_written (h : Written tokens text) : scan text = some tokens := by
  induction h with
  | nil => exact scan.eq_def _
  | blank hc _ ih =>
      simp only [blanks, List.mem_cons, List.not_mem_nil, or_false] at hc
      rcases hc with rfl | rfl | rfl | rfl
      all_goals
        rw [scan]
        exact ih
  | token ht _ ih => rw [scan_of_lexeme ht, ih, Option.map_some]

end TreeBackend.Options.Token
