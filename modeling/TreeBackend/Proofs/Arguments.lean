import TreeBackend.Proofs.Names

/-!
# Names of arguments

The argument that a name stands for is read as a number is: a plus sign may stand in front of the
numeral, and zeros may (`Reserved.argument?_eq_some_iff`).  So an argument has many names besides
the one that is made for it, and a temporary under one of these is the argument.

* `Text.numeral64?_eq_some_iff`: how the numerals of a number may be written.
* `Reserved.Respelled`: the names of arguments that are not made for them.
* `Reserved.argument?_exact_iff`: **which names stand for an argument, and that only respelled ones
  do so besides the names made for arguments.**
-/

namespace TreeBackend

/-! ### Numerals -/

namespace Text

variable {cs : List Char} {n : Nat}

theorem ofDigits_eq (cs : List Char) : ofDigits cs = Nat.ofDigitChars 10 cs 0 := rfl

theorem digit_bounds {c : Char} (hc : c.isDigit = true) : 48 ≤ c.toNat ∧ c.toNat ≤ 57 :=
  Char.isDigit_iff_toNat.mp hc

theorem digit_lt_ten {c : Char} (hc : c.isDigit = true) : c.toNat - 48 < 10 := by
  have := digit_bounds hc
  omega

theorem digitChar_of_isDigit {c : Char} (hc : c.isDigit = true) :
    Nat.digitChar (c.toNat - 48) = c := by
  have hbounds := digit_bounds hc
  rw [← Char.toNat_inj, Nat.toNat_digitChar_of_lt_ten (digit_lt_ten hc)]
  omega

/-- Digits that follow the numeral of a positive number make it the numeral of a greater one. -/
theorem toDigits_append_digits (hcs : ∀ c ∈ cs, c.isDigit = true) (hn : 0 < n) :
    Nat.toDigits 10 n ++ cs = Nat.toDigits 10 (Nat.ofDigitChars 10 cs n) := by
  induction cs generalizing n with
  | nil => simp
  | cons c rest ih =>
      obtain ⟨hc, hrest⟩ := List.forall_mem_cons.mp hcs
      calc Nat.toDigits 10 n ++ c :: rest
          = (Nat.toDigits 10 n ++ Nat.toDigits 10 (c.toNat - 48)) ++ rest := by
            rw [Nat.toDigits_of_lt_base (digit_lt_ten hc), digitChar_of_isDigit hc,
              List.append_assoc]
            rfl
        _ = Nat.toDigits 10 (10 * n + (c.toNat - 48)) ++ rest := by
            rw [Nat.toDigits_append_toDigits (by decide) hn (digit_lt_ten hc)]
        _ = Nat.toDigits 10 (Nat.ofDigitChars 10 (c :: rest) n) := by
            rw [ih hrest (by omega), Nat.ofDigitChars_cons]
            rfl

/-- **Digits are zeros and the numeral of their value.** -/
theorem exists_zeros (hne : cs ≠ []) (hcs : ∀ c ∈ cs, c.isDigit = true) :
    ∃ zeros, cs = List.replicate zeros '0' ++ Nat.toDigits 10 (ofDigits cs) := by
  induction cs with
  | nil => exact absurd rfl hne
  | cons c rest ih =>
      obtain ⟨hc, hrest⟩ := List.forall_mem_cons.mp hcs
      by_cases hzero : c = '0'
      · subst hzero
        cases rest with
        | nil => exact ⟨0, rfl⟩
        | cons d rest =>
            obtain ⟨zeros, heq⟩ := ih (List.cons_ne_nil d rest) hrest
            exact ⟨zeros + 1, congrArg ('0' :: ·) heq⟩
      · have hne : c.toNat ≠ 48 := fun h => hzero (Char.toNat_inj.mp h)
        have hbounds := digit_bounds hc
        have happend := toDigits_append_digits hrest (n := c.toNat - 48) (by omega)
        rw [Nat.toDigits_of_lt_base (digit_lt_ten hc), digitChar_of_isDigit hc] at happend
        refine ⟨0, happend.trans ?_⟩
        rw [ofDigits_eq, Nat.ofDigitChars_cons, Nat.mul_zero, Nat.zero_add]
        rfl

theorem ofDigits_zeros (zeros n : Nat) :
    ofDigits (List.replicate zeros '0' ++ Nat.toDigits 10 n) = n := by
  rw [ofDigits_eq, Nat.ofDigitChars_append, Nat.ofDigitChars_replicate_zero, Nat.mul_zero,
    Nat.ofDigitChars_ten_toDigits]

/-- The ways to write a number: a plus sign or none, any number of zeros, and its digits. -/
def written (plus : Bool) (zeros n : Nat) : List Char :=
  (if plus then ['+'] else []) ++ (List.replicate zeros '0' ++ Nat.toDigits 10 n)

theorem length_written (plus : Bool) (zeros n : Nat) :
    (written plus zeros n).length = plus.toNat + zeros + (Nat.toDigits 10 n).length := by
  rw [written, List.length_append, List.length_append, List.length_replicate, ← Nat.add_assoc]
  cases plus <;> rfl

theorem isDigit_of_mem_zeros {zeros : Nat} {c : Char}
    (hc : c ∈ List.replicate zeros '0' ++ Nat.toDigits 10 n) : c.isDigit = true := by
  rcases List.mem_append.mp hc with hc | hc
  · rw [List.eq_of_mem_replicate hc]
    rfl
  · exact isDigit_of_mem_decimal hc

theorem unsigned_written (plus : Bool) (zeros n : Nat) :
    unsigned (written plus zeros n) = List.replicate zeros '0' ++ Nat.toDigits 10 n := by
  cases plus with
  | true => rfl
  | false =>
      change unsigned (List.replicate zeros '0' ++ Nat.toDigits 10 n) = _
      unfold unsigned
      split
      · next rest heq =>
        have hplus : '+'.isDigit = true := isDigit_of_mem_zeros (heq ▸ List.mem_cons_self)
        cases hplus
      · rfl

theorem exists_sign (cs : List Char) :
    ∃ plus : Bool, cs = (if plus then ['+'] else []) ++ unsigned cs := by
  unfold unsigned
  split
  · exact ⟨true, rfl⟩
  · exact ⟨false, rfl⟩

/-- **A 64-bit numeral is a way to write its value.** -/
theorem numeral64?_eq_some_iff :
    numeral64? cs = some n ↔ n < UInt64.size ∧ ∃ plus zeros, cs = written plus zeros n := by
  constructor
  · intro h
    simp only [numeral64?] at h
    split at h
    · cases h
    · next hok =>
      simp only [Bool.or_eq_true, decide_eq_true_eq, not_or, Bool.not_eq_true', Bool.not_eq_false,
        List.isEmpty_iff, List.all_eq_true, Nat.not_le] at hok
      obtain ⟨⟨hne, hdigits⟩, hsize⟩ := hok
      obtain rfl : ofDigits (unsigned cs) = n := Option.some.inj h
      obtain ⟨zeros, hzeros⟩ := exists_zeros hne hdigits
      obtain ⟨plus, hplus⟩ := exists_sign cs
      refine ⟨hsize, plus, zeros, ?_⟩
      rw [written, ← hzeros]
      exact hplus
  · rintro ⟨hsize, plus, zeros, rfl⟩
    have hdigits : (List.replicate zeros '0' ++ Nat.toDigits 10 n).all Char.isDigit = true :=
      List.all_eq_true.mpr fun _ => isDigit_of_mem_zeros
    simp only [numeral64?, unsigned_written, hdigits, ofDigits_zeros]
    simp [hsize]

end Text

/-! ### Names -/

namespace Reserved

variable {name : String} {n : Nat}

/-- A name of an argument: its number may be written with a plus sign, and with zeros in front. -/
def spelled (plus : Bool) (zeros n : Nat) : String :=
  argumentStem ++ String.ofList (Text.written plus zeros n)

theorem toList_spelled (plus : Bool) (zeros n : Nat) :
    (spelled plus zeros n).toList = argumentStem.toList ++ Text.written plus zeros n := by
  rw [spelled, String.toList_append, String.toList_ofList]

theorem argument_eq_spelled (n : Nat) : argument n = spelled false 0 n := by
  rw [← String.toList_inj, toList_spelled, argument, String.toList_append, toList_toString_nat]
  rfl

/-- **Which argument a name stands for.** -/
theorem argument?_eq_some_iff :
    argument? name = some n ↔ n < UInt64.size ∧ ∃ plus zeros, name = spelled plus zeros n := by
  rw [argument?, Option.bind_eq_some_iff]
  constructor
  · rintro ⟨rest, hafter, hrest⟩
    obtain ⟨hn, plus, zeros, rfl⟩ := Text.numeral64?_eq_some_iff.mp hrest
    refine ⟨hn, plus, zeros, ?_⟩
    rw [← String.toList_inj, toList_spelled]
    exact Text.eq_append_of_after? hafter
  · rintro ⟨hn, plus, zeros, rfl⟩
    refine ⟨Text.written plus zeros n, ?_, Text.numeral64?_eq_some_iff.mpr ⟨hn, plus, zeros, rfl⟩⟩
    rw [toList_spelled, Text.after?_append]

/-- The name of an argument with a plus sign or with zeros that its number does not need. -/
def Respelled (name : String) : Prop :=
  ∃ n < UInt64.size, ∃ plus zeros, (plus = true ∨ 0 < zeros) ∧ name = spelled plus zeros n

/-- A sign or zeros make a name longer. -/
theorem spelled_eq_argument {plus : Bool} {zeros : Nat} (h : spelled plus zeros n = argument n) :
    plus = false ∧ zeros = 0 := by
  have hlist := congrArg String.toList h
  rw [argument_eq_spelled, toList_spelled, toList_spelled] at hlist
  have hlength := congrArg List.length (List.append_cancel_left hlist)
  rw [Text.length_written, Text.length_written, Bool.toNat_false] at hlength
  cases plus with
  | true =>
      rw [Bool.toNat_true] at hlength
      omega
  | false =>
      rw [Bool.toNat_false] at hlength
      exact ⟨rfl, by omega⟩

theorem argument?_argument (hn : n < UInt64.size) : argument? (argument n) = some n :=
  argument?_eq_some_iff.mpr ⟨hn, false, 0, argument_eq_spelled n⟩

/-- A name that stands for an argument is the one made for it, or respelled. -/
theorem eq_argument_or_respelled (h : argument? name = some n) :
    name = argument n ∨ Respelled name := by
  obtain ⟨hn, plus, zeros, rfl⟩ := argument?_eq_some_iff.mp h
  by_cases hplain : plus = true ∨ 0 < zeros
  · exact .inr ⟨n, hn, plus, zeros, hplain, rfl⟩
  · obtain ⟨hplus, hzeros⟩ := not_or.mp hplain
    obtain rfl : plus = false := Bool.eq_false_iff.mpr hplus
    obtain rfl : zeros = 0 := Nat.eq_zero_of_not_pos hzeros
    exact .inl (argument_eq_spelled n).symm

theorem Respelled.exists_argument (h : Respelled name) :
    ∃ n < UInt64.size, argument? name = some n ∧ name ≠ argument n := by
  obtain ⟨n, hn, plus, zeros, hmore, rfl⟩ := h
  refine ⟨n, hn, argument?_eq_some_iff.mpr ⟨hn, plus, zeros, rfl⟩, fun heq => ?_⟩
  obtain ⟨rfl, rfl⟩ := spelled_eq_argument heq
  exact absurd hmore (by decide)

end Reserved

/-! ### Temporaries -/

/-- A temporary is an argument exactly if its name stands for the argument. -/
theorem Storage.ofTemp_eq_argument {x : String} {g : Bool} {n : Nat} :
    Storage.ofTemp x g = .argument n ↔ Reserved.argument? x = some n := by
  rw [Storage.ofTemp]
  by_cases hresult : x = Reserved.result
  · have hnone : Reserved.argument? x = none := hresult ▸ (by decide)
    simp [hresult ▸ hnone, hresult]
  · rw [if_neg hresult]
    cases hx : Reserved.argument? x with
    | some m => simp
    | none => cases g <;> simp

namespace Reserved

/-- **The names of arguments are recognized exactly, respelled ones apart.**  Only the name made for
an argument stands for it, unless the name is respelled; a plus sign and zeros in front of the
number are all that it may have besides.  So of two names that are the same argument one is
respelled, and a name that is neither made for an argument nor respelled nor the result's is an
ordinary temporary. -/
theorem argument?_exact_iff (name : String) :
    ((∀ n < UInt64.size, (argument? name = some n ↔ name = argument n)) ↔ ¬Respelled name) ∧
      (∀ n, argument? name = some n ↔
        n < UInt64.size ∧ ∃ plus zeros, name = spelled plus zeros n) ∧
      (∀ other n g g', name ≠ other → Storage.ofTemp name g = .argument n →
        Storage.ofTemp other g' = .argument n → Respelled name ∨ Respelled other) ∧
      ((∀ n < UInt64.size, name ≠ argument n) → ¬Respelled name → name ≠ result →
        ∀ g, Storage.ofTemp name g = if g then .field name else .register name) := by
  refine ⟨⟨?_, ?_⟩, fun n => argument?_eq_some_iff, ?_, ?_⟩
  · intro hexact hrespelled
    obtain ⟨n, hn, harg, hne⟩ := hrespelled.exists_argument
    exact hne ((hexact n hn).mp harg)
  · intro hplain n hn
    constructor
    · intro harg
      exact (eq_argument_or_respelled harg).resolve_right hplain
    · rintro rfl
      exact argument?_argument hn
  · intro other n g g' hne hname hother
    rcases eq_argument_or_respelled (Storage.ofTemp_eq_argument.mp hname) with rfl | h
    · rcases eq_argument_or_respelled (Storage.ofTemp_eq_argument.mp hother) with rfl | h
      · exact absurd rfl hne
      · exact .inr h
    · exact .inl h
  · intro hmade hplain hresult g
    have hnone : argument? name = none := by
      refine Option.eq_none_iff_forall_ne_some.mpr fun n harg => ?_
      have hn := (argument?_eq_some_iff.mp harg).1
      exact hmade n hn ((eq_argument_or_respelled harg).resolve_right hplain)
    rw [Storage.ofTemp, if_neg hresult, hnone]

/-- A plus sign or zeros make a second name for an argument, and a temporary under it is no other
than the argument. -/
theorem argument?_second_name :
    argument? "_ARG+0" = some 0 ∧ "_ARG+0" ≠ argument 0 ∧
      argument? "_ARG007" = some 7 ∧ "_ARG007" ≠ argument 7 ∧
      Storage.ofTemp "_ARG+0" false = Storage.ofTemp (argument 0) false := by
  decide

end Reserved

end TreeBackend
