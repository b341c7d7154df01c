import TreeBackend.IR.Storage
import TreeBackend.IR.Supply

/-!
# Made-up names

A made-up name is a scope, a point, a letter and a numeral.  A scope may hold any text, also text
that looks like a made-up name, so nothing can be said about where in a name its scope ends.  But a
name can be read from its end: the numeral has only digits and the letter before it is no digit, so
equal names have equal numerals (`append_digits_inj`), and then equal letters and scopes.  The
letter also keeps the name of a temporary apart from every reserved one, whatever the scope.

* `Supply.handed_out_apart`: **names that supplies hand out are equal only if they are of one kind
  and have the same scope and number, and no temporary is handed out under a reserved name.**
* `Supply.nodup_handedOut`, `Supply.not_mem_handedOut`: so no supply hands out a name twice, and
  supplies of different scopes do not share names.
* `Storage.ofTemp_tempName`: a made-up temporary is a register.
-/

namespace TreeBackend

theorem toList_toString_nat (n : Nat) : (toString n).toList = Nat.toDigits 10 n := by
  rw [Nat.toString_eq_ofList_toDigits, String.toList_ofList]

theorem toDigits_inj {m n : Nat} (h : Nat.toDigits 10 m = Nat.toDigits 10 n) : m = n := by
  have hm := Nat.ofDigitChars_ten_toDigits (n := m)
  rw [h, Nat.ofDigitChars_ten_toDigits] at hm
  exact hm.symm

theorem isDigit_of_mem_decimal {c : Char} {n : Nat} (h : c ∈ Nat.toDigits 10 n) :
    c.isDigit = true :=
  Nat.isDigit_of_mem_toDigits (by decide) (by decide) h

/-! ### Names read from the end -/

section
variable {xs ys ms ns : List Char} {c d : Char}

theorem eq_nil_of_cons_digits (hd : d.isDigit = false) (hms : ∀ x ∈ ms, x.isDigit = true)
    (h : c :: ms = xs ++ d :: ns) : xs = [] := by
  cases xs with
  | nil => rfl
  | cons a rest =>
      obtain ⟨-, htail⟩ := List.cons.inj h
      have hdigit : d.isDigit = true := hms d (by simp [htail])
      rw [hd] at hdigit
      cases hdigit

/-- **A text with digits at its end has one last character that is no digit.** -/
theorem append_digits_inj (hc : c.isDigit = false) (hd : d.isDigit = false)
    (hms : ∀ x ∈ ms, x.isDigit = true) (hns : ∀ x ∈ ns, x.isDigit = true)
    (h : xs ++ c :: ms = ys ++ d :: ns) : xs = ys ∧ c = d ∧ ms = ns := by
  rcases List.append_eq_append_iff.mp h with ⟨more, hys, htail⟩ | ⟨more, hxs, htail⟩
  · obtain rfl := eq_nil_of_cons_digits hd hms htail
    obtain ⟨hcd, hmn⟩ := List.cons.inj htail
    exact ⟨by simpa using hys.symm, hcd, hmn⟩
  · obtain rfl := eq_nil_of_cons_digits hc hns htail
    obtain ⟨hdc, hnm⟩ := List.cons.inj htail
    exact ⟨by simpa using hxs, hdc.symm, hnm.symm⟩

end

namespace Supply

/-- The characters of a name made up in a scope, with a letter before the numeral. -/
def nameChars (scope : String) (letter : Char) (n : Nat) : List Char :=
  scope.toList ++ '.' :: letter :: Nat.toDigits 10 n

theorem nameChars_inj {s s' : String} {c d : Char} {m n : Nat} (hc : c.isDigit = false)
    (hd : d.isDigit = false) (h : nameChars s c m = nameChars s' d n) : s = s' ∧ c = d ∧ m = n := by
  have hsplit (r : String) (a : Char) (k : Nat) :
      nameChars r a k = (r.toList ++ ['.']) ++ a :: Nat.toDigits 10 k := by simp [nameChars]
  rw [hsplit, hsplit] at h
  obtain ⟨hscope, hletter, hdigits⟩ := append_digits_inj hc hd
    (fun _ => isDigit_of_mem_decimal) (fun _ => isDigit_of_mem_decimal) h
  exact ⟨String.toList_inj.mp (List.append_cancel_right hscope), hletter, toDigits_inj hdigits⟩

theorem toList_tempName (scope : String) (n : Nat) :
    (tempName scope n).toList = nameChars scope 't' n := by
  rw [tempName, String.toList_append, String.toList_append, toList_toString_nat, List.append_assoc]
  rfl

theorem toList_labelName (scope : String) (n : Nat) :
    (labelName scope n).toList = nameChars scope 'L' n := by
  rw [labelName, String.toList_append, String.toList_append, toList_toString_nat, List.append_assoc]
  rfl

theorem tempName_eq_iff {s s' : String} {m n : Nat} :
    tempName s m = tempName s' n ↔ s = s' ∧ m = n := by
  constructor
  · intro h
    have hlist := congrArg String.toList h
    rw [toList_tempName, toList_tempName] at hlist
    obtain ⟨hscope, -, hnumber⟩ := nameChars_inj (by decide) (by decide) hlist
    exact ⟨hscope, hnumber⟩
  · rintro ⟨rfl, rfl⟩
    rfl

theorem labelName_eq_iff {s s' : String} {m n : Nat} :
    labelName s m = labelName s' n ↔ s = s' ∧ m = n := by
  constructor
  · intro h
    have hlist := congrArg String.toList h
    rw [toList_labelName, toList_labelName] at hlist
    obtain ⟨hscope, -, hnumber⟩ := nameChars_inj (by decide) (by decide) hlist
    exact ⟨hscope, hnumber⟩
  · rintro ⟨rfl, rfl⟩
    rfl

theorem tempName_ne_labelName (s s' : String) (m n : Nat) : tempName s m ≠ labelName s' n := by
  intro h
  have hlist := congrArg String.toList h
  rw [toList_tempName, toList_labelName] at hlist
  obtain ⟨-, hletter, -⟩ := nameChars_inj (by decide) (by decide) hlist
  exact absurd hletter (by decide)

theorem t_mem_tempName (scope : String) (n : Nat) : 't' ∈ (tempName scope n).toList := by
  rw [toList_tempName, nameChars]
  simp

end Supply

/-! ### Reserved names -/

/-- A numeral has no letter `t` in it. -/
theorem numeral64?_eq_none {cs : List Char} (h : 't' ∈ cs) : Text.numeral64? cs = none := by
  have hdigits : 't' ∈ Text.unsigned cs := by
    unfold Text.unsigned
    split
    · simpa using h
    · exact h
  have hall : (Text.unsigned cs).all Char.isDigit = false := by
    rw [List.all_eq_false]
    exact ⟨'t', hdigits, by decide⟩
  simp [Text.numeral64?, hall]

theorem Reserved.argument?_eq_none {name : String} (h : 't' ∈ name.toList) :
    Reserved.argument? name = none := by
  unfold Reserved.argument?
  cases hafter : Text.after? Reserved.argumentStem.toList name.toList with
  | none => rfl
  | some rest =>
    have happ := Text.eq_append_of_after? hafter
    rw [happ, List.mem_append] at h
    refine numeral64?_eq_none (h.resolve_left ?_)
    decide

theorem tempName_ne_result (scope : String) (n : Nat) :
    Supply.tempName scope n ≠ Reserved.result := by
  intro h
  have ht := Supply.t_mem_tempName scope n
  rw [h] at ht
  exact absurd ht (by decide)

/-- A made-up temporary is a register, whatever its scope. -/
theorem Storage.ofTemp_tempName (scope : String) (n : Nat) :
    Storage.ofTemp (Supply.tempName scope n) false = .register (Supply.tempName scope n) := by
  rw [Storage.ofTemp, if_neg (tempName_ne_result scope n),
    Reserved.argument?_eq_none (Supply.t_mem_tempName scope n)]
  rfl

theorem Storage.ofTemp_result (g : Bool) : Storage.ofTemp Reserved.result g = .result := if_pos rfl

/-- A temporary is a register only under its own name, and only if it is no field. -/
theorem Storage.eq_of_ofTemp_register {x y : String} {g : Bool}
    (h : Storage.ofTemp x g = .register y) : x = y ∧ g = false := by
  unfold Storage.ofTemp at h
  split at h
  · cases h
  · split at h
    · cases h
    · cases g with
      | true => cases h
      | false => exact ⟨by simpa using h, rfl⟩

/-! ### What supplies hand out -/

namespace Supply

/-- **Names that supplies hand out do not collide.**  Two of them, from any two supplies, are equal
only if they are of one kind and have the same scope and number.  No temporary that a supply hands
out has the name of the result or of an argument, whatever the scope is. -/
theorem handed_out_apart (σ τ : Supply) :
    (σ.takeTemp.1 = τ.takeTemp.1 ↔ σ.scope = τ.scope ∧ σ.nextTemp = τ.nextTemp) ∧
      (σ.takeLabel.1 = τ.takeLabel.1 ↔ σ.scope = τ.scope ∧ σ.nextLabel = τ.nextLabel) ∧
      σ.takeTemp.1 ≠ τ.takeLabel.1 ∧
      σ.takeTemp.1 ≠ Reserved.result ∧ Reserved.argument? σ.takeTemp.1 = none :=
  ⟨tempName_eq_iff, labelName_eq_iff, tempName_ne_labelName _ _ _ _, tempName_ne_result _ _,
    Reserved.argument?_eq_none (t_mem_tempName _ _)⟩

/-- What a supply makes up names for. -/
inductive Kind where
  | temp | label

/-- The next name of a kind, and what is left. -/
def take (σ : Supply) : Kind → String × Supply
  | .temp => σ.takeTemp
  | .label => σ.takeLabel

/-- The names that a supply hands out when it is asked for names of given kinds in turn. -/
def handedOut (σ : Supply) : List Kind → List String
  | [] => []
  | k :: ks => (σ.take k).1 :: (σ.take k).2.handedOut ks

/-- What is handed out has the scope of the supply and a number that is not used up. -/
theorem mem_handedOut {σ : Supply} {ks : List Kind} {x : String} (hx : x ∈ σ.handedOut ks) :
    (∃ n, σ.nextTemp ≤ n ∧ x = tempName σ.scope n) ∨
      ∃ n, σ.nextLabel ≤ n ∧ x = labelName σ.scope n := by
  induction ks generalizing σ with
  | nil => cases hx
  | cons k ks ih =>
      cases k with
      | temp =>
          rcases List.mem_cons.mp hx with rfl | hx
          · exact .inl ⟨σ.nextTemp, Nat.le_refl _, rfl⟩
          · rcases ih hx with ⟨n, hn, rfl⟩ | hlabel
            · exact .inl ⟨n, Nat.le_of_succ_le hn, rfl⟩
            · exact .inr hlabel
      | label =>
          rcases List.mem_cons.mp hx with rfl | hx
          · exact .inr ⟨σ.nextLabel, Nat.le_refl _, rfl⟩
          · rcases ih hx with htemp | ⟨n, hn, rfl⟩
            · exact .inl htemp
            · exact .inr ⟨n, Nat.le_of_succ_le hn, rfl⟩

/-- **No supply hands out a name twice.** -/
theorem nodup_handedOut (σ : Supply) (ks : List Kind) : (σ.handedOut ks).Nodup := by
  induction ks generalizing σ with
  | nil => exact List.nodup_nil
  | cons k ks ih =>
      refine List.nodup_cons.mpr ⟨fun hx => ?_, ih _⟩
      cases k with
      | temp =>
          rcases mem_handedOut hx with ⟨n, hn, heq⟩ | ⟨n, -, heq⟩
          · obtain ⟨-, rfl⟩ := tempName_eq_iff.mp heq
            exact Nat.not_succ_le_self _ hn
          · exact tempName_ne_labelName _ _ _ _ heq
      | label =>
          rcases mem_handedOut hx with ⟨n, -, heq⟩ | ⟨n, hn, heq⟩
          · exact tempName_ne_labelName _ _ _ _ heq.symm
          · obtain ⟨-, rfl⟩ := labelName_eq_iff.mp heq
            exact Nat.not_succ_le_self _ hn

/-- **Supplies of different scopes do not share names.** -/
theorem not_mem_handedOut {σ τ : Supply} (hscope : σ.scope ≠ τ.scope) {ks ls : List Kind}
    {x : String} (hx : x ∈ σ.handedOut ks) : x ∉ τ.handedOut ls := by
  intro hτ
  rcases mem_handedOut hx with ⟨m, -, rfl⟩ | ⟨m, -, rfl⟩ <;>
    rcases mem_handedOut hτ with ⟨n, -, heq⟩ | ⟨n, -, heq⟩
  · exact hscope (tempName_eq_iff.mp heq).1
  · exact tempName_ne_labelName _ _ _ _ heq
  · exact tempName_ne_labelName _ _ _ _ heq.symm
  · exact hscope (labelName_eq_iff.mp heq).1

end Supply

end TreeBackend
