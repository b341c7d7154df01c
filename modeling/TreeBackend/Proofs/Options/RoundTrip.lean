import Mathlib.Tactic.SplitIfs
import TreeBackend.Options.Format
import TreeBackend.Proofs.Options.Spelling

/-!
# Options are read back

A settings file holds options if it is an object that gives each of their values at most once, in
any order, and leaves out at most what has its default value.  How it is spelled does not matter.
The reader starts from the default values and sets one member after the other, each of which it may
set once, so in the end it has the value of every member that is given, and the default value of
every other.

* `Gives`, `Describes`: what a member may hold, and which members hold options between them.
* `HeldBy`: a text is a settings file that holds the options.
* `heldBy_encode`: options as they are written are such a file.
* `decode?_of_heldBy`: **options survive their own settings file**, and every other file that holds
  them.
-/

namespace TreeBackend.Options

/-- What options have in a member. -/
def value (o : Options) : Key → Setting
  | .allocator => .word (allocatorName o.allocator)
  | .comments => .flag o.comments
  | .verify => .flag o.verify
  | .peephole => .flag o.peephole
  | .entry =>
    match o.entry with
    | some l => .word l
    | none => .null

/-- A member may hold a value: the one that the options have there.  The allocator may also be given
as a choice. -/
inductive Gives (o : Options) : Key → Setting → Prop
  | value (k : Key) : Gives o k (o.value k)
  | choice : Gives o .allocator (.choice (allocatorName o.allocator))

/-- The members hold the options between them: no key is repeated, each value is that of the
options, and the options have the default value in every member that is left out. -/
structure Describes (members : List (Key × Setting)) (o : Options) : Prop where
  once : (members.map Prod.fst).Nodup
  given : ∀ m ∈ members, o.Gives m.1 m.2
  left : ∀ k, k ∉ members.map Prod.fst → o.value k = ({} : Options).value k

/-- The tokens of a value. -/
def Setting.tokens : Setting → List Token
  | .null => [.null]
  | .flag b => [.bool b]
  | .word s => [.string s]
  | .choice s => [.openBrace, .string s, .colon, .null, .closeBrace]

/-- The tokens of a member. -/
def memberTokens (m : Key × Setting) : List Token := .string m.1.name :: .colon :: m.2.tokens

/-- The tokens of an object. -/
def objectTokens (members : List (Key × Setting)) : List Token :=
  .openBrace :: [Token.comma].intercalate (members.map memberTokens) ++ [.closeBrace]

/-- The text is an object, in any spelling, whose members hold the options. -/
def HeldBy (o : Options) (text : String) : Prop :=
  ∃ members, Describes members o ∧ Token.Written (objectTokens members) text.toList

variable {o p q : Options} {k : Key} {v : Setting}

theorem allocatorOf?_name (a : AllocatorKind) : allocatorOf? (allocatorName a) = some a := by
  cases a <;> rfl

theorem ofName?_name (k : Key) : Key.ofName? k.name = some k := by
  cases k <;> rfl

/-- Options are what they have in their members. -/
theorem ext_value (h : ∀ k, p.value k = o.value k) : p = o := by
  have hallocator : p.allocator = o.allocator := by
    have hname := congrArg allocatorOf? (Setting.word.inj (h .allocator))
    simpa only [allocatorOf?_name, Option.some.injEq] using hname
  have hcomments : p.comments = o.comments := Setting.flag.inj (h .comments)
  have hverify : p.verify = o.verify := Setting.flag.inj (h .verify)
  have hpeephole : p.peephole = o.peephole := Setting.flag.inj (h .peephole)
  have hentry : p.entry = o.entry := by
    have hvalue := h .entry
    rw [value, value] at hvalue
    cases hp : p.entry <;> cases ho : o.entry <;> simp_all
  cases p
  cases o
  simp_all

/-! ## Reading -/

theorem setting?_tokens (v : Setting) (rest : List Token) :
    setting? (v.tokens ++ rest) = some (v, rest) := by
  cases v <;> rfl

/-- Options with one member taken from others. -/
def take (p o : Options) : Key → Options
  | .allocator => { p with allocator := o.allocator }
  | .comments => { p with comments := o.comments }
  | .verify => { p with verify := o.verify }
  | .peephole => { p with peephole := o.peephole }
  | .entry => { p with entry := o.entry }

theorem value_take (p o : Options) (k : Key) : (p.take o k).value k = o.value k := by
  cases k <;> rfl

theorem value_take_of_ne {j : Key} (h : j ≠ k) : (p.take o k).value j = p.value j := by
  cases j <;> cases k <;> first | rfl | exact absurd rfl h

theorem set?_of_gives (h : o.Gives k v) (p : Options) : p.set? k v = some (p.take o k) := by
  cases h with
  | choice =>
      rw [set?, allocatorOf?_name]
      rfl
  | value =>
      cases k with
      | allocator =>
          rw [value, set?, allocatorOf?_name]
          rfl
      | entry =>
          rw [value]
          cases h : o.entry <;> simp [set?, take, h]
      | _ => rfl

/-! ### Members -/

section
variable {left : List Key} (hk : k ∈ left) (hv : o.Gives k v)
include hk hv

theorem members?_last :
    members? p left (memberTokens (k, v) ++ [.closeBrace]) = some (p.take o k) := by
  rw [memberTokens, List.cons_append, List.cons_append, members?, ofName?_name]
  dsimp only
  rw [dif_pos hk, setting?_tokens]
  exact set?_of_gives hv p

theorem members?_comma (more : List Token) :
    members? p left (memberTokens (k, v) ++ .comma :: more) =
      members? (p.take o k) (left.erase k) more := by
  rw [memberTokens, List.cons_append, List.cons_append, members?, ofName?_name]
  dsimp only
  rw [dif_pos hk, setting?_tokens]
  dsimp only
  rw [set?_of_gives hv, Option.bind_some]

end

/-- **Reading members takes each of them over**, and leaves the others as they were. -/
theorem members?_of_gives {members : List (Key × Setting)} {left : List Key} (hne : members ≠ [])
    (honce : (members.map Prod.fst).Nodup) (hleft : ∀ k ∈ members.map Prod.fst, k ∈ left)
    (hgiven : ∀ m ∈ members, o.Gives m.1 m.2) (p : Options) :
    ∃ q, members? p left ([Token.comma].intercalate (members.map memberTokens) ++ [.closeBrace]) =
        some q ∧ (∀ k ∈ members.map Prod.fst, q.value k = o.value k) ∧
      ∀ k, k ∉ members.map Prod.fst → q.value k = p.value k := by
  induction members generalizing left p with
  | nil => exact absurd rfl hne
  | cons m rest ih =>
      obtain ⟨k, v⟩ := m
      obtain ⟨hk, honce⟩ := List.nodup_cons.mp honce
      obtain ⟨hkleft, hleft⟩ := List.forall_mem_cons.mp hleft
      obtain ⟨hv, hgiven⟩ := List.forall_mem_cons.mp hgiven
      cases rest with
      | nil =>
          refine ⟨p.take o k, ?_, List.forall_mem_singleton.mpr (value_take p o k),
            fun j hj => ?_⟩
          · rw [List.map_singleton, List.intercalate_singleton]
            exact members?_last hkleft hv
          · exact value_take_of_ne (List.ne_of_not_mem_cons hj)
      | cons m' rest =>
          -- the keys of the rest are still to be read, since none of them is this one
          have hrest (j : Key) (hj : j ∈ (m' :: rest).map Prod.fst) : j ∈ left.erase k := by
            have hne : j ≠ k := by
              rintro rfl
              exact hk hj
            exact (List.mem_erase_of_ne hne).mpr (hleft j hj)
          obtain ⟨q, hq, hgot, hkept⟩ :=
            ih (List.cons_ne_nil _ _) honce hrest hgiven (p.take o k)
          refine ⟨q, ?_, List.forall_mem_cons.mpr ⟨?_, hgot⟩, fun j hj => ?_⟩
          · rw [List.map_cons, List.map_cons, List.intercalate_cons_cons, List.append_assoc,
              List.append_assoc, List.singleton_append, members?_comma hkleft hv]
            exact hq
          · rw [hkept k hk, value_take]
          · rw [hkept j (List.not_mem_of_not_mem_cons hj),
              value_take_of_ne (List.ne_of_not_mem_cons hj)]

theorem mem_all (k : Key) : k ∈ Key.all := by cases k <;> decide

/-- The reader finds the options that the members hold. -/
theorem ofTokens?_of_describes {members : List (Key × Setting)} (h : Describes members o) :
    ofTokens? (objectTokens members) = some o := by
  by_cases hnil : members = []
  · subst hnil
    have ho : unset = o := ext_value fun k => (h.left k List.not_mem_nil).symm
    rw [← ho]
    rfl
  obtain ⟨q, hq, hgot, hkept⟩ :=
    members?_of_gives hnil h.once (fun k _ => mem_all k) h.given unset
  have ho : q = o := ext_value fun k => by
    by_cases hk : k ∈ members.map Prod.fst
    · exact hgot k hk
    · rw [hkept k hk, h.left k hk]
      rfl
  rw [objectTokens, List.cons_append, ofTokens?, hq, ho]
  -- an object with members does not end behind its opening brace
  cases members with
  | nil => exact absurd rfl hnil
  | cons m rest => cases rest <;> simp [memberTokens, List.intercalate_cons_cons]

/-! ## Writing -/

open Token (Hex4 HexDigit CharSpelling Spelling Lexeme Written)

/-- The escape of a control character is its number in four digits. -/
theorem hex4_control {n : Nat} (h : n < 0x20) :
    Hex4 n ['0', '0', Nat.digitChar (n / 16), Nat.digitChar (n % 16)] := by
  refine .digits (by omega) (.inl ?_) (.inl ?_) (.inl ?_) (.inl rfl)
  · rw [show n / 0x1000 = 0 by omega]
    rfl
  · rw [show n / 0x100 % 0x10 = 0 by omega]
    rfl
  · rw [show n / 0x10 % 0x10 = n / 16 by omega]

theorem charSpelling_encodeChar (c : Char) : CharSpelling c (encodeChar c) := by
  rw [encodeChar]
  split_ifs with hquote hbackslash hb hf hn hr ht hcontrol
  · exact .letter (by rw [hquote]; decide)
  · exact .letter (by rw [hbackslash]; decide)
  · exact .letter (by rw [hb]; decide)
  · exact .letter (by rw [hf]; decide)
  · exact .letter (by rw [hn]; decide)
  · exact .letter (by rw [hr]; decide)
  · exact .letter (by rw [ht]; decide)
  · exact .number (hex4_control hcontrol)
  · exact .plain (by omega) hquote hbackslash

theorem spelling_encode (cs : List Char) : Spelling cs (cs.flatMap encodeChar) := by
  induction cs with
  | nil => exact .nil
  | cons c rest ih => exact .cons (charSpelling_encodeChar c) ih

theorem written_encodeString (s : String) : Written [.string s] (encodeString s) := by
  rw [encodeString, ← List.append_nil ('"' :: s.toList.flatMap encodeChar ++ ['"'])]
  exact .token (.string (spelling_encode s.toList)) .nil

theorem written_fixed {t : Token} {s : String} (h : t.fixed? = some s) : Written [t] s.toList := by
  rw [← List.append_nil s.toList]
  exact .token (.fixed h) .nil

theorem written_encodeValue (o : Options) (k : Key) :
    Written (o.value k).tokens (encodeValue o k) := by
  cases k with
  | allocator => exact written_encodeString _
  | comments | verify | peephole => exact written_fixed rfl
  | entry =>
      rw [value, encodeValue]
      cases o.entry with
      | none => exact written_fixed rfl
      | some l => exact written_encodeString l

theorem written_encodeMember (o : Options) (k : Key) :
    Written (memberTokens (k, o.value k)) (encodeMember o k) :=
  (written_encodeString k.name).append
    ((written_fixed (t := .colon) rfl).append (written_encodeValue o k))

/-- Members with commas between them. -/
theorem written_intercalate (o : Options) (keys : List Key) :
    Written ([Token.comma].intercalate (keys.map fun k => memberTokens (k, o.value k)))
      ([','].intercalate (keys.map (encodeMember o))) := by
  induction keys with
  | nil => exact .nil
  | cons k rest ih =>
      cases rest with
      | nil =>
          rw [List.map_singleton, List.map_singleton, List.intercalate_singleton,
            List.intercalate_singleton]
          exact written_encodeMember o k
      | cons k' rest =>
          rw [List.map_cons, List.map_cons, List.map_cons, List.map_cons,
            List.intercalate_cons_cons, List.intercalate_cons_cons]
          exact ((written_encodeMember o k).append (written_fixed (t := .comma) rfl)).append ih

/-- **Options as they are written hold the options.** -/
theorem heldBy_encode (o : Options) : o.HeldBy (encode o) := by
  refine ⟨Key.all.map fun k => (k, o.value k), ⟨?_, ?_, ?_⟩, ?_⟩
  · rw [List.map_map]
    exact (by decide : Key.all.Nodup)
  · rw [List.forall_mem_map]
    exact fun k _ => .value k
  · intro k hk
    rw [List.map_map] at hk
    exact absurd (List.mem_map.mpr ⟨k, mem_all k, rfl⟩) hk
  · rw [objectTokens, List.map_map, encode, String.toList_ofList]
    exact ((written_fixed (t := .openBrace) rfl).append (written_intercalate o Key.all)).append
      (written_fixed (t := .closeBrace) rfl)

/-- **Options survive their own settings file.**  They are read back from the text that they are
written as, whatever label they name; and so they are from every other file that holds them: an
object with their values in any order, in any spelling, with blanks between and around the tokens,
in which any members may be left out whose value is the default one. -/
theorem decode?_of_heldBy (o : Options) :
    decode? (encode o) = some o ∧ ∀ text, o.HeldBy text → decode? text = some o := by
  have hread (text : String) (h : o.HeldBy text) : decode? text = some o := by
    obtain ⟨members, hmembers, htext⟩ := h
    rw [decode?, Token.scan_of_written htext, Option.bind_some, ofTokens?_of_describes hmembers]
  exact ⟨hread _ (heldBy_encode o), hread⟩

theorem decode?_of_heldBy_respelled :
    HeldBy { allocator := .basic, entry := some "é😀" }
        "\n\x7b\"entry_point\": \"é\\uD83D\\uDe00\", \"allocator\":\x7b\"basic\":null\x7d\x7d" ∧
      decode?
          "\n\x7b\"entry_point\": \"é\\uD83D\\uDe00\", \"allocator\":\x7b\"basic\":null\x7d\x7d" =
        some { allocator := .basic, entry := some "é😀" } := by
  have hheld : HeldBy { allocator := .basic, entry := some "é😀" }
      "\n\x7b\"entry_point\": \"é\\uD83D\\uDe00\", \"allocator\":\x7b\"basic\":null\x7d\x7d" := by
    refine ⟨[(.entry, .word "é😀"), (.allocator, .choice "basic")], ⟨by decide, ?_, ?_⟩, ?_⟩
    · exact List.forall_mem_cons.mpr ⟨.value .entry, List.forall_mem_singleton.mpr .choice⟩
    · intro k hk
      cases k <;> first | rfl | exact absurd hk (by decide)
    · have hpair : CharSpelling '😀'
          ['\\', 'u', 'D', '8', '3', 'D', '\\', 'u', 'D', 'e', '0', '0'] :=
        .pair (by decide) (.digits (by decide) (by decide) (by decide) (by decide) (by decide))
          (.digits (by decide) (by decide) (by decide) (by decide) (by decide))
      have hlabel : Written [.string "é😀"] _ := .token (.string <|
        .cons (.plain (by decide) (by decide) (by decide)) (.cons hpair .nil)) .nil
      have hentry : Written (memberTokens (.entry, .word "é😀")) _ :=
        (written_encodeString "entry_point").append <|
          (written_fixed (t := .colon) rfl).append <| .blank (c := ' ') (by decide) hlabel
      have hchoice : Written (Setting.choice "basic").tokens _ :=
        (written_fixed (t := .openBrace) rfl).append <| (written_encodeString "basic").append <|
          (written_fixed (t := .colon) rfl).append <| (written_fixed (t := .null) rfl).append <|
          written_fixed (t := .closeBrace) rfl
      have hallocator : Written (memberTokens (.allocator, .choice "basic")) _ :=
        (written_encodeString "allocator").append <|
          (written_fixed (t := .colon) rfl).append hchoice
      exact .blank (by decide) <| (written_fixed (t := .openBrace) rfl).append <|
        hentry.append <| (written_fixed (t := .comma) rfl).append <|
        .blank (by decide) <| hallocator.append <| written_fixed (t := .closeBrace) rfl
  exact ⟨hheld, (decode?_of_heldBy _).2 _ hheld⟩

end TreeBackend.Options
