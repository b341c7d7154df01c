import TreeBackend.Options.Basic
import TreeBackend.Options.Token

/-!
# Options in a settings file

Options are written as a JSON object with a member for each, in a fixed order.
They are read from such an object in any order, a member at most once and any
left out that has its default value, or from an array of the values in the fixed
order, of which the last ones may be left out.

The allocator is read from its name, or from an object with that name as its only
key and `null` as the value.
-/

namespace TreeBackend.Options

/-- The name of an allocator in a settings file. -/
def allocatorName : AllocatorKind → String
  | .basic => "basic"
  | .linearScan => "linear_scan"

/-- The allocator of a name. -/
def allocatorOf? (name : String) : Option AllocatorKind :=
  [AllocatorKind.basic, .linearScan].find? (allocatorName · = name)

/-- The members of a settings file. -/
inductive Key where
  | allocator | comments | verify | peephole | entry
deriving DecidableEq, Repr

namespace Key

/-- All members, in the order in which they are written. -/
def all : List Key := [allocator, comments, verify, peephole, entry]

def name : Key → String
  | allocator => "allocator"
  | comments => "emit_comments"
  | verify => "verify_canonical"
  | peephole => "peephole"
  | entry => "entry_point"

def ofName? (s : String) : Option Key := all.find? (·.name = s)

end Key

/-! ### Writing -/

/-- One character of a JSON string: quote, backslash and controls are escaped, and
everything else stands for itself. -/
def encodeChar (c : Char) : List Char :=
  if c = '"' then ['\\', '"']
  else if c = '\\' then ['\\', '\\']
  else if c = '\x08' then ['\\', 'b']
  else if c = '\x0c' then ['\\', 'f']
  else if c = '\n' then ['\\', 'n']
  else if c = '\r' then ['\\', 'r']
  else if c = '\t' then ['\\', 't']
  else if c.toNat < 0x20 then
    ['\\', 'u', '0', '0', Nat.digitChar (c.toNat / 16), Nat.digitChar (c.toNat % 16)]
  else [c]

/-- A JSON string. -/
def encodeString (s : String) : List Char := '"' :: s.toList.flatMap encodeChar ++ ['"']

def encodeBool (b : Bool) : List Char := (if b then "true" else "false").toList

/-- The value of a member. -/
def encodeValue (o : Options) : Key → List Char
  | .allocator => encodeString (allocatorName o.allocator)
  | .comments => encodeBool o.comments
  | .verify => encodeBool o.verify
  | .peephole => encodeBool o.peephole
  | .entry =>
    match o.entry with
    | some l => encodeString l
    | none => "null".toList

/-- A member: its name, a colon and its value. -/
def encodeMember (o : Options) (k : Key) : List Char :=
  encodeString k.name ++ ':' :: encodeValue o k

/-- Options as the text of a settings file, without any blanks. -/
def encode (o : Options) : String :=
  String.ofList ('{' :: [','].intercalate (Key.all.map (encodeMember o)) ++ ['}'])

/-! ### Reading -/

/-- The value of a member as it is read. -/
inductive Setting where
  | null
  | flag (b : Bool)
  | word (s : String)
  /-- An object with one key, whose value is `null`. -/
  | choice (s : String)
deriving DecidableEq, Repr

/-- Reads a value off the front of some tokens. -/
def setting? : List Token → Option (Setting × List Token)
  | .null :: rest => some (.null, rest)
  | .bool b :: rest => some (.flag b, rest)
  | .string s :: rest => some (.word s, rest)
  | .openBrace :: .string s :: .colon :: .null :: .closeBrace :: rest => some (.choice s, rest)
  | _ => none

/-- Options with one member set, if the member takes such a value. -/
def set? (o : Options) : Key → Setting → Option Options
  | .allocator, .word s | .allocator, .choice s =>
    (allocatorOf? s).map fun a => { o with allocator := a }
  | .comments, .flag b => some { o with comments := b }
  | .verify, .flag b => some { o with verify := b }
  | .peephole, .flag b => some { o with peephole := b }
  | .entry, .word s => some { o with entry := some s }
  | .entry, .null => some { o with entry := none }
  | _, _ => none

/-- What is read where there is nothing to read: the value of each member that is left out. -/
def unset : Options where
  allocator := .linearScan
  comments := true
  verify := true
  peephole := true
  entry := none

/-- Reads the members of an object up to its end, each from the keys not yet read. -/
def members? (o : Options) (left : List Key) (tokens : List Token) : Option Options :=
  match tokens with
  | .string s :: .colon :: rest =>
    match Key.ofName? s with
    | none => none
    | some k =>
      if _ : k ∈ left then
        match setting? rest with
        | some (v, .comma :: more) => (o.set? k v).bind fun o => members? o (left.erase k) more
        | some (v, [.closeBrace]) => o.set? k v
        | _ => none
      else none
  | _ => none
termination_by left.length
decreasing_by
  have herase := List.length_erase_of_mem ‹_ ∈ left›
  have hpos := List.length_pos_of_mem ‹_ ∈ left›
  omega

/-- Reads the elements of an array up to its end, one for each key at most. -/
def elements? (o : Options) : List Key → List Token → Option Options
  | [], _ => none
  | k :: keys, tokens =>
    match setting? tokens with
    | some (v, .comma :: more) => (o.set? k v).bind fun o => elements? o keys more
    | some (v, [.closeBracket]) => o.set? k v
    | _ => none

/-- Reads options from tokens. -/
def ofTokens? : List Token → Option Options
  | [.openBrace, .closeBrace] | [.openBracket, .closeBracket] => some unset
  | .openBrace :: rest => members? unset Key.all rest
  | .openBracket :: rest => elements? unset Key.all rest
  | _ => none

/-- Reads options from the text of a settings file. -/
def decode? (text : String) : Option Options := (Token.scan text.toList).bind ofTokens?

end TreeBackend.Options
