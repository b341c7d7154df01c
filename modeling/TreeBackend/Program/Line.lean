import TreeBackend.X86.Printer

/-!
# Lines of assembly

An artifact is a list of lines, written one after the other.  Comments, those
of the program and those the allocator attaches to its own instructions, may be
left out; nothing else depends on that choice.
-/

namespace TreeBackend

/-- A line of an assembly file. -/
inductive Line where
  | blank
  /-- The start of a part of the file. -/
  | segment (name : String)
  /-- Makes a symbol known to other files. -/
  | offer (symbol : String)
  /-- Asks for a symbol of another file. -/
  | need (symbol : String)
  /-- A word of storage, zero at first. -/
  | cell (symbol : String)
  /-- Where a function starts. -/
  | entry (symbol : String)
  | code (a : Annotated)
deriving DecidableEq

namespace Annotated

/-- An instruction as a line, with its note behind it when comments are wanted.  A
comment has no line when they are not. -/
def text? (comments : Bool) (a : Annotated) : Option String :=
  if a.instr.isComment && !comments then none
  else match a.note with
    | some note => some (if comments then a.instr.text ++ " ; " ++ note else a.instr.text)
    | none => some a.instr.text

end Annotated

namespace Line

/-- What stands on a line, if there is such a line. -/
def text? (comments : Bool) : Line → Option String
  | blank => some ""
  | segment s => some ("section " ++ s)
  | offer s => some ("global " ++ s)
  | need s => some ("extern " ++ s)
  | cell s => some (s ++ ": dd 0")
  | entry s => some (s ++ ":")
  | code a => a.text? comments

/-- The text of a file. -/
def render (comments : Bool) (lines : List Line) : String :=
  String.join ((lines.filterMap (text? comments)).map (· ++ "\n"))

/-- Instructions without notes, as lines. -/
def ofCode (code : List Instr) : List Line := code.map fun i => Line.code { instr := i }

end Line

end TreeBackend
