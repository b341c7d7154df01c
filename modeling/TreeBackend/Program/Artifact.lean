import TreeBackend.Program.Line

/-!
# Artifacts

A compiled program: an artifact for each unit and the startup artifact, first as
lines and then as texts.  Each unit is written to the file of its name, and the
startup artifact to a file of a fixed name, the last one.
-/

namespace TreeBackend

/-- The text of a unit. -/
structure UnitText where
  name : String
  text : String
deriving DecidableEq

/-- The texts of a compiled program. -/
structure Program where
  units : List UnitText
  startup : String
deriving DecidableEq

namespace Program

/-- The file that holds the startup artifact. -/
def startupFile : String := "main.s"

/-- The first unit of a name. -/
def unit? (p : Program) (name : String) : Option UnitText := p.units.find? (·.name = name)

/-- The files of a program, the startup artifact last. -/
def files (p : Program) : List (String × String) :=
  p.units.map (fun u => (u.name ++ ".s", u.text)) ++ [(startupFile, p.startup)]

end Program

/-- The lines of a unit. -/
structure UnitLines where
  name : String
  lines : List Line
deriving DecidableEq

/-- A compiled program before it is written out. -/
structure Assembly where
  units : List UnitLines
  startup : List Line
deriving DecidableEq

/-- Writes a program out. -/
def Assembly.render (comments : Bool) (a : Assembly) : Program where
  units := a.units.map fun u => { name := u.name, text := Line.render comments u.lines }
  startup := Line.render comments a.startup

end TreeBackend
