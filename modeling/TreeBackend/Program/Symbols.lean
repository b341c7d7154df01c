import TreeBackend.IR.Unit
import TreeBackend.IR.Storage

/-!
# Imported and exported symbols

A unit exports the functions it defines.  It imports the symbols that its
functions refer to and that it does not define: other functions, and static
fields, which all live in the startup artifact, the unit's own included.  Each
artifact also imports the symbols of the run-time system.

Imports are listed once each, in the order of their characters.
-/

namespace TreeBackend

mutual

/-- The symbols an expression refers to. -/
def Expr.references : Expr → List String
  | .name _ s true | .temp _ s true => [s]
  | .name _ _ false | .temp _ _ false | .const .. => []
  | .binop _ _ l r => l.references ++ r.references
  | .mem _ a => a.references
  | .call _ target args => target.references ++ Expr.referencesAll args
  | .eseq _ s e => s.references ++ e.references

/-- The symbols a statement refers to.  The direct target of a call is one even
when its name is not marked global. -/
def Stmt.references : Stmt → List String
  | .label .. | .comment .. | .ret _ none => []
  | .cjump _ e _ _ | .exp _ e | .jump _ e | .ret _ (some e) => e.references
  | .move _ target source => target.references ++ source.references
  | .seq _ body => Stmt.referencesAll body
  | .call _ (.name _ s _) args => s :: Expr.referencesAll args
  | .call _ target args => target.references ++ Expr.referencesAll args

/-- The symbols that expressions refer to. -/
def Expr.referencesAll : List Expr → List String
  | [] => []
  | e :: rest => e.references ++ Expr.referencesAll rest

/-- The symbols that statements refer to. -/
def Stmt.referencesAll : List Stmt → List String
  | [] => []
  | s :: rest => s.references ++ Stmt.referencesAll rest

end

namespace Symbols

/-- Adds a symbol to an ascending list, unless it is there. -/
def insert (s : String) : List String → List String
  | [] => [s]
  | x :: rest => if s = x then x :: rest else if s < x then s :: x :: rest else x :: insert s rest

/-- The symbols of a list, in ascending order and once each. -/
def sorted (symbols : List String) : List String := symbols.foldr insert []

/-- What has to be imported: the references that are not defined, and the symbols
of the run-time system. -/
def imports (references defined : List String) : List String :=
  sorted (references.filter (!defined.contains ·) ++ Reserved.runtime)

theorem mem_insert {x s : String} {l : List String} : x ∈ insert s l ↔ x = s ∨ x ∈ l := by
  fun_induction insert s l with
  | case1 => simp
  | case2 rest => simp
  | case3 y rest _ _ => simp
  | case4 y rest _ _ ih => simp [ih]; grind

theorem mem_sorted {x : String} {l : List String} : x ∈ sorted l ↔ x ∈ l := by
  induction l with
  | nil => rfl
  | cons s l ih => rw [sorted, List.foldr_cons, mem_insert, ← sorted, ih, List.mem_cons]

theorem mem_imports {x : String} {references defined : List String} :
    x ∈ imports references defined ↔ (x ∈ references ∧ x ∉ defined) ∨ x ∈ Reserved.runtime := by
  simp [imports, mem_sorted]

end Symbols

namespace CanonicalUnit

/-- The functions a unit defines, in order. -/
def exports (u : CanonicalUnit) : List String := u.functions.map Function.label

/-- The symbols a unit needs from elsewhere. -/
def imports (u : CanonicalUnit) : List String :=
  Symbols.imports (Stmt.referencesAll (u.functions.map Function.body)) u.exports

end CanonicalUnit

/-- The symbols the startup artifact needs from elsewhere, the entry point among
them: it defines all static fields. -/
def startupImports (startup : List Stmt) (fields : List String) (entry : String) : List String :=
  Symbols.imports (Stmt.referencesAll startup ++ [entry]) fields

end TreeBackend
