import Wiring.Contribution
import Wiring.GraphDeclaration
import Wiring.Index

/-!
# Declaration facts

All that is declared in one compilation: classes, factories, contributions and graphs.
-/

namespace Wiring

/-- The declarations of one compilation. -/
structure Facts where
  classes : List InjectableClass := []
  /-- Factories with parameters from their callers. -/
  assistedFactories : List AssistedFactory := []
  contributions : List Contribution := []
  graphs : List GraphDeclaration := []

namespace Facts

/-- Classes and factories by key. -/
def index (f : Facts) : Index := .ofDeclarations f.classes f.assistedFactories

/-- The contributions to a scope, as listed. -/
def contributionsTo (f : Facts) (scope : Scope) : List Contribution :=
  f.contributions.filter (·.scope = scope)

/-- The number of graphs, with those that extend others. -/
def graphCount (f : Facts) : Nat := (GraphDeclaration.preorder f.graphs).length

end Facts

/-- The notations of fact documents. -/
inductive DocumentFormat where
  | json
  | toml
deriving DecidableEq, Repr

namespace DocumentFormat

/-- The parts of a path between slashes, without those that lead nowhere. -/
def pathParts (path : String) : List (List Char) :=
  (path.toList.splitOn '/').filter fun part => part ≠ [] ∧ part ≠ ['.']

/-- What follows the last dot of a file name; a dot in front begins no extension. -/
def extension (name : List Char) : Option (List Char) :=
  if name = ['.', '.'] ∨ ('.' ∉ name) then none
  else
    let ending := (name.reverse.takeWhile (· ≠ '.')).reverse
    if ending.length + 1 = name.length then none else some ending

/-- The notation of a file: TOML if the extension says so in any case of letters, else JSON. -/
def ofPath (path : String) : DocumentFormat :=
  match (pathParts path).getLast?.bind extension with
  | some ending => if ending.map Char.toLower = "toml".toList then toml else json
  | none => json

end DocumentFormat

end Wiring
