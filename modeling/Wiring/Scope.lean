import Wiring.Order

/-!
# Scopes

A scope is a mark that says which graphs may hold an instance.
-/

namespace Wiring

open Std

/-- A scope, known by its name. -/
@[ext]
structure Scope where
  name : String
deriving DecidableEq, Repr, Inhabited

namespace Scope

instance : Ord Scope := ⟨compareOn name⟩

instance : TransOrd Scope := inferInstanceAs (TransCmp (compareOn _))

instance : LawfulEqOrd Scope where
  compare_self := ReflCmp.compare_self
  eq_of_compare h := Scope.ext (eq_of_compareOn h)

/-- The name behind an at sign. -/
def render (s : Scope) : String := "@" ++ s.name

end Scope

end Wiring
