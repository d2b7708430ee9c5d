import Wiring.Order

/-!
# Origins

Where a declaration stands.  A declaration is known by its full name, and every list that must not
depend on the order of discovery is put in the order of these names.
-/

namespace Wiring

open Std

/-- The full name of a declaration. -/
@[ext]
structure DeclarationId where
  name : String
deriving DecidableEq, Repr, Inhabited

namespace DeclarationId

instance : Ord DeclarationId := ⟨compareOn name⟩

instance : TransOrd DeclarationId := inferInstanceAs (TransCmp (compareOn _))

instance : LawfulEqOrd DeclarationId where
  compare_self := ReflCmp.compare_self
  eq_of_compare h := DeclarationId.ext (eq_of_compareOn h)

/-- The name as part of a file name: all but ASCII letters, digits and underscores become `-`. -/
def fileStem (d : DeclarationId) : String :=
  String.ofList (d.name.toList.map fun c => if c.isAlphanum || c == '_' then c else '-')

end DeclarationId

/-- A place in a source file. -/
@[ext]
structure Location where
  file : String
  line : UInt32
  column : UInt32 := 0
deriving DecidableEq, Repr

namespace Location

/-- By file, line and column. -/
instance : Ord Location :=
  ⟨compareLex (compareOn file) (compareLex (compareOn line) (compareOn column))⟩

instance : TransOrd Location := inferInstanceAs (TransCmp (compareLex _ _))

instance : LawfulEqOrd Location where
  compare_self := ReflCmp.compare_self
  eq_of_compare h :=
    have ⟨h₁, h⟩ := and_eq_of_compareLex h
    have ⟨h₂, h₃⟩ := and_eq_of_compareLex h
    Location.ext (eq_of_compareOn h₁) (eq_of_compareOn h₂) (eq_of_compareOn h₃)

/-- `file:line:column`. -/
def render (l : Location) : String :=
  l.file ++ ":" ++ toString l.line.toNat ++ ":" ++ toString l.column.toNat

end Location

/-- The declaration behind a binding or an error. -/
@[ext]
structure Origin where
  declaration : DeclarationId
  location : Option Location := none
  /-- Whether the resolution itself made the declaration up. -/
  synthetic : Bool := false
deriving DecidableEq, Repr

namespace Origin

/-- By declaration, location (none first), written before made up. -/
instance : Ord Origin :=
  ⟨compareLex (compareOn declaration) (compareLex (compareOn location) (compareOn synthetic))⟩

instance : TransOrd Origin := inferInstanceAs (TransCmp (compareLex _ _))

instance : LawfulEqOrd Origin where
  compare_self := ReflCmp.compare_self
  eq_of_compare h :=
    have ⟨h₁, h⟩ := and_eq_of_compareLex h
    have ⟨h₂, h₃⟩ := and_eq_of_compareLex h
    Origin.ext (eq_of_compareOn h₁) (eq_of_compareOn h₂) (eq_of_compareOn h₃)

/-- The origin of a declaration without a known place. -/
def of (declaration : String) : Origin := { declaration := ⟨declaration⟩ }

/-- The origin of something the resolution made up. -/
def madeUp (declaration : String) : Origin := { declaration := ⟨declaration⟩, synthetic := true }

/-- The declaration, with its place in brackets. -/
def render (o : Origin) : String :=
  match o.location with
  | some l => o.declaration.name ++ " (" ++ l.render ++ ")"
  | none => o.declaration.name

end Origin

end Wiring
