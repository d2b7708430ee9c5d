import Wiring.Order
import Wiring.Text.Blank

/-!
# Type keys

A type key names a slot of a graph: a declared type, with a qualifier where one type has several
slots.  Two requests with the same key ask for the same slot.
-/

namespace Wiring

open Std

/-- A declared type with an optional qualifier. -/
@[ext]
structure TypeKey where
  /-- The full name of the type, with its type arguments. -/
  typeName : String
  /-- What tells this slot from others of the same type. -/
  qualifier : Option String := none
deriving DecidableEq, Repr, Inhabited

namespace TypeKey

/-- By type name, then by qualifier, no qualifier first. -/
instance : Ord TypeKey := ⟨compareLex (compareOn typeName) (compareOn qualifier)⟩

instance : TransOrd TypeKey := inferInstanceAs (TransCmp (compareLex _ _))

instance : LawfulEqOrd TypeKey where
  compare_self := ReflCmp.compare_self
  eq_of_compare h :=
    TypeKey.ext (eq_of_compareOn (and_eq_of_compareLex h).1)
      (eq_of_compareOn (and_eq_of_compareLex h).2)

/-- The key of a set of elements, under the element's qualifier. -/
def setOf (element : TypeKey) : TypeKey := ⟨"Set<" ++ element.typeName ++ ">", element.qualifier⟩

/-- The key of a map to values, under the value's qualifier. -/
def mapOf (keyType : String) (value : TypeKey) : TypeKey :=
  ⟨"Map<" ++ keyType ++ ", " ++ value.typeName ++ ">", value.qualifier⟩

/-- The type name without type arguments and without the path in front. -/
def shortName (k : TypeKey) : String :=
  let base := k.typeName.toList.takeWhile (· != '<')
  String.ofList (base.reverse.takeWhile (· != '.')).reverse

/-- `@Qualifier Type`, or the type alone. -/
def render (k : TypeKey) : String :=
  match k.qualifier with
  | some q => "@" ++ q ++ " " ++ k.typeName
  | none => k.typeName

end TypeKey

/-- Whether a type name is a wildcard, blanks around it aside. -/
def isWildcardType (name : String) : Bool :=
  let trimmed := trimBlank name.toList
  trimmed == ['*'] || trimmed == ['?'] || "? ".toList.isPrefixOf trimmed ||
    "out ".toList.isPrefixOf trimmed || "in ".toList.isPrefixOf trimmed

/-- Keys on one line with a text between them. -/
def renderKeys (separator : String) (keys : List TypeKey) : String :=
  separator.intercalate (keys.map TypeKey.render)

end Wiring
