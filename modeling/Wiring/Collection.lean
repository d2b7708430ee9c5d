import Wiring.Dependency
import Wiring.Origin
import Wiring.Scope

/-!
# Collections

A collection is a set or a map that many declarations contribute to.  Each contribution is an
element with a slot of its own in the graph (`Element.elementKey`); the collection then depends on
the slots of its elements.
-/

namespace Wiring

open Std

/-- The shape of a collection. -/
inductive Collection where
  /-- A set of elements. -/
  | set (element : TypeKey)
  /-- A map from keys of a type to values. -/
  | map (keyType : String) (value : TypeKey)
deriving DecidableEq, Repr

namespace Collection

/-- The key of the whole collection. -/
def key : Collection → TypeKey
  | set element => TypeKey.setOf element
  | map keyType value => TypeKey.mapOf keyType value

/-- The type of the elements of a set or of the values of a map. -/
def element : Collection → TypeKey
  | set element => element
  | map _ value => value

/-- Whether the collection is a map. -/
def isMap : Collection → Bool
  | set _ => false
  | map _ _ => true

/-- The name of the shape. -/
def shapeName : Collection → String
  | set _ => "SET"
  | map _ _ => "MAP"

/-- What is wrong with the shape: no part of a collection may be a wildcard. -/
def shapeProblem : Collection → Option String
  | set element =>
      if isWildcardType element.typeName then
        some ("Set 的元素类型不能是通配类型: " ++ element.typeName)
      else none
  | map keyType value =>
      if isWildcardType keyType then some ("Map 的键类型不能是通配类型: " ++ keyType)
      else if isWildcardType value.typeName then
        some ("Map 的值类型不能是通配类型: " ++ value.typeName)
      else none

end Collection

/-- The key of an entry of a map. -/
@[ext]
structure MapKey where
  typeName : String
  value : String
deriving DecidableEq, Repr

namespace MapKey

/-- By type, then by value. -/
instance : Ord MapKey := ⟨compareLex (compareOn typeName) (compareOn value)⟩

instance : TransOrd MapKey := inferInstanceAs (TransCmp (compareLex _ _))

instance : LawfulEqOrd MapKey where
  compare_self := ReflCmp.compare_self
  eq_of_compare h :=
    MapKey.ext (eq_of_compareOn (and_eq_of_compareLex h).1)
      (eq_of_compareOn (and_eq_of_compareLex h).2)

end MapKey

/-- What an element adds to its collection. -/
inductive ElementKind where
  /-- One element of a set. -/
  | intoSet
  /-- All elements of a set. -/
  | elementsIntoSet
  /-- One entry of a map. -/
  | intoMap (mapKey : MapKey)
deriving DecidableEq, Repr

/-- Where the value of an element comes from. -/
inductive Supply where
  /-- It is made from dependencies, in a scope or anew for each request. -/
  | provided (dependencies : List Dependency) (scope : Option Scope)
  /-- It is the value of another key. -/
  | binds (target : TypeKey)
deriving DecidableEq, Repr

/-- One contribution to a collection. -/
structure Element where
  origin : Origin
  collection : Collection
  kind : ElementKind
  supply : Supply
deriving DecidableEq, Repr

namespace Element

/-- An element of a set, made from dependencies. -/
def intoSet (origin : Origin) (element : TypeKey) (dependencies : List Dependency) : Element :=
  ⟨origin, .set element, .intoSet, .provided dependencies none⟩

/-- An entry of a map, made from dependencies. -/
def intoMap (origin : Origin) (mapKey : MapKey) (value : TypeKey)
    (dependencies : List Dependency) : Element :=
  ⟨origin, .map mapKey.typeName value, .intoMap mapKey, .provided dependencies none⟩

/-- The key of the map entry, for an entry of a map. -/
def mapKey? (e : Element) : Option MapKey :=
  match e.kind with
  | .intoMap mapKey => some mapKey
  | .intoSet | .elementsIntoSet => none

/-- The slot of the element: its qualifier names the collection, the declaration and the map key. -/
def elementKey (e : Element) : TypeKey where
  typeName := match e.kind with
    | .elementsIntoSet => (TypeKey.setOf e.collection.element).typeName
    | .intoSet | .intoMap _ => e.collection.element.typeName
  qualifier :=
    let entry := match e.mapKey? with
      | some mapKey => "#" ++ mapKey.value
      | none => ""
    some ("MultibindingElement(" ++ e.collection.key.render ++ "#" ++ e.origin.declaration.name ++
      entry ++ ")")

end Element

/-- A declaration that a collection exists. -/
structure CollectionDeclaration where
  origin : Origin
  collection : Collection
  /-- Whether the collection may stay without elements. -/
  allowEmpty : Bool := false
deriving DecidableEq, Repr

/-- One element of an aggregated collection. -/
@[ext]
structure Source where
  origin : Origin
  elementKey : TypeKey
  /-- The key of the entry, in a map. -/
  mapKey : Option MapKey := none
deriving DecidableEq, Repr

/-- The source that an element becomes. -/
def Element.toSource (e : Element) : Source := ⟨e.origin, e.elementKey, e.mapKey?⟩

end Wiring
