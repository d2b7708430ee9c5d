import Wiring.Binding
import Wiring.Diagnostics
import Wiring.SortedMap
import Wiring.SortedSet

/-!
# The table of collections

The collections of one graph, by key: how each is declared and what contributes to it.  A
declaration site contributes once per map key, and contributors stand in the order of declaration
and map key.  A collection aggregates its own elements with those that an ancestor holds.
-/

namespace Wiring

open Std

namespace Element

/-- By declaration, then by map key, none first. -/
protected def compare : Element → Element → Ordering :=
  compareLex (compareOn fun e => e.origin.declaration) (compareOn mapKey?)

/-- Whether two elements come from one declaration and have one map key. -/
def sameSite (e f : Element) : Bool :=
  e.origin.declaration = f.origin.declaration && e.mapKey? = f.mapKey?

end Element

namespace Source

/-- By declaration, map key and slot. -/
protected def compare : Source → Source → Ordering :=
  compareLex (compareOn fun s => s.origin.declaration)
    (compareLex (compareOn mapKey) (compareOn elementKey))

end Source

/-- Two declarations of one collection in one: empty if either allows it, at the lesser origin. -/
def CollectionDeclaration.merge (c d : CollectionDeclaration) : CollectionDeclaration where
  origin := if compare d.origin c.origin = .lt then d.origin else c.origin
  collection := c.collection
  allowEmpty := c.allowEmpty || d.allowEmpty

/-- The collections of a graph. -/
structure CollectionTable where
  declarations : SortedMap TypeKey CollectionDeclaration
  elements : SortedMap TypeKey (List Element)
  aggregated : SortedMap TypeKey (Option Binding)

namespace CollectionTable

/-- The declarations of a list, merged by collection. -/
def mergeDeclarations (declarations : List CollectionDeclaration) :
    SortedMap TypeKey CollectionDeclaration :=
  declarations.foldl (fun merged d =>
    merged.alter d.collection.key fun
      | some c => c.merge d
      | none => d) .empty

/-- The elements of a list by collection, each site once. -/
def groupElements (elements : List Element) : SortedMap TypeKey (List Element) :=
  (SortedMap.group (·.collection.key) elements).mapValues fun _ group =>
    (sortBy Element.compare group).eraseRepsBy Element.sameSite

/-- The table of declarations and elements. -/
def ofDeclarations (declarations : List CollectionDeclaration) (elements : List Element) :
    CollectionTable :=
  ⟨mergeDeclarations declarations, groupElements elements, .empty⟩

/-- Whether a key is that of a collection. -/
def isCollection (t : CollectionTable) (key : TypeKey) : Bool :=
  t.declarations.contains key || t.elements.contains key

/-- The keys of the collections. -/
def keys (t : CollectionTable) : List TypeKey :=
  (SortedSet.ofList (t.declarations.keys ++ t.elements.keys)).toList

/-- The elements that contribute to a collection. -/
def contributors (t : CollectionTable) (key : TypeKey) : List Element :=
  (t.elements.get? key).getD []

/-- The bindings that fill the slots of all elements. -/
def elementBindings (t : CollectionTable) : List Binding :=
  t.elements.values.flatten.map Element.toBinding

/-- The shape of the collection at a key: the declared one, else that of the first element. -/
def collection? (t : CollectionTable) (key : TypeKey) : Option Collection :=
  match t.declarations.get? key with
  | some d => some d.collection
  | none => (t.contributors key).head?.map (·.collection)

/-- The origin of each map key that an ancestor's elements take; the last counts. -/
def takenMapKeys (inherited : List Source) : SortedMap String Origin :=
  inherited.foldl (fun taken s =>
    match s.mapKey with
    | some mapKey => taken.insert mapKey.value s.origin
    | none => taken) .empty

/-- What is wrong with the elements of a collection, given the map keys taken before them. -/
def elementErrors (key : TypeKey) (collection : Collection) :
    SortedMap String Origin → List Element → List GraphError
  | _, [] => []
  | taken, e :: rest =>
      match collection, e.kind with
      | .map keyType _, .intoMap mapKey =>
          let wrongType : List GraphError :=
            if mapKey.typeName = keyType then []
            else
              [.multibinding key
                ("Map 键类型 " ++ mapKey.typeName ++ " 与集合键类型 " ++ keyType ++ " 不一致")
                (some e.origin)]
          match taken.get? mapKey.value with
          | some first =>
              wrongType ++ .duplicateMapKey key mapKey.value first e.origin ::
                elementErrors key collection taken rest
          | none =>
              wrongType ++
                elementErrors key collection (taken.insert mapKey.value e.origin) rest
      | .map _ _, _ =>
          .multibinding key "Map 多重绑定的元素必须带有 Map 键" (some e.origin) ::
            elementErrors key collection taken rest
      | .set _, .intoMap _ =>
          .multibinding key "Set 多重绑定的元素不能带有 Map 键" (some e.origin) ::
            elementErrors key collection taken rest
      | .set _, _ => elementErrors key collection taken rest

/-- The ancestor's sources that the graph does not contribute itself. -/
def foreignSources (own : List Element) (inherited : List Source) : List Source :=
  inherited.filter fun s => !(own.map Element.elementKey).contains s.elementKey

/-- The sources of own elements and of an ancestor's, in order. -/
def mergeSources (own : List Element) (foreign : List Source) : List Source :=
  sortBy Source.compare (own.map Element.toSource ++ foreign)

/-- The collection at a key, with the sources that an ancestor holds, and what is wrong with it. -/
def aggregateWith (t : CollectionTable) (key : TypeKey) (inherited : List Source) :
    Option Binding × List GraphError :=
  match t.collection? key with
  | none => (none, [])
  | some collection =>
      let declaration := t.declarations.get? key
      let own := t.contributors key
      let foreign := foreignSources own inherited
      let origin := (declaration.map (·.origin)).getD (.madeUp key.render)
      let allowEmpty := (declaration.map (·.allowEmpty)).getD false
      let shapeErrors : List GraphError :=
        collection.shapeProblem.toList.map fun problem => .multibinding key problem (some origin)
      let emptyErrors : List GraphError :=
        if own.isEmpty && foreign.isEmpty && !allowEmpty then
          [.multibinding key "声明为非空，但没有任何贡献" (some origin)]
        else []
      let sources := mergeSources own foreign
      (some (.multibinding key origin collection allowEmpty sources
          (sources.map fun s => { key := s.elementKey })),
        shapeErrors ++ emptyErrors ++ elementErrors key collection (takenMapKeys foreign) own)

/-- The collection at a key, from own elements alone. -/
def aggregate (t : CollectionTable) (key : TypeKey) : Option Binding × List GraphError :=
  t.aggregateWith key []

/-- The collection at a key, remembered for the next request; its errors are reported once. -/
def resolve (t : CollectionTable) (key : TypeKey) (inherited : List Source)
    (diagnostics : Diagnostics) : Option Binding × CollectionTable × Diagnostics :=
  match t.aggregated.get? key with
  | some binding => (binding, t, diagnostics)
  | none =>
      let (binding, errors) := t.aggregateWith key inherited
      (binding, { t with aggregated := t.aggregated.insert key binding },
        diagnostics.reportAll errors)

end CollectionTable

end Wiring
