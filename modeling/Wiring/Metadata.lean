import Wiring.Document.Json
import Wiring.Graph
import Wiring.Binding

/-!
# Graph metadata

What other tools may know of a resolved graph, as a document.  All lists are in a fixed order, so
that equal graphs have equal documents.
-/

namespace Wiring

namespace Metadata

/-- The version of the documents. -/
def schemaVersion : Nat := 1

/-- A rendered text for each element of a list. -/
def texts {α : Type} (render : α → String) : List α → Value := .ofList (.text ∘ render)

/-- What a binding depends on. -/
def ofDependency (d : Dependency) : Value :=
  .object ([("key", .text d.key.render), ("hasDefault", .bool d.hasDefault)] ++
    Value.memberOf "wrapperType" .text d.access.handleName ++
    [("isDeferrable", .bool d.isDeferred)])

/-- What a collection is made of. -/
def ofCollection : Binding → List (String × Value)
  | .multibinding _ _ collection allowEmpty sources _ =>
      [("multibinding", .object [("type", .text collection.shapeName),
        ("allowEmpty", .bool allowEmpty),
        ("sources", texts (fun s : Source => s.elementKey.render) sources)])]
  | _ => []

/-- A binding of a graph. -/
def ofBinding (g : Graph) (b : Binding) : Value :=
  .object ([("key", .text b.key.render), ("bindingKind", .text b.kind.name)] ++
    Value.memberOf "scope" .text (b.scope?.map Scope.render) ++
    [("isScoped", .bool b.isScoped), ("nameHint", .text b.nameHint),
      ("dependencies", .list (b.dependencies.map ofDependency)),
      ("isSynthetic", .bool b.origin.synthetic), ("origin", .text b.origin.render)] ++
    ofCollection b ++ Value.memberOf "aliasTarget" .text (b.aliasTarget?.map TypeKey.render) ++
    [("property", .text ((g.properties.kindOf? b.key).getD .inline).name)])

/-- A value that a graph offers. -/
structure Accessor where
  name : String
  key : String
  /-- Whether the value is reached later. -/
  isDeferrable : Bool

/-- A function that fills members, offered by a graph. -/
structure Injector where
  name : String
  key : String

/-- The values that a graph offers, by name and key. -/
def accessors (g : Graph) : List Accessor :=
  sortBy (compareLex (compareOn Accessor.name) (compareOn Accessor.key)) <|
    g.entryPoints.filterMap fun
      | .accessor name d => some ⟨name, d.key.render, d.isDeferred⟩
      | .injector .. => none

/-- The functions that a graph offers, by name and key. -/
def injectors (g : Graph) : List Injector :=
  sortBy (compareLex (compareOn Injector.name) (compareOn Injector.key)) <|
    g.entryPoints.filterMap fun
      | .injector name target => some ⟨name, target.render⟩
      | .accessor .. => none

/-- What a graph offers. -/
def roots (g : Graph) : Value :=
  .object
    [("accessors", .list ((accessors g).map fun a =>
        .object [("name", .text a.name), ("key", .text a.key),
          ("isDeferrable", .bool a.isDeferrable)])),
      ("injectors", .list ((injectors g).map fun i =>
        .object [("name", .text i.name), ("key", .text i.key)]))]

/-- A handle that breaks a cycle. -/
def ofDeferredEdge (e : DeferredEdge) : Value :=
  .object [("from", .text e.source.render), ("to", .text e.target.render)]

end Metadata

namespace Graph

open Metadata

/-- What other tools may know of the graph. -/
def metadata (g : Graph) : Value :=
  .object
    [("schemaVersion", .ofNat schemaVersion), ("graph", .text g.id.name),
      ("key", .text g.key.render), ("scopes", texts Scope.render g.scopes),
      ("aggregationScopes", texts Scope.render g.aggregationScopes), ("roots", roots g),
      ("extensions", texts DeclarationId.name (sortBy compare g.extensions)),
      ("bindings", .list ((sortBy (compareOn fun b => b.key.render) g.bindings.values).map
        (ofBinding g))),
      ("scopedOrder", texts TypeKey.render g.scopedOrder),
      ("deferredEdges", .list (g.deferredEdges.toList.map ofDeferredEdge)),
      ("unused", texts TypeKey.render g.unused)]

/-- The metadata as text. -/
def metadataText (g : Graph) : String := Json.pretty g.metadata

/-- The name of the file for the metadata. -/
def metadataFileName (g : Graph) : String := "graph-" ++ g.id.fileStem ++ ".json"

end Graph

end Wiring
