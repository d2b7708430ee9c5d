import Wiring.GraphDeclaration
import Wiring.SortedMap
import Wiring.SortedSet

/-!
# Resolved graphs

A resolved graph binds every key that its roots lead to, and records the edges, chains, cycles,
orders and storage that code generation needs.
-/

namespace Wiring

open Std

/-- A dependency of a bound key on another key. -/
@[ext]
structure Edge where
  source : TypeKey
  target : TypeKey
  access : Access := .canonical
  /-- Whether the requester can do without. -/
  hasDefault : Bool := false
deriving DecidableEq, Repr

namespace Edge

/-- By source, target, access, required before optional. -/
instance : Ord Edge :=
  ⟨compareLex (compareOn source)
    (compareLex (compareOn target) (compareLex (compareOn access) (compareOn hasDefault)))⟩

instance : TransOrd Edge := inferInstanceAs (TransCmp (compareLex _ _))

instance : LawfulEqOrd Edge where
  compare_self := ReflCmp.compare_self
  eq_of_compare h :=
    have ⟨h₁, h⟩ := and_eq_of_compareLex h
    have ⟨h₂, h⟩ := and_eq_of_compareLex h
    have ⟨h₃, h₄⟩ := and_eq_of_compareLex h
    Edge.ext (eq_of_compareOn h₁) (eq_of_compareOn h₂) (eq_of_compareOn h₃) (eq_of_compareOn h₄)

/-- The edge of a key's dependency. -/
def ofDependency (source : TypeKey) (d : Dependency) : Edge :=
  ⟨source, d.key, d.access, d.hasDefault⟩

/-- Whether the value is reached later. -/
def isDeferred (e : Edge) : Bool := e.access.isDeferred

end Edge

/-- The edges of a binding's dependencies. -/
def Binding.edges (b : Binding) : List Edge := b.dependencies.map (Edge.ofDependency b.key)

/-- Two keys between which a handle breaks a cycle. -/
@[ext]
structure DeferredEdge where
  source : TypeKey
  target : TypeKey
deriving DecidableEq, Repr

namespace DeferredEdge

/-- By source, then by target. -/
instance : Ord DeferredEdge := ⟨compareLex (compareOn source) (compareOn target)⟩

instance : TransOrd DeferredEdge := inferInstanceAs (TransCmp (compareLex _ _))

instance : LawfulEqOrd DeferredEdge where
  compare_self := ReflCmp.compare_self
  eq_of_compare h :=
    DeferredEdge.ext (eq_of_compareOn (and_eq_of_compareLex h).1)
      (eq_of_compareOn (and_eq_of_compareLex h).2)

end DeferredEdge

/-- The ends of an edge. -/
def Edge.ends (e : Edge) : DeferredEdge := ⟨e.source, e.target⟩

/-- A cycle that handles break. -/
structure PermittedCycle where
  /-- The members in the order of their resolution. -/
  members : List TypeKey
  deferredEdges : List DeferredEdge
deriving DecidableEq, Repr

/-- The deferred edges of a list of cycles. -/
def deferredEdgesOf (cycles : List PermittedCycle) : SortedSet DeferredEdge :=
  .ofList (cycles.flatMap (·.deferredEdges))

/-- How generated code keeps a value. -/
inductive PropertyKind where
  /-- In a field. -/
  | field
  /-- Not at all: it is made where it is used. -/
  | inline
deriving DecidableEq, Repr

/-- The name of a way of keeping. -/
def PropertyKind.name : PropertyKind → String
  | field => "FIELD"
  | inline => "INLINE"

/-- How generated code keeps each value, and how often each is referred to. -/
structure PropertyPlan where
  /-- The way of keeping per bound key. -/
  properties : SortedMap TypeKey PropertyKind
  /-- The number of references per key; those to an alias count where its chain ends. -/
  refCounts : SortedMap TypeKey Nat

namespace PropertyPlan

/-- The keys kept in fields. -/
def fields (p : PropertyPlan) : List TypeKey :=
  (p.properties.filter fun _ kind => kind = .field).keys

/-- How the value of a key is kept. -/
def kindOf? (p : PropertyPlan) (key : TypeKey) : Option PropertyKind := p.properties.get? key

end PropertyPlan

/-- A resolved graph. -/
structure Graph where
  /-- The declaration that names the graph. -/
  id : DeclarationId
  /-- The key of the graph itself. -/
  key : TypeKey
  /-- The scopes whose instances it holds. -/
  scopes : List Scope
  /-- The scopes whose contributions it took. -/
  aggregationScopes : List Scope
  entryPoints : List EntryPoint
  bindings : SortedMap TypeKey Binding
  /-- The dependencies among keys, in order. -/
  edges : List Edge
  /-- The chain of each alias, its end included. -/
  aliasChains : SortedMap TypeKey (List TypeKey)
  permittedCycles : List PermittedCycle
  /-- The scoped keys, each after those it needs. -/
  scopedOrder : List TypeKey
  properties : PropertyPlan
  /-- The declared keys that no root reaches. -/
  unused : List TypeKey
  /-- The keys in the order of their resolution. -/
  resolutionOrder : List TypeKey
  /-- The graphs that extend it, as declared. -/
  extensions : List DeclarationId
  /-- The keys that ancestors are asked to hold. -/
  ancestorRequests : SortedMap DeclarationId (SortedSet TypeKey)

namespace Graph

/-- The binding of a key. -/
def binding? (g : Graph) (key : TypeKey) : Option Binding := g.bindings.get? key

/-- Whether a key is bound. -/
def contains (g : Graph) (key : TypeKey) : Bool := g.bindings.contains key

/-- The end of a key's alias chain; a key without one is its own end. -/
def terminalOf (g : Graph) (key : TypeKey) : TypeKey :=
  ((g.aliasChains.get? key).bind (·.getLast?)).getD key

/-- The edges from a key. -/
def edgesFrom (g : Graph) (key : TypeKey) : List Edge := g.edges.filter (·.source = key)

/-- The handles that break cycles. -/
def deferredEdges (g : Graph) : SortedSet DeferredEdge := deferredEdgesOf g.permittedCycles

/-- The keys that entry points request. -/
def rootKeys (g : Graph) : List TypeKey := g.entryPoints.map (·.dependency.key)

end Graph

/-- What a graph offers to those that extend it. -/
structure Ancestor where
  /-- The declaration that names the graph. -/
  id : DeclarationId
  /-- The key of the graph itself. -/
  key : TypeKey
  /-- The scopes whose instances it holds. -/
  scopes : List Scope
  keys : SortedSet TypeKey
  collections : SortedMap TypeKey (List Source)

namespace Ancestor

/-- The sources of a collection's binding. -/
def sourcesOf? : Binding → Option (List Source)
  | .multibinding _ _ _ _ sources _ => some sources
  | _ => none

/-- What a resolved graph offers: all that it binds to a value. -/
def ofGraph (g : Graph) : Ancestor where
  id := g.id
  key := g.key
  scopes := g.scopes
  keys := .ofList ((g.bindings.values.filter (!·.isAbsent)).map (·.key))
  collections :=
    .ofList (g.bindings.values.filterMap fun b => (sourcesOf? b).map (b.key, ·))

/-- Whether the ancestor yields a key. -/
def provides (a : Ancestor) (key : TypeKey) : Bool := a.keys.contains key

/-- Whether the ancestor holds instances of a scope. -/
def holdsScope (a : Ancestor) (scope : Scope) : Bool := a.scopes.contains scope

end Ancestor

end Wiring
