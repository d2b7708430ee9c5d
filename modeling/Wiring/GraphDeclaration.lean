import Wiring.InjectableClass

/-!
# Graph declarations

The surface and the contents of a graph as declared, with the graphs that extend it.
-/

namespace Wiring

open Std

/-- What a graph offers to its users. -/
inductive EntryPoint where
  /-- A value to read. -/
  | accessor (name : String) (dependency : Dependency)
  /-- A function that fills the members of a class. -/
  | injector (name : String) (target : TypeKey)
deriving DecidableEq, Repr

namespace EntryPoint

def name : EntryPoint → String
  | accessor name _ | injector name _ => name

/-- What the entry point requests. -/
def dependency : EntryPoint → Dependency
  | accessor _ d => d
  | injector _ target => { key := membersInjectorKey target }

/-- Accessors before injectors, each by name and then by what they offer. -/
protected def compare : EntryPoint → EntryPoint → Ordering
  | accessor n d, accessor n' d' => (compare n n').then (compare d d')
  | accessor .., injector .. => .lt
  | injector .., accessor .. => .gt
  | injector n t, injector n' t' => (compare n n').then (compare t t')

end EntryPoint

/-- An accessor of an included graph. -/
structure ExposedAccessor where
  name : String
  key : TypeKey
deriving DecidableEq, Repr

/-- A graph whose accessors another graph may use. -/
structure IncludedGraph where
  origin : Origin
  /-- The key of the included graph. -/
  key : TypeKey
  accessors : List ExposedAccessor := []
deriving DecidableEq, Repr

/-- An instance handed in when the graph is made. -/
structure BoundInstance where
  origin : Origin
  key : TypeKey
deriving DecidableEq, Repr

/-- A graph as declared. -/
structure GraphDeclaration where
  origin : Origin
  /-- The key of the graph itself. -/
  key : TypeKey
  /-- The scopes whose instances the graph holds. -/
  scopes : List Scope := []
  /-- The scopes whose contributions it takes, if not the scopes above. -/
  aggregationScopes : List Scope := []
  excludes : List DeclarationId := []
  entryPoints : List EntryPoint := []
  boundInstances : List BoundInstance := []
  includes : List IncludedGraph := []
  bindings : List Binding := []
  collections : List CollectionDeclaration := []
  elements : List Element := []
  extensions : List GraphDeclaration := []
deriving Repr

namespace GraphDeclaration

/-- A graph without contents, declared at its own type. -/
def ofKey (key : TypeKey) : GraphDeclaration := { origin := .of key.typeName, key := key }

/-- The declaration that names the graph. -/
def id (d : GraphDeclaration) : DeclarationId := d.origin.declaration

/-- The scopes whose contributions the graph takes. -/
def effectiveAggregationScopes (d : GraphDeclaration) : List Scope :=
  if d.aggregationScopes.isEmpty then d.scopes else d.aggregationScopes

/-- Whether the graph refuses the contributions of a declaration. -/
def excludesDeclaration (d : GraphDeclaration) (declaration : DeclarationId) : Bool :=
  d.excludes.contains declaration

mutual

/-- The graphs that extend this one, at every depth, each before those that extend it. -/
def descendants : GraphDeclaration → List GraphDeclaration
  | ⟨_, _, _, _, _, _, _, _, _, _, _, extensions⟩ => preorder extensions

/-- The graphs of a list with all that extend them, each before those that extend it. -/
def preorder : List GraphDeclaration → List GraphDeclaration
  | [] => []
  | d :: rest => d :: (d.descendants ++ preorder rest)

end

end GraphDeclaration

end Wiring
