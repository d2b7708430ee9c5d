import Wiring.Binding

/-!
# Injectable classes

Facts about classes and factories from which bindings are made on request.
-/

namespace Wiring

/-- A parameter of a constructor. -/
structure Parameter where
  name : String
  dependency : Dependency
  /-- Whether the caller of a factory supplies it. -/
  assisted : Bool := false
deriving DecidableEq, Repr

/-- A constructor of a class. -/
structure Constructor where
  injectable : Bool := false
  parameters : List Parameter := []
deriving DecidableEq, Repr

/-- Whether a caller supplies some parameter. -/
def Constructor.hasAssistedParameters (c : Constructor) : Bool := c.parameters.any (·.assisted)

/-- A class that injection may make. -/
structure InjectableClass where
  origin : Origin
  key : TypeKey
  /-- The scope that keeps its instances. -/
  scope : Option Scope := none
  constructors : List Constructor := []
  members : List Dependency := []
deriving DecidableEq, Repr

namespace InjectableClass

/-- A class with one injectable constructor that takes the dependencies in order. -/
def ofDependencies (key : TypeKey) (dependencies : List Dependency) : InjectableClass where
  origin := .of key.typeName
  key := key
  constructors := [{
    injectable := true
    parameters := dependencies.zipIdx.map fun (d, i) =>
      { name := "p" ++ toString i, dependency := d } }]

/-- The constructors that injection may use. -/
def injectables (c : InjectableClass) : List Constructor := c.constructors.filter (·.injectable)

/-- The constructor that injection uses: the only injectable one. -/
def injectableConstructor? (c : InjectableClass) : Option Constructor :=
  match c.injectables with
  | [only] => some only
  | _ => none

end InjectableClass

/-- A factory that makes a class with parameters from its caller. -/
structure AssistedFactory where
  origin : Origin
  key : TypeKey
  target : TypeKey
deriving DecidableEq, Repr

/-- The key of the injector that fills the members of a class. -/
def membersInjectorKey (target : TypeKey) : TypeKey :=
  ⟨"MembersInjector<" ++ target.typeName ++ ">", target.qualifier⟩

/-- The class whose members a key's injector fills, if the key is that of an injector. -/
def membersInjectorTarget? (k : TypeKey) : Option TypeKey :=
  let opening := "MembersInjector<".toList
  let name := k.typeName.toList
  if opening.isPrefixOf name then
    match (name.drop opening.length).reverse with
    | '>' :: inner => some ⟨String.ofList inner.reverse, k.qualifier⟩
    | _ => none
  else none

end Wiring
