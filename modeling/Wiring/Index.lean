import Wiring.InjectableClass
import Wiring.SortedMap

/-!
# The declaration index

Classes and factories by key, and the bindings made from them on request.  A class found by its key
is made by its only injectable constructor; a factory hands the caller's parameters on and reaches
everything else through providers.
-/

namespace Wiring

/-- Classes and factories by key. -/
structure Index where
  classes : SortedMap TypeKey InjectableClass
  factories : SortedMap TypeKey AssistedFactory

namespace Index

/-- The index of classes and factories; of two with one key the later counts. -/
def ofDeclarations (classes : List InjectableClass) (factories : List AssistedFactory) : Index :=
  ⟨.index (·.key) classes, .index (·.key) factories⟩

/-- The injector that fills the members of a class. -/
def injector? (i : Index) (key target : TypeKey) : Option Binding :=
  (i.classes.get? target).map fun c => .membersInjector key c.origin target c.members

/-- The factory at a key: parameters go to the caller, dependencies through providers. -/
def factory? (i : Index) (key : TypeKey) (factory : AssistedFactory) : Option Binding := do
  let made ← i.classes.get? factory.target
  let constructor ← made.injectableConstructor?
  let parameters := constructor.parameters.filter (·.assisted)
  let others := constructor.parameters.filter (!·.assisted)
  return .assisted key factory.origin factory.target
    (parameters.map fun p => ⟨p.name, p.dependency.key⟩)
    (others.map fun p => { p.dependency with access := p.dependency.access.throughProvider })

/-- The class at a key, made by its only injectable constructor if that takes nothing from a
caller; members are injected after the parameters. -/
def instance? (i : Index) (key : TypeKey) : Option Binding := do
  let found ← i.classes.get? key
  let constructor ← found.injectableConstructor?
  if constructor.hasAssistedParameters then none
  else
    return .injected key found.origin found.scope
      (constructor.parameters.map (·.dependency) ++ found.members)

/-- The binding made for a key that nothing binds: the injector of a class, or without a qualifier
a factory or a class. -/
def synthesize? (i : Index) (key : TypeKey) : Option Binding :=
  match membersInjectorTarget? key with
  | some target => i.injector? key target
  | none =>
      if key.qualifier.isSome then none
      else
        match i.factories.get? key with
        | some factory => i.factory? key factory
        | none => i.instance? key

end Index

end Wiring
