import Wiring.Catalog
import Wiring.CollectionTable
import Wiring.Graph

/-!
# Looking a key up

A key is looked up in a fixed order: the registered binding, the collection, the nearest ancestor
that yields it, the binding made from the index.  A binding whose scope an ancestor holds is left to
that ancestor: a registered one only if the ancestor yields the key, one made from the index always,
with a request that the ancestor hold it.

`resolve` says what the answer is, and `consult` how a build gets it: chains of aliases, collections
and bindings made from the index are remembered from one key to the next.
-/

namespace Wiring

/-- What becomes of a key. -/
inductive Resolution where
  /-- A binding yields it. -/
  | found (binding : Binding)
  /-- Nothing yields it. -/
  | missing
  /-- Its aliases lead nowhere. -/
  | failed
deriving DecidableEq, Repr

/-- What looking a key up brings. -/
structure Finding where
  resolution : Resolution
  chain : Option (List TypeKey) := none
  /-- The ancestor asked to hold the key. -/
  asked : Option DeclarationId := none
  errors : List GraphError := []
deriving DecidableEq, Repr

/-- Where a graph looks keys up. -/
structure Lookup where
  /-- The registered bindings and the index. -/
  catalog : Catalog
  collections : CollectionTable
  /-- The graphs it extends, nearest first. -/
  ancestors : List Ancestor
  /-- The scopes whose instances it holds. -/
  scopes : List Scope

/-- The accessor to a key that an ancestor holds. -/
def Ancestor.accessor (a : Ancestor) (key : TypeKey) : Binding :=
  .graphAccessor key (.madeUp (a.id.name ++ "#" ++ key.render)) a.id none true

namespace Lookup

/-- The nearest ancestor that yields a key. -/
def provider? (l : Lookup) (key : TypeKey) : Option Ancestor := l.ancestors.find? (·.provides key)

/-- The nearest ancestor that holds the scope of a binding, unless the graph itself does. -/
def scopeHolder? (l : Lookup) (b : Binding) : Option Ancestor :=
  b.scope?.bind fun scope =>
    if l.scopes.contains scope then none else l.ancestors.find? (·.holdsScope scope)

/-- The sources of a collection that the nearest ancestor with it holds. -/
def inherited (l : Lookup) (key : TypeKey) : List Source :=
  (l.ancestors.findSome? fun a => a.collections.get? key).getD []

/-- A registered binding: left to the ancestor that holds its scope if that yields the key. -/
def ofExplicit (l : Lookup) (key : TypeKey) (b : Binding) : Binding :=
  match l.scopeHolder? b with
  | some a => if a.provides key then a.accessor key else b
  | none => b

/-- A binding made from the index: left to the ancestor that holds its scope, which is asked to hold
the key if it does not yield it. -/
def ofImplicit (l : Lookup) (key : TypeKey) (b : Binding) : Finding :=
  match l.scopeHolder? b with
  | some a =>
      { resolution := .found (a.accessor key)
        asked := if a.provides key then none else some a.id }
  | none => { resolution := .found b }

/-- What becomes of a key, if nothing is remembered. -/
def resolve (l : Lookup) (key : TypeKey) : Finding :=
  match l.catalog.explicit.get? key with
  | some b =>
      if b.isAlias then
        match l.catalog.aliasChain key with
        | .ok chain => { resolution := .found (l.ofExplicit key b), chain := some chain }
        | .error e => { resolution := .failed, errors := [e] }
      else { resolution := .found (l.ofExplicit key b) }
  | none =>
      if l.collections.isCollection key then
        match l.collections.aggregateWith key (l.inherited key) with
        | (some b, errors) => { resolution := .found b, errors }
        | (none, errors) => { resolution := .missing, errors }
      else
        match l.provider? key with
        | some a => { resolution := .found (a.accessor key) }
        | none =>
            match l.catalog.index.synthesize? key with
            | some b => l.ofImplicit key b
            | none => { resolution := .missing }

/-- Looks a key up and remembers what was worked out for it; errors are reported at once. -/
def consult (l : Lookup) (key : TypeKey) (d : Diagnostics) : Finding × Lookup × Diagnostics :=
  match l.catalog.explicit.get? key with
  | some b =>
      if b.isAlias then
        match l.catalog.resolveAlias key with
        | .ok (chain, catalog) =>
            ({ resolution := .found (l.ofExplicit key b), chain := some chain },
              { l with catalog }, d)
        | .error e => ({ resolution := .failed }, l, d.report e)
      else ({ resolution := .found (l.ofExplicit key b) }, l, d)
  | none =>
      if l.collections.isCollection key then
        let (collected, collections, d) := l.collections.resolve key (l.inherited key) d
        let resolution := match collected with
          | some b => .found b
          | none => .missing
        ({ resolution }, { l with collections }, d)
      else
        match l.provider? key with
        | some a => ({ resolution := .found (a.accessor key) }, l, d)
        | none =>
            let (made, catalog) := l.catalog.implicit key
            let finding := match made with
              | some b => l.ofImplicit key b
              | none => { resolution := .missing }
            (finding, { l with catalog }, d)

/-- The keys that the bindings found by look-up may depend on. -/
def vocabulary (l : Lookup) : List TypeKey :=
  let dependencies :=
    l.catalog.explicit.values.flatMap (·.dependencies) ++
      l.catalog.index.classes.values.flatMap fun c =>
        c.constructors.flatMap (fun k => k.parameters.map (·.dependency)) ++ c.members
  let sources := l.ancestors.flatMap fun a => a.collections.values.flatten
  dependencies.map (·.key) ++ l.collections.elements.values.flatten.map (·.elementKey) ++
    sources.map (·.elementKey)

end Lookup

end Wiring
