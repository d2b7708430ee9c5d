import Wiring.Binding

/-!
# Contributions

A contribution adds to every graph that aggregates its scope: a container of bindings, a binding of
a type to one of its supertypes, or an element of a collection.
-/

namespace Wiring

/-- What a contribution adds. -/
inductive ContributionKind where
  /-- A container of bindings. -/
  | container
  /-- A binding to a supertype. -/
  | binding
  /-- An element of a set. -/
  | intoSet
  /-- An entry of a map. -/
  | intoMap
deriving DecidableEq, Repr

/-- The place of a kind in the order of contributions. -/
def ContributionKind.rank : ContributionKind → Nat
  | container => 0
  | binding => 1
  | intoSet => 2
  | intoMap => 3

/-- A declaration that contributes to a scope. -/
structure Contribution where
  origin : Origin
  scope : Scope
  kind : ContributionKind
  contributedType : TypeKey
  boundType : Option TypeKey := none
  /-- The qualifier of the key bound. -/
  qualifier : Option String := none
  /-- The direct supertypes of the contributed type. -/
  supertypes : List TypeKey := []
  /-- The rank among contributions for one key; none is below all. -/
  rank : Option Int32 := none
  /-- The declarations this one takes the place of. -/
  replaces : List DeclarationId := []
  /-- The key of the entry, for an entry of a map. -/
  mapKey : Option MapKey := none
  bindings : List Binding := []
  /-- The collections that a container declares. -/
  collections : List CollectionDeclaration := []
  elements : List Element := []
deriving DecidableEq, Repr

namespace Contribution

/-- A contribution that binds a type to its only supertype, declared at the type itself. -/
def toSupertype (scope : Scope) (contributed supertype : TypeKey) : Contribution where
  origin := .of contributed.typeName
  scope := scope
  kind := .binding
  contributedType := contributed
  supertypes := [supertype]

/-- A container of bindings. -/
def ofBindings (origin : Origin) (scope : Scope) (bindings : List Binding) : Contribution where
  origin := origin
  scope := scope
  kind := .container
  contributedType := ⟨origin.declaration.name, none⟩
  bindings := bindings

def declaration (c : Contribution) : DeclarationId := c.origin.declaration

/-- The type bound: the declared one, else the only supertype. -/
def effectiveBoundType? (c : Contribution) : Option TypeKey :=
  match c.boundType, c.supertypes with
  | some bound, _ => some bound
  | none, [only] => some only
  | none, _ => none

/-- The key bound: the bound type under the contribution's qualifier, else under its own. -/
def boundKey? (c : Contribution) : Option TypeKey :=
  c.effectiveBoundType?.map fun bound => ⟨bound.typeName, c.qualifier.or bound.qualifier⟩

/-- What is wrong with the type bound.  A declared one must be another type and a supertype; without
one there must be exactly one supertype; an entry of a map needs a key. -/
def problem? (c : Contribution) : Option String :=
  if c.kind = .container then none
  else
    let entryProblem :=
      if c.kind = .intoMap ∧ c.mapKey = none then some "ContributesIntoMap 需要指定 Map 键" else none
    match c.boundType with
    | some bound =>
        if bound.typeName = c.contributedType.typeName then
          some ("显式绑定类型 " ++ bound.typeName ++ " 不能与贡献类型相同")
        else if c.supertypes.all fun s => s.typeName ≠ bound.typeName then
          some (c.contributedType.typeName ++ " 没有实现绑定类型 " ++ bound.typeName)
        else entryProblem
    | none =>
        if c.supertypes.length ≠ 1 then
          some (c.contributedType.typeName ++ " 有 " ++ toString c.supertypes.length ++
            " 个超类型，需要显式指定绑定类型")
        else entryProblem

end Contribution

end Wiring
