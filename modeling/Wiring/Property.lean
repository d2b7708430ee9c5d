import Wiring.Graph

/-!
# How values are kept

References count where an alias chain ends; the edge from an alias itself is no reference.  A value
is kept in a field if a scope keeps it or if two or more refer to it; accessors and factories always
are; aliases, collections and missing values never are.
-/

namespace Wiring

namespace PropertyPlan

/-- The end of the aliases bound from a key, in at most the given number of steps. -/
def aliasEnd (bindings : SortedMap TypeKey Binding) : Nat → TypeKey → TypeKey
  | 0, key => key
  | steps + 1, key =>
      match (bindings.get? key).bind (·.aliasTarget?) with
      | some target => aliasEnd bindings steps target
      | none => key

/-- The key that a reference to `key` counts for. -/
def terminal (bindings : SortedMap TypeKey Binding) (chains : SortedMap TypeKey (List TypeKey))
    (key : TypeKey) : TypeKey :=
  match (chains.get? key).bind (·.getLast?) with
  | some last => last
  | none => aliasEnd bindings bindings.size key

/-- How the value of a binding is kept, given the number of references to it. -/
def kindFor (b : Binding) (refCount : Nat) : PropertyKind :=
  match b with
  | .multibinding .. | .aliased .. | .absent .. => .inline
  | .graphAccessor .. | .assisted .. => .field
  | .injected .. | .provided .. | .boundInstance .. | .membersInjector .. =>
      if b.isScoped || 2 ≤ refCount then .field else .inline

/-- The keys that edges and roots refer to, each as often as it is referred to. -/
def references (bindings : SortedMap TypeKey Binding) (chains : SortedMap TypeKey (List TypeKey))
    (edges : List Edge) (roots : List TypeKey) : List TypeKey :=
  let fromAlias (e : Edge) : Bool := ((bindings.get? e.source).map (·.isAlias)).getD false
  ((edges.filter (!fromAlias ·)).map (·.target) ++ roots).map (terminal bindings chains)

/-- The plan for bindings, given their edges and roots. -/
def collect (bindings : SortedMap TypeKey Binding) (chains : SortedMap TypeKey (List TypeKey))
    (edges : List Edge) (roots : List TypeKey) : PropertyPlan :=
  let refCounts : SortedMap TypeKey Nat :=
    (references bindings chains edges roots).foldl
      (fun counts key => counts.alter key fun count => count.getD 0 + 1) .empty
  { properties := bindings.mapValues fun key b => kindFor b ((refCounts.get? key).getD 0)
    refCounts }

end PropertyPlan

end Wiring
