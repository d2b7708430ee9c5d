import Wiring.Graph
import Wiring.GraphError

/-!
# Scopes that a graph may hold

A graph may hold instances of its own scopes and of those of its ancestors.  Every other scoped
binding is an error.
-/

namespace Wiring

/-- The scopes that a graph or an ancestor holds. -/
def allowedScopes (scopes : List Scope) (ancestors : List Ancestor) : SortedSet Scope :=
  .ofList (scopes ++ ancestors.flatMap (·.scopes))

/-- The error of a binding whose scope is not allowed. -/
def scopeMismatch? (graph : DeclarationId) (allowed : SortedSet Scope) (b : Binding) :
    Option GraphError :=
  match b.scope? with
  | some scope =>
      if allowed.contains scope then none
      else some (.scopeMismatch b.key scope graph allowed.toList b.origin)
  | none => none

/-- The errors of the bindings whose scopes are not allowed, in the order given. -/
def scopeMismatches (graph : DeclarationId) (allowed : SortedSet Scope)
    (bindings : SortedMap TypeKey Binding) (order : List TypeKey) : List GraphError :=
  (order.filterMap bindings.get?).filterMap (scopeMismatch? graph allowed)

end Wiring
