import Wiring.Digraph
import Wiring.Graph
import Wiring.GraphError

/-!
# Cycles

Bound keys that depend on each other form a component.  The cycle is permitted if handles break
every way around, that is, if the edges without a handle lead nowhere back; otherwise each group of
keys that such edges tie together is an error, shown by a shortest way around from the member that
was resolved first.
-/

namespace Wiring

/-- The cycles of a graph. -/
structure CycleAnalysis where
  /-- The cycles that handles break, by their first members. -/
  permitted : List PermittedCycle
  errors : List GraphError
deriving DecidableEq, Repr

namespace CycleAnalysis

/-- The bound keys in the order of their resolution, those not resolved at the end in key order. -/
def rankedKeys (bindings : SortedMap TypeKey Binding) (order : List TypeKey) : List TypeKey :=
  (order.filter bindings.contains).eraseDups ++ bindings.keys.filter (· ∉ order)

/-- The bound keys with the edges that `keep` accepts between them. -/
def digraph (bindings : SortedMap TypeKey Binding) (edges : List Edge) (order : List TypeKey)
    (keep : Edge → Bool) : Digraph TypeKey where
  vertices := rankedKeys bindings order
  arcs := (edges.filter fun e =>
    bindings.contains e.source && bindings.contains e.target && keep e).map fun e =>
      (e.source, e.target)

/-- Keys in the order of their ranks. -/
def ranked (ranks keys : List TypeKey) : List TypeKey := sortBy (compareOn ranks.idxOf) keys

/-- The permitted cycle of a component. -/
def permittedCycle (edges : List Edge) (ranks members : List TypeKey) : PermittedCycle where
  members := ranked ranks members
  deferredEdges :=
    (SortedSet.ofList ((edges.filter fun e =>
      e.isDeferred && e.source ∈ members && e.target ∈ members).map Edge.ends)).toList

/-- The groups of keys that the edges of a graph tie together, each in the order of ranks, by the
ranks of their first members. -/
def rankedGroups (ranks : List TypeKey) (g : Digraph TypeKey) : List (List TypeKey) :=
  sortBy (compareOn fun group => group.head?.map ranks.idxOf) (g.knots.map (ranked ranks))

/-- The error of a group of keys that edges without handles tie together, by a shortest way around
from its first member. -/
def fatalCycle? (bindings : SortedMap TypeKey Binding) (eager : Digraph TypeKey)
    (group : List TypeKey) : Option GraphError :=
  group.head?.bind fun start =>
    ((eager.restrict group).shortestLoop? start).map fun way =>
      .fatalCycle way ((bindings.get? start).map (·.origin))

/-- The cycles among bound keys: a component is permitted if its edges without handles lead nowhere
around. -/
def analyze (bindings : SortedMap TypeKey Binding) (edges : List Edge) (order : List TypeKey) :
    CycleAnalysis :=
  let ranks := rankedKeys bindings order
  let all := digraph bindings edges order fun _ => true
  let eager := digraph bindings edges order (!·.isDeferred)
  let (fatal, broken) := all.knots.partition fun members => (eager.restrict members).isCyclic
  { permitted :=
      sortBy (compareOn fun cycle => cycle.members.head?) (broken.map (permittedCycle edges ranks))
    errors := fatal.flatMap fun members =>
      (rankedGroups ranks (eager.restrict members)).filterMap (fatalCycle? bindings eager) }

/-- The handles that break the permitted cycles. -/
def deferredEdges (a : CycleAnalysis) : SortedSet DeferredEdge := deferredEdgesOf a.permitted

end CycleAnalysis

end Wiring
