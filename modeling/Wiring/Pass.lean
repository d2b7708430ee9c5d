import Wiring.Build
import Wiring.Facts

/-!
# A pass over all graphs

A pass builds every declared graph, a graph before those that extend it.  What extensions ask a
graph to hold is handed up to it; the graph is then built again with these keys retained, and its
extensions with it, until nothing further is asked.  Extensions of a graph that cannot be built are
skipped.

Only scoped classes are ever asked for, and every round retains a key that was not retained before,
so a graph is built at most once more than there are scoped classes (`Pass.rounds`).
-/

namespace Wiring

/-- A graph that cannot be built. -/
structure Failure where
  /-- The declaration that names the graph. -/
  graph : DeclarationId
  report : ErrorReport
deriving DecidableEq, Repr

/-- What became of the declared graphs. -/
structure Outcome where
  /-- The resolved graphs, each before those that extend it. -/
  graphs : List Graph := []
  /-- The graphs that cannot be built. -/
  failures : List Failure := []
  /-- The graphs that extend one that cannot be built. -/
  skipped : List DeclarationId := []

namespace Outcome

/-- Whether every graph was built. -/
def isSuccess (o : Outcome) : Bool := o.failures.isEmpty

/-- The first graph of a name. -/
def graph? (o : Outcome) (id : DeclarationId) : Option Graph := o.graphs.find? (·.id = id)

/-- One outcome behind another. -/
protected def append (o p : Outcome) : Outcome :=
  ⟨o.graphs ++ p.graphs, o.failures ++ p.failures, o.skipped ++ p.skipped⟩

instance : Append Outcome := ⟨Outcome.append⟩

/-- Outcomes one behind the other. -/
def concat (outcomes : List Outcome) : Outcome := outcomes.foldr (· ++ ·) {}

end Outcome

/-- The keys that graphs are asked to hold, by the graph asked. -/
abbrev Requests := SortedMap DeclarationId (SortedSet TypeKey)

namespace Requests

/-- The requests of both. -/
def merge (r s : Requests) : Requests :=
  s.entries.foldl (fun r e => r.alter e.1 fun keys => (keys.getD .empty).union e.2) r

/-- The keys that a graph is asked to hold. -/
def toGraph (r : Requests) (id : DeclarationId) : SortedSet TypeKey := (r.get? id).getD .empty

end Requests

/-- What became of a graph and all that extend it. -/
structure Subtree where
  outcome : Outcome := {}
  /-- What they ask graphs above to hold. -/
  requests : Requests := .empty

/-- The result of building a graph and all that extend it once. -/
inductive Round where
  /-- Nothing further is asked of the graph. -/
  | settled (subtree : Subtree)
  /-- Extensions ask the graph to hold further keys. -/
  | unsettled (wanted : SortedSet TypeKey)

/-- A graph that extends another, and what becomes of it below given ancestors. -/
structure Branch where
  /-- The declaration that names the graph. -/
  id : DeclarationId
  /-- What becomes of the graph and all that extend it. -/
  resolve : List Ancestor → Subtree

/-- What all builds of a pass share. -/
structure Pass where
  index : Index
  provider : Scope → List Contribution
  options : Options

namespace Pass

def build (p : Pass) (d : GraphDeclaration) (ancestors : List Ancestor)
    (retained : SortedSet TypeKey) : Except ErrorReport Graph :=
  BuildRequest.build ⟨p.index, p.provider, p.options, d, ancestors, retained⟩

/-- How often a graph may have to be built. -/
def rounds (p : Pass) : Nat := (p.index.classes.values.filter (·.scope.isSome)).length + 1

/-- The branches of a graph, built below it, in the order of their names. -/
def grow (branches : List Branch) (ancestors : List Ancestor) : List Subtree :=
  (sortBy (compareOn Branch.id) branches).map (·.resolve ancestors)

/-- Builds a graph that retains given keys, and all that extend it. -/
def round (p : Pass) (d : GraphDeclaration) (branches : List Branch) (ancestors : List Ancestor)
    (retained : SortedSet TypeKey) : Round :=
  match p.build d ancestors retained with
  | .error report =>
      .settled
        { outcome :=
            { failures := [⟨d.id, report⟩]
              skipped := d.descendants.map (·.id) } }
  | .ok graph =>
      let grown := grow branches (.ofGraph graph :: ancestors)
      let requests := grown.foldl (fun r s => Requests.merge r s.requests) graph.ancestorRequests
      let wanted := (Requests.toGraph requests d.id).filter fun key =>
        !graph.contains key && !retained.contains key
      if wanted.isEmpty then
        .settled
          { outcome := ({ graphs := [graph] } : Outcome) ++ .concat (grown.map (·.outcome))
            requests := requests.erase d.id }
      else .unsettled wanted

/-- Repeats a round, retaining what was asked for, until nothing further is asked; none if that
takes more than the given number of rounds. -/
def settle (round : SortedSet TypeKey → Round) : Nat → SortedSet TypeKey → Option Subtree
  | 0, _ => none
  | rounds + 1, retained =>
      match round retained with
      | .settled subtree => some subtree
      | .unsettled wanted => settle round rounds (retained.union wanted)

mutual

/-- What becomes of a graph and all that extend it, below given ancestors. -/
def resolveTree (p : Pass) : GraphDeclaration → List Ancestor → Subtree
  | ⟨origin, key, scopes, aggregationScopes, excludes, entryPoints, boundInstances, includes,
      bindings, collections, elements, extensions⟩, ancestors =>
      let d : GraphDeclaration := ⟨origin, key, scopes, aggregationScopes, excludes, entryPoints,
        boundInstances, includes, bindings, collections, elements, extensions⟩
      (settle (p.round d (branches p extensions) ancestors) p.rounds .empty).getD {}

/-- The branches of a list of graphs. -/
def branches (p : Pass) : List GraphDeclaration → List Branch
  | [] => []
  | d :: rest => ⟨d.id, resolveTree p d⟩ :: branches p rest

end

/-- What becomes of graphs that extend no other, in the order of their names. -/
def resolve (p : Pass) (roots : List GraphDeclaration) : Outcome :=
  .concat ((grow (p.branches roots) []).map (·.outcome))

end Pass

/-- What becomes of all declared graphs. -/
def Facts.resolve (f : Facts) (options : Options) : Outcome :=
  Pass.resolve ⟨f.index, f.contributionsTo, options⟩ f.graphs

end Wiring
