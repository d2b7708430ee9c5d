import Wiring.Contribution.Aggregation
import Wiring.Cycle
import Wiring.Expansion
import Wiring.Initialization
import Wiring.Options
import Wiring.Property
import Wiring.ScopeCheck

/-!
# Building a graph

A build registers what a graph declares and what contributions add to it, expands the graph from its
roots, checks cycles and scopes, orders the scoped keys, drops what no root reaches, and plans how
values are kept.  It yields the graph if there was no error, and a report otherwise.
-/

namespace Wiring

/-- Everything a build starts from. -/
structure BuildRequest where
  index : Index
  provider : Scope → List Contribution
  options : Options
  declaration : GraphDeclaration
  /-- The graphs it extends, nearest first. -/
  ancestors : List Ancestor
  /-- Keys that graphs extending it ask it to hold. -/
  retained : SortedSet TypeKey

/-- A graph before what no root reaches is dropped. -/
structure Draft where
  bindings : SortedMap TypeKey Binding
  edges : List Edge
  aliasChains : SortedMap TypeKey (List TypeKey)
  /-- The keys in the order of their resolution. -/
  order : List TypeKey
  /-- The keys that ancestors are asked to hold. -/
  ancestorRequests : SortedMap DeclarationId (SortedSet TypeKey)
  permittedCycles : List PermittedCycle := []
  /-- The scoped keys in the order of their initialisation. -/
  scopedOrder : List TypeKey := []

namespace Draft

/-- The part of a draft on the keys that `keep` accepts. -/
def restrict (d : Draft) (keep : TypeKey → Bool) : Draft where
  bindings := d.bindings.filter fun key _ => keep key
  edges := d.edges.filter fun e => keep e.source
  aliasChains := d.aliasChains.filter fun key _ => keep key
  order := d.order.filter keep
  ancestorRequests :=
    (d.ancestorRequests.mapValues fun _ keys => keys.filter keep).filter fun _ keys =>
      !keys.isEmpty
  permittedCycles := d.permittedCycles.filter fun cycle => cycle.members.all keep
  scopedOrder := d.scopedOrder.filter keep

end Draft

/-- All keys that edges lead to from a list of roots, these included. -/
def reachableFrom (roots : List TypeKey) (edges : List Edge) : SortedSet TypeKey :=
  let targets (key : TypeKey) := (edges.filter (·.source = key)).map (·.target)
  .ofList (explore targets (roots.length + edges.length) [] roots)

namespace BuildRequest

/-- What contributions add to the graph, and the errors among them. -/
def aggregated (r : BuildRequest) : AggregatedContributions × List GraphError :=
  Contribution.aggregate r.provider r.declaration.effectiveAggregationScopes r.declaration.excludes

/-- The bindings of an included graph: the graph and its accessors. -/
def includedBindings (i : IncludedGraph) : List Binding :=
  .boundInstance i.key i.origin :: i.accessors.map fun a =>
    .graphAccessor a.key i.origin ⟨i.key.typeName⟩ (some a.name) false

/-- The bindings declared in the graph or contributed to it. -/
def declaredBindings (r : BuildRequest) (added : AggregatedContributions) : List Binding :=
  r.declaration.bindings ++ added.bindings

/-- The collections of the graph. -/
def collections (r : BuildRequest) (added : AggregatedContributions) : CollectionTable :=
  .ofDeclarations (r.declaration.collections ++ added.collections)
    (r.declaration.elements ++ added.elements)

/-- The bindings registered before the expansion, in order: the graph itself, instances, included
graphs, declared and contributed bindings, elements. -/
def seeds (r : BuildRequest) (added : AggregatedContributions) : List Binding :=
  .boundInstance r.declaration.key (.madeUp r.declaration.id.name) ::
    r.declaration.boundInstances.map (fun i => .boundInstance i.key i.origin) ++
    r.declaration.includes.flatMap includedBindings ++
    r.declaredBindings added ++
    (r.collections added).elementBindings

/-- The entry points in order. -/
def entryPoints (r : BuildRequest) : List EntryPoint :=
  sortBy EntryPoint.compare r.declaration.entryPoints

/-- The keys that are kept in any case: those of entry points and those retained. -/
def roots (r : BuildRequest) : List TypeKey :=
  r.entryPoints.map (·.dependency.key) ++ r.retained.toList

/-- Where keys are looked up, and the errors of registration. -/
def lookup (r : BuildRequest) (added : AggregatedContributions) : Lookup × List GraphError :=
  let (catalog, errors) := (Catalog.ofIndex r.index).registerAll (r.seeds added)
  ({ catalog, collections := r.collections added, ancestors := r.ancestors,
     scopes := r.declaration.scopes }, errors)

/-- The expansion before its first step: entry points, retained keys and, if everything is
checked, all that is registered and all collections are requested. -/
def start (r : BuildRequest) (l : Lookup) (diagnostics : Diagnostics) : Expansion :=
  let checked :=
    if r.options.validatesAllDeclarations then l.catalog.explicit.keys ++ l.collections.keys else []
  let entered := r.entryPoints.foldl (fun x e =>
    Expansion.request l x e.dependency.key none e.dependency.hasDefault) { diagnostics }
  (r.retained.toList ++ checked).foldl (fun x key => Expansion.request l x key none false) entered

/-- The draft of an expansion that may be incomplete: nothing further is checked. -/
def rawDraft (x : Expansion) : Draft where
  bindings := x.bindings
  edges := x.edges.toList
  aliasChains := x.aliasChains
  order := x.order
  ancestorRequests := x.ancestorRequests

/-- Checks cycles and scopes and orders the scoped keys, unless the cap is reached. -/
def analyse (r : BuildRequest) (x : Expansion) : Draft × Diagnostics :=
  let draft := rawDraft x
  if x.diagnostics.limitReached then (draft, x.diagnostics)
  else
    let cycles := CycleAnalysis.analyze draft.bindings draft.edges draft.order
    let allowed := allowedScopes r.declaration.scopes r.ancestors
    let mismatches := scopeMismatches r.declaration.id allowed draft.bindings draft.order
    let scopedOrder :=
      if cycles.errors.isEmpty then
        scopedInitializationOrder draft.bindings draft.edges cycles.deferredEdges
      else []
    ({ draft with permittedCycles := cycles.permitted, scopedOrder },
      (x.diagnostics.reportAll cycles.errors).reportAll mismatches)

/-- The declared keys that are not reached. -/
def unusedKeys (r : BuildRequest) (added : AggregatedContributions) (reached : SortedSet TypeKey) :
    List TypeKey :=
  ((SortedSet.ofList ((r.declaredBindings added).map (·.key))).filter (!reached.contains ·)).toList

/-- The error of an unused key, at its binding or else at its last declaration. -/
def unusedError (r : BuildRequest) (added : AggregatedContributions)
    (bindings : SortedMap TypeKey Binding) (key : TypeKey) : GraphError :=
  let declared := SortedMap.index (·.key) (r.declaredBindings added)
  let found := (bindings.get? key).or (declared.get? key)
  .unusedBinding key ((found.map (·.origin)).getD (.madeUp key.render))

/-- The errors of unused keys, if the user wants them to be errors. -/
def unusedErrors (r : BuildRequest) (added : AggregatedContributions)
    (bindings : SortedMap TypeKey Binding) (unused : List TypeKey) : List GraphError :=
  match r.options.unusedBindingSeverity with
  | .none | .warn => []
  | .error => unused.map (r.unusedError added bindings)

/-- The graph of a draft. -/
def graph (r : BuildRequest) (draft : Draft) (unused : List TypeKey) : Graph where
  id := r.declaration.id
  key := r.declaration.key
  scopes := r.declaration.scopes
  aggregationScopes := r.declaration.effectiveAggregationScopes
  entryPoints := r.entryPoints
  bindings := draft.bindings
  edges := draft.edges
  aliasChains := draft.aliasChains
  permittedCycles := draft.permittedCycles
  scopedOrder := draft.scopedOrder
  properties := .collect draft.bindings draft.aliasChains draft.edges r.roots
  unused := unused
  resolutionOrder := draft.order
  extensions := r.declaration.extensions.map (·.id)
  ancestorRequests := draft.ancestorRequests

/-- The graph, or why there is none. -/
def build (r : BuildRequest) : Except ErrorReport Graph :=
  let (added, contributionErrors) := r.aggregated
  let (lookup, registrationErrors) := r.lookup added
  let diagnostics :=
    ((Diagnostics.ofCap r.options.maxErrorsCount.toNat).reportAll contributionErrors).reportAll
      registrationErrors
  let expansion := (r.start lookup diagnostics).runRemembering lookup
  let (draft, diagnostics) := r.analyse expansion
  let reached := reachableFrom r.roots draft.edges
  let unused := r.unusedKeys added reached
  let diagnostics := diagnostics.reportAll (r.unusedErrors added draft.bindings unused)
  let kept :=
    if r.options.shrinkUnusedBindings then draft.restrict fun key => reached.contains key else draft
  diagnostics.result (r.graph kept unused)

end BuildRequest

end Wiring
