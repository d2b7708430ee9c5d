import Wiring.Digraph
import Wiring.Graph

/-!
# Initialisation of scoped bindings

A scoped key needs the scoped keys that it reaches through keys without a scope; handles that break
a cycle do not count.  Scoped keys are initialised one after the other, each as soon as all that it
needs stand before it, and of several that could be next the one whose declaration comes first.
Keys that need each other in a circle stand at the end.
-/

namespace Wiring

open Std

/-- The place of a scoped key in the order of declarations. -/
@[ext]
structure InitSite where
  /-- The declaration that binds the key. -/
  declaration : DeclarationId
  key : TypeKey
deriving DecidableEq, Repr

namespace InitSite

/-- By declaration, then by key. -/
instance : Ord InitSite := ⟨compareLex (compareOn declaration) (compareOn key)⟩

instance : TransOrd InitSite := inferInstanceAs (TransCmp (compareLex _ _))

instance : LawfulEqOrd InitSite where
  compare_self := ReflCmp.compare_self
  eq_of_compare h :=
    InitSite.ext (eq_of_compareOn (and_eq_of_compareLex h).1)
      (eq_of_compareOn (and_eq_of_compareLex h).2)

end InitSite

/-- The edges that count between bound keys, and the bindings. -/
structure InitGraph where
  bindings : SortedMap TypeKey Binding
  /-- The edges that count, as pairs of keys. -/
  arcs : List (TypeKey × TypeKey)

namespace InitGraph

/-- A graph's bindings and edges, without the handles that break cycles. -/
def ofEdges (bindings : SortedMap TypeKey Binding) (edges : List Edge)
    (ignored : SortedSet DeferredEdge) : InitGraph where
  bindings := bindings
  arcs := (edges.filter fun e => !(e.isDeferred && ignored.contains e.ends)).map fun e =>
    (e.source, e.target)

/-- Whether a scope keeps the value of a key. -/
def isScoped (g : InitGraph) (key : TypeKey) : Bool :=
  match g.bindings.get? key with
  | some b => b.isScoped
  | none => false

/-- The scoped keys, in key order. -/
def scopedKeys (g : InitGraph) : List TypeKey :=
  (g.bindings.values.filter (·.isScoped)).map (·.key)

/-- The keys that a key requests. -/
def targets (g : InitGraph) (key : TypeKey) : List TypeKey :=
  (g.arcs.filter (·.1 = key)).map (·.2)

/-- The keys to go on to from a key met on the way from `start`: only bound keys without a scope
lead on. -/
def onward (g : InitGraph) (start key : TypeKey) : List TypeKey :=
  if key = start || g.isScoped key || !g.bindings.contains key then [] else g.targets key

/-- The scoped keys that a scoped key needs. -/
def needs (g : InitGraph) (key : TypeKey) : SortedSet TypeKey :=
  let first := g.targets key
  let met := explore (g.onward key) (first.length + g.arcs.length) [] first
  .ofList (met.filter fun k => k ≠ key && g.isScoped k)

/-- The place of a key in the order of declarations. -/
def site (g : InitGraph) (key : TypeKey) : InitSite where
  declaration := ((g.bindings.get? key).map (·.origin.declaration)).getD ⟨""⟩
  key := key

end InitGraph

/-- A scoped key with what its initialisation needs. -/
structure InitJob where
  site : InitSite
  needs : SortedSet TypeKey

/-- What is to be initialised. -/
structure InitProblem where
  jobs : List InitJob

namespace InitProblem

/-- The jobs of a graph's scoped keys. -/
def ofGraph (g : InitGraph) : InitProblem :=
  ⟨g.scopedKeys.map fun key => ⟨g.site key, g.needs key⟩⟩

/-- The initialisation so far. -/
structure Progress where
  /-- For each key not yet initialised, how many of its needs are not. -/
  pending : SortedMap TypeKey Nat
  /-- The keys whose needs are all initialised. -/
  ready : SortedSet InitSite
  done : List TypeKey

/-- The initialisation before its first step. -/
def initial (p : InitProblem) : Progress where
  pending := .ofList (p.jobs.map fun job => (job.site.key, job.needs.toList.length))
  ready := .ofList ((p.jobs.filter (·.needs.isEmpty)).map (·.site))
  done := []

/-- One need of a waiting key is met: with the last one the key becomes ready. -/
def settle (s : Progress) (waiting : InitSite) : Progress :=
  match s.pending.get? waiting.key with
  | none => s
  | some count =>
      { s with
        pending := s.pending.insert waiting.key (count - 1)
        ready := if count - 1 = 0 then s.ready.insert waiting else s.ready }

/-- The places of the keys that need a key. -/
def dependents (p : InitProblem) (key : TypeKey) : List InitSite :=
  (p.jobs.filter (·.needs.contains key)).map (·.site)

/-- Initialises the first of the ready keys. -/
def step (p : InitProblem) (s : Progress) : Progress :=
  match s.ready.toList with
  | [] => s
  | next :: _ =>
      let started : Progress :=
        { pending := s.pending.erase next.key, ready := s.ready.erase next,
          done := s.done ++ [next.key] }
      (p.dependents next.key).foldl settle started

/-- The initialisation after as many steps as there are jobs. -/
def final (p : InitProblem) : Progress := p.jobs.length.repeat p.step p.initial

/-- The scoped keys in the order of their initialisation; those that need each other in a circle
come last, by declaration. -/
def order (p : InitProblem) : List TypeKey :=
  let last := p.final
  let stuck := (p.jobs.filter fun job => last.pending.contains job.site.key).map (·.site)
  last.done ++ (SortedSet.ofList stuck).toList.map (·.key)

end InitProblem

/-- The scoped keys of a graph in the order of their initialisation. -/
def scopedInitializationOrder (bindings : SortedMap TypeKey Binding) (edges : List Edge)
    (ignored : SortedSet DeferredEdge) : List TypeKey :=
  (InitProblem.ofGraph (.ofEdges bindings edges ignored)).order

end Wiring
