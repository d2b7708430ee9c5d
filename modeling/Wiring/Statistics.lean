import Wiring.Graph
import Wiring.Number.Binary64

/-!
# Statistics

How many bindings a graph has of each kind, and how they depend on each other.  The fan-out of a key
is the number of its dependencies; the fan-in is the number of edges that lead to it.
-/

namespace Wiring

/-- How many edges meet a key. -/
structure Degree where
  key : TypeKey
  count : Nat
deriving DecidableEq, Repr

/-- Greater counts first, keys with one count in order. -/
def Degree.compare (a b : Degree) : Ordering :=
  (Ord.compare b.count a.count).then (Ord.compare a.key b.key)

/-- Numbers about a graph. -/
structure Statistics where
  totalBindings : Nat
  /-- The bindings that a scope keeps. -/
  scopedBindings : Nat
  /-- The bindings of each kind that occurs. -/
  bindingsByKind : SortedMap String Nat
  /-- The dependencies of a binding on the average. -/
  averageDependencies : Binary64
  /-- The most dependencies of one binding. -/
  maxDependencies : Nat
  /-- The keys that no bound key depends on. -/
  roots : List TypeKey
  /-- The keys that depend on no other. -/
  leaves : List TypeKey

namespace Statistics

/-- The bindings that no scope keeps. -/
def unscopedBindings (s : Statistics) : Nat := s.totalBindings - s.scopedBindings

/-- The bindings of a kind. -/
def ofKind (s : Statistics) (kind : BindingKind) : Nat := (s.bindingsByKind.get? kind.name).getD 0

end Statistics

namespace Graph

/-- The fan-in of the bound keys that an edge leads to. -/
def fanIn (g : Graph) : SortedMap TypeKey Nat :=
  (g.edges.filter fun e => g.contains e.target).foldl
    (fun counts e => counts.alter e.target fun n => n.getD 0 + 1) .empty

/-- The fan-out of each bound key. -/
def fanOut (g : Graph) : SortedMap TypeKey Nat :=
  g.bindings.mapValues fun _ b => b.dependencies.length

/-- Keys with the greatest counts, at most so many; keys that nothing meets are left out. -/
def top (counts : SortedMap TypeKey Nat) (limit : Nat) : List Degree :=
  let degrees := (counts.filter fun _ n => 0 < n).entries.map fun e => Degree.mk e.1 e.2
  (sortBy Degree.compare degrees).take limit

/-- The keys with the greatest fan-in. -/
def topFanIn (g : Graph) (limit : Nat) : List Degree := top g.fanIn limit

/-- The keys with the greatest fan-out. -/
def topFanOut (g : Graph) (limit : Nat) : List Degree := top g.fanOut limit

/-- Numbers about a graph. -/
def statistics (g : Graph) : Statistics where
  totalBindings := g.bindings.size
  scopedBindings := (g.bindings.values.filter (·.isScoped)).length
  bindingsByKind := g.bindings.values.foldl
    (fun counts b => counts.alter b.kind.name fun n => n.getD 0 + 1) .empty
  averageDependencies :=
    if g.bindings.size = 0 then .zero false
    else .ofRatio false (g.fanOut.values.foldl (· + ·) 0) g.bindings.size
  maxDependencies := g.fanOut.values.foldl max 0
  roots := g.bindings.keys.filter (!g.fanIn.contains ·)
  leaves := g.bindings.keys.filter fun key => (g.fanOut.get? key).getD 0 = 0

end Graph

end Wiring
