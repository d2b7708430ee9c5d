import Wiring.Document
import Wiring.Statistics

/-!
# Summaries of graphs

The numbers about a graph, and the keys where most edges meet, as a document.  The members of each
object are in the order of their names.
-/

namespace Wiring

/-- The document of a degree. -/
def Degree.write (d : Degree) : Value :=
  .object [("count", .ofNat d.count), ("key", .text d.key.render)]

namespace Statistics

def renderedKeys : List TypeKey → Value := .ofList fun k => .text k.render

/-- The document of numbers about a graph. -/
def write (s : Statistics) : Value :=
  .object
    [("aliasCount", .ofNat (s.ofKind .aliased)),
      ("averageDependencies", .float s.averageDependencies),
      ("bindingsByKind", .object (s.bindingsByKind.entries.map fun (kind, n) => (kind, .ofNat n))),
      ("leaves", renderedKeys s.leaves), ("maxDependencies", .ofNat s.maxDependencies),
      ("multibindingCount", .ofNat (s.ofKind .multibinding)), ("roots", renderedKeys s.roots),
      ("scopedBindings", .ofNat s.scopedBindings), ("totalBindings", .ofNat s.totalBindings),
      ("unscopedBindings", .ofNat s.unscopedBindings)]

end Statistics

/-- The numbers about a graph, with at most so many keys of the greatest fan-in and fan-out. -/
def Graph.summary (g : Graph) (top : Nat) : Value :=
  .object
    [("graph", .text g.id.name), ("statistics", g.statistics.write),
      ("topFanIn", .ofList Degree.write (g.topFanIn top)),
      ("topFanOut", .ofList Degree.write (g.topFanOut top))]

end Wiring
