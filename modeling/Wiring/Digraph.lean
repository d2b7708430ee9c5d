/-!
# Directed graphs

A finite directed graph lists its vertices and its arcs; parallel arcs and loops are allowed.  The
module walks such graphs: what can be reached (`explore`), in which order a depth-first walk leaves
the vertices (`finished`), which vertices reach each other (`components`), whether a way leads around
(`isCyclic`), and the shortest way back to a vertex (`shortestLoop?`).
-/

namespace Wiring

variable {α : Type} [DecidableEq α]

/-- All that can be reached from a stack of vertices, with the vertices seen before, in at most the
given number of steps. -/
def explore (next : α → List α) : Nat → List α → List α → List α
  | 0, seen, _ => seen
  | _ + 1, seen, [] => seen
  | steps + 1, seen, v :: stack =>
      if v ∈ seen then explore next steps seen stack
      else explore next steps (v :: seen) (next v ++ stack)

/-- A finite directed graph. -/
structure Digraph (α : Type) where
  /-- The vertices, in an order that breaks ties. -/
  vertices : List α
  /-- The arcs, from the oldest to the newest. -/
  arcs : List (α × α)

namespace Digraph

/-- The ends of the arcs that start at a vertex, the newest arc first. -/
def targets (g : Digraph α) (v : α) : List α :=
  ((g.arcs.filter (·.1 = v)).map (·.2)).reverse

/-- The starts of the arcs that end at a vertex. -/
def sources (g : Digraph α) (v : α) : List α := (g.arcs.filter (·.2 = v)).map (·.1)

/-- The vertices that some arc leads to from a vertex, in the order of the vertices. -/
def next (g : Digraph α) (v : α) : List α :=
  let ends := g.targets v
  g.vertices.filter (· ∈ ends)

/-- The part of the graph on some of its vertices. -/
def restrict (g : Digraph α) (vs : List α) : Digraph α where
  vertices := g.vertices.filter (· ∈ vs)
  arcs := g.arcs.filter fun a => a.1 ∈ vs && a.2 ∈ vs

/-- A depth-first walk so far: the vertices entered, and those left again, newest first. -/
structure Walk (α : Type) where
  entered : List α
  left : List α

/-- Walks on from a vertex: entered before, it is passed over; else its targets are visited, the
newest arc first, and then it is left.  The depth is limited. -/
def visit (g : Digraph α) : Nat → Walk α → α → Walk α
  | 0, walk, _ => walk
  | depth + 1, walk, v =>
      if v ∈ walk.entered then walk
      else
        let walk := (g.targets v).foldl (g.visit depth) { walk with entered := v :: walk.entered }
        { walk with left := v :: walk.left }

/-- The vertices in the order in which a depth-first walk leaves them, the last first. -/
def finished (g : Digraph α) : List α :=
  (g.vertices.foldl (g.visit (g.vertices.length + 1)) ⟨[], []⟩).left

/-- The vertices among those that `free` accepts that reach a vertex and are reached from it, the
vertex itself included: of the vertices that lead to it, those to which a way through such vertices
leads back. -/
def component (g : Digraph α) (free : α → Bool) (v : α) : List α :=
  let steps := g.arcs.length + 1
  let behind := explore (fun w => (g.sources w).filter free) steps [] [v]
  explore (fun w => (g.targets w).filter (· ∈ behind)) steps [] [v]

/-- The components in the order in which a depth-first walk leaves the last vertex of each.  A way
around through a vertex keeps to its component, so a component is sought among the vertices of no
other one; going by the walk, these lead to the vertex only within the component. -/
def components (g : Digraph α) : List (List α) :=
  g.finished.foldl (fun found v =>
    if found.any (v ∈ ·) then found
    else g.component (fun w => !found.any (w ∈ ·)) v :: found) []

/-- The components with an arc inside: those whose vertices lie on a way around. -/
def knots (g : Digraph α) : List (List α) :=
  g.components.filter fun members => members.any fun v => (g.targets v).any (· ∈ members)

/-- Whether some arc leads to a vertex from which a way leads back to its start. -/
def isCyclic (g : Digraph α) : Bool :=
  g.arcs.any fun (v, w) => v ∈ explore g.targets (g.arcs.length + 1) [] [w]

/-- The shortest way back to `start`, as the list of the ways found so far by length, each from its
end back to its beginning, and the vertices on them. -/
def wayBack? (g : Digraph α) (start : α) : Nat → List α → List (List α) → Option (List α)
  | 0, _, _ => none
  | _ + 1, _, [] => none
  | steps + 1, seen, [] :: ways => g.wayBack? start steps seen ways
  | steps + 1, seen, (v :: passed) :: ways =>
      let next := g.next v
      if start ∈ next then some (start :: (v :: passed).reverse ++ [start])
      else
        let fresh := next.filter (· ∉ seen)
        g.wayBack? start steps (seen ++ fresh) (ways ++ fresh.map (· :: v :: passed))

/-- The shortest way from a vertex back to itself; of several, the one that meets the earlier
vertices first. -/
def shortestLoop? (g : Digraph α) (start : α) : Option (List α) :=
  let hops := g.next start
  if start ∈ hops then some [start, start]
  else g.wayBack? start g.vertices.length hops (hops.map fun v => [v])

end Digraph

end Wiring
