import Wiring.Proofs.Retention

/-!
# Graphs with those that they extend

The outcome of a pass is a flat list of graphs.  A `Lineage` is a graph of the outcome with all that
it extends, nearest first: each graph stands at the head of what becomes of its declaration below
the graphs behind it.  Every graph of the outcome has a lineage, and lineages hold graphs of the
outcome only (`mem_resolve_iff`).

* `Lineage.link`: each graph of a lineage was built below the graphs behind it, and holds all that
  it is asked to hold.
* `Lineage.granted`: what is asked of a graph of the lineage from below, that graph holds.
-/

namespace Wiring

namespace GraphDeclaration

/-- The graphs that may come next on a way down through declarations. -/
def next (roots : List GraphDeclaration) : List GraphDeclaration → List GraphDeclaration
  | [] => roots
  | d :: _ => d.extensions

/-- A way down from a root through extensions, the lowest declaration first. -/
inductive Path (roots : List GraphDeclaration) : List GraphDeclaration → Prop where
  | nil : Path roots []
  | cons {d : GraphDeclaration} {path : List GraphDeclaration} (h : Path roots path)
      (hd : d ∈ next roots path) : Path roots (d :: path)

end GraphDeclaration

namespace Outcome

variable {g : Graph}

theorem mem_graphs_concat : ∀ {os : List Outcome},
    g ∈ (concat os).graphs ↔ ∃ o ∈ os, g ∈ o.graphs
  | [] => by simp [concat]
  | o :: rest => by
      have split : (concat (o :: rest)).graphs = o.graphs ++ (concat rest).graphs := rfl
      rw [split, List.mem_append, mem_graphs_concat, List.exists_mem_cons_iff]

end Outcome

/-- The graph itself, if it was built: it stands before all that extend it. -/
def Subtree.graph? (s : Subtree) : Option Graph := s.outcome.graphs.head?

/-- Graphs with their declarations, nearest first. -/
abbrev Line := List (GraphDeclaration × Graph)

namespace Line

/-- The declarations. -/
def path (L : Line) : List GraphDeclaration := L.map (·.1)

/-- What the graphs offer to those that extend them. -/
def ancestors (L : Line) : List Ancestor := L.map fun e => .ofGraph e.2

end Line

namespace Pass

variable {p : Pass} {roots : List GraphDeclaration} {L : Line} {d : GraphDeclaration} {g : Graph}
  {k : TypeKey} {id : DeclarationId}

/-- A graph of the outcome with all that it extends. -/
inductive Lineage (p : Pass) (roots : List GraphDeclaration) : Line → Prop where
  | nil : Lineage p roots []
  | cons {L : Line} {d : GraphDeclaration} {g : Graph} (hl : Lineage p roots L)
      (hd : d ∈ GraphDeclaration.next roots L.path)
      (hg : (p.resolveTree d L.ancestors).graph? = some g) : Lineage p roots ((d, g) :: L)

theorem Lineage.tail {e : GraphDeclaration × Graph} (h : p.Lineage roots (e :: L)) :
    p.Lineage roots L := by
  cases h with
  | cons hl => exact hl

theorem Lineage.suffix {M : Line} (h : p.Lineage roots (L ++ M)) : p.Lineage roots M := by
  induction L with
  | nil => exact h
  | cons e L ih => exact ih h.tail

theorem Lineage.path (h : p.Lineage roots L) : GraphDeclaration.Path roots L.path := by
  induction h with
  | nil => exact .nil
  | cons _ hd _ ih => exact .cons ih hd

/-! ### Graphs of the outcome -/

/-- What a graph that was built and its extensions come to. -/
structure Link (p : Pass) (L : Line) (d : GraphDeclaration) (g : Graph)
    (retained : SortedSet TypeKey) : Prop where
  /-- The graph was built below the others. -/
  build : (p.request d L.ancestors retained).build = .ok g
  /-- It holds what it is asked to hold. -/
  granted : ∀ k ∈ ((Requests.asked g (p.grown d g L.ancestors)).toGraph d.id).toList,
    g.contains k = true
  /-- Requests to others are handed up. -/
  requests : (p.resolveTree d L.ancestors).requests =
    (Requests.asked g (p.grown d g L.ancestors)).erase d.id
  /-- The graphs that extend it follow. -/
  graphs : (p.resolveTree d L.ancestors).outcome.graphs =
    g :: (Outcome.concat ((p.grown d g L.ancestors).map (·.outcome))).graphs

theorem link_of_graph? (h : (p.resolveTree d L.ancestors).graph? = some g) :
    ∃ retained, p.Link L d g retained := by
  obtain ⟨retained, hs⟩ := p.settled_resolveTree d L.ancestors
  generalize he : p.resolveTree d L.ancestors = s at h hs
  cases hs with
  | failed => cases h
  | built hb hk =>
      obtain rfl : _ = g := Option.some.inj h
      exact ⟨retained, hb, hk, congrArg Subtree.requests he,
        congrArg (fun s => s.outcome.graphs) he⟩

theorem Lineage.link (h : p.Lineage roots ((d, g) :: L)) : ∃ retained, p.Link L d g retained := by
  cases h with
  | cons _ _ hg => exact link_of_graph? hg

theorem Link.id_eq {retained : SortedSet TypeKey} (h : p.Link L d g retained) : g.id = d.id :=
  (BuildRequest.built_of_build h.build).id

/-- Each graph of a lineage was built below the graphs behind it. -/
theorem Lineage.link_of_mem (h : p.Lineage roots L) {e : GraphDeclaration × Graph} (he : e ∈ L) :
    ∃ M retained, p.Link M e.1 e.2 retained := by
  induction h with
  | nil => cases he
  | @cons M _ _ _ _ hg ih =>
      rcases List.mem_cons.mp he with rfl | he
      · exact ⟨M, link_of_graph? hg⟩
      · exact ih he

theorem Lineage.id_eq (h : p.Lineage roots L) {e : GraphDeclaration × Graph} (he : e ∈ L) :
    e.2.id = e.1.id := by
  obtain ⟨M, retained, hl⟩ := h.link_of_mem he
  exact hl.id_eq

/-- The graphs of a lineage yield the keys that they bind to a value. -/
theorem Lineage.provides_iff (h : p.Lineage roots L) {e : GraphDeclaration × Graph} (he : e ∈ L) :
    (Ancestor.ofGraph e.2).provides k = true ↔
      ∃ b, e.2.binding? k = some b ∧ b.isAbsent = false := by
  obtain ⟨M, retained, hl⟩ := h.link_of_mem he
  exact (BuildRequest.built_of_build hl.build).provides_iff

/-- All below a graph of a lineage is in the outcome. -/
theorem Lineage.subset (h : p.Lineage roots L) {d : GraphDeclaration}
    (hd : d ∈ GraphDeclaration.next roots L.path) :
    (p.resolveTree d L.ancestors).outcome.graphs ⊆ (p.resolve roots).graphs := by
  induction h generalizing d with
  | nil =>
      intro g hg
      refine Outcome.mem_graphs_concat.mpr ⟨_, List.mem_map_of_mem ?_, hg⟩
      exact mem_grow_branches.mpr ⟨d, hd, rfl⟩
  | cons _ hd' hg ih =>
      obtain ⟨_, hk⟩ := link_of_graph? hg
      refine fun h hm => ih hd' ?_
      rw [hk.graphs]
      refine List.mem_cons_of_mem _ (Outcome.mem_graphs_concat.mpr ⟨_, List.mem_map_of_mem ?_, hm⟩)
      exact mem_grow_branches.mpr ⟨d, hd, rfl⟩

theorem Lineage.mem_graphs (h : p.Lineage roots L) {e : GraphDeclaration × Graph} (he : e ∈ L) :
    e.2 ∈ (p.resolve roots).graphs := by
  induction h with
  | nil => cases he
  | cons hl hd hg ih =>
      rcases List.mem_cons.mp he with rfl | he
      · exact hl.subset hd (List.mem_of_head? hg)
      · exact ih he

/-- What is below a lineage has lineages. -/
theorem exists_lineage {L : Line} (hl : p.Lineage roots L)
    (hd : d ∈ GraphDeclaration.next roots L.path)
    (hg : g ∈ (p.resolveTree d L.ancestors).outcome.graphs) :
    ∃ e M, p.Lineage roots ((e, g) :: M) := by
  induction d using GraphDeclaration.induction generalizing L with
  | step d ih =>
      cases hh : (p.resolveTree d L.ancestors).graph? with
      | none =>
          rw [List.head?_eq_none_iff.mp hh] at hg
          cases hg
      | some g' =>
          obtain ⟨_, hk⟩ := link_of_graph? hh
          have hl' := Lineage.cons hl hd hh
          rw [hk.graphs] at hg
          rcases List.mem_cons.mp hg with rfl | hg
          · exact ⟨d, L, hl'⟩
          · obtain ⟨_, ho, hg⟩ := Outcome.mem_graphs_concat.mp hg
            obtain ⟨s, hs, rfl⟩ := List.mem_map.mp ho
            obtain ⟨e, he, rfl⟩ := mem_grow_branches.mp hs
            exact ih e he hl' he hg

/-- **The graphs of the outcome are those with a lineage.** -/
theorem mem_resolve_iff : g ∈ (p.resolve roots).graphs ↔ ∃ d L, p.Lineage roots ((d, g) :: L) := by
  constructor
  · intro hg
    obtain ⟨_, ho, hg⟩ := Outcome.mem_graphs_concat.mp hg
    obtain ⟨s, hs, rfl⟩ := List.mem_map.mp ho
    obtain ⟨d, hd, rfl⟩ := mem_grow_branches.mp hs
    exact exists_lineage .nil hd hg
  · rintro ⟨d, L, h⟩
    exact h.mem_graphs List.mem_cons_self

/-! ### Requests along a lineage -/

/-- **What is asked of a graph from below, it holds.** -/
theorem Lineage.granted (h : p.Lineage roots L) {d : GraphDeclaration}
    (hd : d ∈ GraphDeclaration.next roots L.path)
    (hk : k ∈ ((p.resolveTree d L.ancestors).requests.toGraph id).toList)
    (hid : id ∈ L.map (·.2.id)) : ∃ e ∈ L, e.2.id = id ∧ e.2.contains k = true := by
  induction h generalizing d with
  | nil => cases hid
  | @cons L d' g' _ hd' hg ih =>
      obtain ⟨_, hl⟩ := link_of_graph? hg
      have asked : k ∈ ((Requests.asked g' (p.grown d' g' L.ancestors)).toGraph id).toList :=
        Requests.mem_toGraph_asked.mpr (.inr ⟨_, mem_grow_branches.mpr ⟨d, hd, rfl⟩, hk⟩)
      -- the request is to the graph above, or handed up by it
      by_cases hi : id = d'.id
      · subst hi
        exact ⟨_, List.mem_cons_self, hl.id_eq, hl.granted k asked⟩
      · have handed : k ∈ ((p.resolveTree d' L.ancestors).requests.toGraph id).toList := by
          rw [hl.requests]
          exact Requests.mem_toGraph_erase.mpr ⟨hi, asked⟩
        have hid : id ∈ L.map (·.2.id) :=
          (List.mem_cons.mp hid).resolve_left fun he => hi (he.trans hl.id_eq)
        obtain ⟨e, he, h⟩ := ih hd' handed hid
        exact ⟨e, List.mem_cons_of_mem _ he, h⟩

end Pass

end Wiring
