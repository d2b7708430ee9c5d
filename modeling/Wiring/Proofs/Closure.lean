import Wiring.Proofs.Build

/-!
# A built graph is closed and exact

Every key that the expansion of a build requested is bound in the end, and a key that stays keeps
what it depends on: whatever the roots reach, its targets are reached too.  So dropping the rest
leaves a graph that is closed, and whose edges, order and unused keys are exactly those of its
bindings (`Exact`).
-/

namespace Wiring

/-- More roots reach more. -/
theorem Reaches.mono {edges edges' : List Edge} {roots roots' : List TypeKey} {k : TypeKey}
    (h : Reaches edges roots k) (hr : roots ⊆ roots')
    (he : ∀ e ∈ edges, Reaches edges roots e.source → e ∈ edges') : Reaches edges' roots' k := by
  induction h with
  | root h => exact .root (hr h)
  | edge hm h ih => exact .edge (he _ hm h) ih

namespace BuildRequest

variable {r : BuildRequest} {g : Graph} {k : TypeKey} {b : Binding}

/-! ### Keys that stay -/

theorem Keeps.root (h : k ∈ r.roots) : r.Keeps k := fun _ => .root h

/-- The target of an edge stays if the source does. -/
theorem Keeps.target {e : Edge} (he : e ∈ r.expansion.edges.toList) (h : r.Keeps e.source) :
    r.Keeps e.target := fun hs => .edge he (h hs)

theorem mem_roots : k ∈ r.roots ↔
    k ∈ r.declaration.entryPoints.map (·.dependency.key) ++ r.retained.toList := by
  simp only [roots, entryPoints, List.mem_append, List.mem_map, mem_sortBy]

namespace Built

theorem contains_iff (hg : r.Built g) :
    g.contains k = true ↔ r.expansion.bindings.contains k = true ∧ r.Keeps k := by
  simp only [Graph.contains, SortedMap.contains_iff, hg.bindings, exists_and_right]

/-- A key requested in the course of the build is bound before anything is dropped. -/
theorem bound_of_requested (hg : r.Built g) (h : r.expansion.requested.contains k = true) :
    r.expansion.bindings.contains k = true :=
  have ⟨hx, _, hd, _⟩ := r.expansion_spec
  hx.bound_of_requested hd hg.clean h

theorem contains_root (hg : r.Built g) (h : k ∈ r.roots) : g.contains k = true :=
  have ⟨_, _, _, hr⟩ := r.expansion_spec
  hg.contains_iff.mpr ⟨hg.bound_of_requested (hr k h), .root h⟩

/-- A key is bound to what look-up answers. -/
theorem answers (hg : r.Built g) (hb : g.binding? k = some b) :
    Expansion.Answers r.looked k b :=
  r.expansion_spec.1.answers k b ((hg.bindings k b).mp hb).1

theorem binding?_of_answers (hg : r.Built g) (hk : g.contains k = true)
    (h : Expansion.Answers r.looked k b) : g.binding? k = some b := by
  obtain ⟨b', hb'⟩ := SortedMap.contains_iff.mp hk
  exact (hg.answers hb').unique h ▸ hb'

theorem key_eq (hg : r.Built g) (hb : g.binding? k = some b) : b.key = k :=
  (hg.answers hb).key_eq r.keyed_looked

/-- A graph asks its ancestors for what look-up asks, of the keys that it binds. -/
theorem mem_asked_iff (hg : r.Built g) {id : DeclarationId} :
    k ∈ (Requests.toGraph g.ancestorRequests id).toList ↔
      g.contains k = true ∧ (r.looked.resolve k).asked = some id := by
  obtain ⟨hx, -⟩ := r.expansion_spec
  rw [hg.mem_asked, hx.mem_asked, hx.mem_order, hg.contains_iff, and_right_comm]

/-- A graph yields the keys that it binds to a value. -/
theorem provides_iff (hg : r.Built g) : (Ancestor.ofGraph g).provides k = true ↔
    ∃ b, g.binding? k = some b ∧ b.isAbsent = false := by
  simp only [Ancestor.provides, Ancestor.ofGraph, SortedSet.contains_iff, SortedSet.mem_ofList,
    List.mem_map, List.mem_filter, SortedMap.mem_values, Bool.not_eq_true']
  constructor
  · rintro ⟨b, ⟨⟨j, hb⟩, ha⟩, rfl⟩
    exact ⟨b, (hg.key_eq hb).symm ▸ hb, ha⟩
  · rintro ⟨b, hb, ha⟩
    exact ⟨b, ⟨⟨k, hb⟩, ha⟩, hg.key_eq hb⟩

/-- **A graph has no value for a key that can be made only if it is registered so.** -/
theorem registered_of_isAbsent (hg : r.Built g) (hb : g.binding? k = some b)
    (ha : b.isAbsent = true) (hm : r.index.synthesize? k ≠ none) :
    r.registered.get? k = some b := by
  rcases hg.answers hb with hf | ⟨hf, -⟩
  · exact Lookup.registered_of_isAbsent hf ha
  · exact absurd (r.index_looked ▸ Lookup.synthesize?_of_missing r.filled_looked hf) hm

/-- The edges of a binding of the graph are edges of the expansion. -/
theorem mem_edges_expansion (hg : r.Built g) (hb : g.binding? k = some b) {e : Edge}
    (he : e ∈ b.edges) : e ∈ r.expansion.edges.toList :=
  (r.expansion_spec.1.mem_edges e).mpr ⟨k, b, ((hg.bindings k b).mp hb).1, he⟩

/-- **Dropping keeps a graph closed.** -/
theorem contains_dependency (hg : r.Built g) (hb : g.binding? k = some b) {d : Dependency}
    (hd : d ∈ b.dependencies) : g.contains d.key = true := by
  obtain ⟨-, hc, -, -⟩ := r.expansion_spec
  obtain ⟨hx, hk⟩ := (hg.bindings k b).mp hb
  -- the edge of the dependency carries reachability over to its key
  have he : Edge.ofDependency b.key d ∈ r.expansion.edges.toList :=
    hg.mem_edges_expansion hb (List.mem_map_of_mem hd)
  refine hg.contains_iff.mpr ⟨hg.bound_of_requested (hc k b hx d hd), Keeps.target he ?_⟩
  exact (hg.key_eq hb).symm ▸ hk

/-- What look-up answers for a key of the graph depends on keys of the graph. -/
theorem contains_of_answers (hg : r.Built g) (hk : g.contains k = true)
    (h : Expansion.Answers r.looked k b) {d : Dependency} (hd : d ∈ b.dependencies) :
    g.contains d.key = true :=
  hg.contains_dependency (hg.binding?_of_answers hk h) hd

/-- The edges are those of the bindings. -/
theorem mem_edges_iff (hg : r.Built g) {e : Edge} :
    e ∈ g.edges ↔ ∃ k b, g.binding? k = some b ∧ e ∈ b.edges := by
  obtain ⟨hx, -⟩ := r.expansion_spec
  have source : ∀ k b, r.expansion.bindings.get? k = some b → e ∈ b.edges → e.source = k := by
    intro k b hb he
    obtain ⟨d, -, rfl⟩ := List.mem_map.mp he
    exact (hx.answers k b hb).key_eq r.keyed_looked
  rw [hg.mem_edges, hx.mem_edges]
  constructor
  · rintro ⟨⟨k, b, hb, he⟩, hk⟩
    exact ⟨k, b, (hg.bindings k b).mpr ⟨hb, source k b hb he ▸ hk⟩, he⟩
  · rintro ⟨k, b, hb, he⟩
    obtain ⟨hb, hk⟩ := (hg.bindings k b).mp hb
    exact ⟨⟨k, b, hb, he⟩, (source k b hb he).symm ▸ hk⟩

theorem edge_mem (hg : r.Built g) (hb : g.binding? k = some b) {d : Dependency}
    (hd : d ∈ b.dependencies) : Edge.ofDependency k d ∈ g.edges := by
  obtain rfl := hg.key_eq hb
  exact hg.mem_edges_iff.mpr ⟨b.key, b, hb, List.mem_map_of_mem hd⟩

/-- The edges of a graph lead to keys that it binds. -/
theorem contains_target (hg : r.Built g) {e : Edge} (he : e ∈ g.edges) :
    g.contains e.target = true := by
  obtain ⟨k, b, hb, he⟩ := hg.mem_edges_iff.mp he
  obtain ⟨d, hd, rfl⟩ := List.mem_map.mp he
  exact hg.contains_dependency hb hd

theorem mem_order_iff (hg : r.Built g) : k ∈ g.resolutionOrder ↔ g.contains k = true := by
  rw [hg.mem_order, hg.contains_iff, r.expansion_spec.1.mem_order]

/-- What the roots reach in the expansion they reach along the edges that stay. -/
theorem reaches (hg : r.Built g) (hs : r.options.shrinkUnusedBindings = true) (hk : r.Keeps k) :
    Reaches g.edges r.roots k :=
  (hk hs).mono (List.Subset.refl _) fun e he hr => (hg.mem_edges e).mpr ⟨he, fun _ => hr⟩

/-- What the roots reach is bound. -/
theorem contains_of_reaches (hg : r.Built g) (h : Reaches r.expansion.edges.toList r.roots k) :
    g.contains k = true := by
  induction h with
  | root h => exact hg.contains_root h
  | edge he h => exact hg.contains_target ((hg.mem_edges _).mpr ⟨he, fun _ => h⟩)

/-- A graph from which the rest is dropped binds what its roots reach. -/
theorem contains_iff_reaches (hg : r.Built g) (hs : r.options.shrinkUnusedBindings = true) :
    g.contains k = true ↔ Reaches r.expansion.edges.toList r.roots k :=
  ⟨fun hk => (hg.contains_iff.mp hk).2 hs, hg.contains_of_reaches⟩

end Built

/-! ### The graph as a whole -/

/-- What a build promises of the graph it yields. -/
structure Exact (r : BuildRequest) (g : Graph) : Prop where
  /-- What entry points request is bound. -/
  entered : ∀ e ∈ r.declaration.entryPoints, g.contains e.dependency.key = true
  /-- The retained keys are bound. -/
  retained : ∀ k ∈ r.retained.toList, g.contains k = true
  /-- A binding stands at its key. -/
  keyed : ∀ k b, g.binding? k = some b → b.key = k
  /-- What a binding depends on is bound. -/
  closed : ∀ k b, g.binding? k = some b → ∀ d ∈ b.dependencies, g.contains d.key = true
  /-- The edges increase strictly. -/
  sorted : g.edges.Pairwise fun e f => compare e f = .lt
  /-- There is one edge for each dependency, and no other. -/
  edges : ∀ e, e ∈ g.edges ↔ ∃ k b d, g.binding? k = some b ∧ d ∈ b.dependencies ∧
    e = ⟨b.key, d.key, d.access, d.hasDefault⟩
  /-- The order lists no key twice. -/
  nodup : g.resolutionOrder.Nodup
  /-- The order lists the bound keys. -/
  order : ∀ k, k ∈ g.resolutionOrder ↔ g.contains k = true
  /-- If a graph is shrunk, its roots reach all that it binds. -/
  reached : r.options.shrinkUnusedBindings = true → ∀ k, g.contains k = true →
    Reaches g.edges (r.declaration.entryPoints.map (·.dependency.key) ++ r.retained.toList) k
  /-- If a graph is shrunk, a declared key is unused if and only if it is not bound. -/
  unused : r.options.shrinkUnusedBindings = true → ∀ b ∈ r.declaredBindings r.aggregated.1,
    (b.key ∈ g.unused ↔ g.contains b.key = false)

/-- **A built graph is closed and exact**, whatever it is built from. -/
theorem exact_of_build (h : r.build = .ok g) : r.Exact g := by
  have hg := built_of_build h
  obtain ⟨hx, -⟩ := r.expansion_spec
  exact
    { entered := fun e he => hg.contains_root (mem_roots.mpr
        (List.mem_append_left _ (List.mem_map_of_mem he)))
      retained := fun k hk => hg.contains_root (mem_roots.mpr (List.mem_append_right _ hk))
      keyed := fun k b hb => hg.key_eq hb
      closed := fun k b hb d hd => hg.contains_dependency hb hd
      sorted := hg.edges_sorted
      edges := fun e => by
        simp only [hg.mem_edges_iff, Binding.edges, List.mem_map, exists_and_left, eq_comm,
          Edge.ofDependency]
      nodup := hx.order_nodup.sublist hg.order_sublist
      order := fun k => hg.mem_order_iff
      reached := fun hs k hk => (hg.reaches hs (hg.contains_iff.mp hk).2).mono
        (fun j hj => mem_roots.mp hj) fun e he _ => he
      unused := fun hs b hb => by
        rw [hg.mem_unused, and_iff_right (List.mem_map_of_mem hb), ← Bool.not_eq_true, not_iff_not]
        exact ⟨hg.contains_of_reaches, fun hk => (hg.contains_iff.mp hk).2 hs⟩ }

/-- A graph with an entry point to a class, a binding that the class needs and one that it does
not. -/
def connected : BuildRequest where
  index := .ofDeclarations [.ofDependencies ⟨"Db", none⟩ [{ key := ⟨"Url", none⟩ }]] []
  provider _ := []
  options := {}
  declaration :=
    { origin := .of "AppGraph"
      key := ⟨"AppGraph", none⟩
      entryPoints := [.accessor "db" { key := ⟨"Db", none⟩ }]
      bindings :=
        [.provided ⟨"Url", none⟩ (.of "url") none [],
          .provided ⟨"Cache", none⟩ (.of "cache") none []] }
  ancestors := []
  retained := .empty

theorem exact_of_build_connected :
    ∃ g, connected.build = .ok g ∧ g.unused = [⟨"Cache", none⟩] ∧ connected.Exact g := by
  have built : connected.build.toOption.map (·.unused) = some [⟨"Cache", none⟩] := by
    decide +kernel
  cases h : connected.build with
  | error => simp [h, Except.toOption] at built
  | ok g => exact ⟨g, rfl, by simpa [h, Except.toOption] using built, exact_of_build h⟩

end BuildRequest

end Wiring
