import Wiring.Proofs.Defaults
import Wiring.Proofs.Gathering
import Wiring.Proofs.Offering

/-!
# Collections along a lineage

Where nobody declares the binding of a collection, a graph that binds one gathers the elements of
its own and those that the nearest graph above with the collection holds (`Lineage.gathers`).  That
graph did the same, so no element is lost on the way down (`Lineage.covers`), and if the collection
is a map, no two entries have map keys of one value (`Lineage.keyed`).
-/

namespace Wiring

/-! ### The sources of a line -/

/-- The sources of the collection that a graph binds at a key. -/
def Graph.sources? (g : Graph) (key : TypeKey) : Option (List Source) :=
  (g.binding? key).bind Ancestor.sourcesOf?

/-- The sources that the nearest graph with a collection holds; none if there is no such graph. -/
def Line.sources (L : Line) (key : TypeKey) : List Source :=
  (L.findSome? fun e => e.2.sources? key).getD []

/-- Nobody declares the binding of a collection: collections come from elements alone. -/
structure Facts.Collective (f : Facts) : Prop where
  graphs : ∀ d ∈ GraphDeclaration.preorder f.graphs, ∀ b ∈ d.bindings, b.kind ≠ .multibinding
  contributions : ∀ c ∈ f.contributions, ∀ b ∈ c.bindings, b.kind ≠ .multibinding

namespace GraphDeclaration

/-- What extends a descendant is a descendant. -/
theorem mem_descendants_of_extensions {d x e : GraphDeclaration} (hx : x ∈ d :: d.descendants)
    (he : e ∈ x.extensions) : e ∈ d.descendants := by
  induction d using GraphDeclaration.induction with
  | step d ih =>
      rw [descendants_eq, mem_preorder]
      rcases List.mem_cons.mp hx with rfl | hx
      · exact ⟨e, he, .head _⟩
      · rw [descendants_eq, mem_preorder] at hx
        obtain ⟨c, hc, hx⟩ := hx
        exact ⟨c, hc, .tail _ (ih c hc hx)⟩

/-- The declarations on a way down are among those declared. -/
theorem Path.mem_preorder {roots path : List GraphDeclaration} (h : Path roots path) :
    ∀ d ∈ path, d ∈ preorder roots := by
  induction h with
  | nil => exact fun d hd => by cases hd
  | @cons d path h hd ih =>
      rw [List.forall_mem_cons]
      refine ⟨?_, ih⟩
      cases path with
      | nil => exact GraphDeclaration.mem_preorder.mpr ⟨d, hd, .head _⟩
      | cons c rest =>
          obtain ⟨root, hr, hc⟩ := GraphDeclaration.mem_preorder.mp (ih c (.head _))
          exact GraphDeclaration.mem_preorder.mpr
            ⟨root, hr, .tail _ (mem_descendants_of_extensions hc hd)⟩

end GraphDeclaration

namespace Pass

variable {p : Pass} {roots : List GraphDeclaration} {L : Line} {d : GraphDeclaration} {g : Graph}
  {k : TypeKey}

/-- The collections of a graph. -/
def collections (p : Pass) (d : GraphDeclaration) : CollectionTable :=
  (p.request d [] .empty).collections (p.request d [] .empty).aggregated.1

/-- Graphs above and keys retained have no part in the collections of a graph. -/
theorem collections_request (p : Pass) (d : GraphDeclaration) (ancestors : List Ancestor)
    (retained : SortedSet TypeKey) :
    (p.request d ancestors retained).looked.collections = p.collections d := rfl

/-- The sources that own elements add to a collection of a graph. -/
def ownSources (p : Pass) (d : GraphDeclaration) (k : TypeKey) : List Source :=
  ((p.collections d).contributors k).map Element.toSource

/-- No graph registers the binding of a collection. -/
def Unbound (p : Pass) (roots : List GraphDeclaration) : Prop :=
  ∀ d ∈ GraphDeclaration.preorder roots, ∀ k b, (p.registered d).get? k = some b →
    b.kind ≠ .multibinding

/-- What is handed to a collection from the graphs above are the sources of their line. -/
theorem Lineage.inherited_eq (h : p.Lineage roots L) (retained : SortedSet TypeKey) :
    (p.request d L.ancestors retained).looked.inherited k = L.sources k := by
  have offered : ∀ e ∈ L, (Ancestor.ofGraph e.2).collections.get? k = e.2.sources? k := by
    intro e he
    obtain ⟨M, retained, hl⟩ := h.link_of_mem he
    refine Option.ext fun sources => ?_
    rw [(BuildRequest.built_of_build hl.build).get?_collections, Graph.sources?,
      Option.bind_eq_some_iff]
  show (L.ancestors.findSome? fun a => a.collections.get? k).getD [] = L.sources k
  rw [Line.ancestors, List.findSome?_map, Line.sources]
  congr 1
  induction L with
  | nil => rfl
  | cons e L ih =>
      rw [List.findSome?_cons, List.findSome?_cons, Function.comp_apply, offered e (.head _),
        ih h.tail fun e he => offered e (.tail _ he)]

/-- What a graph gathers into a collection that it binds. -/
structure Gathers (p : Pass) (L : Line) (d : GraphDeclaration) (g : Graph) (k : TypeKey)
    (collection : Collection) (sources : List Source) (dependencies : List Dependency) : Prop where
  /-- The sources are those of the own elements, and those that the nearest graph above with the
  collection holds for other slots. -/
  gathered : sources.Perm (p.ownSources d k ++
    (L.sources k).filter fun s => s.elementKey ∉ (p.ownSources d k).map (·.elementKey))
  /-- They stand in the order of declaration, map key and slot. -/
  sorted : sources.Pairwise fun s t => (s.compare t).isLE = true
  /-- The collection depends on the slot of each source, in this order. -/
  dependencies : dependencies = sources.map fun s =>
    { key := s.elementKey, access := .canonical, hasDefault := false }
  /-- The graph binds every slot. -/
  bound : ∀ s ∈ sources, g.contains s.elementKey = true
  /-- The shape is one of the key. -/
  shape : collection.key = k
  /-- The sources of a map have map keys of different values, if those handed down have. -/
  entries : collection.isMap = true → Source.Keyed (L.sources k) → Source.Keyed sources

/-- A graph that binds a collection aggregates it without error, unless the binding is
registered. -/
theorem Lineage.aggregated (h : p.Lineage roots ((d, g) :: L)) (hp : p.Unbound roots) {b : Binding}
    (hb : g.binding? k = some b) (hm : b.kind = .multibinding) :
    (p.collections d).aggregateWith k (L.sources k) = (some b, []) := by
  obtain ⟨retained, hl⟩ := h.link
  have hg := BuildRequest.built_of_build hl.build
  obtain ⟨candid, -⟩ := BuildRequest.candid_of_build hl.build
  have ordered := ((BuildRequest.expansion_spec _).1.mem_order k).mpr
    (hg.contains_iff.mp (SortedMap.contains_iff.mpr ⟨_, hb⟩)).1
  rcases hg.answers hb with hf | ⟨-, rfl⟩
  · rcases Lookup.collected_of_found hf hm with hr | ha
    · exact absurd hm (hp d (h.path.mem_preorder d (.head _)) k b hr)
    · rwa [h.tail.inherited_eq, candid.errorless k ordered, collections_request] at ha
  · cases hm

/-- **A graph that binds a collection gathers it**, unless the binding is registered. -/
theorem Lineage.gathers (h : p.Lineage roots ((d, g) :: L)) (hp : p.Unbound roots)
    {key : TypeKey} {origin : Origin} {collection : Collection} {allowEmpty : Bool}
    {sources : List Source} {dependencies : List Dependency}
    (hb : g.binding? k =
      some (.multibinding key origin collection allowEmpty sources dependencies)) :
    p.Gathers L d g k collection sources dependencies := by
  obtain ⟨retained, hl⟩ := h.link
  have hg := BuildRequest.built_of_build hl.build
  have filed : (p.collections d).Filed := CollectionTable.filed_ofDeclarations _ _
  have closed : ∀ e ∈ dependencies, g.contains e.key = true := fun e he =>
    hg.contains_dependency hb he
  obtain ⟨_, _, _, hc, he, silent⟩ :=
    CollectionTable.aggregateWith_eq_some (h.aggregated hp hb rfl)
  simp only [Binding.multibinding.injEq] at he
  obtain ⟨rfl, rfl, rfl, rfl, rfl, rfl⟩ := he
  constructor
  case gathered =>
    have foreign : CollectionTable.foreignSources ((p.collections d).contributors key)
        (L.sources key) = (L.sources key).filter fun s =>
          s.elementKey ∉ (p.ownSources d key).map (·.elementKey) := by
      refine List.filter_congr fun s _ => ?_
      rw [ownSources, List.map_map, decide_not, ← List.contains_eq_mem]
      rfl
    rw [CollectionTable.mergeSources, foreign]
    exact sortBy_perm ..
  case sorted => exact pairwise_sortBy Source.compare _
  case dependencies => rfl
  case bound => exact fun s hs => closed { key := s.elementKey } (List.mem_map.mpr ⟨s, hs, rfl⟩)
  case shape => exact filed.key_of_collection? hc
  case entries =>
    intro hm handed
    cases collection with
    | set => cases hm
    | map => exact CollectionTable.keyed_mergeSources (handed.filter _) (silent rfl)

/-! ### Along a lineage -/

/-- The sources of a collection that a graph binds. -/
theorem Lineage.gathers_of_sources? (h : p.Lineage roots ((d, g) :: L)) (hp : p.Unbound roots)
    {sources : List Source} (hs : g.sources? k = some sources) :
    ∃ collection dependencies, p.Gathers L d g k collection sources dependencies := by
  obtain ⟨b, hb, hs⟩ := Option.bind_eq_some_iff.mp hs
  cases b with
  | multibinding _ _ collection _ _ dependencies =>
      cases hs
      exact ⟨collection, dependencies, h.gathers hp hb⟩
  | _ => cases hs

/-- What is handed down, or stands in the place of it, is gathered. -/
theorem Gathers.covers {collection : Collection} {sources : List Source}
    {dependencies : List Dependency} (h : p.Gathers L d g k collection sources dependencies)
    {key : TypeKey} (hk : key ∈ (L.sources k).map (·.elementKey)) :
    key ∈ sources.map (·.elementKey) := by
  rw [(h.gathered.map _).mem_iff, List.map_append, List.mem_append]
  obtain ⟨s, hs, rfl⟩ := List.mem_map.mp hk
  by_cases own : s.elementKey ∈ (p.ownSources d k).map (·.elementKey)
  · exact .inl own
  · exact .inr (List.mem_map.mpr ⟨s, List.mem_filter.mpr ⟨hs, decide_eq_true own⟩, rfl⟩)

/-- **No element is lost.**  What a graph of a lineage gathers, the sources of the lineage cover. -/
theorem Lineage.covers (h : p.Lineage roots L) (hp : p.Unbound roots) :
    ∀ e ∈ L, ∀ sources, e.2.sources? k = some sources → ∀ s ∈ sources,
      s.elementKey ∈ (L.sources k).map (·.elementKey) := by
  induction L with
  | nil => exact fun e he => by cases he
  | cons e L ih =>
      obtain ⟨d, g⟩ := e
      intro f hf above ha s hs
      cases hg : g.sources? k with
      | none =>
          -- the graph has no such collection, so the line below it is as the one above it
          have same : Line.sources ((d, g) :: L) k = Line.sources L k := by
            rw [Line.sources, List.findSome?_cons, hg, Line.sources]
          rw [same]
          rcases List.mem_cons.mp hf with rfl | hf
          · cases hg.symm.trans ha
          · exact ih h.tail f hf above ha s hs
      | some sources =>
          have same : Line.sources ((d, g) :: L) k = sources := by
            rw [Line.sources, List.findSome?_cons, hg, Option.getD_some]
          rw [same]
          rcases List.mem_cons.mp hf with rfl | hf
          · obtain rfl := Option.some.inj (hg.symm.trans ha)
            exact List.mem_map_of_mem hs
          · obtain ⟨_, _, gathers⟩ := h.gathers_of_sources? hp hg
            exact gathers.covers (ih h.tail f hf above ha s hs)

/-- **The entries of a map have map keys of different values**, all along a lineage. -/
theorem Lineage.keyed (h : p.Lineage roots L) (hp : p.Unbound roots) {shape : Collection}
    (hm : shape.isMap = true) (hk : shape.key = k) : Source.Keyed (L.sources k) := by
  induction L with
  | nil => exact ⟨by simp [Line.sources], .nil⟩
  | cons e L ih =>
      obtain ⟨d, g⟩ := e
      cases hg : g.sources? k with
      | none =>
          rw [Line.sources, List.findSome?_cons, hg]
          exact ih h.tail
      | some sources =>
          rw [Line.sources, List.findSome?_cons, hg, Option.getD_some]
          obtain ⟨collection, _, gathers⟩ := h.gathers_of_sources? hp hg
          refine gathers.entries ?_ (ih h.tail)
          rwa [Collection.isMap_eq_of_key_eq (gathers.shape.trans hk.symm)]

/-- What a graph holds of a collection that it binds, below the graphs of a line. -/
structure Inherits (p : Pass) (roots : List GraphDeclaration) (L : Line) (d : GraphDeclaration)
    (g : Graph) (k : TypeKey) (collection : Collection) (sources : List Source)
    (dependencies : List Dependency) : Prop
    extends p.Gathers L d g k collection sources dependencies where
  /-- The graphs above are in the outcome. -/
  above : ∀ e ∈ L, e.2 ∈ (p.resolve roots).graphs
  /-- Every slot that a graph above holds of the collection is a slot here. -/
  covers : ∀ e ∈ L, ∀ held, e.2.sources? k = some held → ∀ s ∈ held,
    s.elementKey ∈ sources.map (·.elementKey)
  /-- The sources of a map have map keys of different values. -/
  keyed : collection.isMap = true → Source.Keyed sources

/-- A registered collection is declared for a graph or by a contribution. -/
theorem unbound_of_collective {f : Facts} (hf : f.Collective) (options : Options) :
    (f.pass options).Unbound f.graphs := by
  intro d hd k b hb hm
  rcases BuildRequest.mem_registered hb hm with h | ⟨c, hc, h⟩
  · exact hf.graphs d hd b h hm
  · obtain ⟨s, -, hc⟩ := List.mem_flatMap.mp hc
    exact hf.contributions c (List.mem_filter.mp hc).1 b h hm

end Pass

namespace Facts

/-- **Collections are inherited without loss.**  Where nobody declares the binding of a collection,
each graph of the outcome that binds one holds the elements of its own and those of the nearest
graph above with the collection, whose slots it does not fill itself, and thereby the slots of all
graphs above. -/
theorem resolve_inherited (f : Facts) (options : Options) (hf : f.Collective) :
    (∀ g ∈ (f.resolve options).graphs,
      ∃ d L, (f.pass options).Lineage f.graphs ((d, g) :: L)) ∧
    ∀ d g L, (f.pass options).Lineage f.graphs ((d, g) :: L) →
      ∀ k key origin collection allowEmpty sources dependencies, g.binding? k =
        some (.multibinding key origin collection allowEmpty sources dependencies) →
          (f.pass options).Inherits f.graphs L d g k collection sources dependencies := by
  refine ⟨fun _ hg => Pass.mem_resolve_iff.mp hg, ?_⟩
  intro d g L h k key origin collection allowEmpty sources dependencies hb
  have unbound := Pass.unbound_of_collective hf options
  have gathers := h.gathers unbound hb
  exact
    { gathers with
      above := fun _ he => h.tail.mem_graphs he
      covers := fun e he held hh s hs => gathers.covers (h.tail.covers unbound e he held hh s hs)
      keyed := fun hm => gathers.entries hm (h.tail.keyed unbound hm gathers.shape) }

/-- An entry of a map of handlers. -/
def handler (declaration value : String) : Element :=
  .intoMap (.of declaration) ⟨"String", value⟩ ⟨"Handler", none⟩ []

/-- The map of handlers. -/
def handlers : TypeKey := .mapOf "String" ⟨"Handler", none⟩

/-- A graph and one that extends it, with a handler each. -/
def handling : Facts where
  graphs :=
    [{ GraphDeclaration.ofKey ⟨"AppGraph", none⟩ with
       entryPoints := [.accessor "handlers" { key := handlers }]
       elements := [handler "Home" "home"]
       extensions :=
         [{ GraphDeclaration.ofKey ⟨"LoginGraph", none⟩ with
            entryPoints := [.accessor "handlers" { key := handlers }]
            elements := [handler "Login" "login"] }] }]

theorem resolve_inherited_handling : handling.Collective ∧
    ∃ d g L, (handling.pass {}).Lineage handling.graphs ((d, g) :: L) ∧
      ∃ collection sources dependencies,
        sources.map Source.value? = [some "home", some "login"] ∧
        (handling.pass {}).Inherits handling.graphs L d g handlers collection sources
          dependencies := by
  have collective : handling.Collective := ⟨by decide +kernel, by decide +kernel⟩
  obtain ⟨lineages, inherits⟩ := resolve_inherited handling {} collective
  have built : ∃ g ∈ (handling.resolve {}).graphs,
      (g.sources? handlers).map (·.map Source.value?) = some [some "home", some "login"] := by
    decide +kernel
  obtain ⟨g, hg, hs⟩ := built
  obtain ⟨sources, hs, values⟩ := Option.map_eq_some_iff.mp hs
  obtain ⟨b, hb, hs⟩ := Option.bind_eq_some_iff.mp hs
  obtain ⟨d, L, h⟩ := lineages g hg
  cases b with
  | multibinding =>
      cases hs
      exact ⟨collective, d, g, L, h, _, _, _, values, inherits _ _ _ h _ _ _ _ _ _ _ hb⟩
  | _ => cases hs

end Facts

end Wiring
