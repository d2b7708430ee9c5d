import Wiring.Proofs.Lineage

/-!
# Who owns what is made from the index

Look-up makes a binding from the index only after every graph above was asked in vain, and only
where none of them holds the scope in the graph's stead.  So along a lineage a key has at most one
owner among the graphs that do not declare it, and the owner holds the scope itself
(`Lineage.owns_alone`).  Graphs above may be built again and own more; the graphs below are then
built again too, so this holds of the graphs that settle.
-/

namespace Wiring

namespace Pass

variable {p : Pass} {roots : List GraphDeclaration} {L : Line} {d : GraphDeclaration} {g : Graph}
  {k : TypeKey} {b : Binding} {s : Scope}

/-- A graph that does not declare a key binds it to what is made from the index. -/
structure Owns (p : Pass) (e : GraphDeclaration × Graph) (k : TypeKey) (b : Binding) : Prop where
  /-- The key is not registered in the catalog of the graph. -/
  unregistered : (p.registered e.1).get? k = none
  /-- The index makes the binding. -/
  made : p.index.synthesize? k = some b
  /-- The graph has it. -/
  bound : e.2.binding? k = some b

theorem Owns.isAbsent_eq {e : GraphDeclaration × Graph} (h : p.Owns e k b) :
    b.isAbsent = false := by
  cases Index.makes_of_synthesize? h.made <;> rfl

/-- What a graph owns was found after the graphs above were asked in vain. -/
theorem Lineage.owned (h : p.Lineage roots ((d, g) :: L)) (ho : p.Owns (d, g) k b) :
    ∃ retained, (p.request d L.ancestors retained).Built g ∧
      (p.request d L.ancestors retained).looked.provider? k = none ∧
      (p.request d L.ancestors retained).looked.scopeHolder? b = none := by
  obtain ⟨retained, hl⟩ := h.link
  have hg := BuildRequest.built_of_build hl.build
  have hm : (p.request d L.ancestors retained).looked.catalog.index.synthesize? k = some b := by
    rw [BuildRequest.index_looked]
    exact ho.made
  refine ⟨retained, hg, ?_⟩
  -- the catalog is the same whatever stands above
  have hn : (p.request d L.ancestors retained).registered.get? k = none := by
    rw [registered_request]
    exact ho.unregistered
  rcases hg.answers ho.bound with hf | ⟨-, rfl⟩
  · exact Lookup.owned_of_found hf hn hm
  · cases ho.isAbsent_eq

/-- **No graph above has a value for what a graph owns.** -/
theorem Lineage.isAbsent_of_owns (h : p.Lineage roots ((d, g) :: L)) (ho : p.Owns (d, g) k b)
    {e : GraphDeclaration × Graph} (he : e ∈ L) {b' : Binding} (hb : e.2.binding? k = some b') :
    b'.isAbsent = true := by
  obtain ⟨retained, -, hp, -⟩ := h.owned ho
  by_contra hv
  have := (h.tail.provides_iff he).mpr ⟨b', hb, Bool.eq_false_iff.mpr hv⟩
  exact List.find?_eq_none.mp hp _ (List.mem_map_of_mem he) this

/-- The scope of a bound key is held by the graph or one above. -/
theorem Lineage.allowed (h : p.Lineage roots ((d, g) :: L)) (hb : g.binding? k = some b)
    (hs : b.scope? = some s) : s ∈ d.scopes ∨ ∃ e ∈ L, s ∈ e.2.scopes := by
  obtain ⟨retained, hl⟩ := h.link
  have hg := BuildRequest.built_of_build hl.build
  refine (hg.allowed k b s ((hg.bindings k b).mp hb).1 hs).imp_right ?_
  rintro ⟨a, ha, hs⟩
  obtain ⟨e, he, rfl⟩ := List.mem_map.mp ha
  exact ⟨e, he, hs⟩

/-- A graph holds the scope of what it owns. -/
theorem Lineage.mem_scopes_of_owns (h : p.Lineage roots ((d, g) :: L)) (ho : p.Owns (d, g) k b)
    (hs : b.scope? = some s) : s ∈ d.scopes := by
  obtain ⟨retained, hg, -, hn⟩ := h.owned ho
  exact Lookup.mem_scopes_of_scopeHolder? hn hs
    (hg.allowed k b s ((hg.bindings k b).mp ho.bound).1 hs)

/-- Along a lineage a key has one owner at most. -/
theorem Lineage.pairwise_owns (h : p.Lineage roots L) (k : TypeKey) :
    L.Pairwise fun e f => ∀ b b', p.Owns e k b → ¬ p.Owns f k b' := by
  induction h with
  | nil => exact .nil
  | cons hl hd hg ih =>
      refine List.pairwise_cons.mpr ⟨fun f hf b b' ho ho' => ?_, ih⟩
      have := (Lineage.cons hl hd hg).isAbsent_of_owns ho hf ho'.bound
      rw [ho'.isAbsent_eq] at this
      cases this

/-! ### Owners along a lineage -/

/-- What a graph of a line owns is its own alone, and no scope leaks. -/
structure Owned (p : Pass) (roots : List GraphDeclaration) (L : Line) (d : GraphDeclaration)
    (g : Graph) : Prop where
  /-- The graphs above are in the outcome. -/
  above : ∀ e ∈ L, e.2 ∈ (p.resolve roots).graphs
  /-- No graph above binds what the graph owns to a value. -/
  alone : ∀ k b, p.Owns (d, g) k b → ∀ e ∈ L, ∀ b', e.2.binding? k = some b' → b'.isAbsent = true
  /-- The graph holds the scope of what it owns. -/
  scope : ∀ k b s, p.Owns (d, g) k b → b.scope? = some s → s ∈ d.scopes
  /-- The scope of anything else is held by the graph or one above. -/
  allowed : ∀ k b s, g.binding? k = some b → b.scope? = some s →
    s ∈ d.scopes ∨ ∃ e ∈ L, s ∈ e.2.scopes
  /-- No two graphs of the line own one key. -/
  once : ∀ k, ((d, g) :: L).Pairwise fun e f => ∀ b b', p.Owns e k b → ¬ p.Owns f k b'

theorem Lineage.owns_alone (h : p.Lineage roots ((d, g) :: L)) : p.Owned roots L d g where
  above _ he := h.tail.mem_graphs he
  alone _ _ ho _ he _ hb := h.isAbsent_of_owns ho he hb
  scope _ _ _ ho hs := h.mem_scopes_of_owns ho hs
  allowed _ _ _ hb hs := h.allowed hb hs
  once k := h.pairwise_owns k

end Pass

/-- **What is made from the index has a single owner, and no scope leaks.**  Every graph of the
outcome has a lineage, and along each lineage a key that is made from the index is owned by one
graph at most, which holds its scope; every scope is held by the graph or one above. -/
theorem Facts.resolve_owned (f : Facts) (options : Options) :
    (∀ g ∈ (f.resolve options).graphs,
      ∃ d L, (f.pass options).Lineage f.graphs ((d, g) :: L)) ∧
    ∀ d g L, (f.pass options).Lineage f.graphs ((d, g) :: L) →
      (f.pass options).Owned f.graphs L d g :=
  ⟨fun _ hg => Pass.mem_resolve_iff.mp hg, fun _ _ _ h => h.owns_alone⟩

end Wiring
