import Wiring.Proofs.Chains
import Wiring.Proofs.Closure
import Wiring.Proofs.Defaults

/-!
# Keys without a value

The requests of a build are those of its roots and those of what look-up finds for a requested key
(`Wants`), whatever the order in which they are discovered.  If nothing yields a key
(`Unresolvable`), a build that yields a graph leaves the key without a value, and it does so only if
every request for it has a default.  So a default hides no request without one (`waived_of_build`).

An absence may also be registered like any other binding.  It is then taken at its word, requested
with a default or without (`build_declaredAbsent`).
-/

namespace Wiring

namespace Lookup

variable {l : Lookup} {key : TypeKey}

/-- No stage yields a key exactly if it is not registered, not collected, not inherited and not
made from the index. -/
theorem missing_iff (hf : l.collections.Filled) : (l.resolve key).resolution = .missing ↔
    l.catalog.explicit.get? key = none ∧ l.collections.isCollection key = false ∧
      l.provider? key = none ∧ l.catalog.index.synthesize? key = none := by
  constructor
  · intro h
    rw [resolve] at h
    split at h
    · split at h
      · split at h <;> cases h
      · cases h
    · rename_i unregistered
      split at h
      · rename_i hc
        split at h
        · cases h
        · rename_i ha
          exact absurd ha (hf.aggregateWith_ne_none hc)
      · rename_i uncollected
        split at h
        · cases h
        · rename_i uninherited
          split at h
          · rw [ofImplicit] at h
            split at h <;> cases h
          · rename_i unmade
            exact ⟨unregistered, Bool.eq_false_iff.mpr uncollected, uninherited, unmade⟩
  · rintro ⟨unregistered, uncollected, uninherited, unmade⟩
    simp only [resolve, unregistered, uncollected, uninherited, unmade, Bool.false_eq_true,
      if_false]

end Lookup

namespace BuildRequest

variable {r : BuildRequest} {g : Graph} {key : TypeKey}

/-! ### Requests and what yields a key -/

/-- The requests of a build, with or without a default: those of its roots, and those of what
look-up finds for a requested key. -/
inductive Wants (r : BuildRequest) : TypeKey → Bool → Prop where
  | root {key : TypeKey} {hasDefault : Bool} (h : r.Enters key hasDefault) : Wants r key hasDefault
  | dependency {key : TypeKey} {hasDefault : Bool} {b : Binding} {d : Dependency}
      (hw : Wants r key hasDefault) (hb : (r.looked.resolve key).resolution = .found b)
      (hd : d ∈ b.dependencies) : Wants r d.key d.hasDefault

/-- Nothing yields the key in a build. -/
structure Unresolvable (r : BuildRequest) (key : TypeKey) : Prop where
  /-- No binding is registered at the key. -/
  unregistered : r.registered.get? key = none
  /-- It is no collection of the graph. -/
  uncollected : (r.collections r.aggregated.1).isCollection key = false
  /-- No ancestor yields it. -/
  uninherited : ∀ a ∈ r.ancestors, a.provides key = false
  /-- Nothing is made for it from the index. -/
  unmade : r.index.synthesize? key = none

theorem unresolvable_iff :
    r.Unresolvable key ↔ (r.looked.resolve key).resolution = .missing := by
  have made : r.looked.catalog.index.synthesize? key = r.index.synthesize? key := by
    rw [r.index_looked]
  have inherited : r.looked.provider? key = none ↔ ∀ a ∈ r.ancestors, a.provides key = false := by
    rw [Lookup.provider?, List.find?_eq_none]
    simp only [Bool.not_eq_true]
    exact .rfl
  rw [Lookup.missing_iff r.filled_looked, made, inherited]
  exact ⟨fun h => ⟨h.unregistered, h.uncollected, h.uninherited, h.unmade⟩,
    fun ⟨hr, hc, hi, hm⟩ => ⟨hr, hc, hi, hm⟩⟩

/-! ### Requests without a default -/

/-- A root that has no default is demanded from the start. -/
theorem demanded_of_enters {hasDefault : Bool} (h : r.Enters key hasDefault)
    (hd : hasDefault = false) : r.entered.Demanded key := by
  rw [demanded_entered_iff]
  cases h with
  | entryPoint he => exact .inl ⟨_, he, rfl, hd⟩
  | retained hk => exact .inr (List.mem_append_left _ hk)
  | checked hv hk =>
      refine .inr (List.mem_append_right _ ?_)
      rw [checked, if_pos hv, List.mem_append, SortedMap.mem_keys, CollectionTable.keys,
        SortedSet.mem_ofList, List.mem_append, SortedMap.mem_keys, SortedMap.mem_keys]
      rwa [CollectionTable.isCollection, Bool.or_eq_true] at hk

/-- **A build that yields a graph has met every request**, and knows of each that has no default. -/
theorem Wants.met {hasDefault : Bool} (h : r.Wants key hasDefault) (hg : r.build = .ok g) :
    r.expansion.requested.contains key = true ∧
      (hasDefault = false → r.expansion.Demanded key) := by
  obtain ⟨candid, remembered⟩ := candid_of_build hg
  obtain ⟨hx, closed, -, roots⟩ := r.expansion_spec
  induction h with
  | @root key hasDefault h =>
      have demanded : hasDefault = false → r.expansion.Demanded key := fun hd =>
        remembered key (demanded_of_enters h hd)
      refine ⟨?_, demanded⟩
      cases h with
      | entryPoint he =>
          exact roots _ (mem_roots.mpr (List.mem_append_left _ (List.mem_map_of_mem he)))
      | retained | checked => exact SortedMap.contains_iff.mpr ⟨false, demanded rfl⟩
  | dependency hw hf hd ih =>
      -- the key was requested, so it is bound to what look-up finds
      obtain ⟨b, hb⟩ := SortedMap.contains_iff.mp ((built_of_build hg).bound_of_requested ih.1)
      rcases hx.answers _ b hb with hf' | ⟨hm, -⟩
      · obtain rfl := Resolution.found.inj (hf.symm.trans hf')
        exact ⟨closed _ _ hb _ hd, candid.demanded _ _ hb _ hd⟩
      · cases hf.symm.trans hm

/-- A key that nothing yields is left without a value only if it is not demanded. -/
theorem Unresolvable.not_demanded (h : r.Unresolvable key) (hg : r.build = .ok g)
    (hb : r.expansion.bindings.contains key = true) : ¬ r.expansion.Demanded key :=
  (candid_of_build hg).1.waived key ((r.expansion_spec.1.mem_order key).mpr hb)
    (unresolvable_iff.mp h)

/-! ### Keys bound to no value -/

/-- A key is left without a value in a graph, for want of anything that yields it. -/
structure Waived (r : BuildRequest) (g : Graph) (key : TypeKey) : Prop where
  /-- Nothing yields the key. -/
  unresolvable : r.Unresolvable key
  /-- Every edge to the key has a default. -/
  edges : ∀ e ∈ g.edges, e.target = key → e.hasDefault = true
  /-- Every entry point to the key has a default. -/
  entryPoints : ∀ e ∈ g.entryPoints, e.dependency.key = key → e.dependency.hasDefault = true
  /-- The key is not retained. -/
  retained : key ∉ r.retained.toList

/-- The entry points of a graph are those declared. -/
theorem mem_entryPoints_of_build (h : r.build = .ok g) {e : EntryPoint} :
    e ∈ g.entryPoints ↔ e ∈ r.declaration.entryPoints := by
  obtain rfl := eq_graph_of_build h
  exact mem_sortBy

theorem waived_of_unresolvable (h : r.Unresolvable key) (hg : r.build = .ok g)
    (hb : g.contains key = true) : r.Waived g key := by
  have built := built_of_build hg
  have waived := h.not_demanded hg (built.contains_iff.mp hb).1
  obtain ⟨candid, remembered⟩ := candid_of_build hg
  constructor
  case unresolvable => exact h
  case edges =>
    intro e he hk
    obtain ⟨p, b, hp, hm⟩ := built.mem_edges_iff.mp he
    obtain ⟨d, hd, rfl⟩ := List.mem_map.mp hm
    by_contra hn
    obtain rfl : d.key = key := hk
    exact waived (candid.demanded p b ((built.bindings p b).mp hp).1 d hd
      (Bool.eq_false_iff.mpr hn))
  case entryPoints =>
    rintro e he rfl
    by_contra hn
    exact waived (remembered _ (demanded_of_enters
      (.entryPoint ((mem_entryPoints_of_build hg).mp he)) (Bool.eq_false_iff.mpr hn)))
  case retained => exact fun hk => waived (remembered key (demanded_of_enters (.retained hk) rfl))

/-- **A default hides no request without one.**  A graph binds a key to no value only if an absence
is registered at the key, or if nothing yields it and all that request it have a default.  And if
nothing yields a key that is requested without a default, there is no graph. -/
theorem waived_of_build (r : BuildRequest) :
    (∀ g, r.build = .ok g → ∀ key b, g.binding? key = some b → b.isAbsent = true →
      r.registered.get? key = some b ∨ r.Waived g key) ∧
    ∀ key, r.Unresolvable key → r.Wants key false → ∃ report, r.build = .error report := by
  constructor
  · intro g hg key b hb ha
    have built := built_of_build hg
    rcases built.answers hb with hf | ⟨hm, -⟩
    · exact .inl (Lookup.registered_of_isAbsent hf ha)
    · exact .inr (waived_of_unresolvable (unresolvable_iff.mpr hm) hg
        (SortedMap.contains_iff.mpr ⟨b, hb⟩))
  · intro key h hw
    cases hg : r.build with
    | error report => exact ⟨report, rfl⟩
    | ok g =>
        obtain ⟨requested, demanded⟩ := hw.met hg
        exact absurd (demanded rfl)
          (h.not_demanded hg ((built_of_build hg).bound_of_requested requested))

/-- A graph that has a default for the one key that nothing yields. -/
def covered : BuildRequest :=
  (plain [.provided ⟨"App", none⟩ (.of "app") none
    [{ key := ⟨"Cache", none⟩, hasDefault := true }]]).entering [⟨"App", none⟩]

theorem waived_of_build_covered :
    (∃ g, covered.build = .ok g ∧ covered.Waived g ⟨"Cache", none⟩) ∧
      lacking.Unresolvable ⟨"Lost", none⟩ ∧ lacking.Wants ⟨"Lost", none⟩ false ∧
      ∃ report, lacking.build = .error report := by
  have lost : lacking.Unresolvable ⟨"Lost", none⟩ := by
    constructor
    case uninherited => intro a ha; cases ha
    all_goals decide +kernel
  have entry : .accessor "Lost" { key := ⟨"Lost", none⟩ } ∈ lacking.declaration.entryPoints :=
    .head _
  have wanted : lacking.Wants ⟨"Lost", none⟩ false := .root (.entryPoint entry)
  refine ⟨?_, lost, wanted, (waived_of_build lacking).2 _ lost wanted⟩
  have built : covered.build.toOption.bind (·.binding? ⟨"Cache", none⟩) =
      some (Expansion.absentBinding ⟨"Cache", none⟩) := by decide +kernel
  have unregistered : covered.registered.get? ⟨"Cache", none⟩ = none := by decide +kernel
  cases hg : covered.build with
  | error => simp [hg, Except.toOption] at built
  | ok g =>
      have hb : g.binding? ⟨"Cache", none⟩ = some (Expansion.absentBinding ⟨"Cache", none⟩) := by
        simpa [hg, Except.toOption] using built
      refine ⟨g, rfl, ((waived_of_build covered).1 g hg _ _ hb rfl).resolve_left fun h => ?_⟩
      rw [unregistered] at h
      cases h

/-- A graph that registers an absence at the key of its entry point. -/
def declaredAbsent : BuildRequest :=
  (plain [.absent ⟨"App", none⟩ (.of "noApp")]).entering [⟨"App", none⟩]

/-- A registered absence is bound although it is requested without a default. -/
theorem build_declaredAbsent : ∃ g, declaredAbsent.build = .ok g ∧
    g.binding? ⟨"App", none⟩ = some (.absent ⟨"App", none⟩ (.of "noApp")) ∧
    declaredAbsent.registered.get? ⟨"App", none⟩ = some (.absent ⟨"App", none⟩ (.of "noApp")) ∧
    ∃ e ∈ g.entryPoints, e.dependency.key = ⟨"App", none⟩ ∧ e.dependency.hasDefault = false := by
  have built : declaredAbsent.build.toOption.bind (·.binding? ⟨"App", none⟩) =
      some (.absent ⟨"App", none⟩ (.of "noApp")) := by decide +kernel
  cases hg : declaredAbsent.build with
  | error => simp [hg, Except.toOption] at built
  | ok g =>
      exact ⟨g, rfl, by simpa [hg, Except.toOption] using built, by decide +kernel, _,
        (mem_entryPoints_of_build hg).mpr (.head _), rfl, rfl⟩

end BuildRequest

end Wiring
