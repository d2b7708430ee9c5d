import Wiring.Catalog
import Wiring.Proofs.SortedMap

/-!
# What a catalog binds

A binding made from the index is the injector of a class, a factory or an instance of a class
(`Index.Makes`), and only an instance can have a scope, that of its class.  A registered binding
stands at its own key (`Catalog.Keyed`), whatever was registered and refused.
-/

namespace Wiring

namespace InjectableClass

theorem injectableConstructor?_eq_some {c : InjectableClass} {k : Constructor} :
    c.injectableConstructor? = some k ↔ c.injectables = [k] := by
  rw [injectableConstructor?]
  split <;> simp_all

theorem mem_constructors {c : InjectableClass} {k : Constructor}
    (h : c.injectableConstructor? = some k) : k ∈ c.constructors := by
  have hk : k ∈ c.injectables := injectableConstructor?_eq_some.mp h ▸ List.mem_singleton_self k
  exact (List.mem_filter.mp hk).1

end InjectableClass

namespace Index

/-- The bindings an index makes for a key. -/
inductive Makes (i : Index) (key : TypeKey) : Binding → Prop where
  | injector {target : TypeKey} {c : InjectableClass} (hc : i.classes.get? target = some c) :
      Makes i key (.membersInjector key c.origin target c.members)
  | factory {f : AssistedFactory} {c : InjectableClass} {k : Constructor}
      (hf : i.factories.get? key = some f) (hc : i.classes.get? f.target = some c)
      (hk : c.injectableConstructor? = some k) :
      Makes i key (.assisted key f.origin f.target
        ((k.parameters.filter (·.assisted)).map fun p => ⟨p.name, p.dependency.key⟩)
        ((k.parameters.filter (!·.assisted)).map fun p =>
          { p.dependency with access := p.dependency.access.throughProvider }))
  | construction {c : InjectableClass} {k : Constructor} (hc : i.classes.get? key = some c)
      (hk : c.injectableConstructor? = some k) (ha : k.hasAssistedParameters = false) :
      Makes i key (.injected key c.origin c.scope (k.parameters.map (·.dependency) ++ c.members))

variable {i : Index} {key : TypeKey} {b : Binding}

theorem makes_of_synthesize? (h : i.synthesize? key = some b) : i.Makes key b := by
  rw [synthesize?] at h
  split at h
  · obtain ⟨c, hc, rfl⟩ := Option.map_eq_some_iff.mp h
    exact .injector hc
  · split at h
    · cases h
    · split at h
      · rename_i f hf
        obtain ⟨c, hc, h⟩ := Option.bind_eq_some_iff.mp h
        obtain ⟨k, hk, h⟩ := Option.bind_eq_some_iff.mp h
        cases h
        exact .factory hf hc hk
      · obtain ⟨c, hc, h⟩ := Option.bind_eq_some_iff.mp h
        obtain ⟨k, hk, h⟩ := Option.bind_eq_some_iff.mp h
        split at h
        · cases h
        · rename_i ha
          cases h
          exact .construction hc hk (Bool.eq_false_iff.mpr ha)

theorem Makes.key_eq (h : i.Makes key b) : b.key = key := by
  cases h <;> rfl

/-- Only an instance has a scope, and it is the scope of the class at the key. -/
theorem Makes.scope (h : i.Makes key b) {s : Scope} (hs : b.scope? = some s) :
    ∃ c, i.classes.get? key = some c ∧ c.scope = some s := by
  cases h with
  | injector | factory => cases hs
  | construction hc => exact ⟨_, hc, hs⟩

/-- What a made binding depends on is a parameter or a member of a class. -/
theorem Makes.dependency (h : i.Makes key b) {d : Dependency} (hd : d ∈ b.dependencies) :
    ∃ c ∈ i.classes.values, (∃ k ∈ c.constructors, ∃ p ∈ k.parameters, d.key = p.dependency.key) ∨
      d ∈ c.members := by
  cases h with
  | injector hc => exact ⟨_, SortedMap.mem_values.mpr ⟨_, hc⟩, .inr hd⟩
  | factory _ hc hk =>
      obtain ⟨p, hp, rfl⟩ := List.mem_map.mp hd
      exact ⟨_, SortedMap.mem_values.mpr ⟨_, hc⟩,
        .inl ⟨_, InjectableClass.mem_constructors hk, p, (List.mem_filter.mp hp).1, rfl⟩⟩
  | construction hc hk =>
      refine ⟨_, SortedMap.mem_values.mpr ⟨_, hc⟩, ?_⟩
      rcases List.mem_append.mp hd with hd | hd
      · obtain ⟨p, hp, rfl⟩ := List.mem_map.mp hd
        exact .inl ⟨_, InjectableClass.mem_constructors hk, p, hp, rfl⟩
      · exact .inr hd

end Index

namespace Catalog

/-- Every registered binding stands at its key. -/
def Keyed (c : Catalog) : Prop := ∀ key b, c.explicit.get? key = some b → b.key = key

theorem keyed_ofIndex (i : Index) : (ofIndex i).Keyed := fun _ _ h => by cases h

/-- Registering a binding touches nothing of what is made from the index. -/
theorem implicits_of_register {c c' : Catalog} {b : Binding} (h : c.register b = .ok c') :
    c'.implicits = c.implicits ∧ c'.index = c.index := by
  rw [Catalog.register] at h
  split at h
  · cases h
    exact ⟨rfl, rfl⟩
  · split at h
    · cases h
      exact ⟨rfl, rfl⟩
    · cases h

theorem Keyed.register {c c' : Catalog} (hc : c.Keyed) {b : Binding} (h : c.register b = .ok c') :
    c'.Keyed ∧ c'.index = c.index := by
  rw [Catalog.register] at h
  split at h
  · cases h
    refine ⟨fun key b' hb' => ?_, rfl⟩
    rcases SortedMap.get?_insert_cases hb' with ⟨rfl, rfl⟩ | hb'
    · rfl
    · exact hc key b' hb'
  · split at h
    · cases h
      exact ⟨hc, rfl⟩
    · cases h

theorem Keyed.registerAll : ∀ {c : Catalog} (bs : List Binding), c.Keyed →
    (c.registerAll bs).1.Keyed ∧ (c.registerAll bs).1.index = c.index
  | c, [], hc => ⟨hc, rfl⟩
  | c, b :: rest, hc => by
      rw [Catalog.registerAll]
      split
      · rename_i c' h
        obtain ⟨hc', hi⟩ := hc.register h
        exact hi ▸ Keyed.registerAll rest hc'
      · exact Keyed.registerAll rest hc

end Catalog

end Wiring
