import Wiring.Lookup
import Wiring.Proofs.Catalog

/-!
# What looking a key up brings

`Lookup.Resolves` lists the findings by the stage that settles a key, each with all that the stages
before it leave open; `resolves` says that every look-up is one of them, and what follows about
single findings is read off it.

* `found_cases`: what is found is registered, an accessor, a collection, or made from the index.
* `vocabulary_of_found`: a binding found depends on keys of the vocabulary only.
* `accessor_of_found`: an accessor that is not registered leads to an ancestor that yields the key,
  or is asked to.
* `owned_of_found`: a binding made from the index is found only where no ancestor yields the key and
  no ancestor holds the scope in the graph's stead.
* `scoped_of_asked`: an ancestor is asked for the keys of scoped classes only.
-/

namespace Wiring

/-- The ancestor that holds the value, for an accessor to an ancestor. -/
def Binding.holder? : Binding → Option DeclarationId
  | .graphAccessor _ _ graph _ true => some graph
  | _ => none

/-! ### Collections -/

namespace CollectionTable

/-- A collection found at a key depends on the slots of own elements and of those handed to it. -/
theorem slot_of_aggregateWith {t : CollectionTable} {key : TypeKey} {inherited : List Source}
    {b : Binding} {errors : List GraphError}
    (h : t.aggregateWith key inherited = (some b, errors)) {d : Dependency}
    (hd : d ∈ b.dependencies) :
    (∃ e ∈ t.contributors key, d.key = e.elementKey) ∨ ∃ s ∈ inherited, d.key = s.elementKey := by
  rw [aggregateWith] at h
  split at h
  · cases h
  · cases h
    obtain ⟨s, hs, rfl⟩ := List.mem_map.mp hd
    rcases List.mem_append.mp (mem_sortBy.mp hs) with hs | hs
    · obtain ⟨e, he, rfl⟩ := List.mem_map.mp hs
      exact .inl ⟨e, he, rfl⟩
    · exact .inr ⟨s, (List.mem_filter.mp hs).1, rfl⟩

/-- A collection found at a key is bound by a multibinding of that key. -/
theorem multibinding_of_aggregateWith {t : CollectionTable} {key : TypeKey}
    {inherited : List Source} {b : Binding} {errors : List GraphError}
    (h : t.aggregateWith key inherited = (some b, errors)) :
    ∃ origin shape allowEmpty sources dependencies,
      b = .multibinding key origin shape allowEmpty sources dependencies := by
  rw [aggregateWith] at h
  split at h
  · cases h
  · cases h
    exact ⟨_, _, _, _, _, rfl⟩

/-- Every group of elements has one. -/
def Filled (t : CollectionTable) : Prop := ∀ key, t.elements.get? key ≠ some []

/-- Dropping repetitions leaves the first element. -/
theorem eraseRepsBy_ne_nil {α : Type} (r : α → α → Bool) {as : List α} (h : as ≠ []) :
    as.eraseRepsBy r ≠ [] := by
  have looped : ∀ (as : List α) (a : α) (acc : List α), List.eraseRepsBy.loop r a as acc ≠ [] := by
    intro as
    induction as with
    | nil => intro a acc; simp [List.eraseRepsBy.loop]
    | cons b rest ih =>
        intro a acc
        rw [List.eraseRepsBy.loop]
        split
        · exact ih a acc
        · exact ih b _
  cases as with
  | nil => exact absurd rfl h
  | cons a rest => exact looped rest a []

theorem filled_ofDeclarations (declarations : List CollectionDeclaration)
    (elements : List Element) : (ofDeclarations declarations elements).Filled := by
  intro key h
  obtain ⟨group, hg, he⟩ := Option.map_eq_some_iff.mp ((SortedMap.get?_mapValues ..).symm.trans h)
  have hne : group ≠ [] := by
    rw [SortedMap.get?_group] at hg
    split at hg
    · cases hg
    · rename_i hfound
      exact Option.some.inj hg ▸ hfound
  refine eraseRepsBy_ne_nil Element.sameSite (fun h => hne ?_) he
  exact (h ▸ sortBy_perm Element.compare group).nil_eq.symm

theorem Filled.aggregateWith_ne_none {t : CollectionTable} (hf : t.Filled) {key : TypeKey}
    {inherited : List Source} {errors : List GraphError} (hc : t.isCollection key = true) :
    t.aggregateWith key inherited ≠ (none, errors) := by
  have shaped : t.collection? key ≠ none := by
    rw [isCollection, Bool.or_eq_true, SortedMap.contains_iff, SortedMap.contains_iff] at hc
    rw [collection?]
    split
    · simp
    · rename_i hd
      rcases hc with ⟨d, hd'⟩ | ⟨es, he⟩
      · rw [hd] at hd'
        cases hd'
      · rw [contributors, he]
        cases es with
        | nil => exact absurd he (hf key)
        | cons e rest => simp
  rw [aggregateWith]
  split
  · rename_i h
    exact absurd h shaped
  · simp

theorem mem_elements_of_contributors {t : CollectionTable} {key : TypeKey} {e : Element}
    (h : e ∈ t.contributors key) : e ∈ t.elements.values.flatten := by
  rw [contributors] at h
  cases he : t.elements.get? key with
  | none => simp [he] at h
  | some es =>
      rw [he] at h
      exact List.mem_flatten.mpr ⟨es, SortedMap.mem_values.mpr ⟨key, he⟩, h⟩

end CollectionTable

namespace Lookup

variable {l : Lookup} {key : TypeKey} {b : Binding}

/-- The sources handed to a collection are those of an ancestor. -/
theorem mem_sources_of_inherited {s : Source} (h : s ∈ l.inherited key) :
    ∃ a ∈ l.ancestors, s ∈ a.collections.values.flatten := by
  rw [inherited] at h
  cases hf : l.ancestors.findSome? fun a => a.collections.get? key with
  | none => simp [hf] at h
  | some sources =>
      rw [hf] at h
      obtain ⟨a, ha, hs⟩ := List.exists_of_findSome?_eq_some hf
      exact ⟨a, ha, List.mem_flatten.mpr ⟨sources, SortedMap.mem_values.mpr ⟨key, hs⟩, h⟩⟩

/-! ### The stages -/

/-- What looking a key up may bring, stage by stage. -/
inductive Resolves (l : Lookup) (key : TypeKey) : Finding → Prop where
  | registered {b : Binding} (hb : l.catalog.explicit.get? key = some b) (ha : b.isAlias = false) :
      Resolves l key { resolution := .found (l.ofExplicit key b) }
  | aliased {b : Binding} {chain : List TypeKey} (hb : l.catalog.explicit.get? key = some b)
      (hc : l.catalog.aliasChain key = .ok chain) :
      Resolves l key { resolution := .found (l.ofExplicit key b), chain := some chain }
  | looped {e : GraphError} (hc : l.catalog.aliasChain key = .error e) :
      Resolves l key { resolution := .failed, errors := [e] }
  | collected {b : Binding} {errors : List GraphError} (hn : l.catalog.explicit.get? key = none)
      (hb : l.collections.aggregateWith key (l.inherited key) = (some b, errors)) :
      Resolves l key { resolution := .found b, errors }
  | uncollected {errors : List GraphError} (hc : l.collections.isCollection key = true)
      (hb : l.collections.aggregateWith key (l.inherited key) = (none, errors)) :
      Resolves l key { resolution := .missing, errors }
  | inherited {a : Ancestor} (hn : l.catalog.explicit.get? key = none)
      (ha : l.provider? key = some a) :
      Resolves l key { resolution := .found (a.accessor key) }
  | owned {b : Binding} (hn : l.catalog.explicit.get? key = none) (hp : l.provider? key = none)
      (hb : l.catalog.index.synthesize? key = some b) (hs : l.scopeHolder? b = none) :
      Resolves l key { resolution := .found b }
  | promoted {b : Binding} {a : Ancestor} (hn : l.catalog.explicit.get? key = none)
      (hb : l.catalog.index.synthesize? key = some b) (hs : l.scopeHolder? b = some a) :
      Resolves l key
        { resolution := .found (a.accessor key)
          asked := if a.provides key then none else some a.id }
  | unknown (hb : l.catalog.index.synthesize? key = none) :
      Resolves l key { resolution := .missing }

theorem resolves (l : Lookup) (key : TypeKey) : l.Resolves key (l.resolve key) := by
  rw [resolve]
  split
  · rename_i b hb
    split
    · split
      · rename_i hc
        exact .aliased hb hc
      · rename_i hc
        exact .looped hc
    · rename_i ha
      exact .registered hb (Bool.eq_false_iff.mpr ha)
  · rename_i hn
    split
    · rename_i hc
      split
      · rename_i ha
        exact .collected hn ha
      · rename_i ha
        exact .uncollected hc ha
    · split
      · rename_i ha
        exact .inherited hn ha
      · rename_i hp
        split
        · rename_i b hb
          rw [ofImplicit]
          split
          · rename_i hs
            exact .promoted hn hb hs
          · rename_i hs
            exact .owned hn hp hb hs
        · rename_i hb
          exact .unknown hb

/-! ### Ancestors that hold a scope -/

theorem scopeHolder?_eq_some {a : Ancestor} (h : l.scopeHolder? b = some a) :
    a ∈ l.ancestors ∧ ∃ s, b.scope? = some s := by
  obtain ⟨s, hs, h⟩ := Option.bind_eq_some_iff.mp h
  split at h
  · cases h
  · exact ⟨List.mem_of_find?_eq_some h, s, hs⟩

/-- Where no ancestor holds the scope of a binding in the graph's stead, an allowed scope is the
graph's own. -/
theorem mem_scopes_of_scopeHolder? (h : l.scopeHolder? b = none) {s : Scope}
    (hs : b.scope? = some s) (ha : s ∈ l.scopes ∨ ∃ a ∈ l.ancestors, s ∈ a.scopes) :
    s ∈ l.scopes := by
  by_contra hn
  obtain ⟨a, ha, hsa⟩ := ha.resolve_left hn
  have hc : l.scopes.contains s = false := by simpa using hn
  rw [scopeHolder?, hs, Option.bind_some, hc] at h
  exact absurd (List.find?_eq_none.mp h a ha) (by simpa [Ancestor.holdsScope] using hsa)

/-- A registered binding is kept, or left to an ancestor that yields its key. -/
theorem ofExplicit_cases (l : Lookup) (key : TypeKey) (b : Binding) :
    l.ofExplicit key b = b ∨
      ∃ a ∈ l.ancestors, a.provides key = true ∧ l.ofExplicit key b = a.accessor key := by
  rw [ofExplicit]
  split
  · rename_i a ha
    split
    · rename_i hp
      exact .inr ⟨a, (scopeHolder?_eq_some ha).1, hp, rfl⟩
    · exact .inl rfl
  · exact .inl rfl

theorem provider?_eq_some {a : Ancestor} (h : l.provider? key = some a) :
    a ∈ l.ancestors ∧ a.provides key = true :=
  ⟨List.mem_of_find?_eq_some h, List.find?_some (p := fun a : Ancestor => a.provides key) h⟩

/-! ### Findings -/

/-- What is found is registered, an accessor to an ancestor that yields the key or is asked to, a
collection that the table aggregates, or made from the index. -/
theorem found_cases (h : (l.resolve key).resolution = .found b) :
    l.catalog.explicit.get? key = some b ∨
      (∃ a ∈ l.ancestors, b = a.accessor key ∧
        (a.provides key = true ∨ (l.resolve key).asked = some a.id)) ∨
      l.collections.aggregateWith key (l.inherited key) = (some b, (l.resolve key).errors) ∨
      l.catalog.index.synthesize? key = some b := by
  have hr := l.resolves key
  generalize l.resolve key = f at h hr ⊢
  cases hr with
  | @registered b' hb | @aliased b' _ hb =>
      rcases l.ofExplicit_cases key b' with he | ⟨a, ha, hp, he⟩
      · exact .inl (hb.trans (congrArg some (he.symm.trans (Resolution.found.inj h))))
      · exact .inr (.inl ⟨a, ha, (Resolution.found.inj h).symm.trans he, .inl hp⟩)
  | collected _ hb => cases h; exact .inr (.inr (.inl hb))
  | @inherited a _ hp =>
      cases h
      obtain ⟨ha, hp⟩ := provider?_eq_some hp
      exact .inr (.inl ⟨a, ha, rfl, .inl hp⟩)
  | owned _ _ hb => cases h; exact .inr (.inr (.inr hb))
  | @promoted _ a _ _ hs =>
      cases h
      refine .inr (.inl ⟨a, (scopeHolder?_eq_some hs).1, rfl, ?_⟩)
      cases a.provides key with
      | true => exact .inl rfl
      | false => exact .inr rfl
  | looped | uncollected | unknown => cases h

/-- A binding found for a key is one of that key. -/
theorem key_of_found (hk : l.catalog.Keyed) (h : (l.resolve key).resolution = .found b) :
    b.key = key := by
  rcases found_cases h with registered | ⟨a, -, rfl, -⟩ | collected | made
  · exact hk key b registered
  · rfl
  · obtain ⟨_, _, _, _, _, rfl⟩ := CollectionTable.multibinding_of_aggregateWith collected
    rfl
  · exact (Index.makes_of_synthesize? made).key_eq

/-- What a found binding depends on is in the vocabulary. -/
theorem vocabulary_of_found (h : (l.resolve key).resolution = .found b) {d : Dependency}
    (hd : d ∈ b.dependencies) : d.key ∈ l.vocabulary := by
  simp only [vocabulary, List.mem_append, List.mem_map, List.mem_flatMap]
  rcases found_cases h with registered | ⟨a, -, rfl, -⟩ | collected | made
  · exact .inl (.inl ⟨d, .inl ⟨b, SortedMap.mem_values.mpr ⟨key, registered⟩, hd⟩, rfl⟩)
  · cases hd
  · rcases CollectionTable.slot_of_aggregateWith collected hd with ⟨e, he, hk⟩ | ⟨s, hs, hk⟩
    · exact .inl (.inr ⟨e, CollectionTable.mem_elements_of_contributors he, hk.symm⟩)
    · obtain ⟨a, ha, hs⟩ := mem_sources_of_inherited hs
      exact .inr ⟨s, ⟨a, ha, hs⟩, hk.symm⟩
  · obtain ⟨c, hc, hd⟩ := (Index.makes_of_synthesize? made).dependency hd
    rcases hd with ⟨k, hk, p, hp, he⟩ | hd
    · exact .inl (.inl ⟨p.dependency, .inr ⟨c, hc, .inl ⟨k, hk, p, hp, rfl⟩⟩, he.symm⟩)
    · exact .inl (.inl ⟨d, .inr ⟨c, hc, .inr hd⟩, rfl⟩)

/-- A key whose aliases lead nowhere brings an error. -/
theorem errors_of_failed (h : (l.resolve key).resolution = .failed) :
    (l.resolve key).errors ≠ [] := by
  have hr := l.resolves key
  generalize l.resolve key = f at h hr ⊢
  cases hr with
  | looped => simp
  | registered | aliased | collected | uncollected | inherited | owned | promoted | unknown =>
      cases h

/-- Nothing can be made for a key that nothing yields. -/
theorem synthesize?_of_missing (hf : l.collections.Filled)
    (h : (l.resolve key).resolution = .missing) : l.catalog.index.synthesize? key = none := by
  have hr := l.resolves key
  generalize l.resolve key = f at h hr
  cases hr with
  | unknown hb => exact hb
  | uncollected hc hb => exact absurd hb (hf.aggregateWith_ne_none hc)
  | registered | aliased | looped | collected | inherited | owned | promoted => cases h

/-- Look-up finds no absence but one that is registered. -/
theorem registered_of_isAbsent (h : (l.resolve key).resolution = .found b)
    (hb : b.isAbsent = true) : l.catalog.explicit.get? key = some b := by
  rcases found_cases h with registered | ⟨a, -, rfl, -⟩ | collected | made
  · exact registered
  · cases hb
  · obtain ⟨_, _, _, _, _, rfl⟩ := CollectionTable.multibinding_of_aggregateWith collected
    cases hb
  · cases Index.makes_of_synthesize? made <;> cases hb

/-- An accessor that is not registered leads to an ancestor that yields the key, or is asked to. -/
theorem accessor_of_found {id : DeclarationId} (h : (l.resolve key).resolution = .found b)
    (hn : l.catalog.explicit.get? key ≠ some b) (hb : b.holder? = some id) :
    ∃ a ∈ l.ancestors, a.id = id ∧ (a.provides key = true ∨ (l.resolve key).asked = some id) := by
  rcases found_cases h with registered | ⟨a, ha, rfl, hp⟩ | collected | made
  · exact absurd registered hn
  · obtain rfl : a.id = id := Option.some.inj hb
    exact ⟨a, ha, rfl, hp⟩
  · obtain ⟨_, _, _, _, _, rfl⟩ := CollectionTable.multibinding_of_aggregateWith collected
    cases hb
  · cases Index.makes_of_synthesize? made <;> cases hb

/-- A binding made from the index is found only where no ancestor yields the key and none holds the
scope in the graph's stead. -/
theorem owned_of_found (h : (l.resolve key).resolution = .found b)
    (hn : l.catalog.explicit.get? key = none) (hb : l.catalog.index.synthesize? key = some b) :
    l.provider? key = none ∧ l.scopeHolder? b = none := by
  have made := Index.makes_of_synthesize? hb
  have hr := l.resolves key
  generalize l.resolve key = f at h hr
  cases hr with
  | registered hb' | aliased hb' => rw [hn] at hb'; cases hb'
  | collected _ ha =>
      cases h
      obtain ⟨_, _, _, _, _, rfl⟩ := CollectionTable.multibinding_of_aggregateWith ha
      cases made
  | inherited | promoted => cases h; cases made
  | owned _ hp _ hs => cases h; exact ⟨hp, hs⟩
  | looped | uncollected | unknown => cases h

/-- An ancestor is asked for a key that it does not yield, of a class with a scope. -/
theorem scoped_of_asked {id : DeclarationId} (h : (l.resolve key).asked = some id) :
    ∃ a ∈ l.ancestors, a.id = id ∧ a.provides key = false ∧
      (l.resolve key).resolution = .found (a.accessor key) ∧
      ∃ b s, l.catalog.index.synthesize? key = some b ∧ b.scope? = some s := by
  have hr := l.resolves key
  generalize l.resolve key = f at h hr ⊢
  cases hr with
  | @promoted b a _ hb hs =>
      obtain ⟨ha, s, hs⟩ := scopeHolder?_eq_some hs
      simp only [ite_eq_iff, reduceCtorEq, and_false, false_or, Option.some.injEq,
        Bool.not_eq_true] at h
      exact ⟨a, ha, h.2, h.1, rfl, b, s, hb, hs⟩
  | registered | aliased | looped | collected | uncollected | inherited | owned | unknown => cases h

end Lookup

end Wiring
