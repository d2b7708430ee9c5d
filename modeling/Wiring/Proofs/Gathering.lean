import Wiring.Proofs.Aggregation
import Wiring.Proofs.Build
import Wiring.Proofs.Relisting

/-!
# What a collection gathers

A binding that a build registers was declared, was contributed, or fills a slot (`mem_registered`).
So where nobody declares the binding of a collection, a collection found at a key is one that the
table aggregates (`collected_of_found`).  Its sources are those of the own elements and those handed
to it, each slot once and in order; and the entries of a map have keys of different values, if
aggregating brings no error (`keyed_mergeSources`).
-/

namespace Wiring

open Std

/-! ### Registered bindings -/

theorem Contribution.isAlias_of_decide {slot : Slot} {candidates : List Contribution} {b : Binding}
    (h : decide slot candidates = .ok b) : b.isAlias = true := by
  unfold Contribution.decide at h
  split at h <;> cases h
  rfl

/-- A binding of the aggregated contributions is one of a container, or an alias. -/
theorem Contribution.mem_bindings_aggregate {provider : Scope → List Contribution}
    {scopes : List Scope} {excludes : List DeclarationId} {b : Binding}
    (h : b ∈ (aggregate provider scopes excludes).1.bindings) :
    (∃ c ∈ scopes.flatMap provider, b ∈ c.bindings) ∨ b.isAlias = true := by
  rcases List.mem_append.mp h with h | h
  · obtain ⟨c, hc, hb⟩ := List.mem_flatMap.mp h
    have hc := (List.mem_filter.mp (List.mem_filter.mp (List.mem_filter.mp hc).1).1).1
    exact .inl ⟨c, mem_gather.mp hc, hb⟩
  · obtain ⟨decision, hd, hb⟩ := List.mem_filterMap.mp h
    obtain ⟨⟨slot, cs⟩, -, rfl⟩ := List.mem_map.mp hd
    split at hb
    · rename_i won
      cases hb
      exact .inr (isAlias_of_decide won)
    · cases hb

theorem Catalog.mem_of_registerAll {key : TypeKey} {b : Binding} : ∀ {c : Catalog}
    {bs : List Binding}, (c.registerAll bs).1.explicit.get? key = some b →
      b ∈ bs ∨ c.explicit.get? key = some b
  | _, [], h => .inr h
  | c, b' :: rest, h => by
      rw [registerAll] at h
      split at h
      · rename_i c' hc
        refine (mem_of_registerAll h).elim (fun h => .inl (.tail _ h)) fun h => ?_
        rw [register] at hc
        split at hc
        · cases hc
          rcases SortedMap.get?_insert_cases h with ⟨-, rfl⟩ | h
          · exact .inl (.head _)
          · exact .inr h
        · split at hc
          · cases hc
            exact .inr h
          · cases hc
      · exact (mem_of_registerAll h).imp_left (.tail _)

/-- What is made for a slot is no collection. -/
theorem Element.kind_toBinding (e : Element) : e.toBinding.kind ≠ .multibinding := by
  rw [toBinding]
  split <;> exact fun h => by cases h

namespace BuildRequest

variable {r : BuildRequest} {key : TypeKey} {b : Binding}

/-- **A registered collection was declared or contributed.** -/
theorem mem_registered (h : r.registered.get? key = some b) (hb : b.kind = .multibinding) :
    b ∈ r.declaration.bindings ∨
      ∃ c ∈ r.declaration.effectiveAggregationScopes.flatMap r.provider, b ∈ c.bindings := by
  rcases Catalog.mem_of_registerAll h with h | h
  · simp only [seeds, List.mem_append, List.mem_cons, List.mem_map, List.mem_flatMap,
      includedBindings] at h
    rcases h with (((rfl | ⟨_, -, rfl⟩) | ⟨_, -, rfl | ⟨_, -, rfl⟩⟩) | h) | h
    iterate 4 cases hb
    · rcases List.mem_append.mp h with h | h
      · exact .inl h
      · rcases Contribution.mem_bindings_aggregate h with h | h
        · exact .inr h
        · cases b with
          | aliased => cases hb
          | _ => cases h
    · obtain ⟨e, -, rfl⟩ := List.mem_map.mp h
      exact absurd hb e.kind_toBinding
  · cases h

end BuildRequest

/-- A collection that is found is registered, or the table aggregates it. -/
theorem Lookup.collected_of_found {l : Lookup} {key : TypeKey} {b : Binding}
    (h : (l.resolve key).resolution = .found b) (hb : b.kind = .multibinding) :
    l.catalog.explicit.get? key = some b ∨
      l.collections.aggregateWith key (l.inherited key) = (some b, (l.resolve key).errors) := by
  rcases found_cases h with registered | ⟨a, -, rfl, -⟩ | collected | made
  · exact .inl registered
  · cases hb
  · exact .inr collected
  · cases Index.makes_of_synthesize? made <;> cases hb

/-! ### Shapes -/

/-- The key of a collection tells sets from maps. -/
theorem Collection.isMap_eq_of_key_eq {c d : Collection} (h : c.key = d.key) :
    c.isMap = d.isMap := by
  have first : ∀ s t : String, "Set<" ++ s ≠ "Map<" ++ t := by
    intro s t h
    have := congrArg String.toList h
    rw [String.toList_append, String.toList_append] at this
    exact absurd (List.cons.inj this).1 (by decide)
  cases c <;> cases d
  case set.set | map.map => rfl
  case set.map =>
    simp only [key, TypeKey.setOf, TypeKey.mapOf, TypeKey.mk.injEq, String.append_assoc] at h
    exact absurd h.1 (first _ _)
  case map.set =>
    simp only [key, TypeKey.setOf, TypeKey.mapOf, TypeKey.mk.injEq, String.append_assoc] at h
    exact absurd h.1.symm (first _ _)

namespace CollectionTable

/-- What stands in a table at a key is of collections with that key. -/
structure Filed (t : CollectionTable) : Prop where
  declarations : ∀ key d, t.declarations.get? key = some d → d.collection.key = key
  contributors : ∀ key, ∀ e ∈ t.contributors key, e.collection.key = key

theorem filed_ofDeclarations (declarations : List CollectionDeclaration)
    (elements : List Element) : (ofDeclarations declarations elements).Filed where
  declarations := by
    show ∀ key d, (mergeDeclarations declarations).get? key = some d → d.collection.key = key
    refine List.foldlRecOn (motive := fun m : SortedMap TypeKey CollectionDeclaration =>
      ∀ key d, m.get? key = some d → d.collection.key = key) declarations _
        (fun _ _ h => by cases h) fun m hm d _ key d' hd' => ?_
    rw [SortedMap.get?_alter] at hd'
    split at hd'
    · rename_i hk
      obtain rfl := Option.some.inj hd'
      split
      · rename_i c hc
        exact (hm _ c hc).trans hk.symm
      · exact hk.symm
    · exact hm key d' hd'
  contributors := by
    intro key e he
    rw [contributors, ofDeclarations, groupElements, SortedMap.get?_mapValues,
      SortedMap.get?_group] at he
    split at he
    · cases he
    · have := mem_sortBy.mp ((eraseRepsBy_sublist _ _).subset he)
      exact of_decide_eq_true (List.mem_filter.mp this).2

/-- The shape of the collection at a key is that of a collection with this key. -/
theorem Filed.key_of_collection? {t : CollectionTable} (ht : t.Filed) {key : TypeKey}
    {c : Collection} (h : t.collection? key = some c) : c.key = key := by
  rw [collection?] at h
  split at h
  · rename_i d hd
    exact Option.some.inj h ▸ ht.declarations key d hd
  · obtain ⟨e, he, rfl⟩ := Option.map_eq_some_iff.mp h
    exact ht.contributors key e (List.mem_of_head? he)

end CollectionTable

/-! ### Sources -/

instance : TransCmp Source.compare := inferInstanceAs (TransCmp (compareLex _ _))

namespace Source

/-- What the entry of a map is found by, for an entry of a map. -/
def value? (s : Source) : Option String := s.mapKey.map (·.value)

/-- Each source has a map key, and no two have map keys of one value. -/
structure Keyed (sources : List Source) : Prop where
  keyed : ∀ s ∈ sources, s.mapKey.isSome = true
  distinct : (sources.map value?).Nodup

theorem Keyed.perm {sources sources' : List Source} (h : Keyed sources)
    (hp : sources'.Perm sources) : Keyed sources' where
  keyed s hs := h.keyed s (hp.mem_iff.mp hs)
  distinct := (hp.map value?).nodup_iff.mpr h.distinct

theorem Keyed.filter {sources : List Source} (h : Keyed sources) (keep : Source → Bool) :
    Keyed (sources.filter keep) where
  keyed s hs := h.keyed s (List.mem_filter.mp hs).1
  distinct := h.distinct.sublist (List.filter_sublist.map value?)

end Source

namespace CollectionTable

/-- The map keys taken are those of the sources handed over. -/
theorem contains_takenMapKeys {sources : List Source} {value : String} :
    (takenMapKeys sources).contains value = true ↔ ∃ s ∈ sources, s.value? = some value := by
  -- what one source adds to the values taken
  obtain ⟨add, folded, entered⟩ :
      ∃ add : SortedMap String Origin → Source → SortedMap String Origin,
        takenMapKeys sources = sources.foldl add .empty ∧ ∀ m s,
          (add m s).contains value = true ↔ m.contains value = true ∨ s.value? = some value := by
    refine ⟨_, rfl, fun m s => ?_⟩
    cases hm : s.mapKey with
    | none => simp [Source.value?, hm]
    | some mapKey =>
        simp only [Source.value?, hm, Option.map_some, Option.some.injEq, SortedMap.contains_insert]
        rw [or_comm, eq_comm (a := value)]
  have taken : ∀ (sources : List Source) (m : SortedMap String Origin),
      (sources.foldl add m).contains value = true ↔
        m.contains value = true ∨ ∃ s ∈ sources, s.value? = some value := by
    intro sources
    induction sources with
    | nil => simp
    | cons s rest ih =>
        intro m
        rw [List.foldl_cons, ih, entered, List.exists_mem_cons_iff, or_assoc]
  rw [folded]
  exact (taken sources .empty).trans (or_iff_right fun h => by cases h)

/-- Elements that a map takes without error have map keys of different values, and of none that was
taken before. -/
theorem entries_of_elementErrors {key : TypeKey} {keyType : String} {value : TypeKey} :
    ∀ {taken : SortedMap String Origin} {own : List Element},
      elementErrors key (.map keyType value) taken own = [] →
        Source.Keyed (own.map Element.toSource) ∧
          ∀ e ∈ own, ∀ v, e.toSource.value? = some v → taken.contains v = false
  | _, [], _ => ⟨⟨by simp, .nil⟩, by simp⟩
  | taken, e :: rest, h => by
      cases hk : e.kind with
      | intoSet | elementsIntoSet => simp [elementErrors, hk] at h
      | intoMap mapKey =>
          have hv : e.toSource.value? = some mapKey.value := by
            simp only [Source.value?, Element.toSource, Element.mapKey?, hk, Option.map_some]
          cases free : taken.get? mapKey.value with
          | some => simp [elementErrors, hk, free] at h
          | none =>
              simp only [elementErrors, hk, free] at h
              obtain ⟨keyed, fresh⟩ := entries_of_elementErrors (List.append_eq_nil_iff.mp h).2
              -- no later entry has the value, which is taken from here on
              have later : ∀ f ∈ rest, ∀ v, f.toSource.value? = some v →
                  v ≠ mapKey.value ∧ taken.contains v = false := by
                intro f hf v hv
                have := Bool.eq_false_iff.mp (fresh f hf v hv)
                rw [ne_eq, SortedMap.contains_insert, not_or] at this
                exact ⟨this.1, Bool.eq_false_iff.mpr this.2⟩
              refine ⟨⟨?_, ?_⟩, ?_⟩
              · rw [List.map_cons, List.forall_mem_cons]
                exact ⟨by simp [Element.toSource, Element.mapKey?, hk], keyed.keyed⟩
              · rw [List.map_cons, List.map_cons, List.nodup_cons]
                refine ⟨fun hm => ?_, keyed.distinct⟩
                obtain ⟨s, hs, he⟩ := List.mem_map.mp hm
                obtain ⟨f, hf, rfl⟩ := List.mem_map.mp hs
                exact (later f hf _ (he.trans hv)).1 rfl
              · rw [List.forall_mem_cons]
                refine ⟨fun v he => ?_, fun f hf v hv => (later f hf v hv).2⟩
                obtain rfl := Option.some.inj (hv.symm.trans he)
                exact SortedMap.not_contains_iff.mpr free

/-- **What a map gathers without error has keys of different values**, if what is handed to it
has. -/
theorem keyed_mergeSources {key : TypeKey} {keyType : String} {value : TypeKey}
    {own : List Element} {foreign : List Source} (hf : Source.Keyed foreign)
    (h : elementErrors key (.map keyType value) (takenMapKeys foreign) own = []) :
    Source.Keyed (mergeSources own foreign) := by
  obtain ⟨hk, fresh⟩ := entries_of_elementErrors h
  refine Source.Keyed.perm ⟨fun s hs => ?_, ?_⟩ (sortBy_perm ..)
  · exact (List.mem_append.mp hs).elim (hk.keyed s) (hf.keyed s)
  · rw [List.map_append]
    refine List.nodup_append.mpr ⟨hk.distinct, hf.distinct, fun v hv w hw he => ?_⟩
    subst he
    obtain ⟨s, hs, rfl⟩ := List.mem_map.mp hv
    obtain ⟨t, ht, he⟩ := List.mem_map.mp hw
    obtain ⟨mapKey, hm⟩ := Option.isSome_iff_exists.mp (hk.keyed s hs)
    obtain ⟨e, he', rfl⟩ := List.mem_map.mp hs
    have hv : e.toSource.value? = some mapKey.value := by rw [Source.value?, hm, Option.map_some]
    have taken := contains_takenMapKeys.mpr ⟨t, ht, he.trans hv⟩
    rw [fresh e he' _ hv] at taken
    cases taken

/-- What aggregating yields at a key. -/
theorem aggregateWith_eq_some {t : CollectionTable} {key : TypeKey} {inherited : List Source}
    {b : Binding} {errors : List GraphError}
    (h : t.aggregateWith key inherited = (some b, errors)) :
    ∃ origin collection allowEmpty, t.collection? key = some collection ∧
      b = .multibinding key origin collection allowEmpty
        (mergeSources (t.contributors key) (foreignSources (t.contributors key) inherited))
        ((mergeSources (t.contributors key) (foreignSources (t.contributors key) inherited)).map
          fun s => { key := s.elementKey }) ∧
      (errors = [] → elementErrors key collection
        (takenMapKeys (foreignSources (t.contributors key) inherited)) (t.contributors key) =
          []) := by
  rw [aggregateWith] at h
  split at h
  · cases h
  · rename_i collection hc
    cases h
    exact ⟨_, collection, _, hc, rfl, fun h => (List.append_eq_nil_iff.mp h).2⟩

end CollectionTable

end Wiring
