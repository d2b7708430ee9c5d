import Wiring.Proofs.Agreement
import Wiring.Proofs.AliasChain
import Wiring.Proofs.Offering

/-!
# Where the aliases of a graph end

An alias that a graph binds is registered, and what it stands for is bound with it.  So from a bound
key the aliases of the graph lead as the registered ones do, all keys on the way are bound, and the
way ends at a key that is bound to no alias (`exists_leads`).  The chain recorded in the graph, the
plan for its values and a walk along its bindings all find this end (`aliases_resolved`).
-/

namespace Wiring

open AliasWalk

/-! ### Look-up -/

namespace Lookup

variable {l : Lookup} {key : TypeKey} {b : Binding}

/-- An alias is not left to an ancestor. -/
theorem ofExplicit_of_isAlias (h : b.isAlias = true) : l.ofExplicit key b = b := by
  have unscoped : b.scope? = none := by
    cases hs : b.scope? with
    | none => rfl
    | some s =>
        rw [Binding.isAlias_of_scope? hs] at h
        cases h
  rw [ofExplicit, scopeHolder?, unscoped]
  rfl

/-- An alias that is found is registered, and so is its chain. -/
theorem chained_of_found (h : (l.resolve key).resolution = .found b) (ha : b.isAlias = true) :
    l.catalog.explicit.get? key = some b ∧
      ∃ chain, (l.resolve key).chain = some chain ∧ l.catalog.aliasChain key = .ok chain := by
  have registered : l.catalog.explicit.get? key = some b := by
    rcases found_cases h with registered | ⟨a, -, rfl, -⟩ | collected | made
    · exact registered
    · cases ha
    · obtain ⟨_, _, _, _, _, rfl⟩ := CollectionTable.multibinding_of_aggregateWith collected
      cases ha
    · cases Index.makes_of_synthesize? made <;> cases ha
  refine ⟨registered, ?_⟩
  simp only [resolve, registered, ha, if_true] at h ⊢
  cases hc : l.catalog.aliasChain key with
  | ok chain => exact ⟨chain, rfl, rfl⟩
  | error =>
      rw [hc] at h
      cases h

/-- A registered alias is found as it is, or its aliases lead nowhere. -/
theorem resolution_of_isAlias (hb : l.catalog.explicit.get? key = some b)
    (ha : b.isAlias = true) :
    (l.resolve key).resolution = .found b ∨ (l.resolve key).resolution = .failed := by
  simp only [resolve, hb, ha, if_true]
  split
  · exact .inl (congrArg Resolution.found (ofExplicit_of_isAlias ha))
  · exact .inr rfl

/-- Only registered aliases have chains. -/
theorem isAlias_of_chain {chain : List TypeKey} (h : (l.resolve key).chain = some chain) :
    ∃ registered, l.catalog.explicit.get? key = some registered ∧ registered.isAlias = true := by
  rw [resolve] at h
  split at h
  · rename_i registered hr
    split at h
    · rename_i ha
      exact ⟨registered, hr, ha⟩
    · cases h
  · repeat' split at h
    all_goals first | cases h | skip
    rw [ofImplicit] at h
    split at h <;> cases h

end Lookup

namespace Expansion.Answers

variable {l : Lookup} {key : TypeKey} {b registered : Binding}

theorem found_of_isAlias (h : Answers l key b) (ha : b.isAlias = true) :
    (l.resolve key).resolution = .found b := by
  rcases h with found | ⟨-, rfl⟩
  · exact found
  · cases ha

/-- What is registered as an alias is answered as it is. -/
theorem eq_of_isAlias (h : Answers l key b)
    (hr : l.catalog.explicit.get? key = some registered) (ha : registered.isAlias = true) :
    b = registered := by
  rcases Lookup.resolution_of_isAlias hr ha with found | failed
  · exact h.unique (.inl found)
  · rcases h with found | ⟨missing, -⟩
    · rw [failed] at found
      cases found
    · rw [failed] at missing
      cases missing

end Expansion.Answers

/-! ### Aliases of a graph -/

/-- The key that a bound alias stands for. -/
def Graph.aliasTarget? (g : Graph) (key : TypeKey) : Option TypeKey :=
  (g.binding? key).bind (·.aliasTarget?)

theorem Binding.dependencies_of_aliasTarget? {b : Binding} {target : TypeKey}
    (h : b.aliasTarget? = some target) : ∃ d ∈ b.dependencies, d.key = target := by
  cases b with
  | aliased key origin d => exact ⟨d, .head _, Option.some.inj h⟩
  | _ => cases h

theorem Binding.aliasTarget?_eq_none {b : Binding} : b.aliasTarget? = none ↔ b.isAlias = false := by
  cases b <;> simp [aliasTarget?, isAlias]

namespace BuildRequest

variable {r : BuildRequest} {g : Graph} {k last : TypeKey} {b : Binding} {keys : List TypeKey}

/-- Where a graph binds a key, it binds an alias if that is registered, and no other. -/
theorem aliasTarget?_eq (h : r.build = .ok g) (hk : g.contains k = true) :
    g.aliasTarget? k = r.looked.catalog.aliasTarget? k := by
  obtain ⟨b, hb⟩ := SortedMap.contains_iff.mp hk
  have answer := (built_of_build h).answers hb
  rw [Graph.aliasTarget?, Graph.binding?, hb, Option.bind_some, Catalog.aliasTarget?]
  by_cases ha : b.isAlias = true
  · rw [(Lookup.chained_of_found (answer.found_of_isAlias ha) ha).1, Option.bind_some]
  · rw [Binding.aliasTarget?_eq_none.mpr (Bool.eq_false_iff.mpr ha)]
    cases hr : r.looked.catalog.explicit.get? k with
    | none => rfl
    | some registered =>
        refine (Binding.aliasTarget?_eq_none.mpr (Bool.eq_false_iff.mpr fun hra => ?_)).symm
        exact ha (answer.eq_of_isAlias hr hra ▸ hra)

/-- What a bound alias stands for is bound. -/
theorem contains_aliasTarget? (h : r.build = .ok g) {target : TypeKey}
    (ht : g.aliasTarget? k = some target) : g.contains target = true := by
  obtain ⟨b, hb, ht⟩ := Option.bind_eq_some_iff.mp ht
  obtain ⟨d, hd, rfl⟩ := Binding.dependencies_of_aliasTarget? ht
  exact (built_of_build h).contains_dependency hb hd

/-- From a bound key the aliases of a graph lead as the registered ones do, by bound keys. -/
theorem leads_of_registered (h : r.build = .ok g)
    (t : Leads r.looked.catalog.aliasTarget? k keys last) (hk : g.contains k = true) :
    Leads g.aliasTarget? k keys last ∧ ∀ l ∈ keys, g.contains l = true := by
  induction t with
  | here k => exact ⟨.here k, by simpa using hk⟩
  | step hn t ih =>
      rw [← aliasTarget?_eq h hk] at hn
      obtain ⟨t', bound⟩ := ih (contains_aliasTarget? h hn)
      exact ⟨.step hn t', List.forall_mem_cons.mpr ⟨hk, bound⟩⟩

/-- A graph has the registered chain of each alias that it binds, and of no other key. -/
theorem get?_aliasChains_iff (h : r.build = .ok g) : g.aliasChains.get? k = some keys ↔
    (∃ b, g.binding? k = some b ∧ b.isAlias = true) ∧
      r.looked.catalog.aliasChain k = .ok keys := by
  have hg := built_of_build h
  -- what is found with an alias is its chain
  have chained : ∀ b, g.binding? k = some b → b.isAlias = true →
      ((r.looked.resolve k).chain = some keys ↔ r.looked.catalog.aliasChain k = .ok keys) := by
    intro b hb ha
    obtain ⟨-, chain, hc, hok⟩ :=
      Lookup.chained_of_found ((hg.answers hb).found_of_isAlias ha) ha
    rw [hc, hok, Option.some_inj, Except.ok.injEq]
  rw [get?_aliasChains h]
  constructor
  · rintro ⟨hk, hc⟩
    obtain ⟨b, hb⟩ := SortedMap.contains_iff.mp hk
    obtain ⟨registered, hr, ha⟩ := Lookup.isAlias_of_chain hc
    obtain rfl := (hg.answers hb).eq_of_isAlias hr ha
    exact ⟨⟨b, hb, ha⟩, (chained b hb ha).mp hc⟩
  · rintro ⟨⟨b, hb, ha⟩, hc⟩
    exact ⟨SortedMap.contains_iff.mpr ⟨b, hb⟩, (chained b hb ha).mpr hc⟩

/-- The chain of a bound alias leads by bound keys to one that is bound to no alias. -/
theorem leads_of_chain (h : r.build = .ok g) (hc : g.aliasChains.get? k = some keys) :
    ∃ last, Leads g.aliasTarget? k keys last ∧ g.aliasTarget? last = none ∧
      ∀ l ∈ keys, g.contains l = true := by
  obtain ⟨⟨b, hb, -⟩, hok⟩ := (get?_aliasChains_iff h).mp hc
  cases Catalog.aliasChain_iff.mp hok with
  | chain t he =>
      obtain ⟨t', bound⟩ := leads_of_registered h t (SortedMap.contains_iff.mpr ⟨b, hb⟩)
      have hlast := bound _ (List.mem_of_getLast? t.getLast?)
      exact ⟨_, t', (aliasTarget?_eq h hlast).trans he, bound⟩

/-- **From a bound key the aliases of a graph lead by bound keys to one that is no alias.** -/
theorem exists_leads (h : r.build = .ok g) (hk : g.contains k = true) :
    ∃ keys last, Leads g.aliasTarget? k keys last ∧ g.aliasTarget? last = none ∧
      (∀ l ∈ keys, g.contains l = true) ∧
      (g.aliasChains.get? k = some keys ∨ g.aliasChains.get? k = none ∧ keys = [k]) := by
  obtain ⟨b, hb⟩ := SortedMap.contains_iff.mp hk
  by_cases ha : b.isAlias = true
  · obtain ⟨-, keys, -, hok⟩ := Lookup.chained_of_found
      (((built_of_build h).answers hb).found_of_isAlias ha) ha
    have hc := (get?_aliasChains_iff h).mpr ⟨⟨b, hb, ha⟩, hok⟩
    obtain ⟨last, t, he, bound⟩ := leads_of_chain h hc
    exact ⟨keys, last, t, he, bound, .inl hc⟩
  · have he : g.aliasTarget? k = none := by
      rw [Graph.aliasTarget?, Graph.binding?, hb]
      exact Binding.aliasTarget?_eq_none.mpr (Bool.eq_false_iff.mpr ha)
    have unchained : g.aliasChains.get? k = none := by
      refine Option.eq_none_iff_forall_ne_some.mpr fun keys hc => ?_
      obtain ⟨⟨b', hb', ha'⟩, -⟩ := (get?_aliasChains_iff h).mp hc
      obtain rfl := Option.some.inj (hb'.symm.trans hb)
      exact ha ha'
    exact ⟨[k], k, .here k, he, by simpa using hk, .inr ⟨unchained, rfl⟩⟩

end BuildRequest

/-! ### Ends -/

/-- Following the bindings of a graph for enough steps leads to the end. -/
theorem AliasWalk.Leads.aliasEnd_eq {g : Graph} {k last : TypeKey} {keys : List TypeKey}
    (t : Leads g.aliasTarget? k keys last) (he : g.aliasTarget? last = none) :
    ∀ {steps : Nat}, keys.length ≤ steps + 1 →
      PropertyPlan.aliasEnd g.bindings steps k = last := by
  induction t with
  | here key =>
      intro steps _
      cases steps with
      | zero => rfl
      | succ steps =>
          have he : (g.bindings.get? key).bind (·.aliasTarget?) = none := he
          rw [PropertyPlan.aliasEnd, he]
  | @step key next last keys hn t ih =>
      intro steps hlen
      have hn : (g.bindings.get? key).bind (·.aliasTarget?) = some next := hn
      obtain ⟨rest, rfl⟩ := t.exists_cons
      simp only [List.length_cons] at hlen
      cases steps with
      | zero => omega
      | succ steps =>
          rw [PropertyPlan.aliasEnd, hn]
          exact ih he (by simp only [List.length_cons]; omega)

namespace BuildRequest

variable {r : BuildRequest} {g : Graph}

/-- The catalog of a build, when the chains of some keys have been asked for. -/
def catalogAsked (r : BuildRequest) (keys : List TypeKey) : Catalog :=
  (Catalog.ofIndex r.index).after
    ((r.seeds r.aggregated.1).map .register ++ keys.map .resolveAlias)

/-- The aliases of a graph lead to one end, however it is sought. -/
structure EndsAliases (r : BuildRequest) (g : Graph) : Prop where
  /-- The chain of a bound alias is the one that the catalog resolves, and all its keys are
  bound. -/
  chain : ∀ k b, g.binding? k = some b → b.isAlias = true → ∃ keys,
    g.aliasChains.get? k = some keys ∧ IsChain g.aliasTarget? k keys ∧
      (∀ l ∈ keys, g.contains l = true) ∧
      ∀ asked, ((r.catalogAsked asked).resolveAlias k).map (·.1) = .ok keys
  /-- Only bound aliases have chains. -/
  only : ∀ k keys, g.aliasChains.get? k = some keys →
    ∃ b, g.binding? k = some b ∧ b.isAlias = true
  /-- A walk along the bindings, the chain of the graph and the plan for its values find the same
  end, which is bound to no alias. -/
  ends : ∀ k, g.contains k = true → ∃ last b, g.binding? last = some b ∧ b.isAlias = false ∧
    (∃ n, met g.aliasTarget? k n = some last) ∧ g.terminalOf k = last ∧
    PropertyPlan.terminal g.bindings g.aliasChains k = last ∧
    PropertyPlan.aliasEnd g.bindings g.bindings.size k = last

/-- What a catalog answers does not depend on the chains asked for before. -/
theorem resolveAlias_catalogAsked (r : BuildRequest) (asked : List TypeKey) (k : TypeKey) :
    ((r.catalogAsked asked).resolveAlias k).map (·.1) = r.looked.catalog.aliasChain k := by
  have coherent := (Catalog.coherent_ofIndex r.index).after
    ((r.seeds r.aggregated.1).map .register ++ asked.map .resolveAlias)
  refine (coherent.resolveAlias_eq k).trans (Catalog.aliasChain_congr ?_ k)
  rw [Catalog.after, List.foldl_append]
  refine (Catalog.explicit_after_resolveAlias asked).trans ?_
  exact congrArg Catalog.explicit (Catalog.after_register (r.seeds r.aggregated.1))

theorem endsAliases_of_build (h : r.build = .ok g) : r.EndsAliases g where
  chain k b hb ha := by
    obtain ⟨-, keys, -, hok⟩ := Lookup.chained_of_found
      (((built_of_build h).answers hb).found_of_isAlias ha) ha
    have hc := (get?_aliasChains_iff h).mpr ⟨⟨b, hb, ha⟩, hok⟩
    obtain ⟨last, t, he, bound⟩ := leads_of_chain h hc
    exact ⟨keys, hc, isChain_iff.mpr (.chain t he), bound, fun asked =>
      (r.resolveAlias_catalogAsked asked k).trans hok⟩
  only k keys hc := ((get?_aliasChains_iff h).mp hc).1
  ends k hk := by
    obtain ⟨keys, last, t, he, bound, recorded⟩ := exists_leads h hk
    obtain ⟨b, hb⟩ := SortedMap.contains_iff.mp (bound last (List.mem_of_getLast? t.getLast?))
    have unaliased : b.isAlias = false := by
      rw [Graph.aliasTarget?, Graph.binding?, hb] at he
      exact Binding.aliasTarget?_eq_none.mp he
    -- the keys on the way are bound and differ, so there are not more of them than of bindings
    have short : keys.length ≤ g.bindings.size + 1 := by
      have hsub : keys ⊆ g.bindings.keys := fun l hl => SortedMap.mem_keys.mpr (bound l hl)
      have hle := (List.subperm_of_subset (t.nodup_of_ends he) hsub).length_le
      rw [SortedMap.keys, List.length_map] at hle
      exact Nat.le_succ_of_le hle
    have followed := t.aliasEnd_eq he short
    have walked : ∃ n, met g.aliasTarget? k n = some last := by
      obtain ⟨n, hn, hlast⟩ := List.getElem_of_mem (List.mem_of_getLast? t.getLast?)
      exact ⟨n, by rw [t.met_eq n hn, List.getElem?_eq_getElem hn, hlast]⟩
    refine ⟨last, b, hb, unaliased, walked, ?_, ?_, followed⟩
    · rcases recorded with hc | ⟨hc, rfl⟩
      · rw [Graph.terminalOf, hc, Option.bind_some, t.getLast?, Option.getD_some]
      · rw [Graph.terminalOf, hc]
        exact Option.some.inj t.getLast?
    · rcases recorded with hc | ⟨hc, -⟩
      · rw [PropertyPlan.terminal, hc, Option.bind_some, t.getLast?]
      · rw [PropertyPlan.terminal, hc]
        exact followed

/-- **Remembered chains are those of a plain walk**: whatever was registered and asked for, a
catalog answers what a walk along its bindings would find; and in a graph all ways to seek the end
of a bound key's aliases find the same key, which is bound to no alias. -/
theorem aliases_resolved : (∀ (i : Index) (calls : List Catalog.Call) (key : TypeKey),
      ((Catalog.ofIndex i).after calls).ResolvesPlainly key) ∧
    ∀ (r : BuildRequest) (g : Graph), r.build = .ok g → r.EndsAliases g :=
  ⟨fun i calls key => ((Catalog.coherent_ofIndex i).after calls).resolvesPlainly key,
    fun _ _ => endsAliases_of_build⟩

/-- A graph with an alias of an alias. -/
def renamed : BuildRequest :=
  (plain
    [.aliased ⟨"Repo", none⟩ (.of "repo") { key := ⟨"BaseRepo", none⟩ },
      .aliased ⟨"BaseRepo", none⟩ (.of "baseRepo") { key := ⟨"SqlRepo", none⟩ },
      .provided ⟨"SqlRepo", none⟩ (.of "sqlRepo") none []]).entering [⟨"Repo", none⟩]

/-- A chain that is known is forgotten when it grows, and one that comes back is never kept. -/
theorem aliases_resolved_renamed :
    let grown : List Catalog.Call :=
      [.register (.aliased ⟨"Repo", none⟩ (.of "repo") { key := ⟨"BaseRepo", none⟩ }),
        .resolveAlias ⟨"Repo", none⟩,
        .register (.aliased ⟨"BaseRepo", none⟩ (.of "baseRepo") { key := ⟨"Repo", none⟩ })]
    ((Catalog.ofIndex (.ofDeclarations [] [])).after grown).ResolvesPlainly ⟨"Repo", none⟩ ∧
    ((Catalog.ofIndex (.ofDeclarations [] [])).after grown).aliasChain ⟨"Repo", none⟩ =
      .error (.fatalCycle [⟨"Repo", none⟩, ⟨"BaseRepo", none⟩, ⟨"Repo", none⟩]
        (some (.of "repo"))) ∧
    ∃ g, renamed.build = .ok g ∧ g.terminalOf ⟨"Repo", none⟩ = ⟨"SqlRepo", none⟩ ∧
      renamed.EndsAliases g := by
  intro grown
  have built : renamed.build.toOption.map (·.terminalOf ⟨"Repo", none⟩) =
      some ⟨"SqlRepo", none⟩ := by decide +kernel
  refine ⟨aliases_resolved.1 _ grown _, by decide +kernel, ?_⟩
  cases h : renamed.build with
  | error => simp [h, Except.toOption] at built
  | ok g => exact ⟨g, rfl, by simpa [h, Except.toOption] using built,
      aliases_resolved.2 renamed g h⟩

end BuildRequest

end Wiring
