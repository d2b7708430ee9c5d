import Wiring.Proofs.Capping
import Wiring.Proofs.Initialization

/-!
# What the stages of a build report

Every stage of a build reports errors of its own kinds.  So an unresolved dependency is reported by
the expansion alone, and there by no look-up (`kind_of_mem_resolve`, `mem_stored_expansion`), and a
fatal cycle is one that the analysis of cycles finds or a loop of registered aliases
(`fatalCycle_of_report`).
-/

namespace Wiring

/-! ### Before the expansion -/

theorem Contribution.kind_of_decide {slot : Slot} {candidates : List Contribution} {e : GraphError}
    (h : decide slot candidates = .error e) : e.kind = .duplicateContribution := by
  unfold Contribution.decide at h
  split at h <;> cases h
  rfl

theorem Contribution.kind_of_mem_aggregate {provider : Scope → List Contribution}
    {scopes : List Scope} {excludes : List DeclarationId} {e : GraphError}
    (h : e ∈ (aggregate provider scopes excludes).2) :
    e.kind = .invalidContribution ∨ e.kind = .duplicateContribution := by
  rcases List.mem_append.mp h with h | h
  · obtain ⟨c, -, hc⟩ := List.mem_filterMap.mp h
    obtain ⟨_, -, rfl⟩ := Option.map_eq_some_iff.mp hc
    exact .inl rfl
  · obtain ⟨decision, hd, he⟩ := List.mem_filterMap.mp h
    obtain ⟨⟨slot, cs⟩, -, rfl⟩ := List.mem_map.mp hd
    split at he
    · cases he
    · rename_i tied
      cases he
      exact .inr (kind_of_decide tied)

theorem Catalog.kind_of_mem_registerAll {e : GraphError} : ∀ {c : Catalog} {bs : List Binding},
    e ∈ (c.registerAll bs).2 → e.kind = .duplicateBinding
  | _, [], h => by cases h
  | c, b :: rest, h => by
      rw [registerAll] at h
      split at h
      · exact kind_of_mem_registerAll h
      · rename_i e' he
        rcases List.mem_cons.mp h with rfl | h
        · rw [register] at he
          split at he
          · cases he
          · split at he
            · cases he
            · cases he
              rfl
        · exact kind_of_mem_registerAll h

/-! ### Look-up -/

theorem CollectionTable.kind_of_mem_elementErrors {key : TypeKey} {collection : Collection}
    {taken : SortedMap String Origin} {elements : List Element} {error : GraphError}
    (h : error ∈ elementErrors key collection taken elements) :
    error.kind = .multibinding ∨ error.kind = .duplicateMapKey := by
  -- an entry of a map may have a key of the wrong type, whatever else is wrong with it
  have mistyped : ∀ {fits : Prop} [Decidable fits] {message : String} {o : Option Origin},
      error ∈ (if fits then [] else [GraphError.multibinding key message o]) →
        error.kind = .multibinding := by
    intro fits _ message o hm
    split at hm
    · cases hm
    · exact List.mem_singleton.mp hm ▸ rfl
  fun_induction elementErrors key collection taken elements with
  | case1 => cases h
  | case2 _ _ _ _ _ _ _ hc _ _ _ ih =>
      rcases List.mem_append.mp h with h | h
      · exact .inl (mistyped h)
      · rcases List.mem_cons.mp h with rfl | h
        · exact .inr rfl
        · exact ih (hc ▸ h)
  | case3 _ _ _ _ _ _ _ hc _ _ ih =>
      exact (List.mem_append.mp h).elim (fun h => .inl (mistyped h)) fun h => ih (hc ▸ h)
  | case4 _ _ _ _ _ hc _ ih | case5 _ _ _ _ _ _ hc ih =>
      rcases List.mem_cons.mp h with rfl | h
      · exact .inl rfl
      · exact ih (hc ▸ h)
  | case6 _ _ _ _ hc _ ih => exact ih (hc ▸ h)

theorem CollectionTable.kind_of_mem_aggregateWith {t : CollectionTable} {key : TypeKey}
    {inherited : List Source} {e : GraphError} (h : e ∈ (t.aggregateWith key inherited).2) :
    e.kind = .multibinding ∨ e.kind = .duplicateMapKey := by
  rw [aggregateWith] at h
  split at h
  · cases h
  · rcases List.mem_append.mp h with h | h
    · rcases List.mem_append.mp h with h | h
      · obtain ⟨_, -, rfl⟩ := List.mem_map.mp h
        exact .inl rfl
      · split at h
        · exact .inl (List.mem_singleton.mp h ▸ rfl)
        · cases h
    · exact kind_of_mem_elementErrors h

/-- Looking a key up reports that its aliases lead nowhere, or what is wrong with a collection. -/
theorem Lookup.errors_cases {l : Lookup} {key : TypeKey} {e : GraphError}
    (h : e ∈ (l.resolve key).errors) :
    l.catalog.aliasChain key = .error e ∨ e.kind = .multibinding ∨ e.kind = .duplicateMapKey := by
  have collected : ∀ {t : CollectionTable} {inherited : List Source} {b : Option Binding}
      {errors : List GraphError}, t.aggregateWith key inherited = (b, errors) → e ∈ errors →
        e.kind = .multibinding ∨ e.kind = .duplicateMapKey := by
    intro t inherited b errors hb he
    have he : e ∈ (t.aggregateWith key inherited).2 := hb.symm ▸ he
    exact CollectionTable.kind_of_mem_aggregateWith he
  have hr := l.resolves key
  generalize l.resolve key = f at h hr
  cases hr with
  | looped hc => exact .inl (List.mem_singleton.mp h ▸ hc)
  | collected _ hb => exact .inr (collected hb h)
  | uncollected _ hb => exact .inr (collected hb h)
  | registered | aliased | inherited | owned | promoted | unknown => cases h

theorem Catalog.kind_of_aliasChain {c : Catalog} {key : TypeKey} {e : GraphError}
    (h : c.aliasChain key = .error e) : e.kind = .fatalCycle := by
  rw [aliasChain] at h
  split at h
  · cases h
  · cases h
    rfl

/-- Looking a key up reports no chain of requests. -/
theorem Lookup.kind_of_mem_resolve {l : Lookup} {key : TypeKey} {e : GraphError}
    (h : e ∈ (l.resolve key).errors) : e.kind ≠ .unresolvedDependency := by
  intro hk
  rcases errors_cases h with hc | hc | hc
  · cases hk.symm.trans (Catalog.kind_of_aliasChain hc)
  · cases hk.symm.trans hc
  · cases hk.symm.trans hc

/-! ### The expansion -/

namespace Expansion

variable {l : Lookup} {e : GraphError}

theorem kind_of_mem_requestErrors {x : Expansion} {key : TypeKey} {parent : Option TypeKey}
    {hasDefault : Bool} (h : e ∈ requestErrors l x key parent hasDefault) :
    e.kind = .unresolvedDependency := by
  rw [requestErrors] at h
  split at h
  · exact List.mem_singleton.mp h ▸ rfl
  · cases h

theorem kind_of_mem_dependencyErrors {parent : TypeKey} : ∀ {x : Expansion} {ds : List Dependency},
    e ∈ dependencyErrors l parent x ds → e.kind = .unresolvedDependency
  | _, [], h => by cases h
  | _, _ :: _, h =>
      (List.mem_append.mp h).elim kind_of_mem_requestErrors kind_of_mem_dependencyErrors

/-- A step tells what its look-up reports, and else chains of requests. -/
theorem processErrors_cases {x : Expansion} {key : TypeKey}
    (h : e ∈ processErrors l x key) :
    e ∈ (l.resolve key).errors ∨ e.kind = .unresolvedDependency := by
  refine (List.mem_append.mp h).imp_right fun h => ?_
  split at h
  · exact kind_of_mem_dependencyErrors h
  · cases h
  · split at h
    · cases h
    · exact List.mem_singleton.mp h ▸ rfl

theorem errorsWithin_cases {x : Expansion} : ∀ {n : Nat}, e ∈ errorsWithin l x n →
    (∃ key, e ∈ (l.resolve key).errors) ∨ e.kind = .unresolvedDependency
  | 0, h => by cases h
  | n + 1, h => by
      rcases List.mem_append.mp h with h | h
      · exact errorsWithin_cases h
      · rw [stepErrors] at h
        split at h
        · cases h
        · exact (processErrors_cases h).imp_left fun h => ⟨_, h⟩

end Expansion

/-! ### After the expansion -/

namespace BuildRequest

variable {r : BuildRequest}

/-- What a build has kept at its end was kept by its expansion, or is a cycle, a scope or an unused
key. -/
theorem stored_cases {e : GraphError} (h : e ∈ r.late.stored) :
    e ∈ r.expansion.diagnostics.stored ∨ e ∈ r.cycles.errors ∨
      e.kind = .scopeMismatch ∨ e.kind = .unusedBinding := by
  rw [late] at h
  rw [cycles]
  generalize r.expansion = x at h ⊢
  rcases Diagnostics.mem_stored_reportAll h with h | h
  · rw [analyse] at h
    split at h
    · exact .inl h
    · rcases Diagnostics.mem_stored_reportAll h with h | h
      · exact (Diagnostics.mem_stored_reportAll h).imp_right .inl
      · obtain ⟨b, -, hm⟩ := List.mem_filterMap.mp h
        rw [scopeMismatch?] at hm
        split at hm
        · split at hm <;> cases hm
          exact .inr (.inr (.inl rfl))
        · cases hm
  · rw [unusedErrors] at h
    split at h
    · cases h
    · cases h
    · obtain ⟨_, -, rfl⟩ := List.mem_map.mp h
      exact .inr (.inr (.inr rfl))

/-- Neither cycles and scopes nor unused keys are reported with a chain of requests. -/
theorem mem_stored_expansion {key : TypeKey} {chain : List TypeKey} {requestedBy : Option Origin}
    {hint : Option String}
    (h : .unresolvedDependency key chain requestedBy hint ∈ r.late.stored) :
    .unresolvedDependency key chain requestedBy hint ∈ r.expansion.diagnostics.stored := by
  rcases stored_cases h with h | h | h | h
  · exact h
  · cases CycleAnalysis.kind_of_mem_errors h
  · cases h
  · cases h

/-- The expansion of a build reports a cycle only where registered aliases lead around. -/
theorem looped_of_mem_stored_expansion {e : GraphError}
    (h : e ∈ r.expansion.diagnostics.stored) (hk : e.kind = .fatalCycle) :
    ∃ key, r.looked.catalog.aliasChain key = .error e := by
  obtain ⟨n, hn⟩ := r.exists_endsAfter
  rw [hn.expansion] at h
  have heard : e ∈ r.heard n := (Diagnostics.mem_stored_reportAll h).resolve_left (by
    simp [Diagnostics.ofCap])
  rcases List.mem_append.mp heard with early | h
  · rcases List.mem_append.mp early with h | h
    · rcases Contribution.kind_of_mem_aggregate h with h | h <;> cases hk.symm.trans h
    · cases hk.symm.trans (Catalog.kind_of_mem_registerAll h)
  · rcases Expansion.errorsWithin_cases h with ⟨key, h⟩ | h
    · rcases Lookup.errors_cases h with h | h | h
      · exact ⟨key, h⟩
      · cases hk.symm.trans h
      · cases hk.symm.trans h
    · cases hk.symm.trans h

/-- **Where fatal cycles come from**: the analysis of cycles, or aliases that lead around. -/
theorem fatalCycle_of_report {report : ErrorReport} (h : r.build = .error report) {e : GraphError}
    (he : e ∈ report.errors) (hk : e.kind = .fatalCycle) :
    e ∈ r.cycles.errors ∨ ∃ key, r.looked.catalog.aliasChain key = .error e := by
  rw [build_eq, Diagnostics.result] at h
  split at h
  · cases h
  · obtain rfl := Except.error.inj h
    rcases stored_cases he with he | he | he | he
    · exact .inr (looped_of_mem_stored_expansion he hk)
    · exact .inl he
    · cases hk.symm.trans he
    · cases hk.symm.trans he

end BuildRequest

end Wiring
