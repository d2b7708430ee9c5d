import Wiring.Proofs.Reachability
import Wiring.Proofs.Remembering

/-!
# What a build that succeeds has done

A build yields a graph only if no error was ever reported, so its expansion ran to its end with
every requested key bound.  The graph is the part of that expansion on the keys kept: all of them,
or those that the roots reach (`Built`, `built_of_build`).
-/

namespace Wiring

/-! ### Shrinking a draft -/

namespace Draft

variable {d : Draft} {shrinks : Bool} {keep : TypeKey → Bool}

/-- A draft, or the part of it on the keys that `keep` accepts. -/
def shrink (d : Draft) (shrinks : Bool) (keep : TypeKey → Bool) : Draft :=
  if shrinks then d.restrict keep else d

theorem get?_shrink {k : TypeKey} {b : Binding} : (d.shrink shrinks keep).bindings.get? k = some b ↔
    d.bindings.get? k = some b ∧ (shrinks = true → keep k = true) := by
  cases shrinks <;> simp [shrink, restrict, SortedMap.get?_filter, Option.filter_eq_some_iff]

theorem mem_edges_shrink {e : Edge} : e ∈ (d.shrink shrinks keep).edges ↔
    e ∈ d.edges ∧ (shrinks = true → keep e.source = true) := by
  cases shrinks <;> simp [shrink, restrict]

theorem mem_order_shrink {k : TypeKey} : k ∈ (d.shrink shrinks keep).order ↔
    k ∈ d.order ∧ (shrinks = true → keep k = true) := by
  cases shrinks <;> simp [shrink, restrict]

theorem get?_aliasChains_shrink {k : TypeKey} {c : List TypeKey} :
    (d.shrink shrinks keep).aliasChains.get? k = some c ↔
      d.aliasChains.get? k = some c ∧ (shrinks = true → keep k = true) := by
  cases shrinks <;> simp [shrink, restrict, SortedMap.get?_filter, Option.filter_eq_some_iff]

theorem edges_shrink_sublist : (d.shrink shrinks keep).edges.Sublist d.edges := by
  cases shrinks with
  | false => exact .refl _
  | true => exact List.filter_sublist

theorem order_shrink_sublist : (d.shrink shrinks keep).order.Sublist d.order := by
  cases shrinks with
  | false => exact .refl _
  | true => exact List.filter_sublist

theorem mem_permittedCycles_shrink {c : PermittedCycle} :
    c ∈ (d.shrink shrinks keep).permittedCycles ↔
      c ∈ d.permittedCycles ∧ (shrinks = true → ∀ k ∈ c.members, keep k = true) := by
  cases shrinks <;> simp [shrink, restrict]

theorem permittedCycles_shrink_sublist :
    (d.shrink shrinks keep).permittedCycles.Sublist d.permittedCycles := by
  cases shrinks with
  | false => exact .refl _
  | true => exact List.filter_sublist

theorem scopedOrder_shrink :
    (d.shrink shrinks keep).scopedOrder = d.scopedOrder.filter fun k => !shrinks || keep k := by
  cases shrinks with
  | false => exact (List.filter_eq_self.mpr fun _ _ => rfl).symm
  | true => rfl

theorem sublist_scopedOrder_shrink {l : List TypeKey} (hl : l.Sublist d.scopedOrder)
    (hk : shrinks = true → ∀ k ∈ l, keep k = true) :
    l.Sublist (d.shrink shrinks keep).scopedOrder := by
  cases shrinks with
  | false => exact hl
  | true => exact List.filter_eq_self.mpr (hk rfl) ▸ hl.filter keep

/-- The requests of a shrunk draft: those for the keys that stay, unless none stays. -/
theorem get?_requests_shrink {id : DeclarationId} {keys : SortedSet TypeKey} :
    (d.shrink true keep).ancestorRequests.get? id = some keys ↔
      (∃ all, d.ancestorRequests.get? id = some all ∧ all.filter keep = keys) ∧
        keys.toList ≠ [] := by
  have hkeys : (!keys.isEmpty) = true ↔ keys.toList ≠ [] := by
    rw [Bool.not_eq_true', ← Bool.not_eq_true, ne_eq]
    exact not_congr List.isEmpty_iff
  simp only [shrink, restrict, if_true, SortedMap.get?_filter, SortedMap.get?_mapValues,
    Option.filter_eq_some_iff, Option.map_eq_some_iff, hkeys]

theorem mem_requests_shrink {id : DeclarationId} {k : TypeKey} :
    k ∈ (Requests.toGraph (d.shrink shrinks keep).ancestorRequests id).toList ↔
      k ∈ (Requests.toGraph d.ancestorRequests id).toList ∧ (shrinks = true → keep k = true) := by
  cases shrinks with
  | false => simp [shrink]
  | true =>
      simp only [Requests.mem_toGraph, get?_requests_shrink]
      constructor
      · rintro ⟨_, ⟨⟨all, ha, rfl⟩, -⟩, hk⟩
        obtain ⟨hk, hp⟩ := SortedSet.mem_filter.mp hk
        exact ⟨⟨all, ha, hk⟩, fun _ => hp⟩
      · rintro ⟨⟨all, ha, hk⟩, hp⟩
        have hk := SortedSet.mem_filter.mpr ⟨hk, hp trivial⟩
        exact ⟨_, ⟨⟨all, ha, rfl⟩, List.ne_nil_of_mem hk⟩, hk⟩

/-- Shrinking leaves no empty request where there was none. -/
theorem requests_shrink_ne_nil
    (hd : ∀ id keys, d.ancestorRequests.get? id = some keys → keys.toList ≠ []) :
    ∀ id keys, (d.shrink shrinks keep).ancestorRequests.get? id = some keys → keys.toList ≠ [] := by
  cases shrinks with
  | false => exact hd
  | true => exact fun id keys h => (get?_requests_shrink.mp h).2

end Draft

namespace BuildRequest

variable {r : BuildRequest} {g : Graph}

/-! ### The expansion of a build -/

/-- Where a build looks keys up. -/
def looked (r : BuildRequest) : Lookup := (r.lookup r.aggregated.1).1

/-- The bindings that a build registers before it looks anything up. -/
def registered (r : BuildRequest) : SortedMap TypeKey Binding :=
  ((Catalog.ofIndex r.index).registerAll (r.seeds r.aggregated.1)).1.explicit

/-- The errors before the expansion. -/
def early (r : BuildRequest) : Diagnostics :=
  ((Diagnostics.ofCap r.options.maxErrorsCount.toNat).reportAll r.aggregated.2).reportAll
    (r.lookup r.aggregated.1).2

/-- The expansion of a build at its end, told without the memory of its look-up. -/
def expansion (r : BuildRequest) : Expansion := (r.start r.looked r.early).run r.looked

theorem keyed_looked (r : BuildRequest) : r.looked.catalog.Keyed :=
  (Catalog.Keyed.registerAll (r.seeds r.aggregated.1) (Catalog.keyed_ofIndex r.index)).1

theorem index_looked (r : BuildRequest) : r.looked.catalog.index = r.index :=
  (Catalog.Keyed.registerAll (r.seeds r.aggregated.1) (Catalog.keyed_ofIndex r.index)).2

theorem filled_looked (r : BuildRequest) : r.looked.collections.Filled :=
  CollectionTable.filled_ofDeclarations _ _

/-- The keys checked although no root may reach them. -/
def checked (r : BuildRequest) (l : Lookup) : List TypeKey :=
  if r.options.validatesAllDeclarations then l.catalog.explicit.keys ++ l.collections.keys else []

theorem grows_start (r : BuildRequest) (l : Lookup) (d : Diagnostics) :
    Expansion.Grows (r.entryPoints.map (·.dependency.key) ++ (r.retained.toList ++ r.checked l))
      { diagnostics := d } (r.start l d) := by
  have roots := Expansion.grows_foldl l (fun e : EntryPoint => e.dependency.key) none
    (fun e => e.dependency.hasDefault) r.entryPoints { diagnostics := d }
  have others := Expansion.grows_foldl l id none (fun _ => false) (r.retained.toList ++ r.checked l)
    (r.entryPoints.foldl (fun x e => Expansion.request l x e.dependency.key none
      e.dependency.hasDefault) { diagnostics := d })
  rw [List.map_id] at others
  exact roots.trans others

/-- The expansion of a build is coherent before its first step. -/
theorem coherent_start (r : BuildRequest) :
    Expansion.Coherent r.looked (r.start r.looked r.early) := by
  have hcap : 0 < r.early.cap := by
    simp only [early, Diagnostics.cap_reportAll]
    exact Diagnostics.cap_ofCap_pos _
  exact (Expansion.coherent_initial hcap).grows (r.grows_start r.looked r.early)

theorem expansion_spec (r : BuildRequest) : Expansion.Coherent r.looked r.expansion ∧
    r.expansion.Closed ∧ r.expansion.isDone = true ∧
    ∀ k ∈ r.roots, r.expansion.requested.contains k = true := by
  have hg := r.grows_start r.looked r.early
  have hc : (r.start r.looked r.early).Closed := fun k b hb => by
    rw [hg.bindings] at hb
    cases hb
  obtain ⟨hx, hc, hd, hr⟩ :=
    Expansion.run_spec r.keyed_looked r.coherent_start hc
  refine ⟨hx, hc, hd, fun k hk => hr k ((hg.met k ?_).resolve_right (by simp [Expansion.isAbsent]))⟩
  rcases List.mem_append.mp hk with hk | hk
  · exact List.mem_append_left _ hk
  · exact List.mem_append_right _ (List.mem_append_left _ hk)

/-- Before anything is looked up, nothing is remembered. -/
theorem honest_looked (r : BuildRequest) : r.looked.Honest [] where
  chains := by
    have calls := (Catalog.coherent_ofIndex r.index).after
      ((r.seeds r.aggregated.1).map .register)
    rwa [Catalog.after_register] at calls
  implicits := Catalog.remembers_registerAll _ fun _ _ h => by cases h
  aggregated _ h := by cases h

/-- A build expands with a look-up that remembers, to the same end. -/
theorem runRemembering_start (r : BuildRequest) :
    (r.start r.looked r.early).runRemembering r.looked = r.expansion :=
  Expansion.runRemembering_eq r.honest_looked r.coherent_start.accounted

/-! ### From the expansion to the graph -/

/-- Whether a key stays in the graph. -/
def Keeps (r : BuildRequest) (key : TypeKey) : Prop :=
  r.options.shrinkUnusedBindings = true → Reaches r.expansion.edges.toList r.roots key

/-- The draft of a build at its end. -/
def draft (r : BuildRequest) : Draft := (r.analyse r.expansion).1

/-- The keys that the roots of a build reach. -/
def reached (r : BuildRequest) : SortedSet TypeKey := reachableFrom r.roots r.draft.edges

/-- The draft on the keys that stay in the graph. -/
def kept (r : BuildRequest) : Draft :=
  r.draft.shrink r.options.shrinkUnusedBindings fun key => r.reached.contains key

/-- The errors of a build. -/
def late (r : BuildRequest) : Diagnostics :=
  (r.analyse r.expansion).2.reportAll
    (r.unusedErrors r.aggregated.1 r.draft.bindings (r.unusedKeys r.aggregated.1 r.reached))

theorem build_eq (r : BuildRequest) :
    r.build = r.late.result (r.graph r.kept (r.unusedKeys r.aggregated.1 r.reached)) := by
  unfold build late kept Draft.shrink reached draft
  rw [← r.runRemembering_start]
  -- with pairs for the intermediate results the two sides agree by unfolding
  unfold early looked
  obtain ⟨added, errors⟩ := r.aggregated
  dsimp only

/-- A build that succeeds yields the graph of what stays. -/
theorem eq_graph_of_build (h : r.build = .ok g) :
    g = r.graph r.kept (r.unusedKeys r.aggregated.1 r.reached) := by
  rw [build_eq, Diagnostics.result_eq_ok] at h
  exact h.2.symm

theorem draft_fields (r : BuildRequest) : r.draft.bindings = r.expansion.bindings ∧
    r.draft.edges = r.expansion.edges.toList ∧ r.draft.order = r.expansion.order ∧
    r.draft.ancestorRequests = r.expansion.ancestorRequests := by
  rw [draft]
  generalize r.expansion = x
  rw [analyse]
  split <;> exact ⟨rfl, rfl, rfl, rfl⟩

/-- A scope mismatch is reported of every bound key whose scope is not allowed. -/
theorem allowed_of_scopeMismatches {graph : DeclarationId} {scopes : List Scope}
    {ancestors : List Ancestor} {bindings : SortedMap TypeKey Binding} {order : List TypeKey}
    (h : scopeMismatches graph (allowedScopes scopes ancestors) bindings order = []) {k : TypeKey}
    (hk : k ∈ order) {b : Binding} (hb : bindings.get? k = some b) {s : Scope}
    (hs : b.scope? = some s) : s ∈ scopes ∨ ∃ a ∈ ancestors, s ∈ a.scopes := by
  have hm := List.filterMap_eq_nil_iff.mp h b (List.mem_filterMap.mpr ⟨k, hk, hb⟩)
  rw [scopeMismatch?] at hm
  rw [hs] at hm
  dsimp only at hm
  split at hm
  · rename_i ha
    simpa [allowedScopes] using SortedSet.contains_iff.mp ha
  · cases hm

theorem analyse_isEmpty {x : Expansion} (hc : 0 < x.diagnostics.cap)
    (h : (r.analyse x).2.isEmpty = true) : x.diagnostics.isEmpty = true ∧
      scopeMismatches r.declaration.id (allowedScopes r.declaration.scopes r.ancestors) x.bindings
        x.order = [] := by
  rw [analyse] at h
  split at h
  · rename_i hl
    rw [Diagnostics.isEmpty_eq_false_of_limitReached hc hl] at h
    cases h
  · simp only [Diagnostics.isEmpty_reportAll, Bool.and_eq_true, List.isEmpty_iff] at h
    exact ⟨h.1.1, h.2⟩

/-- What a graph that was built is, given the expansion it was built from. -/
structure Built (r : BuildRequest) (g : Graph) : Prop where
  /-- The expansion met no error. -/
  clean : r.expansion.diagnostics.isEmpty = true
  /-- The scope of a bound key is held by the graph or an ancestor. -/
  allowed : ∀ k b s, r.expansion.bindings.get? k = some b → b.scope? = some s →
    s ∈ r.declaration.scopes ∨ ∃ a ∈ r.ancestors, s ∈ a.scopes
  /-- The graph is the one declared. -/
  id : g.id = r.declaration.id
  /-- Bindings stay if their keys do. -/
  bindings : ∀ k b, g.bindings.get? k = some b ↔ r.expansion.bindings.get? k = some b ∧ r.Keeps k
  /-- Edges stay if their sources do. -/
  mem_edges : ∀ e, e ∈ g.edges ↔ e ∈ r.expansion.edges.toList ∧ r.Keeps e.source
  edges_sorted : g.edges.Pairwise fun e f => compare e f = .lt
  /-- The order is that of the expansion. -/
  mem_order : ∀ k, k ∈ g.resolutionOrder ↔ k ∈ r.expansion.order ∧ r.Keeps k
  order_sublist : g.resolutionOrder.Sublist r.expansion.order
  /-- The declared keys that the roots do not reach are unused. -/
  mem_unused : ∀ k, k ∈ g.unused ↔ k ∈ (r.declaredBindings r.aggregated.1).map (·.key) ∧
    ¬ Reaches r.expansion.edges.toList r.roots k
  /-- Requests stay if their keys do, and no ancestor is asked for nothing. -/
  mem_asked : ∀ id k, k ∈ (Requests.toGraph g.ancestorRequests id).toList ↔
    k ∈ (Requests.toGraph r.expansion.ancestorRequests id).toList ∧ r.Keeps k
  asked_ne_nil : ∀ id keys, g.ancestorRequests.get? id = some keys → keys.toList ≠ []

theorem mem_reached {k : TypeKey} :
    k ∈ r.reached.toList ↔ Reaches r.expansion.edges.toList r.roots k := by
  rw [reached, mem_reachableFrom, r.draft_fields.2.1]

theorem keeps_iff {k : TypeKey} : r.Keeps k ↔
    (r.options.shrinkUnusedBindings = true → r.reached.contains k = true) := by
  rw [Keeps, SortedSet.contains_iff, mem_reached]

/-- The extensions of a graph are listed as declared. -/
theorem extensions_of_build (h : r.build = .ok g) :
    g.extensions = r.declaration.extensions.map (·.id) := by
  obtain rfl := eq_graph_of_build h
  rfl

theorem built_of_build (h : r.build = .ok g) : r.Built g := by
  rw [build_eq, Diagnostics.result_eq_ok] at h
  obtain ⟨hl, rfl⟩ := h
  obtain ⟨hx, -⟩ := r.expansion_spec
  obtain ⟨hb, he, ho, ha⟩ := r.draft_fields
  rw [late, Diagnostics.isEmpty_reportAll, Bool.and_eq_true] at hl
  obtain ⟨hclean, hscopes⟩ := analyse_isEmpty hx.capped hl.1
  have allowed : ∀ k b s, r.expansion.bindings.get? k = some b → b.scope? = some s →
      s ∈ r.declaration.scopes ∨ ∃ a ∈ r.ancestors, s ∈ a.scopes := fun k b s hk hs =>
    allowed_of_scopeMismatches hscopes
      ((hx.mem_order k).mpr (SortedMap.contains_iff.mpr ⟨b, hk⟩)) hk hs
  have unused : ∀ k, k ∈ r.unusedKeys r.aggregated.1 r.reached ↔
      k ∈ (r.declaredBindings r.aggregated.1).map (·.key) ∧
        ¬ Reaches r.expansion.edges.toList r.roots k := fun k => by
    rw [unusedKeys, SortedSet.mem_filter, SortedSet.mem_ofList, Bool.not_eq_true',
      SortedSet.not_contains_iff, mem_reached]
  have kept : ∀ k, r.Keeps k ↔ _ := fun k => keeps_iff
  rw [BuildRequest.kept]
  -- only these facts about the expansion and its draft are needed from here on
  generalize r.draft = d at hb he ho ha ⊢
  exact
    { clean := hclean
      allowed := allowed
      id := rfl
      bindings := fun k b => hb ▸ Draft.get?_shrink.trans (and_congr_right' (kept k).symm)
      mem_edges := fun e => he ▸ Draft.mem_edges_shrink.trans (and_congr_right' (kept _).symm)
      edges_sorted := (he ▸ r.expansion.edges.increasing).sublist Draft.edges_shrink_sublist
      mem_order := fun k => ho ▸ Draft.mem_order_shrink.trans (and_congr_right' (kept k).symm)
      order_sublist := ho ▸ Draft.order_shrink_sublist
      mem_unused := unused
      mem_asked := fun id k => ha ▸ Draft.mem_requests_shrink.trans (and_congr_right' (kept k).symm)
      asked_ne_nil := Draft.requests_shrink_ne_nil (ha.symm ▸ hx.asked_ne_nil) }

end BuildRequest

end Wiring
