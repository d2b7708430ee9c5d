import Wiring.Proofs.Defaults
import Wiring.Proofs.Restriction

/-!
# Graphs built from one place

Builds that look keys up in one place (`BuildRequest.looked`) may start from different roots.  What
they bind they bind alike (`binding?_eq`), and what roots reach in one expansion they reach in
another one that has them among its roots (`reaches_of_roots`).

All but the order in which its keys were found can be read off the bindings of a graph: its edges,
the chains that look-up finds for its aliases (`get?_aliasChains`), its cycles and the order of its
scoped keys, which are those of its own bindings and edges (`mem_unordered_permittedCycles`,
`scopedOrder_eq`).  So graphs that bind the same keys agree (`agrees_of_contains_iff`).
-/

namespace Wiring

open Relation

/-! ### Chains of aliases -/

namespace Expansion

variable {l : Lookup} {x : Expansion}

/-- The chains of an expansion are those that look-up finds for its keys. -/
def ChainsFound (l : Lookup) (x : Expansion) : Prop :=
  ∀ k c, x.aliasChains.get? k = some c ↔ k ∈ x.order ∧ (l.resolve k).chain = some c

theorem aliasChains_request (l : Lookup) (x : Expansion) (key : TypeKey) (parent : Option TypeKey)
    (hasDefault : Bool) : (request l x key parent hasDefault).aliasChains = x.aliasChains := by
  unfold request
  split
  · split <;> rfl
  · split
    · split <;> rfl
    · rfl
    · rfl

/-- Requests one after the other leave the chains as they are. -/
theorem aliasChains_foldl {α : Type} (l : Lookup) (key : α → TypeKey) (parent : Option TypeKey)
    (hasDefault : α → Bool) (requests : List α) (x : Expansion) :
    (requests.foldl (fun x r => request l x (key r) parent (hasDefault r)) x).aliasChains =
      x.aliasChains :=
  List.foldlRecOn (motive := fun y : Expansion => y.aliasChains = x.aliasChains) requests _ rfl
    fun y hy r _ => (aliasChains_request l y (key r) parent (hasDefault r)).trans hy

theorem aliasChains_accept (l : Lookup) (x : Expansion) (b : Binding) :
    (accept l x b).aliasChains = x.aliasChains :=
  aliasChains_foldl l (fun d : Dependency => d.key) (some b.key) (fun d => d.hasDefault)
    b.dependencies (x.bound b)

/-- Only for what is found a chain is found. -/
theorem chain_eq_none {key : TypeKey} (h : ∀ b, (l.resolve key).resolution ≠ .found b) :
    (l.resolve key).chain = none := by
  have hr := l.resolves key
  generalize l.resolve key = f at h hr ⊢
  cases hr with
  | aliased => exact absurd rfl (h _)
  | registered | looped | collected | uncollected | inherited | owned | promoted | unknown => rfl

theorem get?_aliasChains_note (x : Expansion) (key : TypeKey) (f : Finding) (k : TypeKey) :
    (x.note key f).aliasChains.get? k =
      if k = key ∧ f.chain.isSome then f.chain else x.aliasChains.get? k := by
  simp only [note]
  cases f.chain with
  | none => simp
  | some chain => simp [SortedMap.get?_insert]

/-- A step keeps the chains right. -/
theorem ChainsFound.process (hk : l.catalog.Keyed) (hx : Coherent l x) (h : ChainsFound l x)
    {key : TypeKey} {rest : List TypeKey} (hq : x.queue = key :: rest) :
    ChainsFound l (process l { x with queue := rest } key) := by
  have free : key ∉ x.order := (hx.waiting key (hq ▸ List.mem_cons_self)).2
  have unchained : x.aliasChains.get? key = none :=
    Option.eq_none_iff_forall_ne_some.mpr fun c hc => free ((h key c).mp hc).1
  intro k c
  rcases process_cases l { x with queue := rest } key with ⟨b, hb, he⟩ | ⟨d, -, -, hnone, he⟩
  · have order : (Expansion.process l { x with queue := rest } key).order = x.order ++ [key] := by
      rw [he, (grows_accept _ _ b).order, ← hb.key_eq hk]
      rfl
    rw [order, he, aliasChains_accept, get?_aliasChains_note, List.mem_append,
      List.mem_singleton]
    by_cases hkey : k = key
    · subst hkey
      cases (l.resolve k).chain <;> simp [unchained]
    · simpa [hkey] using h k c
  · have order : (Expansion.process l { x with queue := rest } key).order = x.order := by
      rw [he]
      rfl
    have chains : (Expansion.process l { x with queue := rest } key).aliasChains =
        (note { x with queue := rest } key (l.resolve key)).aliasChains := by rw [he]
    rw [order, chains, get?_aliasChains_note, chain_eq_none hnone]
    simpa using h k c

theorem ChainsFound.reporting (h : ChainsFound l x) (d : Diagnostics) :
    ChainsFound l (x.reporting d) := h

end Expansion

namespace BuildRequest

variable {r r' : BuildRequest} {g g' : Graph} {k : TypeKey}

/-- The chains of a build's expansion are those that look-up finds for its keys. -/
theorem chainsFound_of_build (h : r.build = .ok g) :
    Expansion.ChainsFound r.looked r.expansion := by
  have start : Expansion.ChainsFound r.looked r.entered := fun k c => by
    have order : r.entered.order = [] := (r.grows_start r.looked (.ofCap 0)).order
    have chains : r.entered.aliasChains = .empty :=
      (Expansion.aliasChains_foldl r.looked id none (fun _ => false) _ _).trans
        (Expansion.aliasChains_foldl r.looked (fun e : EntryPoint => e.dependency.key) none
          (fun e => e.dependency.hasDefault) r.entryPoints { diagnostics := .ofCap 0 })
    simp [order, chains]
  refine expansion_of_build h (Expansion.ChainsFound r.looked) start ?_ ?_
  · intro x key rest hx found hq _
    exact found.process r.keyed_looked hx hq
  · intro x d found
    exact found.reporting d

theorem aliasChains_draft (r : BuildRequest) : r.draft.aliasChains = r.expansion.aliasChains := by
  rw [draft]
  generalize r.expansion = x
  rw [analyse]
  split <;> rfl

/-- **A graph has the chains that look-up finds for its keys.** -/
theorem get?_aliasChains (h : r.build = .ok g) {c : List TypeKey} :
    g.aliasChains.get? k = some c ↔
      g.contains k = true ∧ (r.looked.resolve k).chain = some c := by
  have hg := built_of_build h
  obtain ⟨hx, -⟩ := r.expansion_spec
  have stays : g.aliasChains.get? k = some c ↔
      r.expansion.aliasChains.get? k = some c ∧ r.Keeps k := by
    rw [eq_graph_of_build h, ← r.aliasChains_draft, keeps_iff]
    exact Draft.get?_aliasChains_shrink
  rw [stays, chainsFound_of_build h k c, hx.mem_order, hg.contains_iff, and_right_comm]

/-! ### What a graph says of itself -/

/-- A graph is the closed part of the expansion that it was built from. -/
theorem closedPart_of_build (h : r.build = .ok g) :
    ClosedPart g.bindings g.edges r.expansion.bindings r.expansion.edges.toList := by
  have hg := built_of_build h
  refine ⟨fun k b hb => ((hg.bindings k b).mp hb).1, fun e he => ?_, fun e he _ => ?_⟩
  · exact (hg.mem_edges e).trans (and_iff_left (hg.contains_iff.mp he).2)
  · exact hg.contains_target he

theorem mem_permittedCycles (h : r.build = .ok g) {c : PermittedCycle} :
    c ∈ g.permittedCycles ↔ c ∈ r.cycles.permitted ∧ ∀ k ∈ c.members, g.contains k = true := by
  have hg := built_of_build h
  have stays : c ∈ g.permittedCycles ↔
      c ∈ r.cycles.permitted ∧ ∀ k ∈ c.members, r.Keeps k := by
    simp only [keeps_iff, ← (draft_of_build h).2.1]
    rw [eq_graph_of_build h, show (r.graph r.kept _).permittedCycles = r.kept.permittedCycles from rfl,
      kept, Draft.mem_permittedCycles_shrink]
    exact and_congr_right' ⟨fun h k hk hs => h hs k hk, fun h hs k hk => h k hk hs⟩
  rw [stays]
  refine and_congr_right fun hc => forall₂_congr fun k hk => ?_
  rw [hg.contains_iff, and_iff_right]
  exact (((CycleAnalysis.mem_permitted_iff.mp hc).mem_members k hk k).mp hk).1

/-- **The permitted cycles of a graph are those of its bindings and edges**, but for the order of
their members. -/
theorem mem_unordered_permittedCycles (h : r.build = .ok g) {u : PermittedCycle} :
    u ∈ g.permittedCycles.map PermittedCycle.unordered ↔
      CycleAnalysis.IsBroken g.bindings g.edges u ∧ u.unordered = u := by
  have part := closedPart_of_build h
  have whole : ∀ {u}, u ∈ r.cycles.permitted.map PermittedCycle.unordered ↔ _ :=
    CycleAnalysis.mem_unordered_permitted
  constructor
  · intro hu
    obtain ⟨c, hc, rfl⟩ := List.mem_map.mp hu
    obtain ⟨hc, bound⟩ := (mem_permittedCycles h).mp hc
    obtain ⟨broken, same⟩ := whole.mp (List.mem_map_of_mem hc)
    exact ⟨(part.isBroken_iff fun k hk => bound k (PermittedCycle.mem_unordered.mp hk)).mpr broken,
      same⟩
  · rintro ⟨broken, same⟩
    have bound : ∀ k ∈ u.members, g.contains k = true := fun k hk =>
      ((broken.mem_members k hk k).mp hk).1
    obtain ⟨c, hc, rfl⟩ := List.mem_map.mp (whole.mpr ⟨(part.isBroken_iff bound).mp broken, same⟩)
    exact List.mem_map_of_mem ((mem_permittedCycles h).mpr
      ⟨hc, fun k hk => bound k (PermittedCycle.mem_unordered.mpr hk)⟩)

theorem nodup_unordered_permittedCycles (h : r.build = .ok g) :
    (g.permittedCycles.map PermittedCycle.unordered).Nodup := by
  have sublist : g.permittedCycles.Sublist r.cycles.permitted := by
    rw [eq_graph_of_build h, ← (draft_of_build h).2.1]
    exact Draft.permittedCycles_shrink_sublist
  exact CycleAnalysis.nodup_unordered_permitted.sublist (sublist.map _)

theorem deferredEdges_of_build (h : r.build = .ok g) {e : Edge} (hs : g.contains e.source = true) :
    e.ends ∈ g.deferredEdges.toList ↔ e.ends ∈ r.cycles.deferredEdges.toList := by
  constructor
  · intro hd
    obtain ⟨c, hc, hd⟩ := List.mem_flatMap.mp (SortedSet.mem_ofList.mp hd)
    exact CycleAnalysis.mem_deferredEdges.mpr ⟨c, ((mem_permittedCycles h).mp hc).1, hd⟩
  · exact fun hd => mem_deferredEdges_of_build h hd ((built_of_build h).contains_iff.mp hs).2

/-- **The scoped keys of a graph are in the order of its bindings and edges.** -/
theorem scopedOrder_eq (h : r.build = .ok g) :
    g.scopedOrder = scopedInitializationOrder g.bindings g.edges g.deferredEdges := by
  have hg := built_of_build h
  have stays : g.scopedOrder = r.draft.scopedOrder.filter (g.bindings.contains ·) := by
    have order : g.scopedOrder = r.kept.scopedOrder := by rw [eq_graph_of_build h]; rfl
    rw [order, kept, Draft.scopedOrder_shrink, (draft_of_build h).2.2]
    refine List.filter_congr fun k hk => ?_
    obtain ⟨b, hb, -⟩ := ((initialized r.ownKeys_expansion).mem_iff k).mp hk
    have bound := SortedMap.contains_iff.mpr ⟨b, hb⟩
    have kept : g.bindings.contains k = true ↔ r.Keeps k :=
      hg.contains_iff.trans (and_iff_right bound)
    rw [Bool.eq_iff_iff, kept, keeps_iff]
    cases r.options.shrinkUnusedBindings <;> simp
  rw [stays, (draft_of_build h).2.2]
  exact ((closedPart_of_build h).scopedOrder_eq_filter (fun e _ hs => deferredEdges_of_build h hs)
    r.ownKeys_expansion (acyclic_needs_of_build h)).symm

theorem properties_of_build (h : r.build = .ok g) :
    g.properties = .collect g.bindings g.aliasChains g.edges r.roots := by
  obtain rfl := eq_graph_of_build h
  rfl

theorem unused_of_build (h : r.build = .ok g) :
    g.unused = r.unusedKeys r.aggregated.1 r.reached := by
  obtain rfl := eq_graph_of_build h
  rfl

/-! ### Two graphs from one place -/

/-- A key is bound alike in all graphs that bind it. -/
theorem binding?_eq (h : r.build = .ok g) (h' : r'.build = .ok g') (hl : r'.looked = r.looked)
    (hk : g.contains k = true) (hk' : g'.contains k = true) : g'.binding? k = g.binding? k := by
  obtain ⟨b, hb⟩ := SortedMap.contains_iff.mp hk
  have answer : Expansion.Answers r'.looked k b := hl ▸ (built_of_build h).answers hb
  exact ((built_of_build h').binding?_of_answers hk' answer).trans hb.symm

/-- What roots reach in one expansion, they and others reach in another one that meets no error. -/
theorem reaches_of_roots (hl : r'.looked = r.looked)
    (clean : r'.expansion.diagnostics.isEmpty = true) (hr : r.roots ⊆ r'.roots)
    (h : Reaches r.expansion.edges.toList r.roots k) :
    Reaches r'.expansion.edges.toList r'.roots k ∧ r'.expansion.bindings.contains k = true := by
  obtain ⟨hx, -⟩ := r.expansion_spec
  obtain ⟨hx', closed, done, requested⟩ := r'.expansion_spec
  induction h with
  | root hk => exact ⟨.root (hr hk), hx'.bound_of_requested done clean (requested _ (hr hk))⟩
  | @edge e he _ ih =>
      obtain ⟨way, bound⟩ := ih
      obtain ⟨k, b, hb, hm⟩ := (hx.mem_edges e).mp he
      obtain ⟨d, hd, rfl⟩ := List.mem_map.mp hm
      -- both expansions bind the source to what look-up answers, and so with the same edges
      have answer := hx.answers k b hb
      obtain rfl := answer.key_eq r.keyed_looked
      obtain ⟨b', hb'⟩ := SortedMap.contains_iff.mp bound
      obtain rfl := answer.unique (hl ▸ hx'.answers _ b' hb')
      exact ⟨.edge ((hx'.mem_edges _).mpr ⟨_, b, hb', hm⟩) way,
        hx'.bound_of_requested done clean (closed _ b hb' d hd)⟩

end BuildRequest

/-- Graphs agree in all but the order in which their keys were found, and the order that it gives
the members of a cycle. -/
structure Graph.Agrees (g g' : Graph) : Prop where
  bindings : g'.bindings = g.bindings
  edges : g'.edges = g.edges
  aliasChains : g'.aliasChains = g.aliasChains
  scopedOrder : g'.scopedOrder = g.scopedOrder
  properties : g'.properties = g.properties
  unused : g'.unused = g.unused
  ancestorRequests : g'.ancestorRequests = g.ancestorRequests
  permittedCycles : (g'.permittedCycles.map PermittedCycle.unordered).Perm
    (g.permittedCycles.map PermittedCycle.unordered)

/-- Requests that ask for the same keys, and never for none, are equal. -/
theorem Requests.ext_toGraph {q q' : Requests}
    (hq : ∀ id keys, q.get? id = some keys → keys.toList ≠ [])
    (hq' : ∀ id keys, q'.get? id = some keys → keys.toList ≠ [])
    (h : ∀ id k, k ∈ (q.toGraph id).toList ↔ k ∈ (q'.toGraph id).toList) : q = q' := by
  refine SortedMap.ext_get? fun id => ?_
  have same : q.toGraph id = q'.toGraph id := SortedSet.ext_mem (h id)
  have asked : ∀ {q : Requests}, (∀ id keys, q.get? id = some keys → keys.toList ≠ []) →
      ∀ keys, q.get? id = some keys ↔ q.toGraph id = keys ∧ keys.toList ≠ [] := by
    intro q hq keys
    have nonempty := hq id keys
    rw [toGraph]
    constructor
    · intro hk
      exact ⟨by rw [hk]; rfl, nonempty hk⟩
    · rintro ⟨rfl, hne⟩
      cases hk : q.get? id with
      | none => exact absurd (by rw [hk]; rfl) hne
      | some found => rfl
  exact Option.ext fun keys => by rw [asked hq, asked hq', same]

/-- The order of the members of cycles has no part in what is deferred. -/
theorem Graph.mem_deferredEdges {g : Graph} {d : DeferredEdge} : d ∈ g.deferredEdges.toList ↔
    ∃ u ∈ g.permittedCycles.map PermittedCycle.unordered, d ∈ u.deferredEdges := by
  rw [deferredEdges, deferredEdgesOf, SortedSet.mem_ofList, List.mem_flatMap]
  simp only [List.mem_map, exists_exists_and_eq_and, PermittedCycle.unordered]

/-- Graphs whose cycles differ in their order only defer the same edges. -/
theorem Graph.deferredEdges_eq {g g' : Graph}
    (h : (g'.permittedCycles.map PermittedCycle.unordered).Perm
      (g.permittedCycles.map PermittedCycle.unordered)) :
    g'.deferredEdges = g.deferredEdges := by
  refine SortedSet.ext_mem fun d => ?_
  rw [mem_deferredEdges, mem_deferredEdges]
  exact exists_congr fun u => and_congr_left' h.mem_iff

namespace BuildRequest

variable {r r' : BuildRequest} {g g' : Graph} {k : TypeKey}

/-- **Graphs from one place that bind the same keys agree**, if they have the same roots and leave
the same keys unused. -/
theorem agrees_of_contains_iff (h : r.build = .ok g) (h' : r'.build = .ok g')
    (hl : r'.looked = r.looked) (roots : r'.roots = r.roots) (unused : g'.unused = g.unused)
    (same : ∀ k, g'.contains k = true ↔ g.contains k = true) : g.Agrees g' := by
  have hg := built_of_build h
  have hg' := built_of_build h'
  have bindings : g'.bindings = g.bindings := SortedMap.ext_get? fun k => by
    by_cases hk : g.contains k = true
    · exact binding?_eq h h' hl hk ((same k).mpr hk)
    · have unbound := SortedMap.not_contains_iff.mp (Bool.eq_false_iff.mpr hk)
      exact (SortedMap.not_contains_iff.mp
        (Bool.eq_false_iff.mpr fun hk' => hk ((same k).mp hk'))).trans unbound.symm
  have edges : g'.edges = g.edges := by
    refine eq_of_pairwise_of_mem_iff (fun e f hef hfe => ?_) hg'.edges_sorted hg.edges_sorted
      fun e => ?_
    · rw [Std.OrientedCmp.gt_of_lt hef] at hfe
      cases hfe
    · simp only [hg'.mem_edges_iff, hg.mem_edges_iff, Graph.binding?, bindings]
  have aliasChains : g'.aliasChains = g.aliasChains := SortedMap.ext_get? fun k =>
    Option.ext fun c => by rw [get?_aliasChains h', get?_aliasChains h, same, hl]
  have cycles : (g'.permittedCycles.map PermittedCycle.unordered).Perm
      (g.permittedCycles.map PermittedCycle.unordered) := by
    refine (List.perm_ext_iff_of_nodup (nodup_unordered_permittedCycles h')
      (nodup_unordered_permittedCycles h)).mpr fun u => ?_
    rw [mem_unordered_permittedCycles h', mem_unordered_permittedCycles h, bindings, edges]
  exact
    { bindings, edges, aliasChains, unused
      scopedOrder := by
        rw [scopedOrder_eq h', scopedOrder_eq h, bindings, edges, Graph.deferredEdges_eq cycles]
      properties := by
        rw [properties_of_build h', properties_of_build h, bindings, aliasChains, edges, roots]
      ancestorRequests := Requests.ext_toGraph hg'.asked_ne_nil hg.asked_ne_nil fun id k => by
        rw [hg'.mem_asked_iff, hg.mem_asked_iff, same, hl]
      permittedCycles := cycles }

/-- **Graphs of what the same roots reach agree**, if they are built from one place and from one
declaration. -/
theorem agrees_of_shrunk (h : r.build = .ok g) (h' : r'.build = .ok g')
    (hs : r.options.shrinkUnusedBindings = true) (hs' : r'.options.shrinkUnusedBindings = true)
    (hl : r'.looked = r.looked) (roots : r'.roots = r.roots) (hd : r'.declaration = r.declaration)
    (ha : r'.aggregated = r.aggregated) : g.Agrees g' := by
  have hg := built_of_build h
  have hg' := built_of_build h'
  have reached : ∀ k, Reaches r'.expansion.edges.toList r'.roots k ↔
      Reaches r.expansion.edges.toList r.roots k := fun k =>
    ⟨fun way => (reaches_of_roots hl.symm hg.clean (fun _ => (roots ▸ ·)) way).1,
      fun way => (reaches_of_roots hl hg'.clean (fun _ => (roots.symm ▸ ·)) way).1⟩
  refine agrees_of_contains_iff h h' hl roots ?_ fun k => ?_
  · have same : r'.reached = r.reached :=
      SortedSet.ext_mem fun k => by rw [mem_reached, mem_reached, reached]
    rw [unused_of_build h', unused_of_build h, unusedKeys, unusedKeys, declaredBindings,
      declaredBindings, same, hd, ha]
  · rw [hg'.contains_iff_reaches hs', hg.contains_iff_reaches hs, reached]

end BuildRequest

end Wiring
