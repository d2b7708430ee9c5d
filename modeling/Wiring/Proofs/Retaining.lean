import Wiring.Proofs.Absence
import Wiring.Proofs.Agreement
import Wiring.Proofs.Offering

/-!
# Retaining more keys

Keys that a graph retains are further roots of its build (`BuildRequest.retaining`), and have no part
in where it looks keys up.  So more of them leave a graph with all that it binds
(`contains_of_retaining`): the roots reach more, and if nothing is dropped, the expansion with more
roots binds a closed kind of keys from which the one with fewer cannot lead out (`kept_of_closed`).

Whatever the reason for which one graph binds all keys that another one from the same place binds,
the other is a closed part of it (`closedPart_of_contains`).  What a graph says of its own keys is
then the same in both, down to the order of its scoped keys, which are those of the larger graph cut
down to its keys (`partOf_of_contains`).
-/

namespace Wiring

open Relation

/-- A graph is a part of another one, which says the same of its keys, and offers what it offers to
the graphs that extend it. -/
structure Graph.PartOf (g g' : Graph) : Prop where
  bindings : ∀ k b, g.bindings.get? k = some b → g'.bindings.get? k = some b
  aliasChains : ∀ k chain, g.aliasChains.get? k = some chain → g'.aliasChains.get? k = some chain
  edges : ∀ e ∈ g.edges, e ∈ g'.edges
  /-- The keys that the graph yields. -/
  yields : ∀ k ∈ (Ancestor.ofGraph g).keys.toList, k ∈ (Ancestor.ofGraph g').keys.toList
  /-- The sources of the collections that the graph binds. -/
  gathered : ∀ k sources, (Ancestor.ofGraph g).collections.get? k = some sources →
    (Ancestor.ofGraph g').collections.get? k = some sources
  scopedOrder : g.scopedOrder = g'.scopedOrder.filter (g.contains ·)

namespace BuildRequest

variable {r r' : BuildRequest} {g g' : Graph} {k : TypeKey}

/-! ### A graph within another one from the same place -/

/-- The handles that a graph defers are those that the cycles among its bindings and edges break
at. -/
theorem mem_deferredEdges_iff (h : r.build = .ok g) {d : DeferredEdge} :
    d ∈ g.deferredEdges.toList ↔
      ∃ c, CycleAnalysis.IsBroken g.bindings g.edges c ∧ c.unordered = c ∧ d ∈ c.deferredEdges := by
  simp only [Graph.mem_deferredEdges, mem_unordered_permittedCycles h, and_assoc]

/-- Nothing that a graph initialises needs itself. -/
theorem acyclic_needs_of_graph (h : r.build = .ok g) (k : TypeKey) :
    ¬ TransGen (NeedsScoped g.bindings g.edges g.deferredEdges) k k := fun around => by
  refine acyclic_needs_of_build h k (TransGen.mono (fun a b hab => ?_) _ _ around)
  obtain ⟨_, bound, -⟩ := hab.1
  exact ((closedPart_of_build h).needsScoped_iff (fun _ _ hs => deferredEdges_of_build h hs)
    (SortedMap.contains_iff.mpr ⟨_, bound⟩)).mp hab

section Part

variable (h : r.build = .ok g) (h' : r'.build = .ok g') (hl : r'.looked = r.looked)
  (hsub : ∀ k, g.contains k = true → g'.contains k = true)

include h h' hl hsub

/-- **A graph within another one from the same place is a closed part of it.** -/
theorem closedPart_of_contains : ClosedPart g.bindings g.edges g'.bindings g'.edges := by
  have hg := built_of_build h
  have hg' := built_of_build h'
  have same : ∀ k, g.contains k = true → g'.binding? k = g.binding? k := fun k hk =>
    binding?_eq h h' hl hk (hsub k hk)
  constructor
  case get? =>
    intro k b hb
    exact (same k (SortedMap.contains_iff.mpr ⟨b, hb⟩)).trans hb
  case mem_edges =>
    intro e bound
    rw [hg.mem_edges_iff, hg'.mem_edges_iff]
    constructor
    · rintro ⟨k, b, hb, he⟩
      exact ⟨k, b, (same k (SortedMap.contains_iff.mpr ⟨b, hb⟩)).trans hb, he⟩
    · rintro ⟨k, b, hb, he⟩
      obtain ⟨d, hd, rfl⟩ := List.mem_map.mp he
      obtain rfl := hg'.key_eq hb
      exact ⟨b.key, b, (same b.key bound).symm.trans hb, he⟩
  case closed =>
    intro e he _
    exact hg.contains_target he

/-- The scoped keys of a graph within another one are in the order of the other one. -/
theorem scopedOrder_eq_filter_of_contains :
    g.scopedOrder = g'.scopedOrder.filter (g.contains ·) := by
  have part := closedPart_of_contains h h' hl hsub
  have deferred : ∀ e ∈ g.edges, g.bindings.contains e.source = true →
      (e.ends ∈ g.deferredEdges.toList ↔ e.ends ∈ g'.deferredEdges.toList) := by
    intro e _ bound
    rw [mem_deferredEdges_iff h, mem_deferredEdges_iff h']
    exact part.exists_isBroken_iff bound
  rw [scopedOrder_eq h, scopedOrder_eq h']
  exact part.scopedOrder_eq_filter deferred (fun k b hb => (built_of_build h').key_eq hb)
    (acyclic_needs_of_graph h')

/-- **A graph within another one from the same place is a part of it.** -/
theorem partOf_of_contains : g.PartOf g' := by
  have hg := built_of_build h
  have hg' := built_of_build h'
  have part := closedPart_of_contains h h' hl hsub
  constructor
  case bindings => exact part.get?
  case aliasChains =>
    intro k chain hc
    obtain ⟨hk, found⟩ := (get?_aliasChains h).mp hc
    exact (get?_aliasChains h').mpr ⟨hsub k hk, hl ▸ found⟩
  case edges =>
    intro e he
    obtain ⟨k, b, hb, hm⟩ := hg.mem_edges_iff.mp he
    exact hg'.mem_edges_iff.mpr ⟨k, b, part.get? k b hb, hm⟩
  case yields =>
    intro k hk
    obtain ⟨b, hb, valued⟩ := hg.provides_iff.mp (SortedSet.contains_iff.mpr hk)
    exact SortedSet.contains_iff.mp (hg'.provides_iff.mpr ⟨b, part.get? k b hb, valued⟩)
  case gathered =>
    intro k sources hs
    obtain ⟨b, hb, hs⟩ := hg.get?_collections.mp hs
    exact hg'.get?_collections.mpr ⟨b, part.get? k b hb, hs⟩
  case scopedOrder => exact scopedOrder_eq_filter_of_contains h h' hl hsub

end Part

/-! ### More keys to retain -/

/-- The request for a graph that retains other keys. -/
def retaining (r : BuildRequest) (keys : SortedSet TypeKey) : BuildRequest :=
  { r with retained := keys }

/-- What an expansion binds is of a kind that holds its first requests, if keys of the kind depend
on such keys only. -/
theorem kept_of_closed (kept : TypeKey → Prop) (h : r.build = .ok g)
    (closed : ∀ k b, kept k → Expansion.Answers r.looked k b → ∀ d ∈ b.dependencies, kept d.key)
    (entered : ∀ k, r.entered.requested.contains k = true → kept k)
    (hk : r.expansion.bindings.contains k = true) : kept k := by
  have known := expansion_of_build h (fun x => ∀ k, x.requested.contains k = true → kept k)
    entered ?_ fun x d known => known
  · obtain ⟨hx, -⟩ := r.expansion_spec
    exact known k (hx.requested k ((hx.mem_order k).mpr hk))
  · intro x key rest hx known hq _
    have requested := (hx.waiting key (hq ▸ List.mem_cons_self)).1
    exact Expansion.known_process closed known (known key requested) rest

theorem looked_retaining (r : BuildRequest) (keys : SortedSet TypeKey) :
    (r.retaining keys).looked = r.looked := rfl

section Retaining

variable {few many : SortedSet TypeKey} (hsub : few.toList ⊆ many.toList)

include hsub

theorem roots_retaining : (r.retaining few).roots ⊆ (r.retaining many).roots := by
  intro k hk
  rcases List.mem_append.mp (mem_roots.mp hk) with hk | hk
  · exact mem_roots.mpr (List.mem_append_left _ hk)
  · exact mem_roots.mpr (List.mem_append_right _ (hsub hk))

variable (h : (r.retaining few).build = .ok g) (h' : (r.retaining many).build = .ok g')

include h h'

/-- What a graph binds it binds if more keys are retained. -/
theorem contains_of_retaining (hk : g.contains k = true) : g'.contains k = true := by
  have hg := built_of_build h
  have hg' := built_of_build h'
  have looked := (looked_retaining r many).trans (looked_retaining r few).symm
  have roots : (r.retaining few).roots ⊆ (r.retaining many).roots := roots_retaining hsub
  cases hs : r.options.shrinkUnusedBindings with
  | true =>
      have way := (hg.contains_iff_reaches hs).mp hk
      exact hg'.contains_of_reaches (reaches_of_roots looked hg'.clean roots way).1
  | false =>
      -- nothing is dropped, so what the second build requested stays
      have stays : ∀ k, (r.retaining many).expansion.requested.contains k = true →
          g'.contains k = true := fun k hr =>
        hg'.contains_iff.mpr ⟨hg'.bound_of_requested hr, fun hs' => by cases hs.symm.trans hs'⟩
      refine kept_of_closed (g'.contains · = true) h (fun k b hk hb d hd => ?_) (fun k hk => ?_)
        (hg.contains_iff.mp hk).1
      · exact hg'.contains_of_answers hk (looked ▸ hb) hd
      · have first := mem_of_requested_entered hk
        rw [← List.append_assoc] at first
        rcases List.mem_append.mp first with root | checked
        · exact hg'.contains_root (roots root)
        · have wanted : (r.retaining many).Wants k false := .root (enters_of_mem_checked checked)
          exact stays k (wanted.met h').1

/-- **Retaining more keys only adds to a graph.**  Two graphs that are built alike, but for the keys
that they retain, are a part one of the other if one retains what the other does: in their bindings,
edges and chains, in what they offer to the graphs that extend them, and in the order of their
scoped keys. -/
theorem partOf_of_retaining : g.PartOf g' :=
  have looked := (looked_retaining r many).trans (looked_retaining r few).symm
  partOf_of_contains h h' looked fun _ => contains_of_retaining hsub h h'

end Retaining

/-- A graph with two scoped keys that lead to each other, and a third that no entry point reaches,
and that leads to one of them through an alias. -/
def dormant : BuildRequest :=
  { circular with
    declaration :=
      { circular.declaration with
        bindings := circular.declaration.bindings ++
          [.provided ⟨"Accounts", none⟩ (.of "accounts") (some ⟨"App"⟩)
              [{ key := ⟨"Store", none⟩ }],
            .aliased ⟨"Store", none⟩ (.of "store") { key := ⟨"Db", none⟩ }] } }

/-- The keys that are added have their place in the order, among those that were there before. -/
theorem partOf_of_retaining_dormant :
    (SortedSet.empty : SortedSet TypeKey).toList ⊆ (SortedSet.ofList [⟨"Accounts", none⟩]).toList ∧
    ∃ g g', (dormant.retaining .empty).build = .ok g ∧
      (dormant.retaining (.ofList [⟨"Accounts", none⟩])).build = .ok g' ∧
      g.scopedOrder = [⟨"Db", none⟩, ⟨"Api", none⟩] ∧
      g'.scopedOrder = [⟨"Db", none⟩, ⟨"Accounts", none⟩, ⟨"Api", none⟩] ∧
      g'.aliasChains.entries.length = 1 ∧ g.PartOf g' := by
  have fewer : (dormant.retaining .empty).build.toOption.map (·.scopedOrder) =
      some [⟨"Db", none⟩, ⟨"Api", none⟩] := by decide +kernel
  have more : (dormant.retaining (.ofList [⟨"Accounts", none⟩])).build.toOption.map
      (fun g => (g.scopedOrder, g.aliasChains.entries.length)) =
        some ([⟨"Db", none⟩, ⟨"Accounts", none⟩, ⟨"Api", none⟩], 1) := by decide +kernel
  have sub : (SortedSet.empty : SortedSet TypeKey).toList ⊆
      (SortedSet.ofList [⟨"Accounts", none⟩]).toList := List.nil_subset _
  cases h : (dormant.retaining .empty).build with
  | error => simp [h, Except.toOption] at fewer
  | ok g =>
      cases h' : (dormant.retaining (.ofList [⟨"Accounts", none⟩])).build with
      | error => simp [h', Except.toOption] at more
      | ok g' =>
          obtain ⟨order, chains⟩ : g'.scopedOrder =
              [⟨"Db", none⟩, ⟨"Accounts", none⟩, ⟨"Api", none⟩] ∧
                g'.aliasChains.entries.length = 1 := by
            simpa [h', Except.toOption] using more
          exact ⟨sub, g, g', rfl, rfl, by simpa [h, Except.toOption] using fewer, order, chains,
            partOf_of_retaining sub h h'⟩

end BuildRequest

end Wiring
