import Wiring.Proofs.Cycles
import Wiring.Proofs.ShortestLoop

/-!
# What is reported of fatal cycles

Each group of bound keys that canonical edges tie together is reported once.  The report starts at
the member that was resolved first and comes back to it by a shortest way, which keeps to the group
because whatever lies on a way around is tied to its start (`reports_exact`).
-/

namespace Wiring

open Relation

/-- A list and what becomes of each of its elements. -/
theorem forall₂_filterMap {α β : Type} {R : α → β → Prop} {f : α → Option β} : ∀ {as : List α},
    (∀ a ∈ as, ∃ b, f a = some b ∧ R a b) → List.Forall₂ R as (as.filterMap f)
  | [], _ => .nil
  | a :: as, h => by
      obtain ⟨b, hb, hab⟩ := h a (.head _)
      rw [List.filterMap_cons_some hb]
      exact .cons hab (forall₂_filterMap fun a' ha' => h a' (.tail _ ha'))

/-- A shortest way around within a part that holds all that is tied to its start is one in the
whole graph. -/
theorem Digraph.isShortestLoop_of_restrict {α : Type} [DecidableEq α] {g : Digraph α}
    {vs inner : List α} {start : α} (hvs : ∀ w, g.Tied start w → w ∈ vs)
    (h : IsShortestLoop (g.restrict vs).Arc start inner) : IsShortestLoop g.Arc start inner where
  chain := h.chain.imp fun _ _ hab => (restrict_arc.mp hab).1
  nodup := h.nodup
  shortest := by
    intro others hothers
    refine h.shortest others (isChain_imp_between hothers .refl fun a b hab ha hb => ?_)
    exact restrict_arc.mpr ⟨hab, hvs a ⟨ha, hb.head hab⟩, hvs b ⟨ha.tail hab, hb⟩⟩

namespace CycleAnalysis

variable {bindings : SortedMap TypeKey Binding} {edges : List Edge} {order : List TypeKey}

/-- An error reports a group of keys by a way around. -/
structure Reports (bindings : SortedMap TypeKey Binding) (edges : List Edge)
    (order : List TypeKey) (group : List TypeKey) (start : TypeKey) (inner : List TypeKey)
    (error : GraphError) : Prop where
  error : ∃ b, bindings.get? start = some b ∧
    error = .fatalCycle (start :: (inner ++ [start])) (some b.origin)
  /-- The way starts at the member resolved first. -/
  first : start ∈ group ∧ ∀ k ∈ group, k = start ∨ Precedes order start k
  inside : inner ⊆ group
  /-- It leads by canonical edges, meets no key twice, and none of the ways around through its start
  is shorter. -/
  loop : IsShortestLoop (DependsBy bindings edges (·.access = .canonical)) start inner

theorem exists_reports {group : List TypeKey} (h : group ∈ eagerGroups bindings edges order) :
    ∃ error, fatalCycle? bindings (eagerEdges bindings edges order) group = some error ∧
      ∃ start inner, Reports bindings edges order group start inner error := by
  have heager : (eagerEdges bindings edges order).Proper := proper_digraph
  have tangle := mem_rankedGroups_digraph.mp h
  have hcomp := isKnot_of_mem_eagerGroups h
  obtain ⟨start, rest, rfl⟩ := List.exists_cons_of_ne_nil hcomp.nonempty
  have tied := hcomp.mem_iff start (.head _)
  obtain ⟨error, herror⟩ := Option.isSome_iff_exists.mp (isSome_fatalCycle? h)
  obtain ⟨way, hway, rfl⟩ := Option.map_eq_some_iff.mp herror
  obtain ⟨inner, rfl, hloop⟩ := Digraph.shortestLoop?_spec (heager.restrict _) hway
  replace hloop := Digraph.isShortestLoop_of_restrict (fun w => (tied w).mpr) hloop
  obtain ⟨b, hb⟩ := SortedMap.contains_iff.mp ((tangle.mem_members start (.head _) start).mp
    (.head _)).1
  refine ⟨_, herror, start, inner, ⟨b, hb, by rw [hb]; rfl⟩, ⟨.head _, fun k hk => ?_⟩, ?_, ?_⟩
  · exact (List.mem_cons.mp hk).imp_right fun hk => (List.pairwise_cons.mp tangle.ordered).1 k hk
  · exact fun k hk => (tied k).mpr (tied_of_isChain hloop.chain hk)
  · rwa [← eager_arc_eq bindings edges order]

/-- **Fatal cycles are reported exactly**: one error for each group of bound keys that canonical
edges tie together, by a shortest way around from the member resolved first. -/
theorem reports_exact (bindings : SortedMap TypeKey Binding) (edges : List Edge)
    (order : List TypeKey) : ∃ groups : List (List TypeKey), groups.Nodup ∧
      (∀ group, group ∈ groups ↔
        Tangle bindings order (DependsBy bindings edges (·.access = .canonical)) group) ∧
      List.Forall₂ (fun group error =>
          ∃ start inner, Reports bindings edges order group start inner error)
        groups (analyze bindings edges order).errors := by
  refine ⟨fatalGroups bindings edges order, nodup_fatalGroups, fun group => ?_, ?_⟩
  · rw [mem_fatalGroups, mem_rankedGroups_digraph, eager_arc_eq]
  · rw [errors_eq]
    exact forall₂_filterMap fun group hgroup => exists_reports (mem_fatalGroups.mp hgroup)

end CycleAnalysis

end Wiring
