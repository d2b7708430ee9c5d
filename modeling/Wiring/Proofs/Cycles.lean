import Mathlib.Data.List.Nodup
import Wiring.Cycle
import Wiring.Proofs.Digraph
import Wiring.Proofs.SortedMap

/-!
# Which cycles are permitted

Edges whose ends are bound make keys depend on each other.  A way around such edges is fatal if all
of them are canonical, and it is permitted if handles break every way around in its component.  The
analysis finds these cycles and no others, and without the handles that it reports nothing leads
around any more (`lawful_analyze`).
-/

namespace Wiring

open Std Relation

theorem Edge.isDeferred_iff {e : Edge} : e.isDeferred = true ↔ e.access ≠ .canonical := by
  rw [isDeferred]
  cases e.access <;> simp [Access.isDeferred]

/-- The first occurrences of the elements that `p` accepts stand in the order of the list. -/
theorem pairwise_eraseDups_filter {α : Type} [DecidableEq α] : ∀ (xs : List α) (p : α → Bool),
    (xs.filter p).eraseDups.Pairwise fun a b => xs.idxOf a < xs.idxOf b
  | [], _ => .nil
  | x :: rest, p => by
      -- past the head, an element stands one place further back than in the rest
      have shifted : ∀ q : α → Bool, q x = false →
          (rest.filter q).eraseDups.Pairwise fun a b =>
            (x :: rest).idxOf a < (x :: rest).idxOf b := by
        intro q hq
        refine (pairwise_eraseDups_filter rest q).imp_of_mem fun {a b} ha hb h => ?_
        have ne : ∀ c ∈ (rest.filter q).eraseDups, x ≠ c := by
          rintro c hc rfl
          rw [List.mem_eraseDups, List.mem_filter, hq] at hc
          cases hc.2
        rw [List.idxOf_cons_ne rest (ne a ha), List.idxOf_cons_ne rest (ne b hb)]
        exact Nat.succ_lt_succ h
      by_cases hp : p x
      · rw [List.filter_cons_of_pos hp, List.eraseDups_cons, List.filter_filter]
        refine List.pairwise_cons.mpr ⟨fun b hb => ?_, shifted _ (by simp)⟩
        have hb : x ≠ b := by
          rintro rfl
          simp [List.mem_eraseDups] at hb
        rw [List.idxOf_cons_self, List.idxOf_cons_ne rest hb]
        exact Nat.succ_pos _
      · rw [List.filter_cons_of_neg hp]
        exact shifted p (by simpa using hp)

namespace CycleAnalysis

/-- `k` depends on `l` by an edge between bound keys that satisfies `keep`. -/
def DependsBy (bindings : SortedMap TypeKey Binding) (edges : List Edge) (keep : Edge → Prop)
    (k l : TypeKey) : Prop :=
  bindings.contains k ∧ bindings.contains l ∧ ∃ e ∈ edges, keep e ∧ e.source = k ∧ e.target = l

/-- `k` stands before `l` in resolution; keys that were not resolved stand last, in key order. -/
def Precedes (order : List TypeKey) (k l : TypeKey) : Prop :=
  order.idxOf k < order.idxOf l ∨ k ∉ order ∧ l ∉ order ∧ compare k l = .lt

variable {bindings : SortedMap TypeKey Binding} {edges : List Edge} {order : List TypeKey}

theorem Precedes.asymm {k l : TypeKey} (h : Precedes order k l) : ¬ Precedes order l k := by
  rintro (h' | ⟨hl, hk, hlt'⟩) <;> rcases h with h | ⟨hk, hl, hlt⟩
  · omega
  · rw [List.idxOf_eq_length hk, List.idxOf_eq_length hl] at h'
    omega
  · rw [List.idxOf_eq_length hk, List.idxOf_eq_length hl] at h
    omega
  · rw [OrientedCmp.gt_of_lt hlt] at hlt'
    cases hlt'

/-! ### The graphs that are analysed -/

theorem mem_rankedKeys {k : TypeKey} : k ∈ rankedKeys bindings order ↔ bindings.contains k := by
  simp only [rankedKeys, List.mem_append, List.mem_eraseDups, List.mem_filter,
    SortedMap.mem_keys, decide_eq_true_eq]
  tauto

theorem pairwise_rankedKeys (bindings : SortedMap TypeKey Binding) (order : List TypeKey) :
    (rankedKeys bindings order).Pairwise (Precedes order) := by
  refine List.pairwise_append.mpr ⟨?_, ?_, fun k hk l hl => ?_⟩
  · exact (pairwise_eraseDups_filter order _).imp .inl
  · have hkeys : bindings.keys.Pairwise fun k l => compare k l = .lt :=
      List.pairwise_map.mpr bindings.increasing
    refine (hkeys.filter _).imp_of_mem fun {k l} hk hl h => .inr ⟨?_, ?_, h⟩
    · simpa using (List.mem_filter.mp hk).2
    · simpa using (List.mem_filter.mp hl).2
  · have hk : k ∈ order := (List.mem_filter.mp (List.mem_eraseDups.mp hk)).1
    have hl : l ∉ order := by simpa using (List.mem_filter.mp hl).2
    exact .inl (List.idxOf_eq_length hl ▸ List.idxOf_lt_length_of_mem hk)

/-- Bound keys stand in resolution as their ranks do. -/
theorem precedes_iff {k l : TypeKey} (hk : bindings.contains k) (hl : bindings.contains l) :
    Precedes order k l ↔
      (rankedKeys bindings order).idxOf k < (rankedKeys bindings order).idxOf l := by
  have forward : ∀ {k l : TypeKey}, bindings.contains k → bindings.contains l →
      (rankedKeys bindings order).idxOf k < (rankedKeys bindings order).idxOf l →
      Precedes order k l := by
    intro k l hk hl h
    have hk : k ∈ rankedKeys bindings order := mem_rankedKeys.mpr hk
    have hl : l ∈ rankedKeys bindings order := mem_rankedKeys.mpr hl
    have := List.pairwise_iff_getElem.mp (pairwise_rankedKeys bindings order) _ _
      (List.idxOf_lt_length_of_mem hk) (List.idxOf_lt_length_of_mem hl) h
    rwa [List.getElem_idxOf, List.getElem_idxOf] at this
  refine ⟨fun h => ?_, forward hk hl⟩
  rcases Nat.lt_trichotomy ((rankedKeys bindings order).idxOf k)
    ((rankedKeys bindings order).idxOf l) with hlt | heq | hgt
  · exact hlt
  · rw [List.idxOf_inj (mem_rankedKeys.mpr hk)] at heq
    subst heq
    exact absurd h h.asymm
  · exact absurd (forward hl hk hgt) h.asymm

/-! ### Keys in the order of their ranks -/

section

variable {ranks keys group : List TypeKey} {g : Digraph TypeKey}

theorem ranked_perm (ranks keys : List TypeKey) : (ranked ranks keys).Perm keys := sortBy_perm ..

theorem pairwise_ranked (nodup : keys.Nodup) (hk : keys ⊆ ranks) :
    (ranked ranks keys).Pairwise fun k l => ranks.idxOf k < ranks.idxOf l := by
  have distinct : (ranked ranks keys).Nodup := (ranked_perm ranks keys).nodup_iff.mpr nodup
  have sorted := pairwise_sortBy (compareOn ranks.idxOf) keys
  refine (sorted.and distinct).imp_of_mem fun {k l} hmem _ ⟨hle, hne⟩ => ?_
  have hmem : k ∈ ranks := hk ((ranked_perm ranks keys).mem_iff.mp hmem)
  exact Nat.lt_of_le_of_ne (Nat.isLE_compare.mp hle) fun heq => hne ((List.idxOf_inj hmem).mp heq)

/-- Keys in the order of their ranks stay as they are. -/
theorem ranked_eq (sorted : group.Pairwise fun k l => ranks.idxOf k < ranks.idxOf l)
    (hp : keys.Perm group) (hk : keys ⊆ ranks) : ranked ranks keys = group := by
  have nodup : keys.Nodup := hp.nodup_iff.mpr (sorted.imp fun h heq => by
    rw [heq] at h
    exact Nat.lt_irrefl _ h)
  refine eq_of_pairwise_of_mem_iff (fun _ _ => Nat.lt_asymm) (pairwise_ranked nodup hk) sorted ?_
  exact fun k => ((ranked_perm ranks keys).trans hp).mem_iff

theorem mem_rankedGroups_iff : group ∈ rankedGroups ranks g ↔
    ∃ members ∈ g.knots, ranked ranks members = group := by
  rw [rankedGroups, mem_sortBy, List.mem_map]

/-- The groups are the components with an arc inside, in the order of ranks. -/
theorem mem_rankedGroups (hg : g.Proper) (hr : g.vertices ⊆ ranks) :
    group ∈ rankedGroups ranks g ↔
      g.IsKnot group ∧ group.Pairwise fun k l => ranks.idxOf k < ranks.idxOf l := by
  rw [mem_rankedGroups_iff]
  constructor
  · rintro ⟨members, hm, rfl⟩
    have knot := Digraph.isKnot_of_mem_knots hg hm
    exact ⟨knot.of_perm (ranked_perm ranks members).symm,
      pairwise_ranked knot.nodup fun _ hk => hr (knot.subset hk)⟩
  · rintro ⟨knot, sorted⟩
    obtain ⟨members, hm, hp⟩ := Digraph.exists_mem_knots_perm hg knot
    exact ⟨members, hm, ranked_eq sorted hp fun _ hk => hr (knot.subset (hp.mem_iff.mp hk))⟩

theorem nodup_ranked_knots (hg : g.Proper) : (g.knots.map (ranked ranks)).Nodup := by
  refine List.pairwise_map.mpr ((Digraph.disjoint_knots hg).imp_of_mem fun {a b} ha _ hd heq => ?_)
  obtain ⟨k, hk⟩ := List.exists_mem_of_ne_nil _ (Digraph.isKnot_of_mem_knots hg ha).nonempty
  refine hd hk ((ranked_perm ranks b).mem_iff.mp ?_)
  rw [← heq]
  exact (ranked_perm ranks a).mem_iff.mpr hk

theorem nodup_rankedGroups (hg : g.Proper) : (rankedGroups ranks g).Nodup :=
  (sortBy_perm ..).nodup_iff.mpr (nodup_ranked_knots hg)

end

/-! ### The edges between bound keys -/

theorem digraph_arc {keep : Edge → Bool} {k l : TypeKey} :
    (digraph bindings edges order keep).Arc k l ↔ DependsBy bindings edges (keep ·) k l := by
  simp only [Digraph.Arc, digraph, List.mem_map, List.mem_filter, Bool.and_eq_true, DependsBy,
    Prod.mk.injEq]
  constructor
  · rintro ⟨e, ⟨he, ⟨hs, ht⟩, hkeep⟩, rfl, rfl⟩
    exact ⟨hs, ht, e, he, hkeep, rfl, rfl⟩
  · rintro ⟨hs, ht, e, he, hkeep, rfl, rfl⟩
    exact ⟨e, ⟨he, ⟨hs, ht⟩, hkeep⟩, rfl, rfl⟩

theorem proper_digraph {keep : Edge → Bool} : (digraph bindings edges order keep).Proper := by
  intro k l h
  obtain ⟨hk, hl, -⟩ := digraph_arc.mp h
  exact ⟨mem_rankedKeys.mpr hk, mem_rankedKeys.mpr hl⟩

theorem vertices_subset {keep : Edge → Bool} :
    (digraph bindings edges order keep).vertices ⊆ rankedKeys bindings order := fun _ hk => hk

/-- All edges between bound keys. -/
abbrev allEdges (bindings : SortedMap TypeKey Binding) (edges : List Edge) (order : List TypeKey) :
    Digraph TypeKey :=
  digraph bindings edges order fun _ => true

/-- The edges between bound keys that no handle defers. -/
abbrev eagerEdges (bindings : SortedMap TypeKey Binding) (edges : List Edge)
    (order : List TypeKey) : Digraph TypeKey :=
  digraph bindings edges order (!·.isDeferred)

theorem all_arc {k l : TypeKey} :
    (allEdges bindings edges order).Arc k l ↔ DependsBy bindings edges (fun _ => True) k l := by
  simp [digraph_arc, DependsBy]

theorem eager_arc {k l : TypeKey} : (eagerEdges bindings edges order).Arc k l ↔
    DependsBy bindings edges (·.access = .canonical) k l := by
  simp only [digraph_arc, Bool.not_eq_true', ← Bool.not_eq_true, Edge.isDeferred_iff, not_not]

theorem DependsBy.mono {keep keep' : Edge → Prop} (h : ∀ e ∈ edges, keep e → keep' e)
    {k l : TypeKey} : DependsBy bindings edges keep k l → DependsBy bindings edges keep' k l
  | ⟨hk, hl, e, he, hkeep, hends⟩ => ⟨hk, hl, e, he, h e he hkeep, hends⟩

theorem all_of_eager_arc {k l : TypeKey} (h : (eagerEdges bindings edges order).Arc k l) :
    (allEdges bindings edges order).Arc k l :=
  all_arc.mpr ((eager_arc.mp h).mono fun _ _ _ => trivial)

theorem all_arc_eq (bindings : SortedMap TypeKey Binding) (edges : List Edge)
    (order : List TypeKey) :
    (allEdges bindings edges order).Arc = DependsBy bindings edges fun _ => True :=
  funext₂ fun _ _ => propext all_arc

theorem eager_arc_eq (bindings : SortedMap TypeKey Binding) (edges : List Edge)
    (order : List TypeKey) :
    (eagerEdges bindings edges order).Arc = DependsBy bindings edges (·.access = .canonical) :=
  funext₂ fun _ _ => propext eager_arc

/-- Keys that edges tie together: all bound keys that lead to one of them and back, each listed
once, in the order of resolution. -/
structure Tangle (bindings : SortedMap TypeKey Binding) (order : List TypeKey)
    (r : TypeKey → TypeKey → Prop) (members : List TypeKey) : Prop where
  mem_members : ∀ k ∈ members, ∀ l, l ∈ members ↔
    bindings.contains l ∧ ReflTransGen r k l ∧ ReflTransGen r l k
  inner : ∃ k ∈ members, ∃ l ∈ members, r k l
  ordered : members.Pairwise (Precedes order)

/-- The groups of a graph of bound keys are the keys that its edges tie together. -/
theorem mem_rankedGroups_digraph {keep : Edge → Bool} {members : List TypeKey} :
    members ∈ rankedGroups (rankedKeys bindings order) (digraph bindings edges order keep) ↔
      Tangle bindings order (digraph bindings edges order keep).Arc members := by
  have proper : (digraph bindings edges order keep).Proper := proper_digraph
  rw [mem_rankedGroups proper vertices_subset]
  constructor
  · rintro ⟨knot, sorted⟩
    have bound : ∀ k ∈ members, bindings.contains k := fun k hk =>
      mem_rankedKeys.mp (knot.subset hk)
    refine ⟨fun k hk l => ?_, knot.inner, sorted.imp_of_mem fun hk hl h =>
      (precedes_iff (bound _ hk) (bound _ hl)).mpr h⟩
    rw [knot.mem_iff k hk]
    refine (and_iff_right_of_imp fun htied => ?_).symm
    exact mem_rankedKeys.mp (proper.mem_of_tied (knot.subset hk) htied)
  · intro h
    have bound : ∀ k ∈ members, bindings.contains k := fun k hk => ((h.mem_members k hk k).mp hk).1
    obtain ⟨k, hk, -⟩ := h.inner
    refine ⟨⟨⟨List.ne_nil_of_mem hk, ?_, fun v hv => mem_rankedKeys.mpr (bound v hv),
      fun v hv w => ?_⟩, h.inner⟩, h.ordered.imp_of_mem fun hk hl h =>
        (precedes_iff (bound _ hk) (bound _ hl)).mp h⟩
    · refine h.ordered.imp fun {k l} h heq => ?_
      subst heq
      exact h.asymm h
    · rw [h.mem_members v hv]
      exact and_iff_right_of_imp fun htied =>
        mem_rankedKeys.mp (proper.mem_of_tied (mem_rankedKeys.mpr (bound v hv)) htied)

/-! ### Fatal cycles -/

/-- The groups of keys that canonical edges tie together. -/
abbrev eagerGroups (bindings : SortedMap TypeKey Binding) (edges : List Edge)
    (order : List TypeKey) : List (List TypeKey) :=
  rankedGroups (rankedKeys bindings order) (eagerEdges bindings edges order)

theorem isKnot_of_mem_eagerGroups {group : List TypeKey}
    (h : group ∈ eagerGroups bindings edges order) :
    (eagerEdges bindings edges order).IsKnot group :=
  ((mem_rankedGroups proper_digraph vertices_subset).mp h).1

/-- Keys on a canonical way around are in such a group. -/
theorem exists_mem_eagerGroups {k : TypeKey} (h : (eagerEdges bindings edges order).Loops k) :
    ∃ group ∈ eagerGroups bindings edges order, k ∈ group := by
  obtain ⟨members, hm, hk⟩ := Digraph.exists_mem_knots proper_digraph h
  exact ⟨_, mem_rankedGroups_iff.mpr ⟨members, hm, rfl⟩, (ranked_perm ..).mem_iff.mpr hk⟩

/-- The groups of keys that canonical edges tie together, in the order of the reports. -/
def fatalGroups (bindings : SortedMap TypeKey Binding) (edges : List Edge)
    (order : List TypeKey) : List (List TypeKey) :=
  ((allEdges bindings edges order).knots.filter fun members =>
    ((eagerEdges bindings edges order).restrict members).isCyclic).flatMap fun members =>
      rankedGroups (rankedKeys bindings order) ((eagerEdges bindings edges order).restrict members)

/-- A component of all edges leaves out nothing that canonical edges tie to it. -/
theorem closed_of_mem_knots {members : List TypeKey}
    (h : members ∈ (allEdges bindings edges order).knots) :
    ∀ k ∈ members, ∀ l, (eagerEdges bindings edges order).Tied k l → l ∈ members :=
  fun k hk l htied => ((Digraph.isKnot_of_mem_knots proper_digraph h).mem_iff k hk l).mpr
    (htied.mono fun _ _ => all_of_eager_arc)

/-- The groups in a component are those of all groups that lie in it. -/
theorem mem_rankedGroups_restrict {members group : List TypeKey}
    (h : members ∈ (allEdges bindings edges order).knots) :
    group ∈ rankedGroups (rankedKeys bindings order)
        ((eagerEdges bindings edges order).restrict members) ↔
      group ∈ eagerGroups bindings edges order ∧ group ⊆ members := by
  have heager : (eagerEdges bindings edges order).Proper := proper_digraph
  have part : ((eagerEdges bindings edges order).restrict members).vertices ⊆
      rankedKeys bindings order := fun _ hk => vertices_subset (List.mem_filter.mp hk).1
  rw [mem_rankedGroups (heager.restrict members) part, mem_rankedGroups heager vertices_subset,
    Digraph.isKnot_restrict (closed_of_mem_knots h)]
  exact and_right_comm

/-- The canonical edges of a component lead around if and only if they do at one of its keys. -/
theorem isCyclic_restrict_iff {members : List TypeKey}
    (h : members ∈ (allEdges bindings edges order).knots) :
    ((eagerEdges bindings edges order).restrict members).isCyclic = true ↔
      ∃ k ∈ members, (eagerEdges bindings edges order).Loops k := by
  rw [Digraph.isCyclic_iff]
  constructor
  · rintro ⟨k, hk⟩
    obtain ⟨l, hkl, -⟩ := TransGen.head'_iff.mp hk
    exact ⟨k, (Digraph.restrict_arc.mp hkl).2.1, hk.mono fun _ _ h => (Digraph.restrict_arc.mp h).1⟩
  · rintro ⟨k, hk, hloop⟩
    exact ⟨k, hloop.restrict (closed_of_mem_knots h k hk)⟩

theorem mem_fatalGroups {group : List TypeKey} :
    group ∈ fatalGroups bindings edges order ↔ group ∈ eagerGroups bindings edges order := by
  have hall : (allEdges bindings edges order).Proper := proper_digraph
  rw [fatalGroups, List.mem_flatMap]
  constructor
  · rintro ⟨members, hm, hgroup⟩
    exact ((mem_rankedGroups_restrict (List.mem_filter.mp hm).1).mp hgroup).1
  · intro hgroup
    have knot := isKnot_of_mem_eagerGroups hgroup
    obtain ⟨k, hk⟩ := List.exists_mem_of_ne_nil _ knot.nonempty
    have hloop := knot.loops hk
    obtain ⟨members, hm, hkm⟩ :=
      Digraph.exists_mem_knots hall (hloop.mono fun _ _ => all_of_eager_arc)
    refine ⟨members, List.mem_filter.mpr ⟨hm, (isCyclic_restrict_iff hm).mpr ⟨k, hkm, hloop⟩⟩, ?_⟩
    exact (mem_rankedGroups_restrict hm).mpr
      ⟨hgroup, fun l hl => closed_of_mem_knots hm k hkm l ((knot.mem_iff k hk l).mp hl)⟩

theorem nodup_fatalGroups : (fatalGroups bindings edges order).Nodup := by
  have hall : (allEdges bindings edges order).Proper := proper_digraph
  have heager : (eagerEdges bindings edges order).Proper := proper_digraph
  refine List.nodup_flatMap.mpr ⟨fun members _ => nodup_rankedGroups (heager.restrict members), ?_⟩
  refine ((Digraph.disjoint_knots hall).filter _).imp_of_mem fun {members others} hm ho hd => ?_
  -- a group of two components would be in both
  intro group hg hg'
  obtain ⟨hgroup, hsub⟩ := (mem_rankedGroups_restrict (List.mem_filter.mp hm).1).mp hg
  have hsub' := ((mem_rankedGroups_restrict (List.mem_filter.mp ho).1).mp hg').2
  obtain ⟨k, hk⟩ := List.exists_mem_of_ne_nil _ (isKnot_of_mem_eagerGroups hgroup).nonempty
  exact hd (hsub hk) (hsub' hk)

/-- The errors are those of the groups. -/
theorem errors_eq : (analyze bindings edges order).errors =
    (fatalGroups bindings edges order).filterMap
      (fatalCycle? bindings (eagerEdges bindings edges order)) := by
  simp only [analyze, List.partition_eq_filter_filter, fatalGroups, List.filterMap_flatMap]

/-- A group is shown by a shortest way around from its first member. -/
theorem isSome_fatalCycle? {group : List TypeKey} (h : group ∈ eagerGroups bindings edges order) :
    (fatalCycle? bindings (eagerEdges bindings edges order) group).isSome := by
  have heager : (eagerEdges bindings edges order).Proper := proper_digraph
  have knot := isKnot_of_mem_eagerGroups h
  obtain ⟨v, rest, rfl⟩ := List.exists_cons_of_ne_nil knot.nonempty
  simpa [fatalCycle?] using Digraph.isSome_shortestLoop? (heager.restrict _)
    ((knot.loops (.head _)).restrict fun w => (knot.mem_iff v (.head _) w).mpr)

theorem mem_errors {error : GraphError} : error ∈ (analyze bindings edges order).errors ↔
    ∃ group ∈ eagerGroups bindings edges order,
      fatalCycle? bindings (eagerEdges bindings edges order) group = some error := by
  simp only [errors_eq, List.mem_filterMap, mem_fatalGroups]

theorem kind_of_mem_errors {error : GraphError}
    (h : error ∈ (analyze bindings edges order).errors) : error.kind = .fatalCycle := by
  obtain ⟨group, _, h⟩ := mem_errors.mp h
  obtain ⟨_, _, h⟩ := Option.bind_eq_some_iff.mp h
  obtain ⟨_, _, rfl⟩ := Option.map_eq_some_iff.mp h
  rfl

/-- An error is reported if and only if canonical edges lead around. -/
theorem errors_ne_nil_iff : (analyze bindings edges order).errors ≠ [] ↔
    ∃ k, (eagerEdges bindings edges order).Loops k := by
  constructor
  · intro h
    obtain ⟨error, herror⟩ := List.exists_mem_of_ne_nil _ h
    obtain ⟨group, hgroup, -⟩ := mem_errors.mp herror
    have knot := isKnot_of_mem_eagerGroups hgroup
    obtain ⟨k, hk⟩ := List.exists_mem_of_ne_nil _ knot.nonempty
    exact ⟨k, knot.loops hk⟩
  · rintro ⟨k, hk⟩
    obtain ⟨group, hgroup, -⟩ := exists_mem_eagerGroups hk
    obtain ⟨error, herror⟩ := Option.isSome_iff_exists.mp (isSome_fatalCycle? hgroup)
    exact List.ne_nil_of_mem (mem_errors.mpr ⟨group, hgroup, herror⟩)

/-! ### Permitted cycles -/

/-- `c` is a component of bound keys with an edge inside and no canonical way around. -/
structure IsPermitted (bindings : SortedMap TypeKey Binding) (edges : List Edge)
    (order : List TypeKey) (c : PermittedCycle) : Prop where
  /-- The members are all bound keys that lead to a member and back. -/
  mem_members : ∀ k ∈ c.members, ∀ l, l ∈ c.members ↔ bindings.contains l ∧
    ReflTransGen (DependsBy bindings edges fun _ => True) k l ∧
    ReflTransGen (DependsBy bindings edges fun _ => True) l k
  inner : ∃ k ∈ c.members, ∃ l ∈ c.members, DependsBy bindings edges (fun _ => True) k l
  broken : ∀ k ∈ c.members, ¬ TransGen (DependsBy bindings edges (·.access = .canonical)) k k
  /-- Each member is listed once, in the order of resolution. -/
  ordered : c.members.Pairwise (Precedes order)
  /-- The handles inside the component are listed once, in order. -/
  increasing : c.deferredEdges.Pairwise fun d d' => compare d d' = .lt
  mem_deferredEdges : ∀ d, d ∈ c.deferredEdges ↔
    d.source ∈ c.members ∧ d.target ∈ c.members ∧
      ∃ e ∈ edges, e.access ≠ .canonical ∧ e.source = d.source ∧ e.target = d.target

theorem mem_permitted {c : PermittedCycle} : c ∈ (analyze bindings edges order).permitted ↔
    ∃ members ∈ (allEdges bindings edges order).knots,
      ¬ ((eagerEdges bindings edges order).restrict members).isCyclic = true ∧
        permittedCycle edges (rankedKeys bindings order) members = c := by
  simp only [analyze, List.partition_eq_filter_filter, mem_sortBy, List.mem_map, List.mem_filter,
    Bool.not_eq_true, Bool.not_eq_true', Function.comp_apply, and_assoc]

theorem mem_deferredEdges_permittedCycle {ranks members : List TypeKey} {d : DeferredEdge} :
    d ∈ (permittedCycle edges ranks members).deferredEdges ↔
      d.source ∈ members ∧ d.target ∈ members ∧
        ∃ e ∈ edges, e.access ≠ .canonical ∧ e.source = d.source ∧ e.target = d.target := by
  simp only [permittedCycle, SortedSet.mem_ofList, List.mem_map, List.mem_filter,
    Bool.and_eq_true, Edge.isDeferred_iff, decide_eq_true_eq]
  constructor
  · rintro ⟨e, ⟨he, ⟨hdeferred, hs⟩, ht⟩, rfl⟩
    exact ⟨hs, ht, e, he, hdeferred, rfl, rfl⟩
  · rintro ⟨hs, ht, e, he, hdeferred, hsource, htarget⟩
    exact ⟨e, ⟨he, ⟨hdeferred, hsource ▸ hs⟩, htarget ▸ ht⟩, DeferredEdge.ext hsource htarget⟩

theorem mem_members_permittedCycle {ranks members : List TypeKey} {k : TypeKey} :
    k ∈ (permittedCycle edges ranks members).members ↔ k ∈ members :=
  (ranked_perm ranks members).mem_iff

/-- A component with an edge inside and no canonical way around is a permitted cycle. -/
theorem isPermitted_permittedCycle {members : List TypeKey}
    (hm : members ∈ (allEdges bindings edges order).knots)
    (broken : ¬ ((eagerEdges bindings edges order).restrict members).isCyclic = true) :
    IsPermitted bindings edges order
      (permittedCycle edges (rankedKeys bindings order) members) := by
  have tangle := mem_rankedGroups_digraph.mp (mem_rankedGroups_iff.mpr ⟨members, hm, rfl⟩)
  rw [all_arc_eq] at tangle
  constructor
  case mem_members => exact tangle.mem_members
  case inner => exact tangle.inner
  case broken =>
    intro k hk hloop
    rw [← eager_arc_eq bindings edges order] at hloop
    exact broken ((isCyclic_restrict_iff hm).mpr ⟨k, mem_members_permittedCycle.mp hk, hloop⟩)
  case ordered => exact tangle.ordered
  case increasing => exact SortedSet.increasing _
  case mem_deferredEdges =>
    intro d
    rw [mem_members_permittedCycle, mem_members_permittedCycle]
    exact mem_deferredEdges_permittedCycle

/-- The members of a permitted cycle are tied together. -/
theorem IsPermitted.tangle {c : PermittedCycle} (h : IsPermitted bindings edges order c) :
    Tangle bindings order (DependsBy bindings edges fun _ => True) c.members :=
  ⟨h.mem_members, h.inner, h.ordered⟩

/-- The permitted cycles are those that satisfy the conditions on one. -/
theorem mem_permitted_iff {c : PermittedCycle} :
    c ∈ (analyze bindings edges order).permitted ↔ IsPermitted bindings edges order c := by
  constructor
  · intro hc
    obtain ⟨members, hm, hnil, rfl⟩ := mem_permitted.mp hc
    exact isPermitted_permittedCycle hm hnil
  intro h
  have tangle := h.tangle
  rw [← all_arc_eq bindings edges order, ← mem_rankedGroups_digraph, mem_rankedGroups_iff] at tangle
  obtain ⟨members, hm, hmembers⟩ := tangle
  have same : ∀ k, k ∈ c.members ↔ k ∈ members := fun k => by
    rw [← hmembers]
    exact (ranked_perm ..).mem_iff
  refine mem_permitted.mpr ⟨members, hm, fun hcyclic => ?_, ?_⟩
  · obtain ⟨k, hk, hloop⟩ := (isCyclic_restrict_iff hm).mp hcyclic
    refine h.broken k ((same k).mpr hk) ?_
    rwa [← eager_arc_eq bindings edges order]
  · have hdeferred : (permittedCycle edges (rankedKeys bindings order) members).deferredEdges =
        c.deferredEdges :=
      SortedSet.toList_eq h.increasing fun d => by
        rw [h.mem_deferredEdges, same, same]
        exact @mem_deferredEdges_permittedCycle edges (rankedKeys bindings order) members d
    cases c
    exact congrArg₂ PermittedCycle.mk hmembers hdeferred

theorem nodup_permitted : (analyze bindings edges order).permitted.Nodup := by
  simp only [analyze, List.partition_eq_filter_filter]
  refine ((sortBy_perm ..).nodup_iff).mpr (List.Nodup.of_map PermittedCycle.members ?_)
  rw [List.map_map]
  have hsub := List.filter_sublist
    (p := fun members => !((eagerEdges bindings edges order).restrict members).isCyclic)
    (l := (allEdges bindings edges order).knots)
  exact (nodup_ranked_knots proper_digraph).sublist (hsub.map (ranked (rankedKeys bindings order)))

/-! ### The law -/

/-- What an analysis of cycles says, and that nothing else leads around. -/
structure Lawful (bindings : SortedMap TypeKey Binding) (edges : List Edge) (order : List TypeKey)
    (a : CycleAnalysis) : Prop where
  fatal_iff : (∃ error ∈ a.errors, error.kind = .fatalCycle) ↔
    ∃ k, TransGen (DependsBy bindings edges (·.access = .canonical)) k k
  /-- No other errors are reported. -/
  only_fatal : ∀ error ∈ a.errors, error.kind = .fatalCycle
  mem_permitted : ∀ c, c ∈ a.permitted ↔ IsPermitted bindings edges order c
  nodup : a.permitted.Nodup
  /-- Without the handles reported, nothing leads around. -/
  acyclic : a.errors = [] → ∀ k, ¬ TransGen (DependsBy bindings edges fun e =>
    ¬ (e.access ≠ .canonical ∧ e.ends ∈ a.deferredEdges.toList)) k k

theorem mem_deferredEdges {a : CycleAnalysis} {d : DeferredEdge} :
    d ∈ a.deferredEdges.toList ↔ ∃ c ∈ a.permitted, d ∈ c.deferredEdges := by
  simp [deferredEdges, deferredEdgesOf]

/-- Without errors, a component with an edge inside is a permitted cycle. -/
theorem permittedCycle_mem (h : (analyze bindings edges order).errors = []) {members : List TypeKey}
    (hm : members ∈ (allEdges bindings edges order).knots) :
    permittedCycle edges (rankedKeys bindings order) members ∈
      (analyze bindings edges order).permitted := by
  refine mem_permitted.mpr ⟨members, hm, fun hcyclic => ?_, rfl⟩
  obtain ⟨k, -, hk⟩ := (isCyclic_restrict_iff hm).mp hcyclic
  exact errors_ne_nil_iff.mpr ⟨k, hk⟩ h

/-- Without errors, the handles reported break every way around. -/
theorem acyclic_of_errors_eq_nil (h : (analyze bindings edges order).errors = []) (k : TypeKey) :
    ¬ TransGen (DependsBy bindings edges fun e => ¬ (e.access ≠ .canonical ∧
      e.ends ∈ (analyze bindings edges order).deferredEdges.toList)) k k := by
  intro hloop
  have hall : (allEdges bindings edges order).Proper := proper_digraph
  have kept : ∀ a b, DependsBy bindings edges (fun e => ¬ (e.access ≠ .canonical ∧
      e.ends ∈ (analyze bindings edges order).deferredEdges.toList)) a b →
      (allEdges bindings edges order).Arc a b := fun a b hab =>
    all_arc.mpr (hab.mono fun _ _ _ => trivial)
  obtain ⟨members, hm, hk⟩ := Digraph.exists_mem_knots hall (TransGen.mono kept _ _ hloop)
  have hcomp := Digraph.isKnot_of_mem_knots hall hm
  -- the handles between vertices of the way around are reported, so its edges are canonical
  refine errors_ne_nil_iff.mpr ⟨k, transGen_self_imp hloop fun a b hab hka hbk => ?_⟩ h
  have hka := ReflTransGen.mono kept _ _ hka
  have hbk := ReflTransGen.mono kept _ _ hbk
  have ha : a ∈ members := (hcomp.mem_iff k hk a).mpr ⟨hka, hbk.head (kept a b hab)⟩
  have hb : b ∈ members := (hcomp.mem_iff k hk b).mpr ⟨hka.tail (kept a b hab), hbk⟩
  obtain ⟨hba, hbb, e, he, hkeep, rfl, rfl⟩ := hab
  refine eager_arc.mpr ⟨hba, hbb, e, he, ?_, rfl, rfl⟩
  by_contra haccess
  exact hkeep ⟨haccess, mem_deferredEdges.mpr ⟨_, permittedCycle_mem h hm,
    mem_deferredEdges_permittedCycle.mpr ⟨ha, hb, e, he, haccess, rfl, rfl⟩⟩⟩

/-- **The permission law of cycles.** -/
theorem lawful_analyze (bindings : SortedMap TypeKey Binding) (edges : List Edge)
    (order : List TypeKey) : Lawful bindings edges order (analyze bindings edges order) where
  fatal_iff := by
    rw [← eager_arc_eq bindings edges order]
    refine Iff.trans ⟨fun ⟨error, herror, _⟩ => List.ne_nil_of_mem herror, fun h => ?_⟩
      errors_ne_nil_iff
    obtain ⟨error, herror⟩ := List.exists_mem_of_ne_nil _ h
    exact ⟨error, herror, kind_of_mem_errors herror⟩
  only_fatal _ := kind_of_mem_errors
  mem_permitted _ := mem_permitted_iff
  nodup := nodup_permitted
  acyclic := acyclic_of_errors_eq_nil

end CycleAnalysis

end Wiring
