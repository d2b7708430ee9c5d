import Mathlib.Data.List.Induction
import Wiring.Proofs.Terminals

/-!
# What references count for

The plan of a graph counts the keys that edges and roots refer to, each where its aliases end; the
edges of aliases are passed over.  Counting is a tally of a list: a key has the number of its
occurrences (`get?_tally`), and the counts add up to the length of the list (`total_tally`).  So
nothing is lost or counted twice: every reference counts for one bound key that is no alias, and the
counts add up to the number of references (`counts_of_build`).
-/

namespace Wiring

open Std AliasWalk

/-! ### Tallies -/

namespace SortedMap

variable {κ : Type} [Ord κ]

/-- The sum of the values. -/
def total (m : SortedMap κ Nat) : Nat := m.values.foldr (· + ·) 0

theorem keys_mapValues {ν μ : Type} (m : SortedMap κ ν) (f : κ → ν → μ) :
    (m.mapValues f).keys = m.keys := by
  rw [keys, mapValues, List.map_map]
  rfl

variable [TransOrd κ] [LawfulEqOrd κ]

/-- The sum after a write differs by what was replaced and what was written. -/
theorem total_insertEntry {k : κ} {v : Nat} :
    ∀ {l : List (κ × Nat)}, l.Pairwise (fun a b => compare a.1 b.1 = .lt) →
      ((insertEntry k v l).map (·.2)).foldr (· + ·) 0 +
          ((l.find? fun e => compare e.1 k == .eq).map (·.2)).getD 0 =
        (l.map (·.2)).foldr (· + ·) 0 + v
  | [], _ => by simp [insertEntry]
  | d :: rest, h => by
      obtain ⟨hd, hr⟩ := List.pairwise_cons.mp h
      rw [insertEntry]
      split
      · rename_i hlt
        -- all keys of the list are greater
        have absent : (d :: rest).find? (fun e => compare e.1 k == .eq) = none := by
          refine List.find?_eq_none.mpr fun e he => ?_
          have : compare k e.1 = .lt := by
            rcases List.mem_cons.mp he with rfl | he
            · exact hlt
            · exact TransCmp.lt_trans hlt (hd e he)
          simp [OrientedCmp.gt_of_lt this]
        rw [absent]
        simp [Nat.add_comm]
      · rename_i heq
        obtain rfl := LawfulEqOrd.eq_of_compare heq
        simp
        omega
      · rename_i hgt
        have ih := total_insertEntry (k := k) (v := v) hr
        have differs : (compare d.1 k == .eq) = false := by simp [OrientedCmp.lt_of_gt hgt]
        rw [List.find?_cons_of_neg (by simp [differs])]
        simp only [List.map_cons, List.foldr_cons]
        omega

theorem total_insert (m : SortedMap κ Nat) (k : κ) (v : Nat) :
    (m.insert k v).total + (m.get? k).getD 0 = m.total + v :=
  total_insertEntry m.increasing

/-- How often each key stands in a list. -/
def tally (keys : List κ) : SortedMap κ Nat :=
  keys.foldl (fun counts key => counts.alter key fun count => count.getD 0 + 1) .empty

theorem tally_concat (keys : List κ) (key : κ) :
    tally (keys ++ [key]) = (tally keys).alter key fun count => count.getD 0 + 1 := by
  rw [tally, List.foldl_append]
  rfl

/-- **A tally counts occurrences**, and has no entry for a key that does not occur. -/
theorem get?_tally [DecidableEq κ] (keys : List κ) (k : κ) :
    (tally keys).get? k = if k ∈ keys then some (keys.count k) else none := by
  induction keys using List.reverseRecOn with
  | nil => rfl
  | append_singleton keys key ih =>
      rw [tally_concat, get?_alter]
      by_cases hk : k = key
      · subst hk
        rw [ih]
        by_cases hm : k ∈ keys
        · simp [hm]
        · simp [hm, List.count_eq_zero_of_not_mem hm]
      · simp [ih, hk, Ne.symm hk]

theorem getD_get?_tally [DecidableEq κ] (keys : List κ) (k : κ) :
    ((tally keys).get? k).getD 0 = keys.count k := by
  rw [get?_tally]
  split
  · rfl
  · rename_i hk
    exact (List.count_eq_zero_of_not_mem hk).symm

/-- **The counts of a tally add up to the length of the list.** -/
theorem total_tally (keys : List κ) : (tally keys).total = keys.length := by
  induction keys using List.reverseRecOn with
  | nil => rfl
  | append_singleton keys key ih =>
      have := total_insert (tally keys) key (((tally keys).get? key).getD 0 + 1)
      rw [tally_concat, alter, List.length_append, List.length_singleton, ← ih]
      omega

end SortedMap

/-! ### References of a graph -/

theorem PropertyPlan.kindFor_eq_field_iff {b : Binding} {n : Nat}
    (hk : b.kind ∈ [.injected, .provided, .boundInstance, .membersInjector]) :
    kindFor b n = .field ↔ b.isScoped = true ∨ 2 ≤ n := by
  have made : kindFor b n = if b.isScoped || 2 ≤ n then .field else .inline := by
    cases b <;> first | rfl | simp [Binding.kind] at hk
  rw [made]
  by_cases hs : b.isScoped = true <;> by_cases hn : 2 ≤ n <;> simp [hs, hn]

namespace Graph

/-- The edges that refer to their targets: all but those of aliases. -/
def referring (g : Graph) : List Edge :=
  g.edges.filter fun e => !(g.binding? e.source).any (·.isAlias)

end Graph

namespace BuildRequest

variable {r : BuildRequest} {g : Graph} {k j : TypeKey}

/-- The keys that the edges and roots of a graph refer to, each as often as it is referred to. -/
def references (r : BuildRequest) (g : Graph) : List TypeKey :=
  g.referring.map (·.target) ++ r.roots

theorem contains_of_mem_references (h : r.build = .ok g) (hj : j ∈ r.references g) :
    g.contains j = true := by
  rcases List.mem_append.mp hj with hj | hj
  · obtain ⟨e, he, rfl⟩ := List.mem_map.mp hj
    exact (built_of_build h).contains_target (List.mem_of_mem_filter he)
  · exact (built_of_build h).contains_root hj

/-- The plan counts the ends of what is referred to. -/
theorem refCounts_of_build (h : r.build = .ok g) :
    g.properties.refCounts = .tally ((r.references g).map g.terminalOf) := by
  have same : (r.references g).map g.terminalOf =
      PropertyPlan.references g.bindings g.aliasChains g.edges r.roots := by
    have edges : g.referring = g.edges.filter fun e =>
        !((g.bindings.get? e.source).map (·.isAlias)).getD false := by
      refine List.filter_congr fun e _ => ?_
      rw [Graph.binding?]
      cases g.bindings.get? e.source <;> rfl
    rw [PropertyPlan.references, ← edges]
    refine List.map_congr_left fun j hj => ?_
    obtain ⟨_, _, -, -, -, terminal, planned, -⟩ :=
      (endsAliases_of_build h).ends j (contains_of_mem_references h hj)
    exact terminal.trans planned.symm
  rw [properties_of_build h, same]
  rfl

/-- The roots of a graph are its entry points and the keys it retains. -/
theorem roots_of_build (h : r.build = .ok g) :
    r.roots = g.entryPoints.map (·.dependency.key) ++ r.retained.toList := by
  obtain rfl := eq_graph_of_build h
  rfl

/-- How the plan of a graph counts references and keeps values. -/
structure Counts (r : BuildRequest) (g : Graph) : Prop where
  /-- The bound keys are planned for, and no others. -/
  planned : g.properties.properties.keys = g.bindings.keys
  /-- Only keys that are bound and no aliases are counted. -/
  counted : ∀ k n, g.properties.refCounts.get? k = some n →
    0 < n ∧ ∃ b, g.binding? k = some b ∧ b.isAlias = false
  /-- The counts add up to the number of references. -/
  total : g.properties.refCounts.total =
    g.referring.length + g.entryPoints.length + r.retained.toList.length
  /-- The count of a key is the number of references whose aliases end there. -/
  count : ∀ k, (g.properties.refCounts.get? k).getD 0 =
    g.referring.countP (fun e => g.terminalOf e.target = k) +
      g.entryPoints.countP (fun e => g.terminalOf e.dependency.key = k) +
      r.retained.toList.countP (fun j => g.terminalOf j = k)
  /-- From all that is referred to a chain of aliases leads to the end that is counted. -/
  ends : ∀ j ∈ r.references g, ∃ chain, IsChain g.aliasTarget? j chain ∧
    chain.getLast? = some (g.terminalOf j)
  /-- A value that is made, handed in or filled is kept in a field if a scope keeps it or if it is
  referred to at least twice. -/
  shared : ∀ k b, g.binding? k = some b →
    b.kind ∈ [.injected, .provided, .boundInstance, .membersInjector] →
    (g.properties.kindOf? k = some .field ↔
      b.isScoped = true ∨ 2 ≤ (g.properties.refCounts.get? k).getD 0)
  /-- Accessors and factories are kept in fields. -/
  field : ∀ k b, g.binding? k = some b → b.kind ∈ [.graphAccessor, .assisted] →
    g.properties.kindOf? k = some .field
  /-- Aliases, collections and missing values are not. -/
  inline : ∀ k b, g.binding? k = some b → b.kind ∈ [.aliased, .multibinding, .absent] →
    g.properties.kindOf? k = some .inline

theorem kindOf?_of_build (h : r.build = .ok g) {b : Binding} (hb : g.binding? k = some b) :
    g.properties.kindOf? k =
      some (PropertyPlan.kindFor b ((g.properties.refCounts.get? k).getD 0)) := by
  have hb : g.bindings.get? k = some b := hb
  rw [properties_of_build h, PropertyPlan.kindOf?, PropertyPlan.collect, SortedMap.get?_mapValues,
    hb]
  rfl

/-- **The plan of a graph counts every reference once, where its aliases end.** -/
theorem counts_of_build (h : r.build = .ok g) : r.Counts g where
  planned := by
    rw [properties_of_build h]
    exact SortedMap.keys_mapValues ..
  counted k n hn := by
    rw [refCounts_of_build h, SortedMap.get?_tally] at hn
    split at hn
    · rename_i hm
      obtain ⟨j, hj, rfl⟩ := List.mem_map.mp hm
      obtain ⟨last, b, hb, ha, -, rfl, -⟩ :=
        (endsAliases_of_build h).ends j (contains_of_mem_references h hj)
      exact ⟨Option.some.inj hn ▸ List.count_pos_iff.mpr hm, b, hb, ha⟩
    · cases hn
  total := by
    rw [refCounts_of_build h, SortedMap.total_tally, references, roots_of_build h]
    simp [Nat.add_assoc]
  count k := by
    rw [refCounts_of_build h, SortedMap.getD_get?_tally, references, roots_of_build h,
      List.count_eq_countP, List.countP_map, List.countP_append, List.countP_append,
      List.countP_map, List.countP_map, Nat.add_assoc]
    rfl
  ends j hj := by
    obtain ⟨keys, last, t, he, -, hc⟩ := exists_leads h (contains_of_mem_references h hj)
    refine ⟨keys, isChain_iff.mpr (.chain t he), ?_⟩
    rcases hc with hc | ⟨hc, rfl⟩
    · rw [Graph.terminalOf, hc, Option.bind_some, t.getLast?]
      rfl
    · rw [Graph.terminalOf, hc]
      rfl
  shared k b hb hk := by
    rw [kindOf?_of_build h hb, Option.some_inj, PropertyPlan.kindFor_eq_field_iff hk]
  field k b hb hk := by
    rw [kindOf?_of_build h hb]
    cases b <;> simp [Binding.kind] at hk <;> rfl
  inline k b hb hk := by
    rw [kindOf?_of_build h hb]
    cases b <;> simp [Binding.kind] at hk <;> rfl

/-- A graph with an entry point to an alias of an alias and one to where they end. -/
def renamedAndShared : BuildRequest := renamed.entering [⟨"Repo", none⟩, ⟨"SqlRepo", none⟩]

theorem counts_of_build_shared :
    ∃ g, renamedAndShared.build = .ok g ∧
      g.properties.refCounts.get? ⟨"SqlRepo", none⟩ = some 2 ∧
      g.properties.fields = [⟨"SqlRepo", none⟩] ∧ renamedAndShared.Counts g := by
  have built : renamedAndShared.build.toOption.map (fun g =>
      (g.properties.refCounts.get? ⟨"SqlRepo", none⟩, g.properties.fields)) =
      some (some 2, [⟨"SqlRepo", none⟩]) := by decide +kernel
  cases h : renamedAndShared.build with
  | error => simp [h, Except.toOption] at built
  | ok g =>
      have found : g.properties.refCounts.get? ⟨"SqlRepo", none⟩ = some 2 ∧
          g.properties.fields = [⟨"SqlRepo", none⟩] := by simpa [h, Except.toOption] using built
      exact ⟨g, rfl, found.1, found.2, counts_of_build h⟩

end BuildRequest

end Wiring
