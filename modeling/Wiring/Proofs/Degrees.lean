import Mathlib.Data.List.Dedup
import Wiring.Proofs.Aggregation
import Wiring.Proofs.Counting
import Wiring.Statistics

/-!
# Degrees

The tables of degrees are the fronts of rankings: a ranking lists every key that is met, greater
counts first and keys with one count in order, so what is cut off never has a greater count than
what is left (`ranks_top`).

The fan-in counts edges, and edges form a set: a dependency that a binding lists twice is one edge.
The fan-out counts dependencies as they are listed.  So the two tables add up to the same number
exactly if no binding of the graph lists a dependency twice (`degrees_of_build`).
-/

namespace Wiring

open Std

/-! ### Sums over maps -/

namespace SortedMap

variable {κ ν μ : Type} [Ord κ]

theorem nodup_keys [ReflOrd κ] (m : SortedMap κ ν) : m.keys.Nodup :=
  List.pairwise_map.mpr (m.increasing.imp ne_of_compare_lt)

/-- A map has no more entries than one that has all its keys. -/
theorem size_le_of_contains [LawfulEqOrd κ] {m : SortedMap κ ν} {n : SortedMap κ μ}
    (h : ∀ k, m.contains k = true → n.contains k = true) : m.size ≤ n.size := by
  have sub : m.keys ⊆ n.keys := fun k hk => mem_keys.mpr (h k (mem_keys.mp hk))
  simpa [keys, size] using (List.subperm_of_subset m.nodup_keys sub).length_le

/-- Values of zero add nothing. -/
theorem total_filter_pos (m : SortedMap κ Nat) : (m.filter fun _ n => 0 < n).total = m.total := by
  have listed : ∀ entries : List (κ × Nat),
      ((entries.filter fun e => 0 < e.2).map (·.2)).foldr (· + ·) 0 =
        (entries.map (·.2)).foldr (· + ·) 0 := by
    intro entries
    induction entries with
    | nil => rfl
    | cons e rest ih =>
        by_cases he : 0 < e.2
        · simp [he, ih]
        · have hz : e.2 = 0 := Nat.eq_zero_of_not_pos he
          simp [hz, ih]
  exact listed m.entries

/-- Of two sums over one map, one value by value at most the other, the lesser reaches the greater
only if all values do. -/
theorem total_mapValues_eq_iff [LawfulEqOrd κ] {m : SortedMap κ ν} {f g : ν → Nat}
    (h : ∀ v, f v ≤ g v) : (m.mapValues fun _ => f).total = (m.mapValues fun _ => g).total ↔
      ∀ k v, m.get? k = some v → f v = g v := by
  have listed : ∀ vs : List ν, (vs.map f).foldr (· + ·) 0 ≤ (vs.map g).foldr (· + ·) 0 ∧
      ((vs.map f).foldr (· + ·) 0 = (vs.map g).foldr (· + ·) 0 ↔ ∀ v ∈ vs, f v = g v) := by
    intro vs
    induction vs with
    | nil => simp
    | cons v rest ih =>
        have hv := h v
        obtain ⟨hle, hiff⟩ := ih
        simp only [List.map_cons, List.foldr_cons, List.forall_mem_cons, ← hiff]
        omega
  have sum : ∀ f : ν → Nat,
      (m.mapValues fun _ => f).total = (m.values.map f).foldr (· + ·) 0 := by
    intro f
    simp [total, values, mapValues, Function.comp_def]
  rw [sum, sum, (listed m.values).2]
  constructor
  · intro all k v hv
    exact all v (mem_values.mpr ⟨k, hv⟩)
  · intro all v hv
    obtain ⟨k, hk⟩ := mem_values.mp hv
    exact all k v hk

end SortedMap

/-! ### Rankings -/

namespace Degree

variable {a b : Degree}

instance : TransCmp Degree.compare :=
  inferInstanceAs (TransCmp (compareLex (fun a b => compareOn count b a) (compareOn key)))

/-- The order of a ranking: a greater count, or the same count and a lesser key. -/
def Before (a b : Degree) : Prop :=
  b.count < a.count ∨ a.count = b.count ∧ Ord.compare a.key b.key = .lt

theorem before_of_isLE (h : (Degree.compare a b).isLE) (hk : a.key ≠ b.key) : a.Before b := by
  rw [Degree.compare] at h
  cases hc : Ord.compare b.count a.count with
  | lt => exact .inl (Nat.compare_eq_lt.mp hc)
  | gt => simp [hc] at h
  | eq =>
      refine .inr ⟨(Nat.compare_eq_eq.mp hc).symm, ?_⟩
      cases hl : Ord.compare a.key b.key with
      | lt => rfl
      | eq => exact absurd (LawfulEqOrd.eq_of_compare hl) hk
      | gt => simp [hc, hl] at h

theorem Before.count_le (h : a.Before b) : b.count ≤ a.count :=
  h.elim Nat.le_of_lt fun h => Nat.le_of_eq h.1.symm

/-- The sum of the counts of a table. -/
def total (table : List Degree) : Nat := (table.map (·.count)).foldr (· + ·) 0

end Degree

namespace Graph

variable {counts : SortedMap TypeKey Nat} {d : Degree}

/-- All keys that are met, in order. -/
def ranking (counts : SortedMap TypeKey Nat) : List Degree :=
  sortBy Degree.compare ((counts.filter fun _ n => 0 < n).entries.map fun e => ⟨e.1, e.2⟩)

theorem top_eq (counts : SortedMap TypeKey Nat) (limit : Nat) :
    top counts limit = (ranking counts).take limit := rfl

theorem mem_ranking : d ∈ ranking counts ↔ 0 < d.count ∧ counts.get? d.key = some d.count := by
  rw [ranking, mem_sortBy, SortedMap.get?_eq_some_iff]
  simp only [SortedMap.filter, List.mem_map, List.mem_filter, decide_eq_true_eq]
  constructor
  · rintro ⟨e, ⟨he, hpos⟩, rfl⟩
    exact ⟨hpos, he⟩
  · rintro ⟨hpos, he⟩
    exact ⟨_, ⟨he, hpos⟩, rfl⟩

theorem length_ranking_le : (ranking counts).length ≤ counts.size := by
  rw [ranking, (sortBy_perm _ _).length_eq, List.length_map]
  exact List.length_filter_le ..

/-- A ranking lists no key twice, so it is in a strict order. -/
theorem pairwise_ranking : (ranking counts).Pairwise Degree.Before := by
  have distinct : ((ranking counts).map (·.key)).Nodup := by
    rw [ranking, ((sortBy_perm _ _).map _).nodup_iff, List.map_map]
    exact SortedMap.nodup_keys _
  have ordered := pairwise_sortBy Degree.compare
    ((counts.filter fun _ n => 0 < n).entries.map fun e => ⟨e.1, e.2⟩)
  refine (ordered.and (List.pairwise_map.mp distinct)).imp ?_
  rintro a b ⟨hle, hne⟩
  exact Degree.before_of_isLE hle hne

theorem total_ranking : Degree.total (ranking counts) = counts.total := by
  have perm : ((ranking counts).map (·.count)).Perm (counts.filter fun _ n => 0 < n).values := by
    have := (sortBy_perm Degree.compare ((counts.filter fun _ n => 0 < n).entries.map
      fun e => ⟨e.1, e.2⟩)).map (·.count)
    rwa [List.map_map] at this
  rw [Degree.total, perm.foldr_eq, ← SortedMap.total_filter_pos counts, SortedMap.total]

/-- The tables that rank keys by a count, for up to so many keys that are met. -/
structure Ranks (count : TypeKey → Nat) (size : Nat) (table : Nat → List Degree) : Prop where
  /-- A table with room for all lists the keys that are met, each with its count. -/
  full : ∀ limit, size ≤ limit → ∀ d, d ∈ table limit ↔ 0 < d.count ∧ count d.key = d.count
  /-- Greater counts stand first, keys with one count in order. -/
  sorted : ∀ limit, (table limit).Pairwise Degree.Before
  /-- A table is the front of every longer one. -/
  front : ∀ limit limit', limit ≤ limit' → table limit = (table limit').take limit
  /-- No key that is left out has a greater count than one that is listed. -/
  greatest : ∀ limit, ∀ d ∈ table limit, ∀ key, (∀ e ∈ table limit, e.key ≠ key) →
    count key ≤ d.count

theorem ranks_top {size : Nat} (hs : counts.size ≤ size) :
    Ranks (fun key => (counts.get? key).getD 0) size (top counts) where
  full limit hl d := by
    rw [top_eq, List.take_of_length_le (length_ranking_le.trans (hs.trans hl)), mem_ranking]
    refine and_congr_right fun hpos => ?_
    cases counts.get? d.key with
    | none => simp only [Option.getD_none, reduceCtorEq, false_iff]; omega
    | some n => simp
  sorted limit := by
    rw [top_eq]
    exact pairwise_ranking.sublist (List.take_sublist ..)
  front limit limit' h := by
    rw [top_eq, top_eq, List.take_take, Nat.min_eq_left h]
  greatest limit d hd key hk := by
    rw [top_eq] at hd hk
    cases hc : counts.get? key with
    | none => exact Nat.zero_le _
    | some n =>
        rcases Nat.eq_zero_or_pos n with rfl | hpos
        · exact Nat.zero_le _
        -- a key that is met and not listed stands behind all that are
        have hm : (⟨key, n⟩ : Degree) ∈ ranking counts := mem_ranking.mpr ⟨hpos, hc⟩
        rw [← List.take_append_drop limit (ranking counts), List.mem_append] at hm
        have behind := hm.resolve_left fun hm => hk _ hm rfl
        have order := @pairwise_ranking counts
        rw [← List.take_append_drop limit (ranking counts), List.pairwise_append] at order
        exact (order.2.2 d hd _ behind).count_le

theorem total_top {limit : Nat} (h : counts.size ≤ limit) :
    Degree.total (top counts limit) = counts.total := by
  rw [top_eq, List.take_of_length_le (length_ranking_le.trans h), total_ranking]

/-- An edge for each different dependency of each binding. -/
def drawn (g : Graph) : List Edge :=
  g.bindings.entries.flatMap fun (key, b) => b.dependencies.dedup.map (Edge.ofDependency key)

theorem nodup_drawn (g : Graph) : g.drawn.Nodup := by
  have injective : ∀ source, Function.Injective (Edge.ofDependency source) := by
    intro source d d' he
    cases d
    cases d'
    cases he
    rfl
  refine List.nodup_flatMap.mpr ⟨fun e _ => (List.nodup_dedup _).map (injective _), ?_⟩
  refine g.bindings.increasing.imp fun {a b} hlt e ha hb => ?_
  obtain ⟨_, -, rfl⟩ := List.mem_map.mp ha
  obtain ⟨_, -, he⟩ := List.mem_map.mp hb
  exact ne_of_compare_lt hlt (congrArg Edge.source he).symm

theorem length_drawn (g : Graph) : g.drawn.length =
    (g.bindings.mapValues fun _ b => b.dependencies.dedup.length).total := by
  rw [drawn, List.length_flatMap, List.sum_eq_foldr]
  simp [SortedMap.total, SortedMap.values, SortedMap.mapValues, Function.comp_def]

/-- What the tables of a graph say of its edges and of the dependencies of its bindings. -/
structure Degrees (g : Graph) : Prop where
  /-- The fan-in of a key is the number of edges that lead to it. -/
  fanIn : Ranks (fun key => g.edges.countP (·.target = key)) g.bindings.size g.topFanIn
  /-- The fan-out of a key is the number of dependencies that its binding lists. -/
  fanOut : Ranks (fun key => ((g.binding? key).map (·.dependencies.length)).getD 0)
    g.bindings.size g.topFanOut
  /-- All fan-ins add up to the different dependencies of the bindings. -/
  different : ∀ limit, g.bindings.size ≤ limit → Degree.total (g.topFanIn limit) =
    (g.bindings.mapValues fun _ b => b.dependencies.dedup.length).total
  /-- All fan-outs add up to the dependencies that the bindings list. -/
  listed : ∀ limit, g.bindings.size ≤ limit → Degree.total (g.topFanOut limit) =
    (g.bindings.mapValues fun _ b => b.dependencies.length).total
  /-- The sums are equal exactly if no binding lists a dependency twice. -/
  agree_iff : ∀ limit, g.bindings.size ≤ limit →
    (Degree.total (g.topFanIn limit) = Degree.total (g.topFanOut limit) ↔
      ∀ k b, g.binding? k = some b → b.dependencies.Nodup)

end Graph

/-! ### The tables of a built graph -/

namespace BuildRequest

variable {r : BuildRequest} {g : Graph}

/-- All edges of a built graph lead to bound keys, so all are counted. -/
theorem fanIn_of_build (h : r.build = .ok g) : g.fanIn = .tally (g.edges.map (·.target)) := by
  have all : (g.edges.filter fun e => g.contains e.target) = g.edges :=
    List.filter_eq_self.mpr fun e he => (built_of_build h).contains_target he
  rw [Graph.fanIn, all, SortedMap.tally, List.foldl_map]

theorem get?_fanIn (h : r.build = .ok g) (key : TypeKey) :
    (g.fanIn.get? key).getD 0 = g.edges.countP (·.target = key) := by
  rw [fanIn_of_build h, SortedMap.getD_get?_tally, List.count_eq_countP, List.countP_map]
  exact List.countP_congr fun e _ => by simp

theorem size_fanIn_le (h : r.build = .ok g) : g.fanIn.size ≤ g.bindings.size := by
  refine SortedMap.size_le_of_contains fun key hk => ?_
  obtain ⟨n, hn⟩ := SortedMap.contains_iff.mp hk
  rw [fanIn_of_build h, SortedMap.get?_tally] at hn
  split at hn
  · rename_i hm
    obtain ⟨e, he, rfl⟩ := List.mem_map.mp hm
    exact (built_of_build h).contains_target he
  · cases hn

/-- **There is one edge for each different dependency of a binding.** -/
theorem perm_drawn (h : r.build = .ok g) : g.edges.Perm g.drawn := by
  have hg := built_of_build h
  refine (List.perm_ext_iff_of_nodup (hg.edges_sorted.imp ne_of_compare_lt) g.nodup_drawn).mpr ?_
  intro e
  simp only [Graph.drawn, List.mem_flatMap, List.mem_map, List.mem_dedup, Prod.exists,
    hg.mem_edges_iff, Binding.edges, Graph.binding?, SortedMap.get?_eq_some_iff]
  refine exists_congr fun k => exists_congr fun b => and_congr_right fun hb => ?_
  rw [hg.key_eq (SortedMap.get?_eq_some_iff.mpr hb)]

/-- **The fan-ins add up to the edges and the fan-outs to the dependencies.**  The sums differ by the
dependencies that a binding lists again. -/
theorem degrees_of_build (h : r.build = .ok g) : g.Degrees := by
  have different : ∀ limit, g.bindings.size ≤ limit → Degree.total (g.topFanIn limit) =
      (g.bindings.mapValues fun _ b => b.dependencies.dedup.length).total := by
    intro limit hl
    rw [Graph.topFanIn, Graph.total_top ((size_fanIn_le h).trans hl), fanIn_of_build h,
      SortedMap.total_tally, List.length_map, (perm_drawn h).length_eq,
      Graph.length_drawn]
  have size : g.fanOut.size = g.bindings.size := by
    simp [Graph.fanOut, SortedMap.size, SortedMap.mapValues]
  have listed : ∀ limit, g.bindings.size ≤ limit → Degree.total (g.topFanOut limit) =
      (g.bindings.mapValues fun _ b => b.dependencies.length).total := by
    intro limit hl
    rw [Graph.topFanOut, Graph.total_top (size.trans_le hl), Graph.fanOut]
  refine ⟨?_, ?_, different, listed, fun limit hl => ?_⟩
  · have ranks := Graph.ranks_top (size_fanIn_le h)
    simp only [get?_fanIn h] at ranks
    exact ranks
  · have ranks := Graph.ranks_top (Nat.le_of_eq size)
    simp only [Graph.fanOut, SortedMap.get?_mapValues] at ranks
    exact ranks
  · rw [different limit hl, listed limit hl,
      SortedMap.total_mapValues_eq_iff fun b => (List.dedup_sublist _).length_le]
    refine forall₃_congr fun k b _ => ?_
    rw [← List.dedup_eq_self]
    exact ⟨(List.dedup_sublist _).eq_of_length, congrArg List.length⟩

/-- A graph whose entry point leads to a range, which depends on a clock as often as is said. -/
def ranging (clocks : Nat) : BuildRequest :=
  (plain [.provided ⟨"Range", none⟩ (.of "range") none (.replicate clocks { key := ⟨"Clock", none⟩ }),
    .provided ⟨"Clock", none⟩ (.of "clock") none []]).entering [⟨"Range", none⟩]

/-- The tables of a built graph with room for all. -/
def tables? (r : BuildRequest) : Option (List Degree × List Degree) :=
  r.build.toOption.map fun g => (g.topFanIn g.bindings.size, g.topFanOut g.bindings.size)

theorem degrees_of_build_ranging : ∃ g, (ranging 1).build = .ok g ∧ g.Degrees ∧
    (ranging 1).tables? = some ([⟨⟨"Clock", none⟩, 1⟩], [⟨⟨"Range", none⟩, 1⟩]) := by
  have tables : (ranging 1).tables? = some ([⟨⟨"Clock", none⟩, 1⟩], [⟨⟨"Range", none⟩, 1⟩]) := by
    decide +kernel
  obtain ⟨g, hg, -⟩ := Option.map_eq_some_iff.mp tables
  cases h : (ranging 1).build with
  | error => rw [h] at hg; cases hg
  | ok g => exact ⟨g, rfl, degrees_of_build h, tables⟩

/-- A range that depends on a clock twice, for its start and for its end, is met by one edge. -/
theorem degrees_differ : ∃ g, (ranging 2).build = .ok g ∧
    Degree.total (g.topFanIn g.bindings.size) = 1 ∧
    Degree.total (g.topFanOut g.bindings.size) = 2 := by
  have tables : (ranging 2).tables? = some ([⟨⟨"Clock", none⟩, 1⟩], [⟨⟨"Range", none⟩, 2⟩]) := by
    decide +kernel
  obtain ⟨g, hg, ht⟩ := Option.map_eq_some_iff.mp tables
  obtain ⟨hin, hout⟩ := Prod.mk.inj ht
  cases h : (ranging 2).build with
  | error => rw [h] at hg; cases hg
  | ok g' =>
      rw [h] at hg
      obtain rfl := Option.some.inj hg
      exact ⟨g', rfl, by rw [hin]; rfl, by rw [hout]; rfl⟩

end BuildRequest

end Wiring
