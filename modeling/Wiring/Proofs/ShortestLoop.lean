import Mathlib.Data.List.Chain
import Wiring.Proofs.Digraph

/-!
# Shortest ways around

The search for a way back to a vertex holds the ways found so far, the shorter ones first, none
longer than the first by more than one step (`Search`).  Every way around comes by the end of one of
them, and not before that way does; so the first way that leads back closes a shortest way around
(`shortestLoop?_spec`).
-/

namespace Wiring

open Relation

/-! ### Chains -/

section Chains

variable {α : Type} {r s : α → α → Prop} {v w : α}

theorem reflTransGen_of_isChain {xs : List α} (h : (v :: (xs ++ [w])).IsChain r) :
    ReflTransGen r v w := by
  induction xs generalizing v with
  | nil => exact .single (List.isChain_cons_cons.mp h).1
  | cons x xs ih =>
      obtain ⟨hvx, h⟩ := List.isChain_cons_cons.mp h
      exact (ih h).head hvx

/-- A chain keeps to any relation that holds along it. -/
theorem isChain_imp_between {u : α} {xs : List α} (h : (v :: (xs ++ [w])).IsChain r)
    (hu : ReflTransGen r u v)
    (hrs : ∀ a b, r a b → ReflTransGen r u a → ReflTransGen r b w → s a b) :
    (v :: (xs ++ [w])).IsChain s := by
  induction xs generalizing v with
  | nil =>
      have hvw := (List.isChain_cons_cons.mp h).1
      exact List.isChain_cons_cons.mpr ⟨hrs _ _ hvw hu .refl, List.isChain_singleton w⟩
  | cons x xs ih =>
      obtain ⟨hvx, h⟩ := List.isChain_cons_cons.mp h
      exact List.isChain_cons_cons.mpr
        ⟨hrs _ _ hvx hu (reflTransGen_of_isChain h), ih h (hu.tail hvx)⟩

/-- All that stands before the end of a chain goes on. -/
theorem exists_next_of_isChain {xs : List α} {x : α} (h : (v :: (xs ++ [w])).IsChain r)
    (hx : x ∈ v :: xs) : ∃ y, r x y := by
  induction xs generalizing v with
  | nil =>
      obtain rfl := List.mem_singleton.mp hx
      exact ⟨w, (List.isChain_cons_cons.mp h).1⟩
  | cons y xs ih =>
      obtain ⟨hvy, h⟩ := List.isChain_cons_cons.mp h
      rcases List.mem_cons.mp hx with rfl | hx
      · exact ⟨y, hvy⟩
      · exact ih h hx

/-- All that stands on a way around goes on. -/
theorem exists_next_of_mem_loop {xs : List α} {x : α} (h : (v :: (xs ++ [v])).IsChain r)
    (hx : x ∈ v :: (xs ++ [v])) : ∃ y, r x y := by
  refine exists_next_of_isChain h ?_
  rcases List.mem_append.mp (List.cons_append ▸ hx) with hx | hx
  · exact hx
  · exact List.mem_singleton.mp hx ▸ .head _

/-- What stands between the ends of a way around lies on a way around. -/
theorem tied_of_isChain {xs : List α} {x : α} (h : (v :: (xs ++ [w])).IsChain r) (hx : x ∈ xs) :
    ReflTransGen r v x ∧ ReflTransGen r x w := by
  induction xs generalizing v with
  | nil => cases hx
  | cons y xs ih =>
      obtain ⟨hvy, h⟩ := List.isChain_cons_cons.mp h
      rcases List.mem_cons.mp hx with rfl | hx
      · exact ⟨.single hvy, reflTransGen_of_isChain h⟩
      · exact ⟨(ih h hx).1.head hvy, (ih h hx).2⟩

end Chains

/-- Of the ways from `start` back to itself, the one by `inner` meets no vertex twice and is none
longer than another. -/
structure IsShortestLoop {α : Type} (r : α → α → Prop) (start : α) (inner : List α) : Prop where
  chain : (start :: (inner ++ [start])).IsChain r
  nodup : (start :: inner).Nodup
  shortest : ∀ others, (start :: (others ++ [start])).IsChain r → inner.length ≤ others.length

namespace Digraph

variable {α : Type} {g : Digraph α} {start v : α} {seen passed : List α} {ways : List (List α)}

/-- A way found: from a vertex back to `start`, by vertices met and by none twice. -/
structure IsWay (g : Digraph α) (start : α) (seen way : List α) : Prop where
  ne_nil : way ≠ []
  met : way ⊆ seen
  nodup : (start :: way).Nodup
  chain : (way ++ [start]).IsChain fun a b => g.Arc b a

namespace IsWay

theorem mono {way seen' : List α} (h : g.IsWay start seen way) (hs : seen ⊆ seen') :
    g.IsWay start seen' way :=
  { h with met := fun _ hv => hs (h.met hv) }

/-- A way goes on to a vertex that was not met before. -/
theorem step {w : α} (h : g.IsWay start seen (v :: passed)) (hw : g.Arc v w) (hnew : w ∉ seen)
    (hne : w ≠ start) : g.IsWay start (seen ++ [w]) (w :: v :: passed) where
  ne_nil := List.cons_ne_nil _ _
  met := by
    refine List.cons_subset.mpr ⟨by simp, fun u hu => List.mem_append_left _ (h.met hu)⟩
  nodup := by
    have hfresh : w ∉ v :: passed := fun hmem => hnew (h.met hmem)
    obtain ⟨hstart, hway⟩ := List.nodup_cons.mp h.nodup
    exact List.nodup_cons.mpr
      ⟨fun hmem => (List.mem_cons.mp hmem).elim (fun he => hne he.symm) hstart,
        List.nodup_cons.mpr ⟨hfresh, hway⟩⟩
  chain := List.isChain_cons_cons.mpr ⟨hw, h.chain⟩

/-- A way that leads back closes a way around. -/
theorem isChain_reverse (h : g.IsWay start seen (v :: passed)) (hback : g.Arc v start) :
    (start :: ((v :: passed).reverse ++ [start])).IsChain g.Arc := by
  have around : (start :: (v :: passed ++ [start])).IsChain fun a b => g.Arc b a :=
    List.isChain_cons_cons.mpr ⟨hback, h.chain⟩
  simpa using List.isChain_reverse.mpr around

end IsWay

variable [DecidableEq α]

/-- What was met and leads back to `start` comes by the end of a way found. -/
theorem Met.ahead (hg : g.Proper) (h : g.Met start seen ways) {xs : List α} (hv : v ∈ seen)
    (hxs : (v :: (xs ++ [start])).IsChain g.Arc) :
    ∃ before u after, v :: xs = before ++ u :: after ∧ ∃ way ∈ ways, way.head? = some u := by
  induction xs generalizing v with
  | nil =>
      have hback := (List.isChain_cons_cons.mp hxs).1
      rcases h v hv with found | ⟨hstart, -⟩
      · exact ⟨[], v, [], rfl, found⟩
      · exact absurd (mem_next.mpr ⟨(hg _ _ hback).2, hback⟩) hstart
  | cons x xs ih =>
      obtain ⟨hvx, hrest⟩ := List.isChain_cons_cons.mp hxs
      rcases h v hv with found | ⟨-, hnext⟩
      · exact ⟨[], v, x :: xs, rfl, found⟩
      · obtain ⟨before, u, after, heq, found⟩ :=
          ih (hnext (mem_next.mpr ⟨(hg _ _ hvx).2, hvx⟩)) hrest
        exact ⟨v :: before, u, after, by rw [heq, List.cons_append], found⟩

/-- What a search for a shortest way back has found so far. -/
structure Search (g : Digraph α) (start : α) (seen : List α) (ways : List (List α)) : Prop where
  met : g.Met start seen ways
  isWay : ∀ way ∈ ways, g.IsWay start seen way
  ordered : ways.Pairwise fun way other => way.length ≤ other.length
  /-- No way is longer than the first by more than one step. -/
  level : ∀ first ∈ ways.head?, ∀ way ∈ ways, way.length ≤ first.length + 1
  /-- Every way around comes by the end of a way found, and not before that way does. -/
  ahead : ∀ others, (start :: (others ++ [start])).IsChain g.Arc →
    ∃ before v after, others = before ++ v :: after ∧
      ∃ way ∈ ways, way.head? = some v ∧ way.length ≤ before.length + 1

namespace Search

/-- A search starts from the vertices next to `start`. -/
theorem hops (hg : g.Proper) (h : start ∉ g.next start) :
    g.Search start (g.next start) ((g.next start).map fun v => [v]) where
  met v hv := .inl ⟨[v], List.mem_map_of_mem hv, rfl⟩
  isWay := by
    intro way hway
    obtain ⟨v, hv, rfl⟩ := List.mem_map.mp hway
    have hne : start ≠ v := by
      rintro rfl
      exact h hv
    exact
      { ne_nil := List.cons_ne_nil _ _
        met := List.cons_subset.mpr ⟨hv, List.nil_subset _⟩
        nodup := by simpa using hne
        chain := by simpa using (mem_next.mp hv).2 }
  ordered := List.pairwise_map.mpr (List.pairwise_of_forall fun _ _ => Nat.le_refl _)
  level := by
    intro first hfirst way hway
    obtain ⟨v, -, rfl⟩ := List.mem_map.mp hway
    obtain ⟨w, -, rfl⟩ := List.mem_map.mp (List.mem_of_mem_head? hfirst)
    exact Nat.le_succ 1
  ahead := by
    intro others hothers
    cases others with
    | nil =>
        have hloop := (List.isChain_cons_cons.mp hothers).1
        exact absurd (mem_next.mpr ⟨(hg _ _ hloop).2, hloop⟩) h
    | cons v rest =>
        have hv := (List.isChain_cons_cons.mp hothers).1
        exact ⟨[], v, rest, rfl, [v],
          List.mem_map_of_mem (mem_next.mpr ⟨(hg _ _ hv).2, hv⟩), rfl, Nat.le_refl 1⟩

/-- The first way found gives way to those that go on from it. -/
theorem step (hg : g.Proper) (h : g.Search start seen ((v :: passed) :: ways))
    (hstart : start ∉ g.next v) : g.Search start (seen ++ (g.next v).filter (· ∉ seen))
      (ways ++ ((g.next v).filter (· ∉ seen)).map (· :: v :: passed)) := by
  have met := h.met.step hstart
  have hlevel : ∀ way ∈ ways ++ ((g.next v).filter (· ∉ seen)).map (· :: v :: passed),
      (v :: passed).length ≤ way.length ∧ way.length ≤ (v :: passed).length + 1 := by
    intro way hway
    rcases List.mem_append.mp hway with hway | hway
    · exact ⟨(List.pairwise_cons.mp h.ordered).1 way hway, h.level _ rfl way (.tail _ hway)⟩
    · obtain ⟨w, -, rfl⟩ := List.mem_map.mp hway
      exact ⟨Nat.le_succ _, Nat.le_refl _⟩
  refine ⟨met, ?isWay, ?ordered, ?level, ?ahead⟩
  case isWay =>
    intro way hway
    rcases List.mem_append.mp hway with hway | hway
    · exact (h.isWay way (.tail _ hway)).mono (List.subset_append_left _ _)
    · obtain ⟨w, hw, rfl⟩ := List.mem_map.mp hway
      obtain ⟨hnext, hnew⟩ := List.mem_filter.mp hw
      have hne : w ≠ start := by
        rintro rfl
        exact hstart hnext
      refine ((h.isWay _ (.head _)).step (mem_next.mp hnext).2 (by simpa using hnew) hne).mono ?_
      exact List.append_subset.mpr ⟨List.subset_append_left _ _,
        List.cons_subset.mpr ⟨List.mem_append_right _ hw, List.nil_subset _⟩⟩
  case ordered =>
    refine List.pairwise_append.mpr ⟨(List.pairwise_cons.mp h.ordered).2, ?_, ?_⟩
    · exact List.pairwise_map.mpr (List.pairwise_of_forall fun _ _ => Nat.le_refl _)
    · intro way hway other hother
      obtain ⟨w, -, rfl⟩ := List.mem_map.mp hother
      exact (hlevel way (List.mem_append_left _ hway)).2
  case level =>
    intro first hfirst way hway
    have hle := (hlevel first (List.mem_of_mem_head? hfirst)).1
    have hle' := (hlevel way hway).2
    omega
  case ahead =>
    intro others hothers
    obtain ⟨before, u, after, rfl, way, hway, hhead, hlen⟩ := h.ahead others hothers
    rcases List.mem_cons.mp hway with rfl | hway
    · -- the way around comes by `v` and goes on to what is met by now
      obtain rfl : v = u := by simpa using hhead
      have hrest : (v :: (after ++ [start])).IsChain g.Arc := by
        rw [List.append_assoc, List.cons_append, ← List.cons_append] at hothers
        exact hothers.right_of_append
      cases after with
      | nil =>
          have hback := (List.isChain_cons_cons.mp hrest).1
          exact absurd (mem_next.mpr ⟨(hg _ _ hback).2, hback⟩) hstart
      | cons w after =>
          obtain ⟨hvw, hrest⟩ := List.isChain_cons_cons.mp hrest
          have hw : w ∈ seen ++ (g.next v).filter (· ∉ seen) := by
            have hw := mem_next.mpr ⟨(hg _ _ hvw).2, hvw⟩
            by_cases hs : w ∈ seen <;> simp [hs, hw]
          obtain ⟨before', u, after', heq, way, hway, hhead⟩ := met.ahead hg hw hrest
          refine ⟨before ++ v :: before', u, after', by simp [heq], way, hway, hhead, ?_⟩
          have hle := (hlevel way hway).2
          rw [List.length_append, List.length_cons]
          omega
    · exact ⟨before, u, after, rfl, way, List.mem_append_left _ hway, hhead, hlen⟩

/-- The first way that leads back closes a shortest way around. -/
theorem isShortestLoop (h : g.Search start seen ((v :: passed) :: ways))
    (hback : g.Arc v start) : IsShortestLoop g.Arc start (v :: passed).reverse where
  chain := (h.isWay _ (.head _)).isChain_reverse hback
  nodup := by
    obtain ⟨hstart, hway⟩ := List.nodup_cons.mp (h.isWay _ (.head _)).nodup
    exact List.nodup_cons.mpr ⟨by rwa [List.mem_reverse], List.nodup_reverse.mpr hway⟩
  shortest := by
    intro others hothers
    obtain ⟨before, u, after, rfl, way, hway, -, hlen⟩ := h.ahead others hothers
    have hle : (v :: passed).length ≤ way.length := by
      rcases List.mem_cons.mp hway with rfl | hway
      · exact Nat.le_refl _
      · exact (List.pairwise_cons.mp h.ordered).1 way hway
    simp only [List.length_reverse, List.length_append, List.length_cons] at hle ⊢
    omega

end Search

/-- What a search finds is a shortest way around. -/
theorem wayBack?_spec (hg : g.Proper) : ∀ {steps : Nat} {seen : List α} {ways : List (List α)}
    {way : List α}, g.Search start seen ways → g.wayBack? start steps seen ways = some way →
      ∃ inner, way = start :: (inner ++ [start]) ∧ IsShortestLoop g.Arc start inner
  | 0, _, _, _, _, h | _ + 1, _, [], _, _, h => by simp [wayBack?] at h
  | _ + 1, _, [] :: _, _, search, _ => absurd rfl (search.isWay [] (.head _)).ne_nil
  | steps + 1, seen, (v :: passed) :: ways, way, search, h => by
      simp only [wayBack?] at h
      split at h
      · rename_i hback
        exact ⟨_, (Option.some.inj h).symm, search.isShortestLoop (mem_next.mp hback).2⟩
      · rename_i hstart
        exact wayBack?_spec hg (search.step hg hstart) h

/-- **The way around that is found is a shortest one.** -/
theorem shortestLoop?_spec (hg : g.Proper) {way : List α} (h : g.shortestLoop? v = some way) :
    ∃ inner, way = v :: (inner ++ [v]) ∧ IsShortestLoop g.Arc v inner := by
  simp only [shortestLoop?] at h
  split at h
  · rename_i hloop
    refine ⟨[], (Option.some.inj h).symm, ?_, List.nodup_singleton v, fun _ _ => Nat.zero_le _⟩
    exact List.isChain_cons_cons.mpr ⟨(mem_next.mp hloop).2, List.isChain_singleton v⟩
  · rename_i hstart
    exact wayBack?_spec hg (.hops hg hstart) h

end Digraph

end Wiring
