import Mathlib.Data.List.Forall2
import Mathlib.Data.List.Nodup
import Wiring.Order

/-!
# What sorting yields

What is sorted increases (`pairwise_sortBy`).  Elements come out in the same order however they came
in, if no two different ones compare equal (`sortBy_append_eq_of_perm`); a list in a strict order is
known by its elements (`eq_of_pairwise_of_mem_iff`).  Sorting by a key commutes with a map that keeps
the keys (`map_sortBy`), so lists whose elements correspond, with equal keys, are sorted alike
(`forall₂_sortBy`).
-/

namespace Wiring

open Std

variable {α β κ : Type}

/-! ### Sorted lists -/

theorem pairwise_insertBy {cmp : α → α → Ordering} [TransCmp cmp] (a : α) : ∀ {xs : List α},
    (xs.Pairwise fun a b => (cmp a b).isLE) →
      (insertBy cmp a xs).Pairwise fun a b => (cmp a b).isLE
  | [], _ => List.pairwise_singleton _ _
  | b :: rest, h => by
      obtain ⟨hb, hr⟩ := List.pairwise_cons.mp h
      rw [insertBy]
      split
      · rename_i hab
        refine List.pairwise_cons.mpr ⟨fun c hc => ?_, h⟩
        rcases List.mem_cons.mp hc with rfl | hc
        · exact hab
        · exact TransCmp.isLE_trans hab (hb c hc)
      · rename_i hab
        refine List.pairwise_cons.mpr ⟨fun c hc => ?_, pairwise_insertBy a hr⟩
        rcases List.mem_cons.mp ((insertBy_perm cmp a rest).mem_iff.mp hc) with rfl | hc
        · exact Ordering.isLE_of_eq_lt (OrientedCmp.lt_of_not_isLE hab)
        · exact hb c hc

/-- A sorted list increases. -/
theorem pairwise_sortBy (cmp : α → α → Ordering) [TransCmp cmp] : ∀ xs : List α,
    (sortBy cmp xs).Pairwise fun a b => (cmp a b).isLE
  | [] => .nil
  | a :: rest => pairwise_insertBy a (pairwise_sortBy cmp rest)

/-! ### Sorting what may come in any order -/

/-- Elements that do not compare equal may be put into a list one before the other. -/
theorem insertBy_comm {cmp : α → α → Ordering} [TransCmp cmp] {a b : α} (h : cmp a b ≠ .eq) :
    ∀ xs : List α, insertBy cmp a (insertBy cmp b xs) = insertBy cmp b (insertBy cmp a xs) := by
  have ordered : ∀ {a b : α}, cmp a b = .lt → ∀ xs : List α,
      insertBy cmp a (insertBy cmp b xs) = insertBy cmp b (insertBy cmp a xs) := by
    intro a b hab xs
    have le : (cmp a b).isLE := Ordering.isLE_of_eq_lt hab
    have not_le : ¬ (cmp b a).isLE := by simp [OrientedCmp.gt_of_lt hab]
    induction xs with
    | nil => simp [insertBy, le, not_le]
    | cons c rest ih =>
        by_cases hb : (cmp b c).isLE
        · have ha : (cmp a c).isLE := TransCmp.isLE_trans le hb
          simp [insertBy, le, not_le, ha, hb]
        · by_cases ha : (cmp a c).isLE <;> simp [insertBy, not_le, ha, hb, ih]
  cases hab : cmp a b with
  | lt => exact ordered hab
  | eq => exact absurd hab h
  | gt => exact fun xs => (ordered (OrientedCmp.lt_of_gt hab) xs).symm

theorem sortBy_append (cmp : α → α → Ordering) : ∀ xs ys : List α,
    sortBy cmp (xs ++ ys) = xs.foldr (insertBy cmp) (sortBy cmp ys)
  | [], _ => rfl
  | _ :: rest, ys => by rw [List.cons_append, sortBy, sortBy_append cmp rest ys, List.foldr_cons]

/-- **Elements may come in any order before they are sorted**, unless different ones compare
equal; elements behind them stay where they are. -/
theorem sortBy_append_eq_of_perm {cmp : α → α → Ordering} [TransCmp cmp] {xs ys : List α}
    (h : xs.Perm ys) (he : ∀ x ∈ xs, ∀ y ∈ xs, cmp x y = .eq → x = y) (zs : List α) :
    sortBy cmp (xs ++ zs) = sortBy cmp (ys ++ zs) := by
  rw [sortBy_append, sortBy_append]
  refine h.foldr_eq' (fun x hx y hy sorted => ?_) _
  by_cases hxy : cmp y x = .eq
  · rw [he y hy x hx hxy]
  · exact insertBy_comm hxy sorted

theorem sortBy_eq_of_perm {cmp : α → α → Ordering} [TransCmp cmp] {xs ys : List α}
    (h : xs.Perm ys) (he : ∀ x ∈ xs, ∀ y ∈ xs, cmp x y = .eq → x = y) :
    sortBy cmp xs = sortBy cmp ys := by
  simpa using sortBy_append_eq_of_perm h he []

theorem sortBy_compare_eq_of_perm [Ord α] [TransOrd α] [LawfulEqOrd α] {xs ys : List α}
    (h : xs.Perm ys) : sortBy compare xs = sortBy compare ys :=
  sortBy_eq_of_perm h fun _ _ _ _ => LawfulEqOrd.eq_of_compare

/-- A list in a strict order is known by its elements. -/
theorem eq_of_pairwise_of_mem_iff {r : α → α → Prop} (asymm : ∀ a b, r a b → ¬ r b a)
    {xs ys : List α} (hx : xs.Pairwise r) (hy : ys.Pairwise r) (h : ∀ a, a ∈ xs ↔ a ∈ ys) :
    xs = ys := by
  have nodup : ∀ {zs : List α}, zs.Pairwise r → zs.Nodup := fun hz =>
    hz.imp (S := (· ≠ ·)) fun {a b} hab heq => asymm a b hab (by rwa [heq] at hab ⊢)
  refine List.Perm.eq_of_pairwise (fun a b _ _ hab hba => absurd hba (asymm a b hab)) hx hy ?_
  exact (List.perm_ext_iff_of_nodup (nodup hx) (nodup hy)).mpr h

/-! ### Sorting by a key -/

variable [Ord κ] {f : α → κ} {g : β → κ}

theorem map_insertBy {m : α → β} (hm : ∀ x, g (m x) = f x) (a : α) : ∀ xs : List α,
    (insertBy (compareOn f) a xs).map m = insertBy (compareOn g) (m a) (xs.map m)
  | [] => rfl
  | b :: rest => by
      have same : compareOn g (m a) (m b) = compareOn f a b := by simp only [compareOn, hm]
      rw [insertBy, List.map_cons, insertBy, same]
      split
      · rfl
      · rw [List.map_cons, map_insertBy hm a rest]

/-- A map that keeps the keys may come before or after sorting by them. -/
theorem map_sortBy {m : α → β} (hm : ∀ x, g (m x) = f x) : ∀ xs : List α,
    (sortBy (compareOn f) xs).map m = sortBy (compareOn g) (xs.map m)
  | [] => rfl
  | a :: rest => by
      rw [sortBy, map_insertBy hm, map_sortBy hm rest]
      rfl

/-- Lists whose elements correspond, with equal keys, are sorted alike. -/
theorem forall₂_sortBy {R : α → β → Prop} (hk : ∀ a b, R a b → f a = g b) {xs : List α}
    {ys : List β} (h : List.Forall₂ R xs ys) :
    List.Forall₂ R (sortBy (compareOn f) xs) (sortBy (compareOn g) ys) := by
  have inserted : ∀ {xs ys} {a : α} {b : β}, R a b → List.Forall₂ R xs ys →
      List.Forall₂ R (insertBy (compareOn f) a xs) (insertBy (compareOn g) b ys) := by
    intro xs ys a b hab h
    induction h with
    | nil => exact .cons hab .nil
    | @cons x y xs ys hxy h ih =>
        have same : compareOn g b y = compareOn f a x := by
          simp only [compareOn, hk a b hab, hk x y hxy]
        rw [insertBy, insertBy, same]
        split
        · exact .cons hab (.cons hxy h)
        · exact .cons hxy ih
  induction h with
  | nil => exact .nil
  | cons hab _ ih => exact inserted hab ih

end Wiring
