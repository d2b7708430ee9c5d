import Wiring.Proofs.Order
import Wiring.SortedSet

/-!
# The elements of a sorted set

The list of a set is its view: `contains` answers membership in it, and each operation is stated by
the elements it leaves.
-/

namespace Wiring

open Std

theorem mem_insertElement {α : Type} [Ord α] [LawfulEqOrd α] {a x : α} :
    ∀ {l : List α}, x ∈ insertElement a l ↔ x = a ∨ x ∈ l
  | [] => by simp [insertElement]
  | b :: rest => by
      rw [insertElement]
      split
      · exact List.mem_cons
      · rename_i heq
        obtain rfl := LawfulEqOrd.eq_of_compare heq
        simp
      · rw [List.mem_cons, mem_insertElement, List.mem_cons, or_left_comm]

namespace SortedSet

variable {α : Type} [Ord α]

@[simp] theorem toList_empty : (empty : SortedSet α).toList = [] := rfl

/-- A set is known by its elements. -/
theorem ext_mem [TransOrd α] {s t : SortedSet α} (h : ∀ a, a ∈ s.toList ↔ a ∈ t.toList) : s = t :=
  ext_toList (eq_of_pairwise_of_mem_iff
    (fun _ _ hab hba => absurd (hab.symm.trans (OrientedCmp.gt_of_lt hba)) (by decide))
    s.increasing t.increasing h)

theorem toList_eq [TransOrd α] {s : SortedSet α} {l : List α}
    (hl : l.Pairwise fun a b => compare a b = .lt) (h : ∀ a, a ∈ s.toList ↔ a ∈ l) : s.toList = l :=
  congrArg toList (ext_mem (t := ⟨l, hl⟩) h)

theorem isEmpty_iff {s : SortedSet α} : s.isEmpty = true ↔ ∀ a, a ∉ s.toList :=
  List.isEmpty_iff.trans List.eq_nil_iff_forall_not_mem

@[simp] theorem mem_filter {s : SortedSet α} {keep : α → Bool} {a : α} :
    a ∈ (s.filter keep).toList ↔ a ∈ s.toList ∧ keep a = true :=
  List.mem_filter

variable [LawfulEqOrd α]

theorem contains_iff {s : SortedSet α} {a : α} : s.contains a = true ↔ a ∈ s.toList := by
  simp [contains]

theorem not_contains_iff {s : SortedSet α} {a : α} : s.contains a = false ↔ a ∉ s.toList := by
  rw [← contains_iff, Bool.not_eq_true]

@[simp] theorem mem_erase {s : SortedSet α} {a x : α} :
    x ∈ (s.erase a).toList ↔ x ∈ s.toList ∧ x ≠ a := by
  rw [erase, mem_filter, bne_iff_ne, ne_eq, LawfulEqCmp.compare_eq_iff_eq]

theorem nodup_toList (s : SortedSet α) : s.toList.Nodup :=
  s.increasing.imp ne_of_compare_lt

variable [TransOrd α]

@[simp] theorem mem_insert {s : SortedSet α} {a x : α} :
    x ∈ (s.insert a).toList ↔ x = a ∨ x ∈ s.toList :=
  mem_insertElement

@[simp] theorem mem_insertAll {xs : List α} {x : α} :
    ∀ {s : SortedSet α}, x ∈ (s.insertAll xs).toList ↔ x ∈ xs ∨ x ∈ s.toList := by
  induction xs with
  | nil => simp [insertAll]
  | cons a rest ih =>
      intro s
      rw [List.mem_cons, or_assoc, or_left_comm, ← mem_insert]
      exact ih

@[simp] theorem mem_union {s t : SortedSet α} {x : α} :
    x ∈ (s.union t).toList ↔ x ∈ t.toList ∨ x ∈ s.toList :=
  mem_insertAll

@[simp] theorem mem_ofList {xs : List α} {x : α} : x ∈ (ofList xs).toList ↔ x ∈ xs := by
  simp [ofList]

end SortedSet

end Wiring
