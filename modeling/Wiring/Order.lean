/-!
# Order

Stable sorting by a comparison.  `sortBy cmp xs` lists the elements of `xs` so that no element
stands after a greater one, and elements that compare equal keep the order they had in `xs`.

Records are compared field by field with `compareLex` and `compareOn`; the two lemmas on these say
that records which compare equal agree in the fields compared.
-/

namespace Wiring

variable {α : Type}

/-- Puts `a` before the first element that `a` does not exceed. -/
def insertBy (cmp : α → α → Ordering) (a : α) : List α → List α
  | [] => [a]
  | b :: rest => if (cmp a b).isLE then a :: b :: rest else b :: insertBy cmp a rest

/-- The list in the order of `cmp`, equal elements in their former order. -/
def sortBy (cmp : α → α → Ordering) : List α → List α
  | [] => []
  | a :: rest => insertBy cmp a (sortBy cmp rest)

theorem insertBy_perm (cmp : α → α → Ordering) (a : α) :
    ∀ xs : List α, (insertBy cmp a xs).Perm (a :: xs)
  | [] => .refl _
  | b :: rest => by
      unfold insertBy
      split
      · exact .refl _
      · exact ((insertBy_perm cmp a rest).cons b).trans (.swap a b rest)

theorem sortBy_perm (cmp : α → α → Ordering) : ∀ xs : List α, (sortBy cmp xs).Perm xs
  | [] => .refl _
  | a :: rest => (insertBy_perm cmp a _).trans ((sortBy_perm cmp rest).cons a)

@[simp] theorem mem_sortBy {cmp : α → α → Ordering} {a : α} {xs : List α} :
    a ∈ sortBy cmp xs ↔ a ∈ xs :=
  (sortBy_perm cmp xs).mem_iff

theorem and_eq_of_compareLex {c d : α → α → Ordering} {a b : α} (h : compareLex c d a b = .eq) :
    c a b = .eq ∧ d a b = .eq :=
  Ordering.then_eq_eq.mp h

theorem eq_of_compareOn {β : Type} [Ord β] [Std.LawfulEqOrd β] {f : α → β} {a b : α}
    (h : compareOn f a b = .eq) : f a = f b :=
  Std.LawfulEqOrd.eq_of_compare h

theorem ne_of_compare_lt [Ord α] [Std.ReflOrd α] {a b : α} (h : compare a b = .lt) : a ≠ b := by
  rintro rfl
  rw [Std.ReflOrd.compare_self] at h
  cases h

end Wiring
