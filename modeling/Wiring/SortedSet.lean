/-!
# Sorted sets

A finite set is the list of its elements in strictly increasing order, so sets with the same
elements are equal, and they are always listed in order.
-/

namespace Wiring

variable {α : Type}

/-- Adds `a` to a list with increasing elements. -/
def insertElement [Ord α] (a : α) : List α → List α
  | [] => [a]
  | b :: rest =>
      match compare a b with
      | .lt => a :: b :: rest
      | .eq => b :: rest
      | .gt => b :: insertElement a rest

theorem mem_of_mem_insertElement [Ord α] {a x : α} :
    ∀ {l : List α}, x ∈ insertElement a l → x = a ∨ x ∈ l
  | [], h => .inl (List.mem_singleton.mp h)
  | b :: rest, h => by
      unfold insertElement at h
      split at h
      · exact List.mem_cons.mp h
      · exact .inr h
      · rcases List.mem_cons.mp h with rfl | h
        · exact .inr List.mem_cons_self
        · exact (mem_of_mem_insertElement h).imp_right (List.mem_cons_of_mem b)

theorem pairwise_insertElement [Ord α] [Std.TransOrd α] {a : α} :
    ∀ {l : List α}, l.Pairwise (fun x y => compare x y = .lt) →
      (insertElement a l).Pairwise (fun x y => compare x y = .lt)
  | [], _ => List.pairwise_singleton _ _
  | b :: rest, h => by
      obtain ⟨hb, hr⟩ := List.pairwise_cons.mp h
      unfold insertElement
      split
      · rename_i hlt
        refine List.pairwise_cons.mpr ⟨fun x hx => ?_, h⟩
        rcases List.mem_cons.mp hx with rfl | hx
        · exact hlt
        · exact Std.TransCmp.lt_trans hlt (hb x hx)
      · exact h
      · rename_i hgt
        refine List.pairwise_cons.mpr ⟨fun x hx => ?_, pairwise_insertElement hr⟩
        rcases mem_of_mem_insertElement hx with rfl | hx
        · exact Std.OrientedCmp.lt_of_gt hgt
        · exact hb x hx

/-- A finite set. -/
structure SortedSet (α : Type) [Ord α] where
  toList : List α
  increasing : toList.Pairwise (fun x y => compare x y = .lt)

namespace SortedSet

variable [Ord α]

theorem ext_toList {s t : SortedSet α} (h : s.toList = t.toList) : s = t := by
  cases s; cases t; cases h; rfl

/-- The set without elements. -/
def empty : SortedSet α := ⟨[], .nil⟩

instance : Inhabited (SortedSet α) := ⟨empty⟩

/-- Whether `a` is an element. -/
def contains (s : SortedSet α) (a : α) : Bool := s.toList.any fun b => compare b a == .eq

/-- Whether there is no element. -/
def isEmpty (s : SortedSet α) : Bool := s.toList.isEmpty

/-- The elements that `keep` accepts. -/
def filter (s : SortedSet α) (keep : α → Bool) : SortedSet α :=
  ⟨s.toList.filter keep, s.increasing.filter _⟩

/-- The set without `a`. -/
def erase (s : SortedSet α) (a : α) : SortedSet α := s.filter fun b => compare b a != .eq

variable [Std.TransOrd α]

/-- The set with `a`. -/
def insert (s : SortedSet α) (a : α) : SortedSet α :=
  ⟨insertElement a s.toList, pairwise_insertElement s.increasing⟩

/-- The set with the elements of a list. -/
def insertAll (s : SortedSet α) (xs : List α) : SortedSet α := xs.foldl insert s

/-- The elements of either set. -/
def union (s t : SortedSet α) : SortedSet α := s.insertAll t.toList

/-- The elements of a list. -/
def ofList (xs : List α) : SortedSet α := empty.insertAll xs

end SortedSet

end Wiring
