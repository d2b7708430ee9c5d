/-!
# Sorted maps

A finite map is the list of its entries with strictly increasing keys, so two maps that answer
every look-up alike are equal, and whatever is listed from a map is listed in key order.
-/

namespace Wiring

variable {κ ν : Type}

/-- Writes `v` at `k` into a list of entries with increasing keys. -/
def insertEntry [Ord κ] (k : κ) (v : ν) : List (κ × ν) → List (κ × ν)
  | [] => [(k, v)]
  | e :: rest =>
      match compare k e.1 with
      | .lt => (k, v) :: e :: rest
      | .eq => (k, v) :: rest
      | .gt => e :: insertEntry k v rest

theorem fst_of_mem_insertEntry [Ord κ] {k : κ} {v : ν} {e : κ × ν} :
    ∀ {l : List (κ × ν)}, e ∈ insertEntry k v l → e = (k, v) ∨ e ∈ l
  | [], h => .inl (List.mem_singleton.mp h)
  | d :: rest, h => by
      unfold insertEntry at h
      split at h
      · exact List.mem_cons.mp h
      · exact (List.mem_cons.mp h).imp_right (List.mem_cons_of_mem d)
      · rcases List.mem_cons.mp h with rfl | h
        · exact .inr List.mem_cons_self
        · exact (fst_of_mem_insertEntry h).imp_right (List.mem_cons_of_mem d)

theorem pairwise_insertEntry [Ord κ] [Std.TransOrd κ] [Std.LawfulEqOrd κ] {k : κ} {v : ν} :
    ∀ {l : List (κ × ν)}, l.Pairwise (fun a b => compare a.1 b.1 = .lt) →
      (insertEntry k v l).Pairwise (fun a b => compare a.1 b.1 = .lt)
  | [], _ => List.pairwise_singleton _ _
  | d :: rest, h => by
      obtain ⟨hd, hr⟩ := List.pairwise_cons.mp h
      unfold insertEntry
      split
      · rename_i hlt
        refine List.pairwise_cons.mpr ⟨fun e he => ?_, h⟩
        rcases List.mem_cons.mp he with rfl | he
        · exact hlt
        · exact Std.TransCmp.lt_trans hlt (hd e he)
      · rename_i heq
        refine List.pairwise_cons.mpr ⟨fun e he => ?_, hr⟩
        rw [Std.LawfulEqOrd.eq_of_compare heq]
        exact hd e he
      · rename_i hgt
        refine List.pairwise_cons.mpr ⟨fun e he => ?_, pairwise_insertEntry hr⟩
        rcases fst_of_mem_insertEntry he with rfl | he
        · exact Std.OrientedCmp.lt_of_gt hgt
        · exact hd e he

/-- A finite map from keys to values. -/
structure SortedMap (κ ν : Type) [Ord κ] where
  entries : List (κ × ν)
  increasing : entries.Pairwise (fun a b => compare a.1 b.1 = .lt)

namespace SortedMap

variable [Ord κ]

theorem ext_entries {m n : SortedMap κ ν} (h : m.entries = n.entries) : m = n := by
  cases m; cases n; cases h; rfl

/-- The map without entries. -/
def empty : SortedMap κ ν := ⟨[], .nil⟩

instance : Inhabited (SortedMap κ ν) := ⟨empty⟩

/-- The value at `k`. -/
def get? (m : SortedMap κ ν) (k : κ) : Option ν :=
  (m.entries.find? fun e => compare e.1 k == .eq).map (·.2)

/-- Whether `k` has a value. -/
def contains (m : SortedMap κ ν) (k : κ) : Bool := (m.get? k).isSome

def keys (m : SortedMap κ ν) : List κ := m.entries.map (·.1)

/-- The values in key order. -/
def values (m : SortedMap κ ν) : List ν := m.entries.map (·.2)

/-- The number of entries. -/
def size (m : SortedMap κ ν) : Nat := m.entries.length

/-- The entries that `keep` accepts. -/
def filter (m : SortedMap κ ν) (keep : κ → ν → Bool) : SortedMap κ ν where
  entries := m.entries.filter fun e => keep e.1 e.2
  increasing := m.increasing.filter _

/-- The map with every value changed by `f`. -/
def mapValues {μ : Type} (m : SortedMap κ ν) (f : κ → ν → μ) : SortedMap κ μ where
  entries := m.entries.map fun e => (e.1, f e.1 e.2)
  increasing := List.pairwise_map.mpr m.increasing

/-- The map without a value at `k`. -/
def erase (m : SortedMap κ ν) (k : κ) : SortedMap κ ν := m.filter fun j _ => compare j k != .eq

variable [Std.TransOrd κ] [Std.LawfulEqOrd κ]

/-- The map with `v` at `k`, whatever stood there before. -/
def insert (m : SortedMap κ ν) (k : κ) (v : ν) : SortedMap κ ν where
  entries := insertEntry k v m.entries
  increasing := pairwise_insertEntry m.increasing

/-- The map with the value at `k` replaced by what `f` makes of it. -/
def alter (m : SortedMap κ ν) (k : κ) (f : Option ν → ν) : SortedMap κ ν :=
  m.insert k (f (m.get? k))

/-- The map of a list of entries; of two entries with one key the later counts. -/
def ofList (entries : List (κ × ν)) : SortedMap κ ν :=
  entries.foldl (fun m e => m.insert e.1 e.2) empty

/-- The values of a list by a key of each; of two values with one key the later counts. -/
def index (key : ν → κ) (values : List ν) : SortedMap κ ν := ofList (values.map fun v => (key v, v))

/-- The values of a list gathered by a key of each, in the order of the list. -/
def group (key : ν → κ) (values : List ν) : SortedMap κ (List ν) :=
  values.foldl (fun m v => m.alter (key v) fun vs => vs.getD [] ++ [v]) empty

end SortedMap

end Wiring
