import Mathlib.Data.List.Pairwise
import Wiring.Proofs.Order
import Wiring.SortedMap

/-!
# What a sorted map answers

`get?` is the view of a map: a key has the value it stands beside in the list of entries
(`get?_eq_some_iff`), and each operation is stated by what it answers afterwards.  Values, keys and
extensionality follow from the view.
-/

namespace Wiring

open Std

/-! ### Writing an entry -/

/-- An entry of the list after a write is the one written, or an older one at another key. -/
theorem mem_insertEntry {κ ν : Type} [Ord κ] [TransOrd κ] [LawfulEqOrd κ] {k : κ} {v : ν}
    {e : κ × ν} :
    ∀ {l : List (κ × ν)}, l.Pairwise (fun a b => compare a.1 b.1 = .lt) →
      (e ∈ insertEntry k v l ↔ e = (k, v) ∨ e ∈ l ∧ e.1 ≠ k)
  | [], _ => by simp [insertEntry]
  | d :: rest, h => by
      obtain ⟨hd, hr⟩ := List.pairwise_cons.mp h
      rw [insertEntry]
      split
      · rename_i hlt
        rw [List.mem_cons]
        refine or_congr_right ⟨fun he => ⟨he, ?_⟩, fun he => he.1⟩
        rcases List.mem_cons.mp he with rfl | he
        · exact (ne_of_compare_lt hlt).symm
        · exact (ne_of_compare_lt (TransCmp.lt_trans hlt (hd e he))).symm
      · rename_i heq
        obtain rfl := LawfulEqOrd.eq_of_compare heq
        rw [List.mem_cons, List.mem_cons]
        refine or_congr_right ⟨fun he => ⟨.inr he, (ne_of_compare_lt (hd e he)).symm⟩, ?_⟩
        rintro ⟨he, hk⟩
        exact he.resolve_left fun h => hk (h ▸ rfl)
      · rename_i hgt
        have hne : d.1 ≠ k := ne_of_compare_lt (OrientedCmp.lt_of_gt hgt)
        rw [List.mem_cons, mem_insertEntry hr, List.mem_cons]
        constructor
        · rintro (rfl | he | ⟨he, hk⟩)
          · exact .inr ⟨.inl rfl, hne⟩
          · exact .inl he
          · exact .inr ⟨.inr he, hk⟩
        · rintro (he | ⟨rfl | he, hk⟩)
          · exact .inr (.inl he)
          · exact .inl rfl
          · exact .inr (.inr ⟨he, hk⟩)

namespace SortedMap

variable {κ ν : Type} [Ord κ]

@[simp] theorem get?_empty (k : κ) : (empty : SortedMap κ ν).get? k = none := rfl

theorem contains_iff {m : SortedMap κ ν} {k : κ} : m.contains k = true ↔ ∃ v, m.get? k = some v :=
  Option.isSome_iff_exists

theorem not_contains_iff {m : SortedMap κ ν} {k : κ} : m.contains k = false ↔ m.get? k = none :=
  Option.isSome_eq_false_iff.trans Option.isNone_iff_eq_none

/-! ### Look-ups -/

variable [LawfulEqOrd κ]

/-- Of two entries with one key there is only one. -/
theorem value_unique {m : SortedMap κ ν} {k : κ} {v w : ν} (hv : (k, v) ∈ m.entries)
    (hw : (k, w) ∈ m.entries) : v = w := by
  have h : m.entries.Pairwise fun a b => a.1 ≠ b.1 := m.increasing.imp ne_of_compare_lt
  by_contra hne
  have : Std.Symm fun a b : κ × ν => a.1 ≠ b.1 := ⟨fun _ _ h => h.symm⟩
  exact h.forall hv hw (fun he => hne (congrArg Prod.snd he)) rfl

theorem get?_eq_some_iff {m : SortedMap κ ν} {k : κ} {v : ν} :
    m.get? k = some v ↔ (k, v) ∈ m.entries := by
  rw [get?]
  constructor
  · intro h
    obtain ⟨e, he, rfl⟩ := Option.map_eq_some_iff.mp h
    have hk : e.1 = k := LawfulEqOrd.eq_of_compare (by simpa using List.find?_some he)
    exact hk ▸ List.mem_of_find?_eq_some he
  · intro h
    cases hf : m.entries.find? fun e => compare e.1 k == .eq with
    | none =>
        have := List.find?_eq_none.mp hf _ h
        simp at this
    | some e =>
        have hk : e.1 = k := LawfulEqOrd.eq_of_compare (by simpa using List.find?_some hf)
        have he : (k, e.2) ∈ m.entries := hk ▸ List.mem_of_find?_eq_some hf
        rw [Option.map_some, value_unique h he]

/-- A map is known by what it answers. -/
theorem ext_get? [TransOrd κ] {m n : SortedMap κ ν} (h : ∀ k, m.get? k = n.get? k) : m = n := by
  refine ext_entries (eq_of_pairwise_of_mem_iff (fun a b hab hba => ?_) m.increasing n.increasing
    fun e => ?_)
  · exact absurd (hab.symm.trans (OrientedCmp.gt_of_lt hba)) (by decide)
  · rw [← get?_eq_some_iff, h, get?_eq_some_iff]

theorem mem_values {m : SortedMap κ ν} {v : ν} : v ∈ m.values ↔ ∃ k, m.get? k = some v := by
  simp only [get?_eq_some_iff, values, List.mem_map, Prod.exists, exists_eq_right]

theorem mem_keys {m : SortedMap κ ν} {k : κ} : k ∈ m.keys ↔ m.contains k = true := by
  simp only [contains_iff, get?_eq_some_iff, keys, List.mem_map, Prod.exists, exists_and_right,
    exists_eq_right]

/-- A map that answers no look-up has no entry. -/
theorem eq_empty_of_get? {m : SortedMap κ ν} (h : ∀ k, m.get? k = none) : m = empty := by
  refine ext_entries (List.eq_nil_iff_forall_not_mem.mpr fun e he => ?_)
  have := h e.1
  rw [get?_eq_some_iff.mpr he] at this
  cases this

theorem get?_filter (m : SortedMap κ ν) (keep : κ → ν → Bool) (k : κ) :
    (m.filter keep).get? k = (m.get? k).filter (keep k) := by
  ext v
  simp only [get?_eq_some_iff, filter, List.mem_filter, Option.filter_eq_some_iff]

theorem get?_mapValues {μ : Type} (m : SortedMap κ ν) (f : κ → ν → μ) (k : κ) :
    (m.mapValues f).get? k = (m.get? k).map (f k) := by
  ext w
  simp only [get?_eq_some_iff, mapValues, List.mem_map, Option.map_eq_some_iff, Prod.mk.injEq,
    Prod.exists]
  constructor
  · rintro ⟨_, v, hv, rfl, rfl⟩
    exact ⟨v, hv, rfl⟩
  · rintro ⟨v, hv, rfl⟩
    exact ⟨k, v, hv, rfl, rfl⟩

variable [DecidableEq κ]

theorem get?_erase (m : SortedMap κ ν) (k j : κ) :
    (m.erase k).get? j = if j = k then none else m.get? j := by
  ext v
  rw [erase, get?_filter, Option.filter_eq_some_iff, bne_iff_ne, ne_eq,
    LawfulEqCmp.compare_eq_iff_eq]
  by_cases h : j = k <;> simp [h]

/-! ### Writes -/

variable [TransOrd κ]

theorem get?_insert (m : SortedMap κ ν) (k : κ) (v : ν) (j : κ) :
    (m.insert k v).get? j = if j = k then some v else m.get? j := by
  ext w
  rw [get?_eq_some_iff, insert, mem_insertEntry m.increasing, Prod.mk.injEq]
  by_cases h : j = k
  · simp [h, eq_comm]
  · simp [h, get?_eq_some_iff]

@[simp] theorem get?_insert_self (m : SortedMap κ ν) (k : κ) (v : ν) :
    (m.insert k v).get? k = some v := by
  rw [get?_insert, if_pos rfl]

theorem get?_insert_of_ne (m : SortedMap κ ν) {k j : κ} (v : ν) (h : j ≠ k) :
    (m.insert k v).get? j = m.get? j := by
  rw [get?_insert, if_neg h]

/-- After an insertion an entry is the new one or was there before. -/
theorem get?_insert_cases {m : SortedMap κ ν} {k j : κ} {v w : ν}
    (h : (m.insert k v).get? j = some w) : (j = k ∧ v = w) ∨ m.get? j = some w := by
  rw [get?_insert] at h
  split at h
  · exact .inl ⟨‹_›, Option.some.inj h⟩
  · exact .inr h

theorem contains_insert {m : SortedMap κ ν} {k j : κ} {v : ν} :
    (m.insert k v).contains j = true ↔ j = k ∨ m.contains j = true := by
  rw [contains, contains, get?_insert]
  split <;> simp [*]

theorem get?_alter (m : SortedMap κ ν) (k : κ) (f : Option ν → ν) (j : κ) :
    (m.alter k f).get? j = if j = k then some (f (m.get? k)) else m.get? j :=
  get?_insert ..

/-- What a map of listed entries answers was listed. -/
theorem mem_of_get?_ofList {l : List (κ × ν)} {k : κ} {v : ν} (h : (ofList l).get? k = some v) :
    (k, v) ∈ l := by
  have grown : ∀ (l : List (κ × ν)) (m : SortedMap κ ν),
      (l.foldl (fun m e => m.insert e.1 e.2) m).get? k = some v →
        (k, v) ∈ l ∨ m.get? k = some v := by
    intro l
    induction l with
    | nil => exact fun m h => .inr h
    | cons e rest ih =>
        intro m h
        rcases ih _ h with h | h
        · exact .inl (List.mem_cons_of_mem e h)
        · rw [get?_insert] at h
          split at h
          · rename_i hk
            obtain rfl := Option.some.inj h
            exact .inl (hk ▸ List.mem_cons_self)
          · exact .inr h
  exact (grown l empty h).resolve_right (by simp)

/-- If no key is listed twice, a map answers what was listed. -/
theorem get?_ofList {l : List (κ × ν)} (hl : (l.map (·.1)).Nodup) {k : κ} {v : ν} :
    (ofList l).get? k = some v ↔ (k, v) ∈ l := by
  have grown : ∀ (l : List (κ × ν)) (m : SortedMap κ ν), (l.map (·.1)).Nodup →
      ((l.foldl (fun m e => m.insert e.1 e.2) m).get? k = some v ↔
        (k, v) ∈ l ∨ k ∉ l.map (·.1) ∧ m.get? k = some v) := by
    intro l
    induction l with
    | nil => simp
    | cons e rest ih =>
        intro m hl
        obtain ⟨he, hl⟩ := List.nodup_cons.mp hl
        rw [List.foldl_cons, ih _ hl, get?_insert, List.mem_cons, List.map_cons, List.mem_cons]
        by_cases hk : k = e.1
        · subst hk
          have hrest : (e.1, v) ∉ rest := fun h => he (List.mem_map_of_mem (f := (·.1)) h)
          simp [he, hrest, Prod.ext_iff, eq_comm]
        · simp [hk, Prod.ext_iff]
  exact (grown l empty hl).trans (by simp)

/-- A value indexed by a key of its own stands at that key. -/
theorem get?_index {key : ν → κ} {values : List ν} {k : κ} {v : ν}
    (h : (index key values).get? k = some v) : key v = k ∧ v ∈ values := by
  obtain ⟨w, hw, he⟩ := List.mem_map.mp (mem_of_get?_ofList h)
  cases he
  exact ⟨rfl, hw⟩

/-- Values of different keys are indexed alike in whatever order they are listed. -/
theorem index_eq_of_perm {key : ν → κ} {vs ws : List ν} (h : vs.Perm ws)
    (hn : (vs.map key).Nodup) : index key vs = index key ws := by
  have distinct : ∀ us : List ν, (us.map key).Nodup →
      ((us.map fun v => (key v, v)).map (·.1)).Nodup := fun us hus => by
    rwa [List.map_map]
  have hn' : (ws.map key).Nodup := (h.map key).nodup_iff.mp hn
  refine ext_get? fun k => Option.ext fun v => ?_
  rw [index, index, get?_ofList (distinct vs hn), get?_ofList (distinct ws hn')]
  exact (h.map _).mem_iff

/-- The values gathered at a key are those of the list with this key. -/
theorem get?_group (key : ν → κ) (vs : List ν) (k : κ) : (group key vs).get? k =
    if vs.filter (key · = k) = [] then none else some (vs.filter (key · = k)) := by
  have grown : ∀ (vs : List ν) (m : SortedMap κ (List ν)),
      (vs.foldl (fun m v => m.alter (key v) fun us => us.getD [] ++ [v]) m).get? k =
        if vs.filter (key · = k) = [] then m.get? k
        else some ((m.get? k).getD [] ++ vs.filter (key · = k)) := by
    intro vs
    induction vs with
    | nil => simp
    | cons v rest ih =>
        intro m
        rw [List.foldl_cons, ih, get?_alter]
        by_cases hk : key v = k
        · subst hk
          by_cases hrest : rest.filter (key · = key v) = [] <;> simp [hrest]
        · simp [hk, Ne.symm hk]
  exact (grown vs empty).trans (by simp)

end SortedMap

end Wiring
