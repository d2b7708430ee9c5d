import Mathlib
import Wiring.Settings

/-!
# What a layer does to a setting

A name leads into one member of the tree of settings (`rootOf`).  Setting a value at a name changes
that member alone (`get?_set`), so a layer leaves a member alone into which none of its names leads.
If one name does, and names the member itself, the member gets the value written there, whatever it
was before (`Writes.get?_layer`).
-/

namespace Wiring.Settings

variable {s : Settings} {layer : List (String × Value)} {name member : String} {v : Value}

/-! ### One value -/

theorem lookup_setMember (name other : String) (v : Value) (members : List (String × Value)) :
    (setMember name v members).lookup other =
      if other = name then some v else members.lookup other := by
  by_cases h : other = name
  · subst h
    rw [if_pos rfl]
    induction members with
    | nil => rw [setMember, List.lookup_cons_self]
    | cons e rest ih =>
        obtain ⟨n, w⟩ := e
        rw [setMember]
        by_cases hn : n = other
        · rw [if_pos hn, hn, List.lookup_cons_self]
        · have differs : (other == n) = false := beq_eq_false_iff_ne.mpr (Ne.symm hn)
          rw [if_neg hn, List.lookup, differs, ih]
  · have differs : (other == name) = false := beq_eq_false_iff_ne.mpr h
    rw [if_neg h]
    induction members with
    | nil => simp only [setMember, List.lookup, differs]
    | cons e rest ih =>
        obtain ⟨n, w⟩ := e
        rw [setMember]
        by_cases hn : n = name
        · rw [if_pos hn, hn, List.lookup, List.lookup, differs]
        · rw [if_neg hn, List.lookup, List.lookup, ih]

/-- Every name leads into a member of the tree first. -/
theorem exists_stepsOf (name : String) : ∃ first rest, stepsOf name = .member first :: rest := by
  rw [stepsOf]
  cases memberName? name.toList with
  | none => exact ⟨name, [], rfl⟩
  | some found =>
      obtain ⟨first, rest⟩ := found
      simp only [Option.bind_some]
      cases furtherSteps? rest.length rest with
      | none => exact ⟨name, [], rfl⟩
      | some further => exact ⟨first, further, rfl⟩

/-- The member of the tree that a name leads into. -/
def rootOf (name : String) : String :=
  match stepsOf name with
  | .member first :: _ => lowerText first
  | _ => lowerText name

/-- A name is that of a member itself, not of something within it. -/
def Names (name member : String) : Prop :=
  ∃ first, stepsOf name = [.member first] ∧ lowerText first = member

theorem Names.rootOf_eq (h : Names name member) : rootOf name = member := by
  obtain ⟨first, hs, hm⟩ := h
  rw [rootOf, hs]
  exact hm

/-- Setting a value at a name changes the member that the name leads into, and no other. -/
theorem get?_set_of_ne (h : rootOf name ≠ member) : (s.set name v).get? member = s.get? member := by
  obtain ⟨first, rest, hs⟩ := exists_stepsOf name
  rw [rootOf, hs] at h
  rw [set, hs]
  exact (lookup_setMember ..).trans (if_neg (Ne.symm h))

/-- A value that is no table takes the place of what stood there. -/
theorem merge_of_ne_object (h : ∀ members, v ≠ .object members) (old : Option Value) :
    merge old v = v := by
  cases v with
  | object members => exact absurd rfl (h members)
  | _ => rfl

theorem get?_set_of_names (hn : Names name member) (h : ∀ members, v ≠ .object members) :
    (s.set name v).get? member = some v := by
  obtain ⟨first, hs, rfl⟩ := hn
  rw [set, hs]
  refine (lookup_setMember ..).trans ((if_pos rfl).trans ?_)
  rw [place, merge_of_ne_object h]

/-! ### A layer -/

/-- The names of a layer that lead into a member. -/
def namesAt {α : Type} (layer : List (String × α)) (member : String) : List String :=
  (layer.map (·.1)).filter fun name => rootOf name = member

/-- What a layer writes to a member: nothing, if no name leads there, or a value, if one name does
and is that of the member itself. -/
inductive Writes {α : Type} (layer : List (String × α)) (member : String) : Option α → Prop where
  | nothing (h : namesAt layer member = []) : Writes layer member none
  | once {name : String} {a : α} (h : namesAt layer member = [name]) (hn : Names name member)
      (ha : (name, a) ∈ layer) : Writes layer member (some a)

theorem Writes.map {α β : Type} {layer : List (String × α)} {w : Option α} (f : α → β)
    (h : Writes layer member w) : Writes (layer.map fun e => (e.1, f e.2)) member (w.map f) := by
  have same : namesAt (layer.map fun e => (e.1, f e.2)) member = namesAt layer member := by
    rw [namesAt, List.map_map]
    rfl
  cases h with
  | nothing h => exact .nothing (same.trans h)
  | once h hn ha =>
      exact .once (same.trans h) hn (List.mem_map_of_mem (f := fun e => (e.1, f e.2)) ha)

theorem mem_namesAt {e : String × Value} (he : e ∈ layer) : e.1 ∈ namesAt layer (rootOf e.1) :=
  List.mem_filter.mpr ⟨List.mem_map_of_mem he, decide_eq_true rfl⟩

theorem namesAt_cons_of_eq {α : Type} {layer : List (String × α)} {e : String × α}
    (h : rootOf e.1 = member) : namesAt (e :: layer) member = e.1 :: namesAt layer member :=
  List.filter_cons_of_pos (decide_eq_true h)

theorem namesAt_cons_of_ne {α : Type} {layer : List (String × α)} {e : String × α}
    (h : rootOf e.1 ≠ member) : namesAt (e :: layer) member = namesAt layer member :=
  List.filter_cons_of_neg (by simpa using h)

theorem get?_layer_of_nothing (h : namesAt layer member = []) :
    (s.layer layer).get? member = s.get? member := by
  induction layer generalizing s with
  | nil => rfl
  | cons e rest ih =>
      by_cases hroot : rootOf e.1 = member
      · rw [namesAt_cons_of_eq hroot] at h
        cases h
      · rw [namesAt_cons_of_ne hroot] at h
        rw [Settings.layer]
        split
        · exact ih h
        · rw [ih h, get?_set_of_ne hroot]

theorem get?_layer_of_once (h : namesAt layer member = [name]) (hn : Names name member)
    (hm : (name, v) ∈ layer) (hv : ∀ members, v ≠ .object members) :
    (s.layer layer).get? member = some v := by
  induction layer generalizing s with
  | nil => cases hm
  | cons e rest ih =>
      rw [Settings.layer]
      by_cases hroot : rootOf e.1 = member
      · rw [namesAt_cons_of_eq hroot] at h
        obtain ⟨hname, hrest⟩ := List.cons.inj h
        -- no further name leads to the member, so this entry is the one
        have last : ∀ u, (name, u) ∉ rest := by
          intro u hu
          have listed := mem_namesAt hu
          rw [hn.rootOf_eq, hrest] at listed
          cases listed
        obtain rfl : (name, v) = e := (List.mem_cons.mp hm).resolve_right (last v)
        have once : ¬ (rest.lookup name).isSome = true := by
          intro again
          obtain ⟨u, hu⟩ := Option.isSome_iff_exists.mp again
          obtain ⟨before, after, he, -⟩ := List.lookup_eq_some_iff.mp hu
          exact last u (he ▸ List.mem_append_right _ List.mem_cons_self)
        rw [if_neg once, get?_layer_of_nothing hrest, get?_set_of_names hn hv]
      · rw [namesAt_cons_of_ne hroot] at h
        have later : (name, v) ∈ rest := by
          refine (List.mem_cons.mp hm).resolve_left fun he => hroot ?_
          rw [← he, hn.rootOf_eq]
        split
        · exact ih h later
        · exact ih h later

/-- **A layer writes what it says to a member**, and leaves the member alone if it says nothing. -/
theorem Writes.get?_layer {w : Option Value} (h : Writes layer member w)
    (hw : ∀ v ∈ w, ∀ members, v ≠ .object members) :
    (s.layer layer).get? member = w.or (s.get? member) := by
  cases h with
  | nothing h => exact get?_layer_of_nothing h
  | once h hn ha => exact get?_layer_of_once h hn ha (hw _ rfl)

end Wiring.Settings
