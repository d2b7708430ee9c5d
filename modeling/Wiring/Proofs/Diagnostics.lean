import Wiring.Diagnostics

/-!
# A collector with and without errors

A collector is empty only if nothing was ever reported to it (`isEmpty_reportAll`), so a build that
yields a graph met no error at any point.
-/

namespace Wiring.Diagnostics

@[simp] theorem cap_report (d : Diagnostics) (e : GraphError) : (d.report e).cap = d.cap := by
  rw [report]
  split
  · rfl
  · split <;> rfl

@[simp] theorem isEmpty_report (d : Diagnostics) (e : GraphError) :
    (d.report e).isEmpty = false := by
  rw [report]
  split
  · rename_i h
    have : d.stored ≠ [] := by rintro he; simp [he] at h
    simp [isEmpty, this]
  · split <;> simp [isEmpty]

@[simp] theorem cap_reportAll (errors : List GraphError) :
    ∀ d : Diagnostics, (d.reportAll errors).cap = d.cap := by
  induction errors with
  | nil => exact fun _ => rfl
  | cons e rest ih => exact fun d => (ih (d.report e)).trans (cap_report d e)

@[simp] theorem isEmpty_reportAll (errors : List GraphError) :
    ∀ d : Diagnostics, (d.reportAll errors).isEmpty = (d.isEmpty && errors.isEmpty) := by
  induction errors with
  | nil => exact fun d => by simp [reportAll]
  | cons e rest ih =>
      intro d
      show ((d.report e).reportAll rest).isEmpty = _
      simp [ih]

/-- What a collector keeps after an error it kept before, the error apart. -/
theorem mem_stored_report {d : Diagnostics} {e e' : GraphError} (h : e' ∈ (d.report e).stored) :
    e' ∈ d.stored ∨ e' = e := by
  rw [report] at h
  split at h
  · exact .inl h
  · split at h
    · exact .inl h
    · exact (List.mem_append.mp h).imp_right List.mem_singleton.mp

theorem mem_stored_reportAll {e : GraphError} {errors : List GraphError} :
    ∀ {d : Diagnostics}, e ∈ (d.reportAll errors).stored → e ∈ d.stored ∨ e ∈ errors := by
  induction errors with
  | nil => exact fun h => .inl h
  | cons e' rest ih =>
      intro d h
      rcases ih h with h | h
      · exact (mem_stored_report h).imp_right fun he => List.mem_cons.mpr (.inl he)
      · exact .inr (.tail _ h)

/-- A collector that may keep an error and has none keeps the next one. -/
theorem isEmpty_eq_false_of_limitReached {d : Diagnostics} (hc : 0 < d.cap)
    (h : d.limitReached = true) : d.isEmpty = false := by
  have : d.stored ≠ [] := by
    rintro he
    simp [limitReached, he] at h
    omega
  simp [isEmpty, this]

theorem cap_ofCap_pos (cap : Nat) : 0 < (ofCap cap).cap :=
  Nat.lt_of_lt_of_le Nat.one_pos (Nat.le_max_right cap 1)

theorem result_eq_ok {α : Type} {d : Diagnostics} {v w : α} :
    d.result v = .ok w ↔ d.isEmpty = true ∧ v = w := by
  rw [result]
  split <;> simp_all

end Wiring.Diagnostics
