import Wiring.Proofs.Diagnostics

/-!
# What a collector keeps of what it hears

A collector that was reported a list of errors keeps the first different ones of the list, as many
as its cap allows (`Keeps`; `Keeps.report_cases` says what a further error does), and counts each
error at most once and each different one at least once (`Heard`, `heard_reportAll`).  Once the cap
is reached, what is reported later changes nothing of what is kept (`Heard.stored_of_limitReached`).
-/

namespace Wiring.Diagnostics

/-- The errors are all that the collector was reported. -/
structure Heard (d : Diagnostics) (errors : List GraphError) : Prop where
  /-- The first different errors are kept. -/
  stored : d.stored = errors.eraseDups.take d.cap
  /-- No error is counted twice. -/
  total_le : d.total ≤ errors.length
  /-- No different error is left out of the count. -/
  le_total : errors.eraseDups.length ≤ d.total

variable {d : Diagnostics} {errors : List GraphError}

theorem heard_ofCap (cap : Nat) : (ofCap cap).Heard [] where
  stored := by simp [ofCap]
  total_le := by simp [ofCap, total]
  le_total := by simp [ofCap, total]

/-- A further error stands among the different ones unless it stood there before. -/
theorem eraseDups_concat (errors : List GraphError) (e : GraphError) :
    (errors ++ [e]).eraseDups =
      if e ∈ errors then errors.eraseDups else errors.eraseDups ++ [e] := by
  rw [List.eraseDups_append]
  split
  · rename_i he
    simp [List.removeAll, he]
  · rename_i he
    simp [List.removeAll, he, List.eraseDups_cons]

/-- Errors of which none stands twice are all different. -/
theorem eraseDups_of_nodup : ∀ {errors : List GraphError}, errors.Nodup → errors.eraseDups = errors
  | [], _ => rfl
  | e :: rest, h => by
      obtain ⟨he, hr⟩ := List.nodup_cons.mp h
      have others : rest.filter (fun f => !f == e) = rest :=
        List.filter_eq_self.mpr fun f hf => by
          rw [Bool.not_eq_true', beq_eq_false_iff_ne]
          exact fun h => he (h ▸ hf)
      rw [List.eraseDups_cons, others, eraseDups_of_nodup hr]

theorem nodup_eraseDups : ∀ errors : List GraphError, errors.eraseDups.Nodup
  | [] => List.nodup_nil
  | e :: rest => by
      rw [List.eraseDups_cons, List.nodup_cons]
      exact ⟨by simp [List.mem_eraseDups], nodup_eraseDups (rest.filter fun f => !f == e)⟩
termination_by errors => errors.length
decreasing_by exact Nat.lt_succ_of_le (List.length_filter_le ..)

/-- The collector keeps the first different ones of the errors, as many as its cap allows. -/
def Keeps (d : Diagnostics) (errors : List GraphError) : Prop :=
  d.stored = errors.eraseDups.take d.cap

namespace Keeps

theorem limitReached_iff (h : d.Keeps errors) :
    d.limitReached = true ↔ d.cap ≤ errors.eraseDups.length := by
  rw [limitReached, decide_eq_true_iff, h, List.length_take]
  omega

/-- What is reported once the cap is reached changes nothing of what is kept. -/
theorem append (h : d.Keeps errors) (hl : d.limitReached = true) (later : List GraphError) :
    d.Keeps (errors ++ later) := by
  rw [Keeps, List.eraseDups_append, List.take_append_of_le_length (h.limitReached_iff.mp hl)]
  exact h

/-- **What an error does**: nothing if it is kept, it is counted if the cap is reached, and else it is
new and kept behind the others. -/
theorem report_cases (h : d.Keeps errors) (e : GraphError) :
    (e ∈ d.stored ∧ e ∈ errors ∧ d.report e = d) ∨
    (e ∉ d.stored ∧ d.limitReached = true ∧
      d.report e = { d with suppressed := d.suppressed + 1 }) ∨
    (e ∉ errors ∧ errors.eraseDups.length < d.cap ∧
      d.report e = { d with stored := d.stored ++ [e] }) := by
  rw [report]
  by_cases known : e ∈ d.stored
  · have heard : e ∈ errors := List.mem_eraseDups.mp (List.mem_of_mem_take (h ▸ known))
    exact .inl ⟨known, heard, if_pos (List.contains_iff_mem.mpr known)⟩
  · rw [if_neg fun hk => known (List.contains_iff_mem.mp hk)]
    by_cases hl : d.limitReached = true
    · exact .inr (.inl ⟨known, hl, if_pos hl⟩)
    · -- all different errors are kept so far, so the new one was not heard
      have room : errors.eraseDups.length < d.cap :=
        Nat.lt_of_not_le fun hc => hl (h.limitReached_iff.mpr hc)
      have all : d.stored = errors.eraseDups := h.trans (List.take_of_length_le (Nat.le_of_lt room))
      exact .inr (.inr ⟨fun he => known (all ▸ List.mem_eraseDups.mpr he), room, if_neg hl⟩)

theorem report (h : d.Keeps errors) (e : GraphError) : (d.report e).Keeps (errors ++ [e]) := by
  rcases h.report_cases e with ⟨-, heard, he⟩ | ⟨-, hl, he⟩ | ⟨fresh, room, he⟩ <;> rw [he]
  · rw [Keeps, eraseDups_concat, if_pos heard]
    exact h
  · exact h.append hl [e]
  · have kept : d.stored = errors.eraseDups := h.trans (List.take_of_length_le (Nat.le_of_lt room))
    rw [Keeps, eraseDups_concat, if_neg fresh, kept, List.take_of_length_le]
    rwa [List.length_append, List.length_singleton]

end Keeps

namespace Heard

theorem limitReached_iff (h : d.Heard errors) :
    d.limitReached = true ↔ d.cap ≤ errors.eraseDups.length :=
  Keeps.limitReached_iff h.stored

/-- A collector that may keep an error has heard none if it is empty. -/
theorem isEmpty_iff (h : d.Heard errors) (hc : 0 < d.cap) :
    d.isEmpty = true ↔ errors = [] := by
  have stored := h.stored
  have total := h.total_le
  cases errors with
  | nil =>
      have : d.suppressed = 0 := by
        rw [Diagnostics.total] at total
        exact Nat.eq_zero_of_le_zero (Nat.le_trans (Nat.le_add_left ..) total)
      simpa [isEmpty, this] using stored
  | cons e rest =>
      obtain ⟨cap, hcap⟩ := Nat.exists_eq_succ_of_ne_zero (Nat.pos_iff_ne_zero.mp hc)
      rw [List.eraseDups_cons, hcap, List.take_succ_cons] at stored
      simp [isEmpty, stored]

/-- Errors of which none stands twice are all counted once. -/
theorem total_eq (h : d.Heard errors) (hn : errors.Nodup) : d.total = errors.length :=
  Nat.le_antisymm h.total_le (by simpa only [eraseDups_of_nodup hn] using h.le_total)

/-- What is reported once the cap is reached changes nothing of what is kept. -/
theorem stored_of_limitReached (h : d.Heard errors) (hl : d.limitReached = true)
    (later : List GraphError) : d.stored = (errors ++ later).eraseDups.take d.cap :=
  Keeps.append h.stored hl later

/-- An error that was heard is kept, or the collector is full with errors heard no later, and counts
errors that it does not keep. -/
theorem kept_or_full {met : List GraphError} (h : d.Heard met) (hp : errors <+: met)
    {e : GraphError} (he : e ∈ errors) : e ∈ d.stored ∨
      d.stored <+: errors.eraseDups ∧ d.stored.length = d.cap ∧ 0 < d.suppressed := by
  obtain ⟨later, rfl⟩ := hp
  have kept := h.stored
  have counted := h.le_total
  rw [List.eraseDups_append] at kept counted
  by_cases room : errors.eraseDups.length ≤ d.cap
  · left
    rw [kept, List.take_append, List.take_of_length_le room]
    exact List.mem_append_left _ (List.mem_eraseDups.mpr he)
  · right
    rw [List.take_append_of_le_length (Nat.le_of_not_le room)] at kept
    have full : d.stored.length = d.cap := by
      rw [kept, List.length_take]
      omega
    refine ⟨kept ▸ List.take_prefix .., full, ?_⟩
    rw [total, List.length_append] at counted
    omega

theorem report (h : d.Heard errors) (e : GraphError) : (d.report e).Heard (errors ++ [e]) := by
  have least := h.total_le
  have most := h.le_total
  have further := eraseDups_concat errors e
  rcases Keeps.report_cases h.stored e with ⟨-, heard, he⟩ | ⟨-, -, he⟩ | ⟨fresh, -, he⟩
  · rw [if_pos heard] at further
    refine ⟨Keeps.report h.stored e, ?_, ?_⟩ <;>
      simp only [he, further, List.length_append, List.length_singleton] <;> omega
  all_goals
    have fewer : (errors ++ [e]).eraseDups.length ≤ errors.eraseDups.length + 1 := by
      rw [further]
      split <;> simp
    refine ⟨Keeps.report h.stored e, ?_, ?_⟩ <;>
      simp only [he, total, List.length_append, List.length_singleton] at * <;> omega

theorem reportAll (h : d.Heard errors) (later : List GraphError) :
    (d.reportAll later).Heard (errors ++ later) := by
  induction later generalizing d errors with
  | nil => simpa [Diagnostics.reportAll] using h
  | cons e rest ih =>
      rw [List.append_cons]
      exact ih (h.report e)

end Heard

/-- **A collector keeps the first different errors**, as many as its cap allows. -/
theorem heard_reportAll (cap : Nat) (errors : List GraphError) :
    ((ofCap cap).reportAll errors).Heard errors :=
  (heard_ofCap cap).reportAll errors

theorem total_toReport (d : Diagnostics) : d.toReport.total = d.total := rfl

theorem reportAll_append (d : Diagnostics) (errors later : List GraphError) :
    d.reportAll (errors ++ later) = (d.reportAll errors).reportAll later :=
  List.foldl_append

end Wiring.Diagnostics
