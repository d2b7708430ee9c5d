import Wiring.Proofs.Collecting

/-!
# The history of a collector

A collector is told errors and absorbs other collectors, each with a history of its own
(`Diagnostics.History`).  An absorbed collector presents the errors that it kept and hands on the
number of those that it did not.  Whatever the history, the collector keeps the first different
errors presented to it, as many as its cap allows, and counts those that come when the cap is reached
and that it does not keep (`History.exact_collector`).
-/

namespace Wiring.Diagnostics

variable {d : Diagnostics} {errors : List GraphError}

/-! ### Errors that come late -/

/-- The errors of a list before which there are as many different ones as may be kept. -/
def late (cap : Nat) (errors : List GraphError) : List GraphError :=
  (errors.zipIdx.filter fun p => cap ≤ (errors.take p.2).eraseDups.length).map (·.1)

theorem late_concat (cap : Nat) (errors : List GraphError) (e : GraphError) :
    late cap (errors ++ [e]) =
      late cap errors ++ if cap ≤ errors.eraseDups.length then [e] else [] := by
  have before : (errors.zipIdx.filter fun p =>
        cap ≤ ((errors ++ [e]).take p.2).eraseDups.length) =
      errors.zipIdx.filter fun p => cap ≤ (errors.take p.2).eraseDups.length := by
    refine List.filter_congr fun p hp => ?_
    have earlier : p.2 < errors.length := List.snd_lt_of_mem_zipIdx hp
    rw [List.take_append_of_le_length (Nat.le_of_lt earlier)]
  rw [late, List.zipIdx_append, List.filter_append, before, List.map_append, late]
  congr 1
  by_cases full : cap ≤ errors.eraseDups.length <;> simp [full]

/-- No error comes late where there is room for another one. -/
theorem late_eq_nil {cap : Nat} (room : errors.eraseDups.length < cap) : late cap errors = [] := by
  rw [late, List.map_eq_nil_iff, List.filter_eq_nil_iff]
  intro p _
  have fewer : (errors.take p.2).eraseDups.length ≤ errors.eraseDups.length := by
    have parts := congrArg List.eraseDups (List.take_append_drop p.2 errors)
    rw [← parts, List.eraseDups_append, List.length_append]
    exact Nat.le_add_right ..
  rw [decide_eq_true_eq]
  omega

/-! ### What is counted -/

/-- The collector keeps the first different ones of the errors, and counts the others that came late
beside those handed on to it. -/
structure Tallies (d : Diagnostics) (handedOn : Nat) (errors : List GraphError) : Prop where
  keeps : d.Keeps errors
  suppressed : d.suppressed =
    handedOn + ((late d.cap errors).filter fun e => !d.stored.contains e).length

namespace Tallies

variable {handedOn : Nat}

theorem ofCap (cap : Nat) : (ofCap cap).Tallies 0 [] where
  keeps := by simp [Keeps, Diagnostics.ofCap]
  suppressed := by simp [Diagnostics.ofCap, late]

theorem report (h : d.Tallies handedOn errors) (e : GraphError) :
    (d.report e).Tallies handedOn (errors ++ [e]) := by
  refine ⟨h.keeps.report e, ?_⟩
  have counted := h.suppressed
  rw [cap_report, late_concat, List.filter_append, List.length_append]
  rcases h.keeps.report_cases e with ⟨known, -, he⟩ | ⟨unknown, hl, he⟩ | ⟨-, room, he⟩ <;> rw [he]
  · -- a known error is none of those counted, whenever it comes
    split <;> simp [known, counted]
  · rw [if_pos (h.keeps.limitReached_iff.mp hl)]
    simp [unknown, counted, Nat.add_assoc]
  · rw [late_eq_nil room, List.filter_nil, List.length_nil, Nat.add_zero] at counted
    simp [late_eq_nil room, Nat.not_le.mpr room, counted]

theorem reportAll (h : d.Tallies handedOn errors) (later : List GraphError) :
    (d.reportAll later).Tallies handedOn (errors ++ later) := by
  induction later generalizing d errors with
  | nil => simpa [Diagnostics.reportAll] using h
  | cons e rest ih =>
      rw [List.append_cons]
      exact ih (h.report e)

/-- An absorbed collector presents what it kept and hands on the number of the others. -/
theorem absorb (h : d.Tallies handedOn errors) (other : Diagnostics) :
    (d.absorb other).Tallies (handedOn + other.suppressed) (errors ++ other.stored) := by
  have taken : Tallies { d with suppressed := d.suppressed + other.suppressed }
      (handedOn + other.suppressed) errors := by
    have counted := h.suppressed
    exact ⟨h.keeps, by simp only; omega⟩
  exact taken.reportAll other.stored

end Tallies

theorem cap_absorb (d other : Diagnostics) : (d.absorb other).cap = d.cap :=
  cap_reportAll other.stored _

/-- A collector is empty after it absorbed another one if both were. -/
theorem isEmpty_absorb (d other : Diagnostics) :
    (d.absorb other).isEmpty = (d.isEmpty && other.isEmpty) := by
  rw [absorb, isEmpty_reportAll, Bool.eq_iff_iff]
  simp only [isEmpty, Bool.and_eq_true, beq_iff_eq, Nat.add_eq_zero_iff]
  grind

theorem total_report_le (d : Diagnostics) (e : GraphError) :
    (d.report e).total ≤ d.total + 1 := by
  rw [Diagnostics.report]
  split
  · exact Nat.le_succ _
  · split <;> simp only [total, List.length_append, List.length_singleton] <;> omega

theorem total_reportAll_le (errors : List GraphError) :
    ∀ d : Diagnostics, (d.reportAll errors).total ≤ d.total + errors.length := by
  induction errors with
  | nil => exact fun d => Nat.le_refl d.total
  | cons e rest ih =>
      intro d
      have first := total_report_le d e
      have others := ih (d.report e)
      rw [List.length_cons]
      exact Nat.le_trans others (by omega)

/-- Absorbing counts no error that neither collector counted. -/
theorem total_absorb_le (d other : Diagnostics) :
    (d.absorb other).total ≤ d.total + other.total := by
  refine Nat.le_trans (total_reportAll_le other.stored _) ?_
  simp only [total]
  omega

/-! ### Histories -/

/-- What was done with a collector. -/
inductive History where
  /-- It was made to keep so many errors. -/
  | made (cap : Nat)
  /-- It was told an error. -/
  | told (before : History) (error : GraphError)
  /-- It absorbed a collector that has a history of its own. -/
  | absorbed (before other : History)

namespace History

/-- The collector with a history. -/
def collector : History → Diagnostics
  | made cap => .ofCap cap
  | told before error => before.collector.report error
  | absorbed before other => before.collector.absorb other.collector

/-- How many errors the collector was made to keep. -/
def cap : History → Nat
  | made cap => cap
  | told before _ | absorbed before _ => before.cap

/-- The errors presented to the collector: those told to it, and those that absorbed collectors
kept. -/
def presented : History → List GraphError
  | made _ => []
  | told before error => before.presented ++ [error]
  | absorbed before other => before.presented ++ other.collector.stored

/-- The number of errors that absorbed collectors did not keep. -/
def handedOn : History → Nat
  | made _ => 0
  | told before _ => before.handedOn
  | absorbed before other => before.handedOn + other.collector.suppressed

/-- All errors that were told to the collector, to one absorbed, or to one that this one absorbed. -/
def reported : History → List GraphError
  | made _ => []
  | told before error => before.reported ++ [error]
  | absorbed before other => before.reported ++ other.reported

theorem cap_collector (h : History) : h.collector.cap = max h.cap 1 := by
  induction h with
  | made cap => rfl
  | told before error ih => exact (cap_report ..).trans ih
  | absorbed before other ih _ => exact (cap_absorb ..).trans ih

theorem tallies_collector (h : History) : h.collector.Tallies h.handedOn h.presented := by
  induction h with
  | made cap => exact .ofCap cap
  | told before error ih => exact ih.report error
  | absorbed before other ih _ => exact ih.absorb other.collector

theorem isEmpty_collector (h : History) : h.collector.isEmpty = h.reported.isEmpty := by
  induction h with
  | made cap => rfl
  | told before error _ => simp [collector, reported]
  | absorbed before other ih ih' =>
      rw [collector, isEmpty_absorb, ih, ih', reported, Bool.eq_iff_iff]
      simp only [Bool.and_eq_true, List.isEmpty_iff, List.append_eq_nil_iff]

theorem total_collector_le (h : History) : h.collector.total ≤ h.reported.length := by
  induction h with
  | made cap => exact Nat.le_refl 0
  | told before error ih =>
      have counted := total_report_le before.collector error
      rw [collector, reported, List.length_append, List.length_singleton]
      omega
  | absorbed before other ih ih' =>
      have counted := total_absorb_le before.collector other.collector
      rw [collector, reported, List.length_append]
      omega

/-- What a collector holds of its history. -/
structure Exact (h : History) : Prop where
  /-- No error is kept twice. -/
  nodup : h.collector.stored.Nodup
  /-- No more errors are kept than the cap allows, and it allows one at least. -/
  bounded : h.collector.stored.length ≤ max h.cap 1
  /-- The first different errors presented are kept, in that order. -/
  stored : h.collector.stored = h.presented.eraseDups.take (max h.cap 1)
  /-- The cap is reached once as many different errors were presented as may be kept. -/
  reached_iff : h.collector.limitReached = true ↔ max h.cap 1 ≤ h.presented.eraseDups.length
  /-- There is a result if and only if no error was ever told, to whichever collector. -/
  result_iff : ∀ {α : Type} (v w : α),
    h.collector.result v = .ok w ↔ h.reported = [] ∧ v = w
  /-- Beside those that absorbed collectors did not keep, the errors are counted that were presented
  when the cap was reached and that are not kept. -/
  suppressed : h.collector.suppressed = h.handedOn +
    ((late (max h.cap 1) h.presented).filter fun e => !h.collector.stored.contains e).length
  /-- No more errors are counted than were told. -/
  total_le : h.collector.total ≤ h.reported.length

/-- **A collector keeps exactly the first different errors**, whatever was done with it. -/
theorem exact_collector (h : History) : h.Exact := by
  have tallied := h.tallies_collector
  have kept := tallied.keeps
  have counted := tallied.suppressed
  have reached := kept.limitReached_iff
  rw [Keeps, cap_collector] at kept
  rw [cap_collector] at counted reached
  refine ⟨?_, ?_, kept, reached, fun v w => ?_, counted, h.total_collector_le⟩
  · rw [kept]
    exact (nodup_eraseDups h.presented).sublist (List.take_sublist ..)
  · rw [kept, List.length_take]
    exact Nat.min_le_left ..
  · rw [result_eq_ok, isEmpty_collector, List.isEmpty_iff]

/-- The collector absorbed hands on an error that it did not keep and that is known here; the last
error comes late. -/
example :
    let loop (n : Nat) := GraphError.fatalCycle (List.replicate n ⟨"demo.Loop", none⟩) none
    let other := ((made 1).told (loop 2)).told (loop 1)
    let h := ((((made 2).told (loop 1)).absorbed other).told (loop 2)).told (loop 3)
    h.collector.stored = [loop 1, loop 2] ∧ h.collector.suppressed = 2 := by
  decide

end History

end Wiring.Diagnostics
