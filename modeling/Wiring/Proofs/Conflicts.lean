import Wiring.Proofs.AliasChain
import Wiring.Proofs.Capping
import Wiring.Proofs.Registration

/-!
# Conflicting declarations

A catalog is written once: in every sequence of calls a slot keeps the first binding registered for
its key (`get?_after`), and a call that meets a taken slot leaves all as it is, the chains remembered
included, whether it fails or not (`Catalog.Lasting`).

A build registers what is declared one binding after the other.  A binding for a slot that is taken
goes without notice only if it agrees with the binding there; otherwise the build fails, and its
report tells which two bindings are at odds, unless other errors before it use up the cap
(`Contests`).
-/

namespace Wiring

namespace Catalog

variable {c : Catalog} {key : TypeKey}

/-! ### Slots are written once -/

/-- The binding that a call offers. -/
def Call.binding? : Call → Option Binding
  | .register b => some b
  | .resolveAlias _ => none

/-- A call that meets a taken slot leaves the catalog as it is. -/
theorem call_of_taken {b o : Binding} (h : c.explicit.get? b.key = some o) :
    c.call (.register b) = c := by
  rw [call, register_of_taken h]
  by_cases ha : agrees o b = true
  · simp only [ha, if_true]
  · simp only [ha, Bool.false_eq_true, if_false]

/-- A call is refused if the slot is taken by a binding that does not agree with the new one. -/
theorem register_eq_error_iff {b : Binding} {e : GraphError} : c.register b = .error e ↔
    ∃ o, c.explicit.get? b.key = some o ∧ ¬ (o.origin = b.origin ∨ o.Synonyms b) ∧
      e = .duplicateBinding b.key o.origin b.origin := by
  simp only [← agrees_iff]
  cases h : c.explicit.get? b.key with
  | none => simp [register_of_free h]
  | some o =>
      rw [register_of_taken h]
      by_cases ha : agrees o b = true
      · simp [ha]
      · simp only [ha, Bool.false_eq_true, if_false, Except.error.injEq, Option.some.injEq,
          exists_eq_left', not_false_eq_true, true_and]
        exact eq_comm

/-- A call fills a slot that is free, and no slot else. -/
theorem get?_call (c : Catalog) (call : Call) (key : TypeKey) :
    (c.call call).explicit.get? key =
      (c.explicit.get? key).or (call.binding?.filter (·.key = key)) := by
  cases call with
  | resolveAlias k =>
      have asked : (c.call (.resolveAlias k)).explicit = c.explicit :=
        explicit_after_resolveAlias [k]
      simp [asked, Call.binding?]
  | register b =>
      cases h : c.explicit.get? b.key with
      | some o =>
          rw [call_of_taken h]
          by_cases hk : b.key = key
          · rw [← hk, h, Option.some_or]
          · simp [Call.binding?, Option.filter_some, hk]
      | none =>
          rw [Catalog.call, register_of_free h]
          by_cases hk : key = b.key
          · simp [Call.binding?, Option.filter_some, hk, h]
          · simp [Call.binding?, Option.filter_some, SortedMap.get?_insert_of_ne _ _ hk, Ne.symm hk]

/-- **Of the bindings that calls offer for a slot the first one stays.** -/
theorem get?_after (c : Catalog) (calls : List Call) (key : TypeKey) :
    (c.after calls).explicit.get? key =
      (c.explicit.get? key).or ((calls.filterMap Call.binding?).find? (·.key = key)) := by
  induction calls generalizing c with
  | nil => simp [after]
  | cons call rest ih =>
      have next : c.after (call :: rest) = (c.call call).after rest := rfl
      rw [next, ih, get?_call, Option.or_assoc]
      congr 1
      cases hb : call.binding? with
      | none => simp only [List.filterMap_cons, hb, Option.filter_none, Option.none_or]
      | some b =>
          simp only [List.filterMap_cons, hb, Option.filter_some, List.find?_cons]
          by_cases hk : b.key = key
          · simp only [hk, decide_true, if_true, Option.some_or]
          · simp only [hk, decide_false, Bool.false_eq_true, if_false, Option.none_or]

theorem after_append (c : Catalog) (calls later : List Call) :
    c.after (calls ++ later) = (c.after calls).after later :=
  List.foldl_append

/-- What lasts in a catalog, whatever calls are made. -/
structure Lasting (c : Catalog) : Prop where
  /-- A slot holds what it held, or else the first binding registered for its key. -/
  first : ∀ calls key, (c.after calls).explicit.get? key =
    (c.explicit.get? key).or ((calls.filterMap Call.binding?).find? (·.key = key))
  /-- What a slot holds it holds for ever. -/
  stays : ∀ calls later key b, (c.after calls).explicit.get? key = some b →
    (c.after (calls ++ later)).explicit.get? key = some b
  /-- A call is refused exactly if the slot is taken by a binding of another origin, and the two are
  not aliases of one key. -/
  refused : ∀ calls b e, (c.after calls).register b = .error e ↔
    ∃ o, (c.after calls).explicit.get? b.key = some o ∧
      ¬ (o.origin = b.origin ∨ o.Synonyms b) ∧ e = .duplicateBinding b.key o.origin b.origin
  /-- A call that is refused or meets a taken slot changes neither bindings nor chains. -/
  idle : ∀ calls b, (∃ e, (c.after calls).register b = .error e) ∨
      (c.after calls).explicit.contains b.key = true →
    (c.after (calls ++ [.register b])).explicit = (c.after calls).explicit ∧
      (c.after (calls ++ [.register b])).chains = (c.after calls).chains

theorem lasting (c : Catalog) : c.Lasting where
  first := c.get?_after
  stays := by
    intro calls later key b h
    rw [after_append, get?_after, h, Option.some_or]
  refused := fun _ _ _ => register_eq_error_iff
  idle := by
    intro calls b h
    have taken : ∃ o, (c.after calls).explicit.get? b.key = some o := by
      rcases h with ⟨e, he⟩ | hc
      · obtain ⟨o, ho, -⟩ := register_eq_error_iff.mp he
        exact ⟨o, ho⟩
      · exact SortedMap.contains_iff.mp hc
    obtain ⟨o, ho⟩ := taken
    have same : c.after (calls ++ [.register b]) = c.after calls := by
      rw [after_append]
      exact call_of_taken ho
    rw [same]
    exact ⟨rfl, rfl⟩

end Catalog

/-! ### What a build makes of conflicts -/

namespace BuildRequest

variable {r : BuildRequest}

/-- The error of a binding that is at odds with the one in its slot is met before the first step. -/
theorem mem_heard_of_odds {b o : Binding} (hb : b ∈ r.seeds r.aggregated.1)
    (ho : r.registered.get? b.key = some o) (odds : ¬ (o.origin = b.origin ∨ o.Synonyms b)) :
    .duplicateBinding b.key o.origin b.origin ∈ r.heard 0 := by
  have refused : Catalog.agrees o b = false :=
    Bool.eq_false_iff.mpr fun ha => odds (Catalog.agrees_iff.mp ha)
  have registration : .duplicateBinding b.key o.origin b.origin ∈
      ((Catalog.ofIndex r.index).registerAll (r.seeds r.aggregated.1)).2 :=
    Catalog.mem_errors_registerAll.mpr ⟨b, hb, o, ho, refused, rfl⟩
  rw [heard]
  exact List.mem_append_left _ (List.mem_append_right _ registration)

/-- **An error met before the first step makes the build fail.**  The report keeps it, unless errors
before it use up the cap. -/
theorem build_of_mem_heard {e : GraphError} (he : e ∈ r.heard 0) :
    ∃ report, r.build = .error report ∧ (e ∈ report.errors ∨
      report.errors <+: (r.heard 0).eraseDups ∧ report.errors.length = max r.cap 1 ∧
        0 < report.suppressed) := by
  obtain ⟨met, hlate, hmet⟩ := r.exists_met
  have told := (r.heard_collected met).kept_or_full hmet he
  rw [← hlate] at told
  have failed : ¬ r.late.isEmpty = true := by
    rw [Diagnostics.isEmpty, Bool.and_eq_true, List.isEmpty_iff, beq_iff_eq]
    rintro ⟨none, zero⟩
    rcases told with kept | ⟨-, -, counted⟩
    · rw [none] at kept
      cases kept
    · omega
  have cap : r.late.cap = max r.cap 1 := by rw [hlate, cap_collected]
  refine ⟨r.late.toReport, by rw [build_eq, Diagnostics.result, if_neg failed], ?_⟩
  rw [cap] at told
  exact told

/-- What a build makes of the bindings that it registers before it looks anything up. -/
structure Contests (r : BuildRequest) : Prop where
  /-- The first binding of a key takes its slot. -/
  first : ∀ key, r.registered.get? key = (r.seeds r.aggregated.1).find? (·.key = key)
  /-- If there is a graph, each binding has the origin of the one in its slot, or both are aliases of
  one key. -/
  agree : ∀ g, r.build = .ok g → ∀ b ∈ r.seeds r.aggregated.1,
    ∃ o, r.registered.get? b.key = some o ∧ (o.origin = b.origin ∨ o.Synonyms b)
  /-- A binding for which this is not so makes the build fail.  The report names the binding in the
  slot first and this one second, unless it is full with errors met no later. -/
  refuse : ∀ b ∈ r.seeds r.aggregated.1, ∀ o, r.registered.get? b.key = some o →
    ¬ (o.origin = b.origin ∨ o.Synonyms b) → ∃ report, r.build = .error report ∧
      (.duplicateBinding b.key o.origin b.origin ∈ report.errors ∨
        report.errors <+: (r.aggregated.2 ++ (r.lookup r.aggregated.1).2).eraseDups ∧
          report.errors.length = max r.cap 1 ∧ 0 < report.suppressed)

theorem contests (r : BuildRequest) : r.Contests := by
  have early : r.heard 0 = r.aggregated.2 ++ (r.lookup r.aggregated.1).2 := List.append_nil _
  have refuse : ∀ b ∈ r.seeds r.aggregated.1, ∀ o, r.registered.get? b.key = some o →
      ¬ (o.origin = b.origin ∨ o.Synonyms b) → ∃ report, r.build = .error report ∧ _ :=
    fun b hb o ho odds => build_of_mem_heard (mem_heard_of_odds hb ho odds)
  refine ⟨Catalog.get?_kept _ _, fun g hg b hb => ?_, early ▸ refuse⟩
  obtain ⟨o, ho⟩ := Catalog.exists_kept (i := r.index) hb
  refine ⟨o, ho, ?_⟩
  by_contra odds
  obtain ⟨report, hr, -⟩ := refuse b hb o ho odds
  rw [hg] at hr
  cases hr

end BuildRequest

/-- **No conflict goes unnoticed, and what is refused changes nothing.** -/
theorem lasting_and_contests (c : Catalog) (r : BuildRequest) : c.Lasting ∧ r.Contests :=
  ⟨c.lasting, r.contests⟩

end Wiring
