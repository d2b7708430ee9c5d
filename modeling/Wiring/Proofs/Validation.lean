import Wiring.Proofs.Agreement
import Wiring.Proofs.Pruning

/-!
# Validating everything that is declared

A build that drops what no root reaches may validate it before (`BuildRequest.validating`), and its
graph is the same either way: in both expansions the roots reach the same keys, which are bound alike
(`agrees_of_shrunk`).  If the whole is valid, an expansion from the roots alone stays within the
graph of the whole, so it meets no error (`errorsMet_validated`), with one exception.

A key that is declared to have no value may be requested without a default as long as it is not
bound, and not after (`Expansion.request`).  Which comes first is a matter of the order in which keys
are found, and so of what is validated.  The part on the keys that the roots reach is therefore
found valid, if no binding depends without a default on such a key (`Valued`,
`build_validating`).
-/

namespace Wiring

namespace BuildRequest

variable {r : BuildRequest} {g g' : Graph} {k : TypeKey}

/-- The request with everything validated that is declared, or only what the roots reach. -/
def validating (r : BuildRequest) (full : Bool) : BuildRequest :=
  { r with options := { r.options with fullGraphValidation := full } }

theorem looked_validating (r : BuildRequest) (full : Bool) :
    (r.validating full).looked = r.looked := rfl

theorem roots_validating (r : BuildRequest) (full : Bool) :
    (r.validating full).roots = r.roots := rfl

theorem aggregated_validating (r : BuildRequest) (full : Bool) :
    (r.validating full).aggregated = r.aggregated := rfl

/-- No binding of a graph depends without a default on a key that is declared to have no value. -/
def Valued (r : BuildRequest) (g : Graph) : Prop :=
  ∀ e ∈ g.edges, e.hasDefault = false →
    ∀ b, r.registered.get? e.target = some b → b.isAbsent = false

/-! ### Unused keys -/

/-- If unused keys are errors, the roots of a graph reach all keys that are declared. -/
theorem reaches_of_declared (h : r.build = .ok g)
    (strict : r.options.unusedBindingSeverity = .error)
    (hk : k ∈ (r.declaredBindings r.aggregated.1).map (·.key)) :
    Reaches r.expansion.edges.toList r.roots k := by
  by_contra unreached
  have unused := ((built_of_build h).mem_unused k).mpr ⟨hk, unreached⟩
  rw [build_eq, Diagnostics.result_eq_ok, late, Diagnostics.isEmpty_reportAll,
    Bool.and_eq_true] at h
  obtain ⟨⟨-, told⟩, rfl⟩ := h
  rw [unusedErrors, strict] at told
  rw [List.map_eq_nil_iff.mp (List.isEmpty_iff.mp told)] at unused
  cases unused

theorem disuse_eq_nil_of_reaches {x : Expansion}
    (h : ∀ k ∈ (r.declaredBindings r.aggregated.1).map (·.key), Reaches x.edges.toList r.roots k) :
    r.disuse x = [] := by
  have used : r.unusedKeys r.aggregated.1 (reachableFrom r.roots x.edges.toList) = [] := by
    refine List.eq_nil_iff_forall_not_mem.mpr fun k hk => ?_
    rw [unusedKeys, SortedSet.mem_filter, SortedSet.mem_ofList, Bool.not_eq_true',
      SortedSet.not_contains_iff, mem_reachableFrom] at hk
    exact hk.2 (h k hk.1)
  rw [disuse, used, unusedErrors]
  split <;> rfl

/-! ### The expansion from the roots alone -/

section Validated

variable (hs : r.options.shrinkUnusedBindings = true) (h : (r.validating true).build = .ok g)

include hs in
/-- Nothing is checked that no root reaches. -/
theorem checked_validating : (r.validating false).checked r.looked = [] := by
  simp [checked, validating, Options.validatesAllDeclarations, hs]

include h in
/-- Looking up the keys of the whole tells no error. -/
theorem untroubled_validated (valued : r.Valued g) :
    Expansion.Untroubled r.looked (g.contains · = true) := by
  have hg := built_of_build h
  constructor
  case errorless =>
    intro k hk
    obtain ⟨hx, -⟩ := (r.validating true).expansion_spec
    exact (candid_of_build h).1.errorless k ((hx.mem_order k).mpr (hg.contains_iff.mp hk).1)
  case closed =>
    exact fun k b hk hb d hd => hg.contains_of_answers hk hb hd
  case required =>
    intro k b hk hb d hd hn
    have hb := hg.binding?_of_answers hk hb
    have found := not_missing_of_dependency h hb hd hn
    rw [looked_validating] at found
    exact ⟨found, fun b' hb' => valued _ (hg.edge_mem hb hd) hn b' hb'⟩

include hs h in
/-- The roots demand nothing more than they do if the whole is validated. -/
theorem within_validated :
    Expansion.Within r.looked (g.contains · = true) (r.validating false).entered := by
  constructor
  case known =>
    intro k hk
    have hk := mem_of_requested_entered hk
    rw [looked_validating, checked_validating hs, List.append_nil] at hk
    exact (built_of_build h).contains_root hk
  case waived =>
    intro k hm hd
    have first : (r.validating true).entered.Demanded k := by
      refine demanded_entered_iff.mpr ((demanded_entered_iff.mp hd).imp_right fun hk => ?_)
      rw [looked_validating, checked_validating hs, List.append_nil] at hk
      exact List.mem_append_left _ hk
    exact not_missing_of_demanded h ((candid_of_build h).2 k first) hm

include hs h in
/-- The steps from the roots alone tell no error. -/
theorem heard_validated (valued : r.Valued g) :
    (r.validating false).heard (r.validating false).steps = [] ∧
      Expansion.Within r.looked (g.contains · = true)
        ((r.validating false).state (r.validating false).steps) := by
  have whole := silent_of_errorsMet (errorsMet_of_build h)
  have before : r.aggregated.2 ++ (r.lookup r.aggregated.1).2 = [] :=
    (List.append_eq_nil_iff.mp whole).1
  obtain ⟨silent, within⟩ := silent_of_untroubled (r := r.validating false)
    (untroubled_validated h valued) (within_validated hs h) (r.validating false).steps
  exact ⟨List.append_eq_nil_iff.mpr ⟨before, silent⟩, within⟩

include hs h in
/-- **An expansion from the roots alone retraces that of the whole.** -/
theorem retraces_validated (valued : r.Valued g) :
    (r.validating true).Retraces (r.validating false) := fun k b hb => by
  obtain ⟨silent, within⟩ := heard_validated hs h valued
  have hk : g.contains k = true :=
    kept_of_within silent within (SortedMap.contains_iff.mpr ⟨b, hb⟩)
  obtain ⟨hx, -⟩ := (r.validating false).expansion_spec
  have hg := built_of_build h
  have answer := hg.binding?_of_answers hk (hx.answers k b hb)
  exact ⟨b, ((hg.bindings k b).mp answer).1, .inl rfl⟩

include hs h in
/-- Keys that are used in the whole are used from the roots alone. -/
theorem disuse_validated (valued : r.Valued g) :
    (r.validating false).disuse ((r.validating false).state (r.validating false).steps) = [] := by
  by_cases strict : r.options.unusedBindingSeverity = .error
  · obtain ⟨silent, -⟩ := heard_validated hs h valued
    have clean : (r.validating false).expansion.diagnostics.isEmpty = true := by
      rw [expansion_of_silent silent]
      exact (r.validating false).isEmpty_collected.1
    rw [← disuse_reporting _ _ ((r.validating false).collected []), ← expansion_of_silent silent]
    refine disuse_eq_nil_of_reaches fun k hk => ?_
    have looked := (looked_validating r false).trans (looked_validating r true).symm
    have whole : Reaches (r.validating true).expansion.edges.toList (r.validating true).roots k :=
      reaches_of_declared h strict hk
    exact (reaches_of_roots looked clean (fun _ => id) whole).1
  · exact disuse_eq_nil strict _

include hs h in
/-- **If the whole is valid, the part that the roots reach meets no error**, unless a binding depends
without a default on a key that is declared to have no value. -/
theorem errorsMet_validated (valued : r.Valued g) : (r.validating false).errorsMet = [] :=
  (retraces_validated hs h valued).errorsMet h (fun _ => id) (heard_validated hs h valued).1
    (disuse_validated hs h valued)

end Validated

/-- **Validation changes no graph.**  If the whole is valid, so is what the roots reach, unless a
binding depends without a default on a key that is declared to have no value.  Whether the whole is
validated or not, the graph is the same but for the order in which its keys were found. -/
theorem build_validating (hs : r.options.shrinkUnusedBindings = true)
    (h : (r.validating true).build = .ok g) :
    (r.Valued g → ∃ g', (r.validating false).build = .ok g') ∧
      ∀ g', (r.validating false).build = .ok g' → g.Agrees g' := by
  have looked := (looked_validating r false).trans (looked_validating r true).symm
  have roots := (roots_validating r false).trans (roots_validating r true).symm
  have aggregated := (aggregated_validating r false).trans (aggregated_validating r true).symm
  exact ⟨fun valued => ⟨_, build_of_errorsMet_eq_nil (errorsMet_validated hs h valued)⟩,
    fun _ h' => agrees_of_shrunk h h' hs hs looked roots rfl aggregated⟩

/-- A graph whose entry point leads into a cycle that a provider breaks, with a further key that
depends on the cycle and that no root reaches. -/
def spacious : BuildRequest :=
  (plain
    [.provided ⟨"App", none⟩ (.of "app") none [{ key := ⟨"Db", none⟩ }],
      .provided ⟨"Db", none⟩ (.of "db") none [{ key := ⟨"App", none⟩, access := .provider }],
      .provided ⟨"Cache", none⟩ (.of "cache") none [{ key := ⟨"Db", none⟩ }]]).entering
    [⟨"App", none⟩]

theorem build_validating_spacious : spacious.options.shrinkUnusedBindings = true ∧
    ∃ g g', (spacious.validating true).build = .ok g ∧ spacious.Valued g ∧
      (spacious.validating false).build = .ok g' ∧ g.unused = [⟨"Cache", none⟩] ∧
      g.permittedCycles.length = 1 ∧ g.Agrees g' := by
  have built : (spacious.validating true).build.toOption.map
      (fun g => (g.unused, g.permittedCycles.length)) = some ([⟨"Cache", none⟩], 1) := by
    decide +kernel
  have values : ∀ b ∈ spacious.registered.values, b.isAbsent = false := by decide +kernel
  cases h : (spacious.validating true).build with
  | error => simp [h, Except.toOption] at built
  | ok g =>
      have valued : spacious.Valued g := fun e _ _ b hb =>
        values b (SortedMap.mem_values.mpr ⟨e.target, hb⟩)
      obtain ⟨succeeds, agrees⟩ := build_validating (r := spacious) rfl h
      obtain ⟨g', h'⟩ := succeeds valued
      obtain ⟨unused, cycles⟩ : g.unused = [⟨"Cache", none⟩] ∧ g.permittedCycles.length = 1 := by
        simpa [h, Except.toOption] using built
      exact ⟨rfl, g, g', rfl, valued, h', unused, cycles, agrees g' h'⟩

/-- A key that is declared to have no value is requested with a default, and without one by a key
that is found after it is bound. -/
def forestalled : BuildRequest :=
  (plain
    [.provided ⟨"Api", none⟩ (.of "api") none
        [{ key := ⟨"Url", none⟩, hasDefault := true }, { key := ⟨"Client", none⟩ }],
      .provided ⟨"Client", none⟩ (.of "client") none [{ key := ⟨"Url", none⟩ }],
      .absent ⟨"Url", none⟩ (.of "noUrl")]).entering
    [⟨"Api", none⟩]

/-- A graph that is built if the whole is validated may not be built from the roots alone. -/
theorem build_validating_fails : forestalled.options.shrinkUnusedBindings = true ∧
    (∃ g, (forestalled.validating true).build = .ok g) ∧
    ∃ report, (forestalled.validating false).build = .error report ∧
      report.errors.map (·.kind) = [.unresolvedDependency] := by
  have whole : (forestalled.validating true).build.toOption.isSome = true := by decide +kernel
  have part : (match (forestalled.validating false).build with
      | .ok _ => []
      | .error report => report.errors.map (·.kind)) = [.unresolvedDependency] := by
    decide +kernel
  cases h : (forestalled.validating true).build with
  | error => simp [h, Except.toOption] at whole
  | ok g =>
      cases h' : (forestalled.validating false).build with
      | ok => simp [h'] at part
      | error report => exact ⟨rfl, ⟨g, rfl⟩, report, rfl, by simpa [h'] using part⟩

end BuildRequest

end Wiring
