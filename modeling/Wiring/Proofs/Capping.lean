import Wiring.Proofs.Build
import Wiring.Proofs.Uncapped

/-!
# What a cap on errors does to a build

A build without a cap meets errors in a fixed order (`errorsMet`): those of contributions, of
registration, of the expansion, of cycles and scopes, and of unused keys.  A build with a cap goes
the same way until its expansion has met as many different errors as the cap allows, and checks
nothing further then (`EndsAfter`).

* `build_of_errorsMet`: a build fails if and only if an error is met, whatever the cap, and its
  report keeps the first different errors met.
* `build_capped`: so a cap truncates the report, and does nothing else.
* `total_capped`: the number of errors that a report claims does not grow if the cap is lowered,
  provided that no error is met twice and that unused keys are no errors.  An error that is met
  again after the cap is reached counts again, and keys look unused that are not
  (`total_capped_exceeds`).
-/

namespace Wiring.BuildRequest

open Diagnostics

variable {r : BuildRequest}

/-- The request with another cap. -/
def capped (r : BuildRequest) (cap : UInt64) : BuildRequest :=
  { r with options := { r.options with maxErrorsCount := cap } }

/-- The cap asked for. -/
def cap (r : BuildRequest) : Nat := r.options.maxErrorsCount.toNat

/-- The collector of a build after the given errors. -/
def collected (r : BuildRequest) (errors : List GraphError) : Diagnostics :=
  (Diagnostics.ofCap r.cap).reportAll errors

theorem heard_collected (r : BuildRequest) (errors : List GraphError) :
    (r.collected errors).Heard errors :=
  heard_reportAll r.cap errors

theorem cap_collected (r : BuildRequest) (errors : List GraphError) :
    (r.collected errors).cap = max r.cap 1 :=
  cap_reportAll errors _

theorem collected_append (r : BuildRequest) (errors later : List GraphError) :
    r.collected (errors ++ later) = (r.collected errors).reportAll later :=
  reportAll_append ..

theorem limitReached_collected {errors : List GraphError} :
    (r.collected errors).limitReached = true ↔ max r.cap 1 ≤ errors.eraseDups.length := by
  rw [(r.heard_collected errors).limitReached_iff, cap_collected]

/-! ### The course of a build without a cap -/

/-- The expansion of a build before its first step. -/
def entered (r : BuildRequest) : Expansion := r.start r.looked (.ofCap 0)

/-- The number of steps that an expansion may take. -/
def steps (r : BuildRequest) : Nat := r.entered.queue.length + r.looked.vocabulary.length

/-- The expansion after a number of steps, if no cap ends it. -/
def state (r : BuildRequest) (n : Nat) : Expansion :=
  n.repeat (Expansion.advance r.looked) r.entered

/-- The errors that are met until then. -/
def heard (r : BuildRequest) (n : Nat) : List GraphError :=
  r.aggregated.2 ++ (r.lookup r.aggregated.1).2 ++ Expansion.errorsWithin r.looked r.entered n

/-- The errors of the cycles and scopes of an expansion. -/
def analysisErrors (r : BuildRequest) (x : Expansion) : List GraphError :=
  (CycleAnalysis.analyze x.bindings x.edges.toList x.order).errors ++
    scopeMismatches r.declaration.id (allowedScopes r.declaration.scopes r.ancestors) x.bindings
      x.order

/-- The errors of the declared keys that the roots do not reach in an expansion. -/
def disuse (r : BuildRequest) (x : Expansion) : List GraphError :=
  r.unusedErrors r.aggregated.1 x.bindings
    (r.unusedKeys r.aggregated.1 (reachableFrom r.roots x.edges.toList))

/-- The errors that a build meets if no cap ends its expansion. -/
def errorsMet (r : BuildRequest) : List GraphError :=
  r.heard r.steps ++ r.analysisErrors (r.state r.steps) ++ r.disuse (r.state r.steps)

theorem prefix_heard {i j : Nat} (h : i ≤ j) : r.heard i <+: r.heard j :=
  (List.prefix_append_right_inj _).mpr (Expansion.prefix_errorsWithin h)

theorem heard_prefix_errorsMet {i : Nat} (h : i ≤ r.steps) : r.heard i <+: r.errorsMet :=
  (prefix_heard h).trans ((List.prefix_append ..).trans (List.prefix_append ..))

/-! ### The course of a build -/

/-- Roots are requested whatever the collector holds, and tell no errors. -/
theorem roots_reporting {α : Type} (l : Lookup) (key : α → TypeKey) (hasDefault : α → Bool) :
    ∀ (requests : List α) (x : Expansion) (d : Diagnostics),
      requests.foldl (fun x e => Expansion.request l x (key e) none (hasDefault e))
          (x.reporting d) =
        (requests.foldl (fun x e => Expansion.request l x (key e) none (hasDefault e))
          x).reporting d
  | [], _, _ => rfl
  | e :: rest, x, d => by
      have silent : Expansion.requestErrors l x (key e) none (hasDefault e) = [] := by
        simp [Expansion.requestErrors]
      rw [List.foldl_cons, Expansion.request_reporting, silent]
      exact roots_reporting l key hasDefault rest _ d

theorem start_reporting (r : BuildRequest) (l : Lookup) (d : Diagnostics) :
    r.start l d = (r.start l (.ofCap 0)).reporting d := by
  have entered := roots_reporting l (fun e : EntryPoint => e.dependency.key)
    (fun e => e.dependency.hasDefault) r.entryPoints { diagnostics := .ofCap 0 } d
  have others := roots_reporting l id (fun _ => false) (r.retained.toList ++ r.checked l)
    (r.entryPoints.foldl (fun x e => Expansion.request l x e.dependency.key none
      e.dependency.hasDefault) { diagnostics := .ofCap 0 }) d
  rw [← entered] at others
  exact others

/-- The expansion of a build ends after a number of steps: all, or those with which the cap is
reached. -/
structure EndsAfter (r : BuildRequest) (n : Nat) : Prop where
  le : n ≤ r.steps
  expansion : r.expansion = (r.state n).reporting (r.collected (r.heard n))
  ended : n = r.steps ∨ (r.collected (r.heard n)).limitReached = true
  before : ∀ i < n, (r.collected (r.heard i)).limitReached = false

theorem exists_endsAfter (r : BuildRequest) : ∃ n, r.EndsAfter n := by
  have early : r.early = r.collected (r.aggregated.2 ++ (r.lookup r.aggregated.1).2) :=
    (reportAll_append ..).symm
  obtain ⟨n, hn, he, hend, hbefore⟩ :=
    Expansion.repeat_step r.looked r.entered r.early r.steps
  have run : r.expansion =
      r.steps.repeat (Expansion.step r.looked) (r.entered.reporting r.early) := by
    rw [expansion, start_reporting]
    rfl
  rw [early] at he hend hbefore run
  simp only [← collected_append] at he hend hbefore
  exact ⟨n, hn, run.trans he, hend, hbefore⟩

/-- The draft of an expansion whose cycles and scopes are checked. -/
def analysed (r : BuildRequest) (x : Expansion) : Draft :=
  (r.analyse (x.reporting (.ofCap 0))).1

theorem analyse_reporting (r : BuildRequest) (x : Expansion) (d : Diagnostics) :
    r.analyse (x.reporting d) =
      if d.limitReached then (rawDraft x, d)
      else (r.analysed x, d.reportAll (r.analysisErrors x)) := by
  have held : (x.reporting d).diagnostics = d := rfl
  rw [analyse, held]
  split
  · rfl
  · rw [analysisErrors, reportAll_append]
    rfl

/-- The errors of unused keys come last. -/
theorem late_eq (r : BuildRequest) :
    r.late = (r.analyse r.expansion).2.reportAll (r.disuse r.expansion) := by
  obtain ⟨hb, he, -⟩ := r.draft_fields
  rw [late, reached, hb, he]
  rfl

theorem disuse_reporting (r : BuildRequest) (x : Expansion) (d : Diagnostics) :
    r.disuse (x.reporting d) = r.disuse x := rfl

/-- **A build whose cap is not reached by its expansion meets all errors.** -/
theorem late_of_not_limitReached
    (h : r.expansion = (r.state r.steps).reporting (r.collected (r.heard r.steps)))
    (hl : (r.collected (r.heard r.steps)).limitReached = false) :
    r.late = r.collected r.errorsMet ∧ r.draft = r.analysed (r.state r.steps) := by
  have analysed := r.analyse_reporting (r.state r.steps) (r.collected (r.heard r.steps))
  rw [if_neg (Bool.eq_false_iff.mp hl), ← h, ← collected_append] at analysed
  refine ⟨?_, by rw [draft, analysed]⟩
  rw [late_eq, analysed, h, disuse_reporting, ← collected_append, errorsMet]

/-- **A build whose cap is reached by its expansion** checks unused keys and nothing else. -/
theorem late_of_limitReached {n : Nat}
    (h : r.expansion = (r.state n).reporting (r.collected (r.heard n)))
    (hl : (r.collected (r.heard n)).limitReached = true) :
    r.late = r.collected (r.heard n ++ r.disuse (r.state n)) := by
  have analysed := r.analyse_reporting (r.state n) (r.collected (r.heard n))
  rw [if_pos hl, ← h] at analysed
  rw [late_eq, analysed, h, disuse_reporting, collected_append]

/-- **A build meets all errors of contributions and of registration**, whatever its cap. -/
theorem exists_met (r : BuildRequest) : ∃ met, r.late = r.collected met ∧ r.heard 0 <+: met := by
  obtain ⟨n, hn⟩ := r.exists_endsAfter
  by_cases hl : (r.collected (r.heard n)).limitReached = true
  · refine ⟨_, late_of_limitReached hn.expansion hl, ?_⟩
    exact (prefix_heard (Nat.zero_le n)).trans (List.prefix_append ..)
  · obtain rfl := hn.ended.resolve_right hl
    refine ⟨_, (late_of_not_limitReached hn.expansion (Bool.eq_false_iff.mpr hl)).1, ?_⟩
    exact heard_prefix_errorsMet (Nat.zero_le _)

/-! ### What a build comes to -/

/-- The graph of a draft, on the keys that stay. -/
def graphOf (r : BuildRequest) (d : Draft) : Graph :=
  r.graph
    (d.shrink r.options.shrinkUnusedBindings fun key =>
      (reachableFrom r.roots d.edges).contains key)
    (r.unusedKeys r.aggregated.1 (reachableFrom r.roots d.edges))

/-- A report keeps the first different errors met. -/
theorem stored_late (r : BuildRequest) :
    r.late.stored = r.errorsMet.eraseDups.take (max r.cap 1) := by
  obtain ⟨n, hn⟩ := r.exists_endsAfter
  by_cases hl : (r.collected (r.heard n)).limitReached = true
  · obtain ⟨rest, hrest⟩ := heard_prefix_errorsMet hn.le
    have kept := (r.heard_collected (r.heard n)).stored_of_limitReached hl rest
    have unchanged :=
      (r.heard_collected (r.heard n)).stored_of_limitReached hl (r.disuse (r.state n))
    rw [late_of_limitReached hn.expansion hl, (r.heard_collected _).stored, cap_collected, ← hrest]
    rw [cap_collected] at kept unchanged
    exact unchanged.symm.trans kept
  · obtain rfl := hn.ended.resolve_right hl
    rw [(late_of_not_limitReached hn.expansion (Bool.eq_false_iff.mpr hl)).1,
      (r.heard_collected _).stored, cap_collected]

theorem isEmpty_collected (r : BuildRequest) : (r.collected []).isEmpty = true ∧
    (r.collected []).limitReached = false := by
  have hcap : 0 < (r.collected []).cap :=
    r.cap_collected [] ▸ Nat.lt_of_lt_of_le Nat.one_pos (Nat.le_max_right ..)
  have empty : (r.collected []).isEmpty = true := ((r.heard_collected []).isEmpty_iff hcap).mpr rfl
  refine ⟨empty, Bool.eq_false_iff.mpr fun hl => ?_⟩
  exact absurd empty (Bool.eq_false_iff.mp (isEmpty_eq_false_of_limitReached hcap hl))

/-- An expansion that meets no error goes its way to the end. -/
theorem expansion_of_silent (h : r.heard r.steps = []) :
    r.expansion = (r.state r.steps).reporting (r.collected []) := by
  obtain ⟨n, hn⟩ := r.exists_endsAfter
  have heard : r.heard n = [] := List.prefix_nil.mp (h ▸ prefix_heard hn.le)
  have ended := hn.ended
  have expanded := hn.expansion
  rw [heard] at ended expanded
  obtain rfl := ended.resolve_right (Bool.eq_false_iff.mp r.isEmpty_collected.2)
  exact expanded

theorem silent_of_errorsMet (h : r.errorsMet = []) : r.heard r.steps = [] :=
  List.prefix_nil.mp (h ▸ heard_prefix_errorsMet (Nat.le_refl _))

theorem build_of_errorsMet_eq_nil (h : r.errorsMet = []) :
    r.build = .ok (r.graphOf (r.analysed (r.state r.steps))) := by
  obtain ⟨empty, hl⟩ := r.isEmpty_collected
  have silent := silent_of_errorsMet h
  obtain ⟨hlate, hdraft⟩ := late_of_not_limitReached (silent.symm ▸ expansion_of_silent silent)
    (silent.symm ▸ hl)
  rw [build_eq, kept, reached, hlate, hdraft, h, result, if_pos empty]
  rfl

theorem build_of_errorsMet_ne_nil (h : r.errorsMet ≠ []) :
    r.build = .error ⟨r.errorsMet.eraseDups.take (max r.cap 1), r.late.suppressed⟩ := by
  obtain ⟨e, he⟩ := List.exists_mem_of_ne_nil _ h
  have met : r.errorsMet.eraseDups ≠ [] := List.ne_nil_of_mem (List.mem_eraseDups.mpr he)
  have kept : r.late.stored ≠ [] := by
    rw [stored_late, ne_eq, List.take_eq_nil_iff, not_or]
    exact ⟨by omega, met⟩
  have failed : ¬ r.late.isEmpty = true := by simp [isEmpty, kept]
  rw [build_eq, result, if_neg failed, toReport, stored_late]

theorem errorsMet_of_build {g : Graph} (h : r.build = .ok g) : r.errorsMet = [] := by
  by_contra met
  rw [build_of_errorsMet_ne_nil met] at h
  cases h

/-- **A build fails if and only if it meets an error, whatever the cap.** -/
theorem build_of_errorsMet (r : BuildRequest) : r.build =
    if r.errorsMet = [] then .ok (r.graphOf (r.analysed (r.state r.steps)))
    else .error ⟨r.errorsMet.eraseDups.take (max r.cap 1), r.late.suppressed⟩ := by
  split
  · exact build_of_errorsMet_eq_nil ‹_›
  · exact build_of_errorsMet_ne_nil ‹_›

/-! ### Two caps -/

/-! The cap has no part in the course of a build that no cap ends. -/

theorem steps_capped (r : BuildRequest) (c : UInt64) : (r.capped c).steps = r.steps := rfl

theorem state_capped (r : BuildRequest) (c : UInt64) (n : Nat) :
    (r.capped c).state n = r.state n := rfl

theorem heard_capped (r : BuildRequest) (c : UInt64) (n : Nat) :
    (r.capped c).heard n = r.heard n := rfl

theorem disuse_capped (r : BuildRequest) (c : UInt64) (x : Expansion) :
    (r.capped c).disuse x = r.disuse x := rfl

theorem errorsMet_capped (r : BuildRequest) (c : UInt64) :
    (r.capped c).errorsMet = r.errorsMet := by
  rw [errorsMet, heard_capped, steps_capped, state_capped, disuse_capped]
  rfl

theorem analysed_capped (r : BuildRequest) (c : UInt64) (x : Expansion) :
    (r.capped c).analysed x = r.analysed x := rfl

theorem graphOf_capped (r : BuildRequest) (c : UInt64) (d : Draft) :
    (r.capped c).graphOf d = r.graphOf d := rfl

theorem build_capped_eq (r : BuildRequest) (c : UInt64) : (r.capped c).build =
    if r.errorsMet = [] then .ok (r.graphOf (r.analysed (r.state r.steps)))
    else .error ⟨r.errorsMet.eraseDups.take (max c.toNat 1), (r.capped c).late.suppressed⟩ := by
  rw [build_of_errorsMet, errorsMet_capped, steps_capped, state_capped, analysed_capped,
    graphOf_capped]
  rfl

/-- **The error cap only truncates.**  Under two caps a build yields the same graph, or fails with
reports of which the one under the lower cap holds the first errors of the other. -/
theorem build_capped (r : BuildRequest) {m n : UInt64} (hm : 1 ≤ m) (hmn : m ≤ n) :
    (∀ g, (r.capped m).build = .ok g ↔ (r.capped n).build = .ok g) ∧
    ∀ low high, (r.capped m).build = .error low → (r.capped n).build = .error high →
      low.errors = high.errors.take (min m.toNat high.errors.length) := by
  have positive : 1 ≤ m.toNat := UInt64.le_iff_toNat_le.mp hm
  have ordered : m.toNat ≤ n.toNat := UInt64.le_iff_toNat_le.mp hmn
  rw [build_capped_eq, build_capped_eq]
  by_cases met : r.errorsMet = []
  · rw [if_pos met, if_pos met]
    exact ⟨fun _ => .rfl, fun _ _ h => nomatch h⟩
  · rw [if_neg met, if_neg met]
    refine ⟨fun _ => ⟨fun h => (nomatch h), fun h => (nomatch h)⟩, fun low high hlow hhigh => ?_⟩
    obtain rfl := Except.error.inj hlow
    obtain rfl := Except.error.inj hhigh
    rw [List.take_take, List.length_take, List.take_eq_take_iff]
    omega

/-- The reports under two caps, if both builds fail. -/
def reports (r : BuildRequest) (m n : UInt64) : Option (ErrorReport × ErrorReport) :=
  match (r.capped m).build, (r.capped n).build with
  | .error low, .error high => some (low, high)
  | _, _ => none

theorem reports_eq_some {m n : UInt64} {low high : ErrorReport} : r.reports m n = some (low, high) ↔
    (r.capped m).build = .error low ∧ (r.capped n).build = .error high := by
  rw [reports]
  cases (r.capped m).build <;> cases (r.capped n).build <;> simp

/-- A graph without entry points. -/
def plain (bindings : List Binding) : BuildRequest where
  index := .ofDeclarations [] []
  provider _ := []
  options := {}
  declaration := { origin := .of "AppGraph", key := ⟨"AppGraph", none⟩, bindings }
  ancestors := []
  retained := .empty

/-- The request with entry points to keys. -/
def entering (r : BuildRequest) (keys : List TypeKey) : BuildRequest :=
  { r with
    declaration :=
      { r.declaration with entryPoints := keys.map fun key => .accessor key.typeName { key } } }

/-- A graph with entry points to two keys that nothing yields. -/
def lacking : BuildRequest := (plain []).entering [⟨"Lost", none⟩, ⟨"Missing", none⟩]

theorem build_capped_lacking : (1 : UInt64) ≤ 1 ∧ (1 : UInt64) ≤ 20 ∧
    ∃ low high, (lacking.capped 1).build = .error low ∧ (lacking.capped 20).build = .error high ∧
      high.errors.length = 2 ∧ low.errors = high.errors.take (min 1 high.errors.length) := by
  have failed : (lacking.reports 1 20).map (·.2.errors.length) = some 2 := by decide +kernel
  obtain ⟨⟨low, high⟩, hboth, hlength⟩ := Option.map_eq_some_iff.mp failed
  obtain ⟨hlow, hhigh⟩ := reports_eq_some.mp hboth
  have capped := (build_capped lacking (m := 1) (n := 20) (by decide) (by decide)).2
  exact ⟨by decide, by decide, low, high, hlow, hhigh, hlength, capped low high hlow hhigh⟩

/-! ### The number of errors -/

theorem disuse_eq_nil (hs : r.options.unusedBindingSeverity ≠ .error) (x : Expansion) :
    r.disuse x = [] := by
  rw [disuse, unusedErrors]
  split
  · rfl
  · rfl
  · rename_i h
    exact absurd h hs

/-- The errors that a build meets whose expansion ends after some steps, unless unused keys are
errors: those until then, if the cap is reached with them, and all otherwise. -/
def told (r : BuildRequest) (n : Nat) : List GraphError :=
  if (r.collected (r.heard n)).limitReached then r.heard n else r.errorsMet

theorem EndsAfter.late_eq_told {n : Nat} (hn : r.EndsAfter n)
    (hs : r.options.unusedBindingSeverity ≠ .error) : r.late = r.collected (r.told n) := by
  rw [told]
  split
  · rename_i hl
    rw [late_of_limitReached hn.expansion hl, disuse_eq_nil hs, List.append_nil]
  · rename_i hl
    obtain rfl := hn.ended.resolve_right hl
    exact (late_of_not_limitReached hn.expansion (Bool.eq_false_iff.mpr hl)).1

theorem EndsAfter.prefix_told {n : Nat} (hn : r.EndsAfter n) : r.told n <+: r.errorsMet := by
  rw [told]
  split
  · exact heard_prefix_errorsMet hn.le
  · exact List.prefix_refl _

/-- **A build under a lower cap is told no more errors**, nor is any build told more than one whose
cap is not reached. -/
theorem length_told_le {m n : UInt64} {i j : Nat} (hi : (r.capped m).EndsAfter i)
    (hj : (r.capped n).EndsAfter j)
    (h : m ≤ n ∨ ((r.capped n).collected (r.heard j)).limitReached = false) :
    ((r.capped m).told i).length ≤ ((r.capped n).told j).length := by
  by_cases hl : ((r.capped n).collected (r.heard j)).limitReached = true
  · have ordered : m ≤ n := h.resolve_right fun hn => by
      rw [hl] at hn
      cases hn
    have reached : ((r.capped m).collected (r.heard j)).limitReached = true := by
      have caps : (r.capped m).cap ≤ (r.capped n).cap := UInt64.le_iff_toNat_le.mp ordered
      rw [limitReached_collected] at hl ⊢
      omega
    -- the lower cap is reached as early as the other one
    have earlier : i ≤ j := by
      by_contra hji
      have := hi.before j (Nat.lt_of_not_le hji)
      rw [heard_capped, reached] at this
      cases this
    have reached' : ((r.capped m).collected (r.heard i)).limitReached = true := by
      rcases hi.ended with he | he
      · obtain rfl : i = j := Nat.le_antisymm earlier (he ▸ hj.le)
        exact reached
      · exact he
    rw [told, told, heard_capped, heard_capped, if_pos hl, if_pos reached']
    exact (prefix_heard earlier).length_le
  · have all : (r.capped n).told j = (r.capped m).errorsMet := by
      rw [told, heard_capped, if_neg hl, errorsMet_capped, errorsMet_capped]
    rw [all]
    exact hi.prefix_told.length_le

theorem report_of_build {report : ErrorReport} (h : r.build = .error report) :
    report = r.late.toReport := by
  rw [build_eq, result] at h
  split at h
  · cases h
  · exact (Except.error.inj h).symm

/-- A build whose expansion reaches the cap keeps as many errors as it allows. -/
theorem EndsAfter.le_stored {n : Nat} (hn : r.EndsAfter n)
    (hl : (r.collected (r.heard n)).limitReached = true) : r.cap ≤ r.late.stored.length := by
  have full := limitReached_collected.mp hl
  rw [stored_late, List.length_take]
  obtain ⟨rest, hrest⟩ := heard_prefix_errorsMet hn.le
  rw [← hrest, List.eraseDups_append, List.length_append]
  omega

/-- **A capped report claims no more errors than there are**, if unused keys are no errors and no
error is met twice: the total under a lower cap is no greater, and none is greater than that of a
report which leaves nothing out. -/
theorem total_capped (r : BuildRequest) {m n : UInt64}
    (hs : r.options.unusedBindingSeverity ≠ .error) (hd : r.errorsMet.Nodup)
    {low high : ErrorReport} (hlow : (r.capped m).build = .error low)
    (hhigh : (r.capped n).build = .error high)
    (h : m ≤ n ∨ high.errors.length < n.toNat) : low.total ≤ high.total := by
  obtain ⟨i, hi⟩ := (r.capped m).exists_endsAfter
  obtain ⟨j, hj⟩ := (r.capped n).exists_endsAfter
  have fewer : ((r.capped m).told i).length ≤ ((r.capped n).told j).length := by
    refine length_told_le hi hj (h.imp_right fun h => Bool.eq_false_iff.mpr fun hl => ?_)
    have full := hj.le_stored hl
    rw [report_of_build hhigh] at h
    exact absurd h (Nat.not_lt_of_le full)
  have distinct : ((r.capped n).told j).Nodup := hd.sublist hj.prefix_told.sublist
  have least : (r.capped m).late.total ≤ ((r.capped m).told i).length :=
    hi.late_eq_told hs ▸ (heard_collected _ _).total_le
  have most : (r.capped n).late.total = ((r.capped n).told j).length :=
    hj.late_eq_told hs ▸ (heard_collected _ _).total_eq distinct
  rw [report_of_build hlow, report_of_build hhigh, total_toReport, total_toReport, most]
  exact Nat.le_trans least fewer

theorem total_capped_lacking : lacking.options.unusedBindingSeverity ≠ .error ∧
    lacking.errorsMet.Nodup ∧
    ∃ low high, (lacking.capped 1).build = .error low ∧ (lacking.capped 20).build = .error high ∧
      (1 : UInt64) ≤ 20 ∧ high.total = 2 ∧ low.total ≤ high.total := by
  have severity : lacking.options.unusedBindingSeverity ≠ .error := by decide
  have distinct : lacking.errorsMet.Nodup := by decide +kernel
  have failed : (lacking.reports 1 20).map (·.2.total) = some 2 := by decide +kernel
  obtain ⟨⟨low, high⟩, hboth, htotal⟩ := Option.map_eq_some_iff.mp failed
  obtain ⟨hlow, hhigh⟩ := reports_eq_some.mp hboth
  exact ⟨severity, distinct, low, high, hlow, hhigh, by decide, htotal,
    total_capped lacking severity distinct hlow hhigh (.inl (by decide))⟩

/-- A graph in which two keys are bound twice, one of them by a binding listed again. -/
def repeated : BuildRequest :=
  plain
    [.provided ⟨"A", none⟩ (.of "a1") none [], .provided ⟨"A", none⟩ (.of "a2") none [],
      .provided ⟨"B", none⟩ (.of "b1") none [], .provided ⟨"B", none⟩ (.of "b2") none [],
      .provided ⟨"B", none⟩ (.of "b2") none []]

/-- A graph with an entry point to a key that nothing yields, and one to a key that needs another;
unused keys are errors. -/
def strict : BuildRequest :=
  let r := (plain
    [.provided ⟨"Api", none⟩ (.of "api") none [{ key := ⟨"Db", none⟩ }],
      .provided ⟨"Db", none⟩ (.of "db") none []]).entering [⟨"Api", none⟩, ⟨"A", none⟩]
  { r with options := { r.options with unusedBindingSeverity := .error } }

/-- Under a cap of one error a report may claim more errors than there are: one that is met again is
counted again, and a key that is not reached before the cap counts as unused. -/
theorem total_capped_exceeds :
    (∃ low high, (repeated.capped 1).build = .error low ∧
      (repeated.capped 20).build = .error high ∧ high.suppressed = 0 ∧ high.total < low.total) ∧
    ∃ low high, (strict.capped 1).build = .error low ∧ (strict.capped 20).build = .error high ∧
      high.suppressed = 0 ∧ high.total < low.total := by
  have exceeds : ∀ r : BuildRequest, (r.reports 1 20).map (fun (low, high) =>
        decide (high.suppressed = 0 ∧ high.total < low.total)) = some true →
      ∃ low high, (r.capped 1).build = .error low ∧ (r.capped 20).build = .error high ∧
        high.suppressed = 0 ∧ high.total < low.total := by
    intro r h
    obtain ⟨⟨low, high⟩, hboth, htotal⟩ := Option.map_eq_some_iff.mp h
    obtain ⟨hlow, hhigh⟩ := reports_eq_some.mp hboth
    exact ⟨low, high, hlow, hhigh, of_decide_eq_true htotal⟩
  exact ⟨exceeds repeated (by decide +kernel), exceeds strict (by decide +kernel)⟩

end Wiring.BuildRequest
