import Wiring.Proofs.Collecting
import Wiring.Proofs.Expansion

/-!
# An expansion without a cap

Nothing but the end of an expansion depends on what its collector holds: a step from the same state
tells the same errors to any collector (`process_reporting`).  So an expansion that no cap ends
(`advance`) has its errors in a fixed order (`errorsWithin`), and one that a cap ends goes the same
way up to the first step after which the cap is reached (`repeat_step`).
-/

namespace Wiring.Expansion

variable {l : Lookup} {x : Expansion} {d : Diagnostics}

/-- The expansion with another collector. -/
def reporting (x : Expansion) (d : Diagnostics) : Expansion := { x with diagnostics := d }

/-! ### The errors of a step -/

/-- The error of a request that nothing can meet. -/
def unresolved (l : Lookup) (x : Expansion) (key : TypeKey) (parent : Option TypeKey) :
    GraphError :=
  .unresolvedDependency key (x.chainTo key parent)
    ((parent.bind x.bindings.get?).map (·.origin)) (l.catalog.missingHint? key)

/-- The errors that a request tells. -/
def requestErrors (l : Lookup) (x : Expansion) (key : TypeKey) (parent : Option TypeKey)
    (hasDefault : Bool) : List GraphError :=
  if x.isAbsent key && (!hasDefault && parent.isSome) then [unresolved l x key parent] else []

/-- The errors that the requests for dependencies tell, one after the other. -/
def dependencyErrors (l : Lookup) (parent : TypeKey) : Expansion → List Dependency → List GraphError
  | _, [] => []
  | x, d :: rest =>
      requestErrors l x d.key (some parent) d.hasDefault ++
        dependencyErrors l parent (request l x d.key (some parent) d.hasDefault) rest

/-- The errors that looking a key up and going on from what is found tell. -/
def processErrors (l : Lookup) (x : Expansion) (key : TypeKey) : List GraphError :=
  let f := l.resolve key
  f.errors ++
    match f.resolution with
    | .found b => dependencyErrors l b.key ((x.note key f).bound b) b.dependencies
    | .failed => []
    | .missing =>
        if (x.requested.get? key).getD false then []
        else [unresolved l x key (x.parents.get? key)]

theorem request_reporting (x : Expansion) (d : Diagnostics) (key : TypeKey)
    (parent : Option TypeKey) (hasDefault : Bool) :
    request l (x.reporting d) key parent hasDefault =
      (request l x key parent hasDefault).reporting
        (d.reportAll (requestErrors l x key parent hasDefault)) := by
  have absent : (x.reporting d).isAbsent key = x.isAbsent key := rfl
  have asked : (x.reporting d).requested = x.requested := rfl
  unfold request requestErrors
  rw [absent, asked]
  cases x.isAbsent key with
  | true => cases !hasDefault && parent.isSome <;> rfl
  | false =>
      cases x.requested.get? key with
      | none => rfl
      | some optional => cases optional <;> cases hasDefault <;> rfl

theorem dependencies_reporting (l : Lookup) (parent : TypeKey) :
    ∀ (dependencies : List Dependency) (x : Expansion) (d : Diagnostics),
      dependencies.foldl (fun x e => request l x e.key (some parent) e.hasDefault) (x.reporting d) =
        (dependencies.foldl (fun x e => request l x e.key (some parent) e.hasDefault) x).reporting
          (d.reportAll (dependencyErrors l parent x dependencies))
  | [], _, _ => rfl
  | e :: rest, x, d => by
      rw [List.foldl_cons, List.foldl_cons, request_reporting, dependencies_reporting l parent rest,
        dependencyErrors, Diagnostics.reportAll_append]

theorem accept_reporting (x : Expansion) (d : Diagnostics) (b : Binding) :
    accept l (x.reporting d) b = (accept l x b).reporting
      (d.reportAll (dependencyErrors l b.key (x.bound b) b.dependencies)) :=
  dependencies_reporting l b.key b.dependencies (x.bound b) d

/-- **The errors of a step do not depend on those before.** -/
theorem process_reporting (x : Expansion) (d : Diagnostics) (key : TypeKey) :
    process l (x.reporting d) key =
      (process l x key).reporting (d.reportAll (processErrors l x key)) := by
  have noted : (x.reporting d).note key (l.resolve key) =
      (x.note key (l.resolve key)).reporting (d.reportAll (l.resolve key).errors) := rfl
  rw [process, process, settle, settle, processErrors, noted]
  cases hr : (l.resolve key).resolution with
  | found b =>
      simp only [accept_reporting, Diagnostics.reportAll_append]
  | failed => simp only [List.append_nil]
  | missing =>
      have untouched : ((x.note key (l.resolve key)).reporting
        (d.reportAll (l.resolve key).errors)).requested = x.requested := rfl
      have untouched' : (x.note key (l.resolve key)).requested = x.requested := rfl
      simp only [untouched, untouched']
      by_cases hd : (x.requested.get? key).getD false = true
      · simp only [hd, if_true, List.append_nil]
        rfl
      · simp only [hd, Diagnostics.reportAll_append]
        rfl

/-! ### A run -/

/-- Looks up the key that has waited longest, however many errors there are. -/
def advance (l : Lookup) (x : Expansion) : Expansion :=
  match x.queue with
  | [] => x
  | key :: rest => process l { x with queue := rest } key

/-- The errors of such a step. -/
def stepErrors (l : Lookup) (x : Expansion) : List GraphError :=
  match x.queue with
  | [] => []
  | key :: rest => processErrors l { x with queue := rest } key

/-- The errors of a number of steps. -/
def errorsWithin (l : Lookup) (x : Expansion) : Nat → List GraphError
  | 0 => []
  | n + 1 => errorsWithin l x n ++ stepErrors l (n.repeat (advance l) x)

theorem prefix_errorsWithin {i : Nat} : ∀ {n : Nat}, i ≤ n →
    errorsWithin l x i <+: errorsWithin l x n
  | 0, h => Nat.le_zero.mp h ▸ List.prefix_refl _
  | n + 1, h => by
      rcases Nat.lt_or_eq_of_le h with h | rfl
      · exact (prefix_errorsWithin (Nat.le_of_lt_succ h)).trans (List.prefix_append ..)
      · exact List.prefix_refl _

theorem step_reporting (x : Expansion) (d : Diagnostics) : step l (x.reporting d) =
    if d.limitReached then x.reporting d
    else (advance l x).reporting (d.reportAll (stepErrors l x)) := by
  have waiting : (x.reporting d).queue = x.queue := rfl
  cases hq : x.queue with
  | nil =>
      simp only [step, advance, stepErrors, waiting, hq]
      split <;> rfl
  | cons key rest =>
      simp only [step, advance, stepErrors, waiting, hq]
      split
      · rename_i hl
        exact (if_pos hl).symm
      · rename_i hl
        exact (process_reporting { x with queue := rest } d key).trans (if_neg hl).symm

/-- **A cap only ends an expansion.**  After any number of steps an expansion is where it would be
without a cap, unless it has ended: then it is where it would be after the first step with which the
cap was reached. -/
theorem repeat_step (l : Lookup) (x : Expansion) (d : Diagnostics) : ∀ n : Nat, ∃ j ≤ n,
    n.repeat (step l) (x.reporting d) =
      (j.repeat (advance l) x).reporting (d.reportAll (errorsWithin l x j)) ∧
    (j = n ∨ (d.reportAll (errorsWithin l x j)).limitReached = true) ∧
    ∀ i < j, (d.reportAll (errorsWithin l x i)).limitReached = false
  | 0 => ⟨0, Nat.le_refl 0, rfl, .inl rfl, fun _ h => absurd h (Nat.not_lt_zero _)⟩
  | n + 1 => by
      obtain ⟨j, hj, he, hend, hbefore⟩ := repeat_step l x d n
      have next : (n + 1).repeat (step l) (x.reporting d) =
          step l (n.repeat (step l) (x.reporting d)) := rfl
      rw [next, he, step_reporting]
      by_cases hl : (d.reportAll (errorsWithin l x j)).limitReached = true
      · rw [if_pos hl]
        exact ⟨j, Nat.le_succ_of_le hj, rfl, .inr hl, hbefore⟩
      · obtain rfl := hend.resolve_right hl
        rw [if_neg hl, ← Diagnostics.reportAll_append]
        refine ⟨j + 1, Nat.le_refl _, rfl, .inl rfl, fun i hi => ?_⟩
        rcases Nat.lt_succ_iff_lt_or_eq.mp hi with hi | rfl
        · exact hbefore i hi
        · exact Bool.eq_false_iff.mpr hl

end Wiring.Expansion
