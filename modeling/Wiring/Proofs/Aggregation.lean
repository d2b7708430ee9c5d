import Wiring.Proofs.Relisting

/-!
# Contributions found in any order and number

Contributions are sorted by what tells declarations apart, and of those that then stand side by side
repeated ones are dropped.  If no two different ones agree in all that the order looks at, a
repetition always stands beside the first; so what is gathered is a list in a strict order, known by
its elements (`DistinctIn.gather_eq`), and nothing else matters of what is found
(`aggregate_eq_of_mem_iff`).  Otherwise a repetition may be missed, and contributions may stay in
the order in which they are found (`aggregate_repeated`).
-/

namespace Wiring

open Std

/-! ### Dropping repetitions of a sorted list -/

section Repetitions

variable {α : Type}

/-- Of two elements side by side that count as one the second is dropped. -/
theorem eraseRepsBy_cons_cons (r : α → α → Bool) (a b : α) (rest : List α) :
    (a :: b :: rest).eraseRepsBy r =
      if r a b then (a :: rest).eraseRepsBy r else a :: (b :: rest).eraseRepsBy r := by
  have looped : ∀ (xs : List α) (x : α) (acc : List α),
      List.eraseRepsBy.loop r x xs acc = acc.reverse ++ List.eraseRepsBy.loop r x xs [] := by
    intro xs
    induction xs with
    | nil => intro x acc; simp [List.eraseRepsBy.loop]
    | cons y xs ih =>
        intro x acc
        rw [List.eraseRepsBy.loop, List.eraseRepsBy.loop]
        split
        · exact ih x acc
        · rw [ih y (x :: acc), ih y [x]]
          simp
  rw [List.eraseRepsBy, List.eraseRepsBy, List.eraseRepsBy, List.eraseRepsBy.loop]
  split
  · rename_i hab
    rw [if_pos hab]
  · rename_i hab
    rw [if_neg (by simpa using hab), looped]
    rfl

/-- What is left without repetitions stands in its former order. -/
theorem eraseRepsBy_sublist (r : α → α → Bool) : ∀ xs : List α, (xs.eraseRepsBy r).Sublist xs
  | [] => .refl _
  | [_] => .refl _
  | a :: b :: rest => by
      rw [eraseRepsBy_cons_cons]
      split
      · exact (eraseRepsBy_sublist r (a :: rest)).trans ((List.sublist_cons_self b rest).cons_cons a)
      · exact (eraseRepsBy_sublist r (b :: rest)).cons_cons a
termination_by xs => xs.length

variable [DecidableEq α]

/-- Of two equal elements side by side the first is dropped. -/
theorem eraseReps_cons_cons (a b : α) (rest : List α) : (a :: b :: rest).eraseReps =
    if a = b then (b :: rest).eraseReps else a :: (b :: rest).eraseReps := by
  rw [List.eraseReps, eraseRepsBy_cons_cons]
  by_cases hab : a = b
  · subst hab
    simp [List.eraseReps]
  · simp [List.eraseReps, hab]

theorem mem_eraseReps {a : α} : ∀ {xs : List α}, a ∈ xs.eraseReps ↔ a ∈ xs
  | [] => .rfl
  | [_] => .rfl
  | b :: c :: rest => by
      rw [eraseReps_cons_cons]
      split
      · rename_i hbc
        rw [mem_eraseReps, hbc]
        simp
      · rw [List.mem_cons, mem_eraseReps, ← List.mem_cons]

/-- A list in an order that no two different elements share is in a strict order without its
repetitions. -/
theorem pairwise_eraseReps {r : α → α → Prop} : ∀ {xs : List α}, xs.Pairwise r →
    (∀ a ∈ xs, ∀ b ∈ xs, r a b → r b a → a = b) →
      xs.eraseReps.Pairwise fun a b => r a b ∧ a ≠ b
  | [], _, _ => .nil
  | [_], _, _ => List.pairwise_singleton _ _
  | a :: b :: rest, h, ha => by
      obtain ⟨hab, hr⟩ := List.pairwise_cons.mp h
      have ih := pairwise_eraseReps hr fun x hx y hy =>
        ha x (List.mem_cons_of_mem a hx) y (List.mem_cons_of_mem a hy)
      rw [eraseReps_cons_cons]
      split
      · exact ih
      · rename_i hne
        refine List.pairwise_cons.mpr ⟨fun c hc => ?_, ih⟩
        have hc := mem_eraseReps.mp hc
        refine ⟨hab c hc, ?_⟩
        rintro rfl
        -- `a` would stand on both sides of `b`
        rcases List.mem_cons.mp hc with rfl | hc
        · exact hne rfl
        · exact hne (ha a (.head _) b (.tail _ (.head _)) (hab b (.head _))
            ((List.pairwise_cons.mp hr).1 a hc))

end Repetitions

/-! ### What is gathered -/

namespace Contribution

/-- Different contributions to the scopes of a list differ in what their order looks at. -/
def DistinctIn (provider : Scope → List Contribution) (scopes : List Scope) : Prop :=
  ∀ a ∈ scopes.flatMap provider, ∀ b ∈ scopes.flatMap provider, a.declaration = b.declaration →
    a.kind = b.kind → a.scope = b.scope → a.contributedType = b.contributedType → a = b

instance (provider : Scope → List Contribution) (scopes : List Scope) :
    Decidable (DistinctIn provider scopes) :=
  inferInstanceAs (Decidable (∀ a ∈ scopes.flatMap provider, ∀ b ∈ scopes.flatMap provider, _))

variable {provider provider' : Scope → List Contribution} {scopes : List Scope}

theorem mem_gather {c : Contribution} :
    c ∈ gather provider scopes ↔ c ∈ scopes.flatMap provider := by
  rw [gather, mem_eraseReps, mem_sortBy, List.mem_flatMap, List.mem_flatMap]
  simp only [SortedSet.mem_ofList]

/-- **What is gathered increases strictly.** -/
theorem DistinctIn.pairwise_gather (hd : DistinctIn provider scopes) :
    (gather provider scopes).Pairwise fun a b => a.compare b = .lt := by
  have same : ∀ a ∈ gather provider scopes, ∀ b ∈ gather provider scopes,
      a.compare b = .eq → a = b := by
    intro a ha b hb h
    obtain ⟨hdeclaration, hkind, hscope, htype⟩ := of_compare_eq h
    exact hd a (mem_gather.mp ha) b (mem_gather.mp hb) hdeclaration hkind hscope htype
  have increasing := pairwise_eraseReps (pairwise_sortBy Contribution.compare
    ((SortedSet.ofList scopes).toList.flatMap provider)) fun a ha b hb hab hba =>
      same a (mem_eraseReps.mpr ha) b (mem_eraseReps.mpr hb) (OrientedCmp.isLE_antisymm hab hba)
  refine increasing.imp_of_mem fun {a b} ha hb h => ?_
  cases hab : a.compare b with
  | lt => rfl
  | eq => exact absurd (same a ha b hb hab) h.2
  | gt => simp [hab] at h

/-- Distinct contributions are gathered alike in whatever order and however often they are found. -/
theorem DistinctIn.gather_eq (hd : DistinctIn provider scopes)
    (hp : ∀ s ∈ scopes, ∀ c, c ∈ provider s ↔ c ∈ provider' s) :
    gather provider' scopes = gather provider scopes := by
  have found : ∀ c, c ∈ scopes.flatMap provider' ↔ c ∈ scopes.flatMap provider := fun c => by
    rw [List.mem_flatMap, List.mem_flatMap]
    exact exists_congr fun s => and_congr_right fun hs => (hp s hs c).symm
  have hd' : DistinctIn provider' scopes := fun a ha b hb =>
    hd a ((found a).mp ha) b ((found b).mp hb)
  refine eq_of_pairwise_of_mem_iff (fun a b hab hba => ?_) hd'.pairwise_gather hd.pairwise_gather
    fun c => ?_
  · rw [OrientedCmp.gt_of_lt hba] at hab
    cases hab
  · rw [mem_gather, mem_gather, found]

/-- **Aggregation depends on the set of contributions found only**, if different ones differ in what
their order looks at: whatever is excluded and was reported before, the same comes of them. -/
theorem aggregate_eq_of_mem_iff (hd : DistinctIn provider scopes)
    (hp : ∀ s ∈ scopes, ∀ c, c ∈ provider s ↔ c ∈ provider' s) (excludes : List DeclarationId)
    (d : Diagnostics) :
    (aggregate provider' scopes excludes).1 = (aggregate provider scopes excludes).1 ∧
      d.reportAll (aggregate provider' scopes excludes).2 =
        d.reportAll (aggregate provider scopes excludes).2 := by
  have same : aggregate provider' scopes excludes = aggregate provider scopes excludes := by
    rw [aggregate, hd.gather_eq hp, aggregate]
  rw [same]
  exact ⟨rfl, rfl⟩

/-- Contributions in another order and one of them twice. -/
theorem aggregate_eq_of_mem_iff_reversed :
    let zip := toSupertype ⟨"AppScope"⟩ ⟨"Zip", none⟩ ⟨"Packer", none⟩
    let tar := toSupertype ⟨"AppScope"⟩ ⟨"Tar", none⟩ ⟨"Archiver", none⟩
    DistinctIn (fun _ => [zip, tar]) [⟨"AppScope"⟩] ∧
    (∀ s ∈ [(⟨"AppScope"⟩ : Scope)], ∀ c,
      c ∈ (fun _ : Scope => [zip, tar]) s ↔ c ∈ (fun _ : Scope => [tar, zip, tar]) s) ∧
    (aggregate (fun _ => [tar, zip, tar]) [⟨"AppScope"⟩] []).1 =
      (aggregate (fun _ => [zip, tar]) [⟨"AppScope"⟩] []).1 ∧
    (Diagnostics.ofCap 20).reportAll (aggregate (fun _ => [tar, zip, tar]) [⟨"AppScope"⟩] []).2 =
      (Diagnostics.ofCap 20).reportAll (aggregate (fun _ => [zip, tar]) [⟨"AppScope"⟩] []).2 := by
  intro zip tar
  have distinct : DistinctIn (fun _ => [zip, tar]) [⟨"AppScope"⟩] := by decide +kernel
  have same : ∀ s ∈ [(⟨"AppScope"⟩ : Scope)], ∀ c,
      c ∈ (fun _ : Scope => [zip, tar]) s ↔ c ∈ (fun _ : Scope => [tar, zip, tar]) s := by
    intro s _ c
    simp only [List.mem_cons, List.not_mem_nil]
    tauto
  exact ⟨distinct, same, aggregate_eq_of_mem_iff distinct same [] (.ofCap 20)⟩

/-- One class bound to a supertype, by one of several contributions of its declaration. -/
def bound (kind : ContributionKind) (supertype : TypeKey) : Contribution where
  origin := .of "Impl"
  scope := ⟨"AppScope"⟩
  kind := kind
  contributedType := ⟨"Impl", none⟩
  boundType := some supertype
  supertypes := [⟨"Api", none⟩, ⟨"Service", none⟩]

/-- Of two contributions that agree in what their order looks at, one that is found again behind the
other ties with itself, and elements stay in the order in which they are found. -/
theorem aggregate_repeated :
    (let api := bound .binding ⟨"Api", none⟩
     let service := bound .binding ⟨"Service", none⟩
     (∀ c, c ∈ [api, service] ↔ c ∈ [api, service, api]) ∧
       (aggregate (fun _ => [api, service]) [⟨"AppScope"⟩] []).2 = [] ∧
       (aggregate (fun _ => [api, service, api]) [⟨"AppScope"⟩] []).2 =
         [.duplicateContribution ⟨"AppScope"⟩ ⟨"Api", none⟩ none [.of "Impl", .of "Impl"]]) ∧
    let api := bound .intoSet ⟨"Api", none⟩
    let service := bound .intoSet ⟨"Service", none⟩
    (∀ c, c ∈ [api, service] ↔ c ∈ [service, api]) ∧
      (aggregate (fun _ => [api, service]) [⟨"AppScope"⟩] []).1 ≠
        (aggregate (fun _ => [service, api]) [⟨"AppScope"⟩] []).1 := by
  refine ⟨⟨fun c => ?_, by decide +kernel, by decide +kernel⟩, fun c => ?_, by decide +kernel⟩ <;>
    · simp only [List.mem_cons, List.not_mem_nil]
      tauto

end Contribution

end Wiring
