import Wiring.Proofs.Aggregation
import Wiring.Proofs.ErrorKinds

/-!
# Excluded contributions

Sorting keeps what a filter keeps in order (`filter_sortBy`), and repetitions are dropped alike
before and after a filter that does not tell apart what compares equal (`filter_eraseReps`).  So
what is gathered without the excluded contributions is what is gathered without them from the start
(`gather_leavingOut`), and nothing else of them shows in what contributions amount to.

An excluded contribution shows in the errors alone: one that is declared wrongly is reported before
it is dropped (`aggregate_leavingOut`, `aggregate_excluded_wrong`).
-/

namespace Wiring

open Std

/-! ### Filtering a sorted list -/

section Filtering

variable {α : Type} {cmp : α → α → Ordering} {p : α → Bool}

theorem insertBy_of_isLE {a : α} {xs : List α} (h : ∀ x ∈ xs, (cmp a x).isLE) :
    insertBy cmp a xs = a :: xs := by
  cases xs with
  | nil => rfl
  | cons b rest => rw [insertBy, if_pos (h b (.head _))]

theorem filter_insertBy [TransCmp cmp] (p : α → Bool) (a : α) : ∀ {xs : List α},
    (xs.Pairwise fun a b => (cmp a b).isLE) →
      (insertBy cmp a xs).filter p = if p a then insertBy cmp a (xs.filter p) else xs.filter p
  | [], _ => by cases hp : p a <;> simp [insertBy, hp]
  | b :: rest, h => by
      obtain ⟨hb, hr⟩ := List.pairwise_cons.mp h
      rw [insertBy]
      split
      · rename_i hab
        have least : ∀ x ∈ (b :: rest).filter p, (cmp a x).isLE := fun x hx => by
          rcases List.mem_cons.mp (List.mem_filter.mp hx).1 with rfl | hx
          · exact hab
          · exact TransCmp.isLE_trans hab (hb x hx)
        rw [insertBy_of_isLE least, List.filter_cons]
      · rename_i hab
        rw [List.filter_cons, List.filter_cons, filter_insertBy p a hr]
        cases p a <;> cases p b <;> simp [insertBy, hab]

/-- A filter may come before or after sorting. -/
theorem filter_sortBy [TransCmp cmp] (p : α → Bool) : ∀ xs : List α,
    (sortBy cmp xs).filter p = sortBy cmp (xs.filter p)
  | [] => rfl
  | a :: rest => by
      rw [sortBy, filter_insertBy p a (pairwise_sortBy cmp rest), filter_sortBy p rest,
        List.filter_cons]
      split <;> rfl

/-- A filter that does not tell apart what compares equal may come before or after the repetitions
of a sorted list are dropped. -/
theorem filter_eraseReps [TransCmp cmp] [DecidableEq α]
    (hp : ∀ a b, cmp a b = .eq → p a = p b) : ∀ {xs : List α},
      (xs.Pairwise fun a b => (cmp a b).isLE) → xs.eraseReps.filter p = (xs.filter p).eraseReps
  | [], _ => rfl
  | [a], _ => by cases ha : p a <;> simp [List.eraseReps, List.eraseRepsBy,
      List.eraseRepsBy.loop, ha]
  | a :: b :: rest, h => by
      obtain ⟨hab, hr⟩ := List.pairwise_cons.mp h
      have ih := filter_eraseReps hp hr
      rw [eraseReps_cons_cons]
      split
      · rename_i heq
        subst heq
        rw [ih]
        cases ha : p a with
        | false => simp [ha]
        | true => simp [ha, eraseReps_cons_cons]
      · rename_i hne
        rw [List.filter_cons, List.filter_cons (x := a), ih]
        split
        · rename_i ha
          -- what stands between two occurrences of `a` compares equal to `a` and is kept with it
          have fresh : ∀ c ys, (b :: rest).filter p = c :: ys → a ≠ c := by
            rintro c ys hys rfl
            have kept : a ∈ (b :: rest).filter p := hys ▸ List.mem_cons_self
            have hmem : a ∈ b :: rest := (List.mem_filter.mp kept).1
            have hba := (List.pairwise_cons.mp hr).1 a
              ((List.mem_cons.mp hmem).resolve_left hne)
            have hb : p b = true :=
              hp a b (OrientedCmp.isLE_antisymm (hab b (.head _)) hba) ▸ ha
            rw [List.filter_cons_of_pos hb] at hys
            exact hne (List.cons.inj hys).1.symm
          cases hys : (b :: rest).filter p with
          | nil => rfl
          | cons c ys => rw [eraseReps_cons_cons, if_neg (fresh c ys hys)]
        · rfl

end Filtering

namespace Contribution

variable {provider : Scope → List Contribution} {scopes : List Scope}
  {excludes : List DeclarationId}

/-! ### What is gathered -/

/-- The contributions found, those of some declarations left out. -/
def leavingOut (excludes : List DeclarationId) (provider : Scope → List Contribution)
    (scope : Scope) : List Contribution :=
  (provider scope).filter fun c => !excludes.contains c.declaration

/-- **Contributions may be left out before or after they are gathered.** -/
theorem gather_leavingOut (provider : Scope → List Contribution) (scopes : List Scope)
    (excludes : List DeclarationId) : gather (leavingOut excludes provider) scopes =
      (gather provider scopes).filter fun c => !excludes.contains c.declaration := by
  have alike : ∀ a b : Contribution, a.compare b = .eq →
      (!excludes.contains a.declaration) = !excludes.contains b.declaration := fun a b h => by
    rw [(of_compare_eq h).1]
  rw [gather, gather, filter_eraseReps alike (pairwise_sortBy Contribution.compare _),
    filter_sortBy, List.filter_flatMap]
  rfl

theorem admitted_leavingOut (found : List Contribution) (excludes : List DeclarationId) :
    admitted (found.filter fun c => !excludes.contains c.declaration) [] =
      admitted found excludes := by
  rw [admitted, admitted, List.filter_filter]
  exact List.filter_congr fun c _ => by simp

/-! ### What contributions amount to -/

/-- Whether an error is that of a wrong contribution of one of the declarations. -/
def concerns (excludes : List DeclarationId) : GraphError → Bool
  | .invalidContribution origin _ => excludes.contains origin.declaration
  | _ => false

theorem concerns_of_decide {slot : Slot} {cs : List Contribution} {e : GraphError}
    (h : decide slot cs = .error e) : concerns excludes e = false := by
  have kind := kind_of_decide h
  cases e <;> first | rfl | cases kind

/-- Wrong contributions may be filtered by what their errors tell of them, before or after they are
reported. -/
theorem filter_problems {q : GraphError → Bool} (p : Contribution → Bool)
    (h : ∀ c message, q (.invalidContribution c.origin message) = p c) (found : List Contribution) :
    (problems found).filter q = problems (found.filter p) := by
  rw [problems, problems, List.filterMap_filter, List.filter_filterMap]
  refine List.filterMap_congr fun c _ => ?_
  cases hp : p c <;> cases c.problem? <;> simp [h, hp]

/-- **What is excluded shows in the errors alone.**  Contributions of excluded declarations might as
well not be found: the rest amounts to the same, and of the errors only those of wrong excluded
contributions are added to the others.  If no excluded contribution is wrong, a collector ends as it
would without them. -/
theorem aggregate_leavingOut (provider : Scope → List Contribution) (scopes : List Scope)
    (excludes : List DeclarationId) :
    let whole := aggregate provider scopes excludes
    let rest := aggregate (leavingOut excludes provider) scopes []
    { whole.1 with excluded := [] } = rest.1 ∧
      whole.2.filter (!concerns excludes ·) = rest.2 ∧
      whole.2.filter (concerns excludes) =
        problems ((gather provider scopes).filter fun c => excludes.contains c.declaration) ∧
      ((∀ c ∈ scopes.flatMap provider, c.declaration ∈ excludes → c.problem? = none) →
        ∀ d : Diagnostics, d.reportAll whole.2 = d.reportAll rest.2) := by
  intro whole rest
  have found : gather (leavingOut excludes provider) scopes = _ :=
    gather_leavingOut provider scopes excludes
  have same : admitted (gather (leavingOut excludes provider) scopes) [] =
      admitted (gather provider scopes) excludes := by rw [found, admitted_leavingOut]
  -- the ties concern no declaration, so a filter by what is concerned falls on the problems alone
  obtain ⟨ties, hties, hwhole, hrest⟩ : ∃ ties : List GraphError,
      (∀ e ∈ ties, concerns excludes e = false) ∧
        whole.2 = problems (gather provider scopes) ++ ties ∧
        rest.2 = problems (gather (leavingOut excludes provider) scopes) ++ ties := by
    refine ⟨_, fun e he => ?_, rfl, by simp only [rest, aggregate, same]⟩
    obtain ⟨o, ho, he⟩ := List.mem_filterMap.mp he
    obtain ⟨entry, -, rfl⟩ := List.mem_map.mp ho
    split at he
    · cases he
    · rename_i herror
      exact concerns_of_decide (herror.trans (by cases he; rfl))
  have outside : ties.filter (!concerns excludes ·) = ties :=
    List.filter_eq_self.mpr fun e he => by simp [hties e he]
  have inside : ties.filter (concerns excludes) = [] :=
    List.filter_eq_nil_iff.mpr fun e he => by simp [hties e he]
  have others : whole.2.filter (!concerns excludes ·) = rest.2 := by
    rw [hwhole, hrest, List.filter_append, outside, found,
      filter_problems (!excludes.contains ·.declaration) fun _ _ => rfl]
  have own : whole.2.filter (concerns excludes) =
      problems ((gather provider scopes).filter fun c => excludes.contains c.declaration) := by
    rw [hwhole, List.filter_append, inside, List.append_nil,
      filter_problems (excludes.contains ·.declaration) fun _ _ => rfl]
  refine ⟨by simp [whole, rest, aggregate, same], others, own, fun right d => ?_⟩
  have unconcerned : ∀ e ∈ whole.2, (!concerns excludes e) = true := fun e he => by
    by_contra hc
    have he : e ∈ problems ((gather provider scopes).filter _) :=
      own ▸ List.mem_filter.mpr ⟨he, by simpa using hc⟩
    obtain ⟨c, hc, he⟩ := List.mem_filterMap.mp he
    obtain ⟨hfound, hexcluded⟩ := List.mem_filter.mp hc
    simp [right c (mem_gather.mp hfound) (List.contains_iff_mem.mp hexcluded)] at he
  rw [← others, List.filter_eq_self.mpr unconcerned]

/-- Of two contributions for one key the excluded one is no rival of the other. -/
theorem aggregate_leavingOut_rival :
    let zip := toSupertype ⟨"AppScope"⟩ ⟨"Zip", none⟩ ⟨"Packer", none⟩
    let tar := toSupertype ⟨"AppScope"⟩ ⟨"Tar", none⟩ ⟨"Packer", none⟩
    (∀ c ∈ [(⟨"AppScope"⟩ : Scope)].flatMap fun _ => [zip, tar],
      c.declaration ∈ [(⟨"Tar"⟩ : DeclarationId)] → c.problem? = none) ∧
    (aggregate (fun _ => [zip, tar]) [⟨"AppScope"⟩] [⟨"Tar"⟩]).1.bindings =
      [.aliased ⟨"Packer", none⟩ (.of "Zip") { key := ⟨"Zip", none⟩ }] ∧
    (Diagnostics.ofCap 20).reportAll (aggregate (fun _ => [zip, tar]) [⟨"AppScope"⟩] [⟨"Tar"⟩]).2 =
      (Diagnostics.ofCap 20).reportAll
        (aggregate (leavingOut [⟨"Tar"⟩] fun _ => [zip, tar]) [⟨"AppScope"⟩] []).2 := by
  intro zip tar
  have right : ∀ c ∈ [(⟨"AppScope"⟩ : Scope)].flatMap fun _ => [zip, tar],
      c.declaration ∈ [(⟨"Tar"⟩ : DeclarationId)] → c.problem? = none := by decide +kernel
  obtain ⟨-, -, -, reported⟩ := aggregate_leavingOut (fun _ => [zip, tar]) [⟨"AppScope"⟩] [⟨"Tar"⟩]
  exact ⟨right, by decide +kernel, reported right _⟩

/-- A wrong contribution is reported though it is excluded. -/
theorem aggregate_excluded_wrong :
    let lonely : Contribution :=
      { toSupertype ⟨"AppScope"⟩ ⟨"Lonely", none⟩ ⟨"Packer", none⟩ with supertypes := [] }
    let whole := aggregate (fun _ => [lonely]) [⟨"AppScope"⟩] [⟨"Lonely"⟩]
    let rest := aggregate (leavingOut [⟨"Lonely"⟩] fun _ => [lonely]) [⟨"AppScope"⟩] []
    whole.2 = [.invalidContribution (.of "Lonely") "Lonely 有 0 个超类型，需要显式指定绑定类型"] ∧
      rest.2 = [] ∧
      (Diagnostics.ofCap 20).reportAll whole.2 ≠ (Diagnostics.ofCap 20).reportAll rest.2 := by
  decide +kernel

end Contribution

end Wiring
