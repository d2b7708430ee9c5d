import Wiring.Proofs.Aggregation
import Wiring.Proofs.Collecting

/-!
# What becomes of every contribution

Of the contributions found, those survive that are declared rightly, are not excluded and are
replaced by no other such one (`Survives`).  Every survivor is accounted for: a container adds what
it holds, a contributed element adds one element (`Adds`; a right one always has a key to add it to,
`boundKey?_of_problem?`), and of the survivors that bind one slot either one alone has the greatest
rank and is the one bound, or those that share the greatest rank are reported (`Decided`).

All of this is said of a list of survivors (`aggregate_accounts`).  The list names a survivor once if
no two different contributions found agree in all that their order looks at, or if none is found
twice; otherwise one that is found again counts again (`aggregate_found_again`).
-/

namespace Wiring

open Std

namespace Contribution

/-! ### Ranks -/

/-- One rank does not exceed another; no rank is below every rank. -/
def AtMost : Option Int32 → Option Int32 → Prop
  | none, _ => True
  | some _, none => False
  | some a, some b => a ≤ b

namespace AtMost

theorem refl : ∀ r : Option Int32, AtMost r r
  | none => trivial
  | some a => Int32.le_refl a

theorem trans : ∀ {r s t : Option Int32}, AtMost r s → AtMost s t → AtMost r t
  | none, _, _, _, _ => trivial
  | some _, some _, some _, h, h' => Int32.le_trans h h'

theorem maxRank_left : ∀ r s : Option Int32, AtMost r (maxRank r s)
  | none, _ => trivial
  | some a, none => Int32.le_refl a
  | some a, some b => by
      rw [maxRank]
      split
      · rename_i h
        exact Int32.le_of_lt h
      · exact Int32.le_refl a

theorem maxRank_right : ∀ r s : Option Int32, AtMost s (maxRank r s)
  | none, s => refl s
  | some _, none => trivial
  | some a, some b => by
      rw [maxRank]
      split
      · exact Int32.le_refl b
      · rename_i h
        exact Int32.not_lt.mp h

end AtMost

theorem maxRank_eq : ∀ r s : Option Int32, maxRank r s = r ∨ maxRank r s = s
  | none, _ => .inr rfl
  | some _, none => .inl rfl
  | some a, some b => by
      rw [maxRank]
      split
      · exact .inr rfl
      · exact .inl rfl

/-- The greatest rank of some contributions and a rank given is one of theirs and exceeded by
none. -/
theorem foldl_maxRank (cs : List Contribution) : ∀ r : Option Int32,
    let top := cs.foldl (fun r c => maxRank r c.rank) r
    AtMost r top ∧ (∀ c ∈ cs, AtMost c.rank top) ∧ (top = r ∨ ∃ c ∈ cs, c.rank = top) := by
  induction cs with
  | nil => exact fun r => ⟨.refl r, by simp, .inl rfl⟩
  | cons c rest ih =>
      intro r top
      obtain ⟨hr, hrest, htop⟩ := ih (maxRank r c.rank)
      refine ⟨(AtMost.maxRank_left r c.rank).trans hr,
        List.forall_mem_cons.mpr ⟨(AtMost.maxRank_right r c.rank).trans hr, hrest⟩, ?_⟩
      rcases htop with htop | ⟨c', hc', htop⟩
      · exact (maxRank_eq r c.rank).imp htop.trans fun h => ⟨c, .head _, (htop.trans h).symm⟩
      · exact .inr ⟨c', .tail _ hc', htop⟩

theorem atMost_topRank {cs : List Contribution} {c : Contribution} (h : c ∈ cs) :
    AtMost c.rank (topRank cs) :=
  (foldl_maxRank cs none).2.1 c h

theorem exists_rank_eq_topRank {cs : List Contribution} (h : cs ≠ []) :
    ∃ c ∈ cs, c.rank = topRank cs := by
  rcases (foldl_maxRank cs none).2.2 with htop | held
  · -- no rank exceeds no rank, so every contribution is without one
    obtain ⟨c, hc⟩ := List.exists_mem_of_ne_nil cs h
    refine ⟨c, hc, ?_⟩
    have le := atMost_topRank hc
    rw [topRank, htop] at *
    cases hr : c.rank with
    | none => rfl
    | some a => rw [hr] at le; exact le.elim
  · exact held

/-! ### Slots -/

/-- The contribution binds the slot. -/
def Contends (slot : Slot) (c : Contribution) : Prop := c.kind = .binding ∧ c.slot? = some slot

instance (slot : Slot) (c : Contribution) : Decidable (Contends slot c) :=
  inferInstanceAs (Decidable (_ ∧ _))

/-- The contributions of a list that bind a slot with a rank. -/
def holders (cs : List Contribution) (slot : Slot) (rank : Option Int32) : List Contribution :=
  cs.filter fun c => Contends slot c ∧ c.rank = rank

/-- The greatest rank with which contributions of a list bind a slot. -/
structure Greatest (cs : List Contribution) (slot : Slot) (rank : Option Int32) : Prop where
  held : ∃ c ∈ cs, Contends slot c ∧ c.rank = rank
  atMost : ∀ c ∈ cs, Contends slot c → AtMost c.rank rank

/-- What the contributions of a list that bind a slot come to. -/
inductive Decided (cs : List Contribution) (slot : Slot) : Except GraphError Binding → Prop
  /-- Only one has the greatest rank, and the slot's key stands for its type. -/
  | won {rank : Option Int32} {c : Contribution} (top : Greatest cs slot rank)
      (only : holders cs slot rank = [c]) :
      Decided cs slot (.ok (.aliased slot.key c.origin { key := c.contributedType }))
  /-- Several have the greatest rank, and the error names all of them. -/
  | tied {rank : Option Int32} (top : Greatest cs slot rank)
      (several : 2 ≤ (holders cs slot rank).length) :
      Decided cs slot (.error (.duplicateContribution slot.scope slot.key rank
        ((holders cs slot rank).map (·.origin))))

/-- The candidates for a slot are the contributions that bind it. -/
theorem get?_candidates (cs : List Contribution) (slot : Slot) : (candidates cs).get? slot =
    if cs.filter (Contends slot ·) = [] then none else some (cs.filter (Contends slot ·)) := by
  -- what one contribution adds to the candidates for the slot
  obtain ⟨add, folded, entered⟩ :
      ∃ add : SortedMap Slot (List Contribution) → Contribution → SortedMap Slot (List Contribution),
        candidates cs = cs.foldl add .empty ∧ ∀ m c, (add m c).get? slot =
          if Contends slot c then some ((m.get? slot).getD [] ++ [c]) else m.get? slot := by
    refine ⟨_, rfl, fun m c => ?_⟩
    split
    · rename_i other hkind hslot
      simp only [SortedMap.get?_alter, Contends, hkind, hslot, true_and, Option.some.injEq]
      by_cases hs : slot = other
      · simp [hs]
      · simp [hs, Ne.symm hs]
    · rename_i hother
      exact (if_neg fun h => hother slot h.1 h.2).symm
  have grown : ∀ (cs : List Contribution) (m : SortedMap Slot (List Contribution)),
      (cs.foldl add m).get? slot =
        if cs.filter (Contends slot ·) = [] then m.get? slot
        else some ((m.get? slot).getD [] ++ cs.filter (Contends slot ·)) := by
    intro cs
    induction cs with
    | nil => simp
    | cons c rest ih =>
        intro m
        rw [List.foldl_cons, ih, entered]
        by_cases hc : Contends slot c
        · by_cases hrest : rest.filter (Contends slot ·) = [] <;> simp [hc, hrest]
        · simp [hc]
  exact folded ▸ (grown cs .empty).trans (by simp)

/-- **Only a unique greatest rank wins.** -/
theorem decided (cs : List Contribution) {slot : Slot}
    (h : cs.filter (Contends slot ·) ≠ []) :
    Decided cs slot (decide slot (cs.filter (Contends slot ·))) := by
  have top : Greatest cs slot (topRank (cs.filter (Contends slot ·))) := by
    obtain ⟨c, hc, hrank⟩ := exists_rank_eq_topRank h
    obtain ⟨hc, hslot⟩ := List.mem_filter.mp hc
    exact ⟨⟨c, hc, of_decide_eq_true hslot, hrank⟩, fun c hc hslot =>
      atMost_topRank (List.mem_filter.mpr ⟨hc, decide_eq_true hslot⟩)⟩
  have held : topRanked (cs.filter (Contends slot ·)) =
      holders cs slot (topRank (cs.filter (Contends slot ·))) := by
    rw [topRanked, holders, List.filter_filter]
    refine List.filter_congr fun c _ => ?_
    rw [Bool.decide_and, Bool.and_comm]
  rw [decide, held]
  generalize topRank (cs.filter (Contends slot ·)) = rank at top
  obtain ⟨c, hc, hslot⟩ := top.held
  have hmem : c ∈ holders cs slot rank := List.mem_filter.mpr ⟨hc, decide_eq_true hslot⟩
  split
  · rename_i only
    exact .won top only
  · rename_i several
    refine .tied top (Nat.lt_of_not_le fun few => ?_)
    have one : (holders cs slot rank).length = 1 :=
      Nat.le_antisymm few (List.length_pos_of_mem hmem)
    obtain ⟨winner, hwinner⟩ := List.length_eq_one_iff.mp one
    exact several winner hwinner

/-! ### Elements -/

/-- The elements that a contribution adds. -/
inductive Adds (c : Contribution) : List Element → Prop
  | container (kind : c.kind = .container) : Adds c c.elements
  | binding (kind : c.kind = .binding) : Adds c []
  /-- One element of the set of the bound key, which stands for the contributed type. -/
  | intoSet {bound : TypeKey} (kind : c.kind = .intoSet) (key : c.boundKey? = some bound) :
      Adds c [⟨c.origin, .set bound, .intoSet, .binds c.contributedType⟩]
  /-- One entry of the map to the bound key, which stands for the contributed type. -/
  | intoMap {bound : TypeKey} {mapKey : MapKey} (kind : c.kind = .intoMap)
      (key : c.boundKey? = some bound) (entry : c.mapKey = some mapKey) :
      Adds c [⟨c.origin, .map mapKey.typeName bound, .intoMap mapKey, .binds c.contributedType⟩]

/-- What is contributed rightly has a key to be bound to. -/
theorem boundKey?_of_problem? {c : Contribution} (h : c.problem? = none)
    (hkind : c.kind ≠ .container) : ∃ bound, c.boundKey? = some bound := by
  rw [problem?, if_neg hkind] at h
  rw [boundKey?, effectiveBoundType?]
  cases hb : c.boundType with
  | some bound => exact ⟨_, rfl⟩
  | none =>
      simp only [hb] at h
      split at h
      · cases h
      · rename_i hlen
        obtain ⟨only, honly⟩ := List.length_eq_one_iff.mp (not_not.mp hlen)
        exact ⟨_, by rw [honly]; rfl⟩

/-- What is contributed rightly to a map has a key in it. -/
theorem mapKey_of_problem? {c : Contribution} (h : c.problem? = none) (hkind : c.kind = .intoMap) :
    ∃ mapKey, c.mapKey = some mapKey := by
  refine Option.ne_none_iff_exists'.mp fun hm => ?_
  rw [problem?, if_neg (by rw [hkind]; decide)] at h
  simp only [hkind, hm, and_self, if_true] at h
  split at h
  · split at h
    · cases h
    · split at h <;> cases h
  · split at h <;> cases h

theorem adds {c : Contribution} (h : c.problem? = none) : Adds c c.contributedElements := by
  rw [contributedElements]
  cases hkind : c.kind with
  | container => exact .container hkind
  | binding => exact .binding hkind
  | intoSet =>
      obtain ⟨bound, hb⟩ := boundKey?_of_problem? h (by rw [hkind]; decide)
      simpa [hb] using Adds.intoSet hkind hb
  | intoMap =>
      obtain ⟨bound, hb⟩ := boundKey?_of_problem? h (by rw [hkind]; decide)
      obtain ⟨mapKey, hm⟩ := mapKey_of_problem? h hkind
      simpa [hb, hm] using Adds.intoMap hkind hb hm

/-! ### All that is found -/

section

variable (provider : Scope → List Contribution) (scopes : List Scope)
  (excludes : List DeclarationId)

/-- The contribution is found, declared rightly and not excluded. -/
structure Admitted (c : Contribution) : Prop where
  found : ∃ scope ∈ scopes, c ∈ provider scope
  right : c.problem? = none
  kept : c.declaration ∉ excludes

/-- The contribution is admitted, and none that is admitted replaces it. -/
structure Survives (c : Contribution) : Prop extends Admitted provider scopes excludes c where
  unreplaced : ∀ c', Admitted provider scopes excludes c' → c.declaration ∉ c'.replaces

/-- What survives of the contributions to scopes, in order. -/
def surviving : List Contribution := survivors (admitted (gather provider scopes) excludes)

variable {provider scopes excludes}

theorem mem_admitted {c : Contribution} : c ∈ admitted (gather provider scopes) excludes ↔
    Admitted provider scopes excludes c := by
  simp only [admitted, List.mem_filter, mem_gather, List.mem_flatMap, Bool.and_eq_true,
    Option.isNone_iff_eq_none, Bool.not_eq_true', List.contains_eq_mem, decide_eq_false_iff_not]
  exact ⟨fun ⟨found, right, kept⟩ => ⟨found, right, kept⟩,
    fun h => ⟨h.found, h.right, h.kept⟩⟩

theorem mem_surviving {c : Contribution} :
    c ∈ surviving provider scopes excludes ↔ Survives provider scopes excludes c := by
  rw [surviving, survivors, List.mem_filter, mem_admitted, replacedBy]
  simp only [Bool.not_eq_true', List.contains_eq_mem, decide_eq_false_iff_not, List.mem_flatMap,
    mem_admitted, not_exists, not_and]
  exact ⟨fun ⟨h, unreplaced⟩ => ⟨h, unreplaced⟩, fun h => ⟨h.toAdmitted, h.unreplaced⟩⟩

theorem surviving_sublist :
    (surviving provider scopes excludes).Sublist (gather provider scopes) :=
  List.filter_sublist.trans List.filter_sublist

theorem gather_sublist : (gather provider scopes).Sublist
    (sortBy Contribution.compare ((SortedSet.ofList scopes).toList.flatMap provider)) :=
  eraseRepsBy_sublist _ _

/-- A contribution is gathered once if those that look alike are equal, or if it is found once. -/
theorem nodup_gather (h : DistinctIn provider scopes ∨
    ((SortedSet.ofList scopes).toList.flatMap provider).Nodup) :
    (gather provider scopes).Nodup := by
  rcases h with distinct | once
  · refine distinct.pairwise_gather.imp fun {a b} hab heq => ?_
    rw [heq, @ReflCmp.compare_self _ Contribution.compare] at hab
    cases hab
  · exact ((sortBy_perm _ _).nodup_iff.mpr once).sublist gather_sublist

end

/-- What the slots that some contributions bind come to, each slot once. -/
structure Settles (cs : List Contribution) (outcomes : List (Slot × Except GraphError Binding)) :
    Prop where
  increasing : (outcomes.map (·.1)).Pairwise fun a b => compare a b = .lt
  slots : ∀ slot, slot ∈ outcomes.map (·.1) ↔ ∃ c ∈ cs, Contends slot c
  /-- No contribution to a supertype is left out. -/
  all : ∀ c ∈ cs, c.kind = .binding → ∃ o ∈ outcomes, Contends o.1 c
  decided : ∀ o ∈ outcomes, Decided cs o.1 o.2

/-- Some contributions add up to what is made of them and to the ties among them. -/
structure Accounts (cs : List Contribution) (made : AggregatedContributions)
    (ties : List GraphError) : Prop where
  containers : made.containers = (cs.filter (·.kind = .container)).map declaration
  collections : made.collections = (cs.filter (·.kind = .container)).flatMap (·.collections)
  elements : ∃ added, List.Forall₂ Adds cs added ∧ made.elements = added.flatten
  slots : ∃ outcomes, Settles cs outcomes ∧
    made.bindings = (cs.filter (·.kind = .container)).flatMap (·.bindings) ++
      outcomes.filterMap (fun o => match o.2 with
        | .ok b => some b
        | .error _ => none) ∧
    ties = outcomes.filterMap fun o => match o.2 with
      | .ok _ => none
      | .error e => some e

/-- Right contributions settle the slots that they bind. -/
theorem settles {cs : List Contribution} (right : ∀ c ∈ cs, c.problem? = none) :
    Settles cs ((candidates cs).entries.map fun (slot, found) => (slot, decide slot found)) := by
  have entry : ∀ {slot found}, (slot, found) ∈ (candidates cs).entries ↔
      found = cs.filter (Contends slot ·) ∧ ∃ c ∈ cs, Contends slot c := by
    intro slot found
    rw [← SortedMap.get?_eq_some_iff, get?_candidates]
    split
    · rename_i h
      simpa using fun _ => List.filter_eq_nil_iff.mp h
    · rename_i h
      obtain ⟨c, hc⟩ := List.exists_mem_of_ne_nil _ h
      have held : ∃ c ∈ cs, Contends slot c :=
        ⟨c, (List.mem_filter.mp hc).1, of_decide_eq_true (List.mem_filter.mp hc).2⟩
      simp [held, eq_comm]
  have slots : ∀ slot, slot ∈ ((candidates cs).entries.map
      fun (slot, found) => (slot, decide slot found)).map (·.1) ↔ ∃ c ∈ cs, Contends slot c := by
    intro slot
    rw [List.map_map, List.mem_map]
    constructor
    · rintro ⟨⟨slot, found⟩, h, rfl⟩
      exact (entry.mp h).2
    · exact fun h => ⟨(slot, _), entry.mpr ⟨rfl, h⟩, rfl⟩
  refine ⟨?_, slots, fun c hc hkind => ?_, fun o ho => ?_⟩
  · rw [List.map_map]
    exact (List.pairwise_map.mpr (candidates cs).increasing)
  · obtain ⟨bound, hb⟩ := boundKey?_of_problem? (right c hc) (by rw [hkind]; decide)
    have contends : Contends ⟨c.scope, bound⟩ c := ⟨hkind, by rw [slot?, hb]; rfl⟩
    obtain ⟨o, ho, hslot⟩ := List.mem_map.mp ((slots _).mpr ⟨c, hc, contends⟩)
    exact ⟨o, ho, hslot ▸ contends⟩
  · obtain ⟨⟨slot, found⟩, h, rfl⟩ := List.mem_map.mp ho
    obtain ⟨rfl, c, hc, hslot⟩ := entry.mp h
    exact Contribution.decided cs
      (List.ne_nil_of_mem (List.mem_filter.mpr ⟨hc, decide_eq_true hslot⟩))

/-- **Every contribution is accounted for.**  What survives are the contributions that are found,
right, not excluded and not replaced, in order; they add up to what is made and to the ties, and
beside the ties only wrong contributions are reported. -/
theorem aggregate_accounts (provider : Scope → List Contribution) (scopes : List Scope)
    (excludes : List DeclarationId) :
    let survivors := surviving provider scopes excludes
    let errors := (aggregate provider scopes excludes).2
    (∀ c, c ∈ survivors ↔ Survives provider scopes excludes c) ∧
      survivors.Pairwise (fun a b => (a.compare b).isLE) ∧
      (DistinctIn provider scopes ∨ ((SortedSet.ofList scopes).toList.flatMap provider).Nodup →
        (gather provider scopes).Nodup ∧ survivors.Nodup) ∧
      ∃ ties, Accounts survivors (aggregate provider scopes excludes).1 ties ∧
        errors = problems (gather provider scopes) ++ ties ∧
        ∀ cap, errors.length ≤ cap →
          ((Diagnostics.ofCap cap).reportAll errors).stored = errors.eraseDups := by
  intro survivors errors
  have ordered : (gather provider scopes).Pairwise fun a b => (a.compare b).isLE :=
    (pairwise_sortBy Contribution.compare _).sublist gather_sublist
  have right : ∀ c ∈ survivors, c.problem? = none := fun c hc => (mem_surviving.mp hc).right
  have added : List.Forall₂ Adds survivors (survivors.map contributedElements) := by
    rw [List.forall₂_map_right_iff, List.forall₂_same]
    exact fun c hc => adds (right c hc)
  refine ⟨fun c => mem_surviving, ordered.sublist surviving_sublist,
    fun h => ⟨nodup_gather h, (nodup_gather h).sublist surviving_sublist⟩, _,
    ⟨rfl, rfl, ⟨_, added, List.flatMap_def⟩, _, settles right, ?_, rfl⟩, ?_, fun cap hcap => ?_⟩
  · simp only [aggregate, List.filterMap_map]
    rfl
  · simp only [errors, aggregate, List.filterMap_map]
    rfl
  · have heard := Diagnostics.heard_reportAll cap errors
    have fewer : errors.eraseDups.length ≤ errors.length :=
      Nat.le_trans heard.le_total heard.total_le
    rw [heard.stored, Diagnostics.cap_reportAll]
    exact List.take_of_length_le (Nat.le_trans fewer (Nat.le_trans hcap (Nat.le_max_left cap 1)))

/-- A container that is found again behind another one of its declaration survives twice: it adds its
bindings twice; and a contribution to a supertype ties with itself. -/
theorem aggregate_found_again :
    let storing (key : String) : Contribution :=
      ofBindings (.of "Storage") ⟨"AppScope"⟩
        [.aliased ⟨key, none⟩ (.of "Storage") { key := ⟨"Db", none⟩ }]
    let disk := storing "Disk"
    let cache := storing "Cache"
    let api := bound .binding ⟨"Api", none⟩
    let service := bound .binding ⟨"Service", none⟩
    (aggregate (fun _ => [disk, cache, disk]) [⟨"AppScope"⟩] []).1.bindings =
        disk.bindings ++ cache.bindings ++ disk.bindings ∧
      (∀ c, Survives (fun _ => [api, service, api]) [⟨"AppScope"⟩] [] c →
        Contends ⟨⟨"AppScope"⟩, ⟨"Api", none⟩⟩ c → c = api) ∧
      (aggregate (fun _ => [api, service, api]) [⟨"AppScope"⟩] []).2 =
        [.duplicateContribution ⟨"AppScope"⟩ ⟨"Api", none⟩ none [.of "Impl", .of "Impl"]] := by
  intro storing disk cache api service
  refine ⟨by decide +kernel, fun c hc hslot => ?_, by decide +kernel⟩
  obtain ⟨-, -, hc⟩ := hc.found
  have other : ¬ Contends ⟨⟨"AppScope"⟩, ⟨"Api", none⟩⟩ service := by decide +kernel
  simp only [List.mem_cons, List.not_mem_nil, or_false] at hc
  rcases hc with rfl | rfl | rfl
  · rfl
  · exact absurd hslot other
  · rfl

end Contribution

end Wiring
