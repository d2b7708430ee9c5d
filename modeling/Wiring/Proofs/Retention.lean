import Wiring.Proofs.Pass

/-!
# Retaining keys comes to an end

The rounds of a graph have no counter of their own: a graph is built again as long as its extensions
ask for keys that it does not hold (`Settles`).  But each round that asks for more asks for keys of
scoped classes that were not retained before (`new_of_unsettled`), so the scoped classes that are
not retained grow fewer (`unretained_union_lt`), and a graph is built at most once more than there
are scoped classes (`settle_attempt`).
-/

namespace Wiring

/-- The rounds of a graph one after the other, from given retained keys to the one that settles, and
how many they are. -/
inductive Settles (round : SortedSet TypeKey → Round) :
    SortedSet TypeKey → Nat → Subtree → Prop where
  | done {retained : SortedSet TypeKey} {s : Subtree} (h : round retained = .settled s) :
      Settles round retained 1 s
  | again {retained wanted : SortedSet TypeKey} {n : Nat} {s : Subtree}
      (h : round retained = .unsettled wanted) (hs : Settles round (retained.union wanted) n s) :
      Settles round retained (n + 1) s

namespace Pass

variable {p : Pass} {d : GraphDeclaration} {ancestors : List Ancestor}
  {retained wanted : SortedSet TypeKey}

/-- A round that does not settle asks for new keys, all of scoped classes. -/
theorem new_of_unsettled (h : p.attempt d ancestors retained = .unsettled wanted) :
    wanted.toList ≠ [] ∧ ∀ k ∈ wanted.toList, k ∉ retained.toList ∧ p.Scoped k := by
  have hr := p.rounds_attempt d ancestors retained
  rw [h] at hr
  cases hr with
  | unsettled hw hb hk =>
      refine ⟨hw, fun k hm => ⟨(hk k hm).1, scoped_of_mem_asked hb (hk k hm).2 ?_⟩⟩
      exact fun e _ above => scoped_of_requested above

/-! ### Scoped classes that are not retained -/

/-- The keys of the scoped classes. -/
def scopedKeys (p : Pass) : List TypeKey :=
  (p.index.classes.entries.filter (·.2.scope.isSome)).map (·.1)

theorem mem_scopedKeys {k : TypeKey} : k ∈ p.scopedKeys ↔ p.Scoped k := by
  simp only [scopedKeys, Scoped, List.mem_map, List.mem_filter, SortedMap.get?_eq_some_iff,
    Prod.exists, exists_and_right, exists_eq_right]

theorem length_scopedKeys (p : Pass) : p.scopedKeys.length + 1 = p.rounds := by
  simp only [scopedKeys, rounds, SortedMap.values, List.length_map, List.filter_map,
    Function.comp_def]

/-- The number of scoped classes that are not retained. -/
def unretained (p : Pass) (retained : SortedSet TypeKey) : Nat :=
  (p.scopedKeys.filter (· ∉ retained.toList)).length

theorem unretained_union_lt (h : p.attempt d ancestors retained = .unsettled wanted) :
    p.unretained (retained.union wanted) < p.unretained retained := by
  obtain ⟨hw, hk⟩ := new_of_unsettled h
  obtain ⟨k, hm⟩ := List.exists_mem_of_ne_nil _ hw
  obtain ⟨hn, hs⟩ := hk k hm
  have fewer : p.scopedKeys.filter (· ∉ (retained.union wanted).toList) =
      (p.scopedKeys.filter (· ∉ retained.toList)).filter (· ∉ wanted.toList) := by
    rw [List.filter_filter]
    refine List.filter_congr fun j _ => ?_
    simp only [SortedSet.mem_union, not_or, Bool.decide_and]
  rw [unretained]
  rw [fewer]
  exact List.length_filter_lt_length_iff_exists.mpr
    ⟨k, List.mem_filter.mpr ⟨mem_scopedKeys.mpr hs, by simpa using hn⟩, by simpa using hm⟩

/-! ### The rounds of a graph -/

/-- The rounds of a graph settle before as many are used up as scoped classes are not retained. -/
theorem settles (p : Pass) (d : GraphDeclaration) (ancestors : List Ancestor) :
    ∀ (rounds : Nat) (retained : SortedSet TypeKey), p.unretained retained < rounds →
      ∃ s, settle (p.attempt d ancestors) rounds retained = some s ∧
        ∃ n ≤ p.unretained retained + 1, Settles (p.attempt d ancestors) retained n s := by
  intro rounds
  induction rounds with
  | zero => exact fun _ h => absurd h (Nat.not_lt_zero _)
  | succ rounds ih =>
      intro retained h
      cases hr : p.attempt d ancestors retained with
      | settled s =>
          exact ⟨s, by simp only [settle, hr], 1, Nat.le_add_left 1 _, .done hr⟩
      | unsettled wanted =>
          -- the round used up one of the rounds left, and at least one of the scoped classes
          have hlt := unretained_union_lt hr
          obtain ⟨s, hs, n, hn, hss⟩ := ih (retained.union wanted) (by omega)
          exact ⟨s, by simpa only [settle, hr] using hs, n + 1, by omega, .again hr hss⟩

theorem settle_attempt (p : Pass) (d : GraphDeclaration) (ancestors : List Ancestor) :
    settle (p.attempt d ancestors) p.rounds .empty = some (p.resolveTree d ancestors) ∧
      ∃ n ≤ p.rounds, Settles (p.attempt d ancestors) .empty n (p.resolveTree d ancestors) := by
  have hle : p.unretained .empty + 1 ≤ p.rounds :=
    p.length_scopedKeys ▸ Nat.succ_le_succ (List.length_filter_le ..)
  obtain ⟨s, hs, n, hn, hss⟩ := settles p d ancestors p.rounds .empty hle
  have he : p.resolveTree d ancestors = s := by rw [resolveTree_eq, hs, Option.getD_some]
  exact ⟨he ▸ hs, n, Nat.le_trans hn hle, he ▸ hss⟩

/-- What becomes of a graph and all that extend it is the result of a round that settled. -/
theorem settled_resolveTree (p : Pass) (d : GraphDeclaration) (ancestors : List Ancestor) :
    ∃ retained, p.Settled d ancestors retained (p.resolveTree d ancestors) := by
  obtain ⟨retained, hr⟩ := settled_of_settle (p.settle_attempt d ancestors).1
  have := p.rounds_attempt d ancestors retained
  rw [hr] at this
  cases this with
  | settled h => exact ⟨retained, h⟩

end Pass

namespace Facts

/-- What all builds over declared facts share. -/
def pass (f : Facts) (options : Options) : Pass := ⟨f.index, f.contributionsTo, options⟩

/-- The scoped classes of the declaration index. -/
def scopedClasses (f : Facts) : List InjectableClass :=
  f.index.classes.values.filter (·.scope.isSome)

/-- **Retaining keys comes to an end.**  Whatever is declared, and above whatever a graph stands: a
round of it that does not settle asks for keys that are not retained, at least one, and each the key
of a scoped class; and the rounds settle, with at most one round more than there are scoped
classes. -/
theorem resolveTree_settles (f : Facts) (options : Options) (d : GraphDeclaration)
    (ancestors : List Ancestor) :
    (∀ retained wanted, (f.pass options).attempt d ancestors retained = .unsettled wanted →
      wanted.toList ≠ [] ∧ ∀ k ∈ wanted.toList, k ∉ retained.toList ∧
        ∃ c ∈ f.classes, f.index.classes.get? k = some c ∧ c.key = k ∧ c.scope.isSome = true) ∧
    ∃ n ≤ f.scopedClasses.length + 1, Settles ((f.pass options).attempt d ancestors) .empty n
      ((f.pass options).resolveTree d ancestors) := by
  refine ⟨fun retained wanted h => ?_, ((f.pass options).settle_attempt d ancestors).2⟩
  obtain ⟨hw, hk⟩ := Pass.new_of_unsettled h
  refine ⟨hw, fun k hm => ⟨(hk k hm).1, ?_⟩⟩
  obtain ⟨c, hc, hs⟩ := (hk k hm).2
  obtain ⟨he, hf⟩ := SortedMap.get?_index hc
  exact ⟨c, hf, hc, he, hs⟩

end Facts

end Wiring
