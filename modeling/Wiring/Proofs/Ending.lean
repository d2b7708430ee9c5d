import Wiring.Proofs.AliasChain
import Wiring.Proofs.Chains
import Wiring.Proofs.Registration
import Wiring.Proofs.Silence

/-!
# Expansions end

An expansion takes keys off its queue while it puts others on, and makes bindings on demand.  `Takes`
says how it goes, with no bound on its steps.  No key is taken twice, since a key is put on the queue
only when it is requested for the first time (`Accounted.process`).  All keys requested are among
those that the build mentions (`mem_mentioned`): whatever a look-up finds depends on keys of that
list alone, although the injector of a class is found by reading its name out of the name of a key.
So the expansion ends, in whatever way its keys depend on each other (`ending`).
-/

namespace Wiring

namespace Expansion

variable {l : Lookup} {x y z : Expansion} {keys keys' : List TypeKey}

/-! ### Taking keys -/

/-- `keys` are taken off the queue one after another, and looked up, on the way from `x` to `y`. -/
inductive Takes (l : Lookup) (x : Expansion) : List TypeKey → Expansion → Prop where
  | none : Takes l x [] x
  | next {keys rest : List TypeKey} {key : TypeKey} {y : Expansion} (t : Takes l x keys y)
      (hq : y.queue = key :: rest) (hl : y.diagnostics.limitReached = false) :
      Takes l x (keys ++ [key]) (process l { y with queue := rest } key)

/-- There is one way to go. -/
theorem Takes.eq_repeat (t : Takes l x keys y) : y = keys.length.repeat (step l) x := by
  induction t with
  | none => rfl
  | next _ hq hl ih =>
      rw [List.length_append, List.length_singleton, Nat.repeat, ← ih, step_of_queue hq hl]

/-- Of two ways from one state the longer goes on from the shorter. -/
theorem Takes.prefix_of_le (t : Takes l x keys y) (t' : Takes l x keys' z)
    (h : keys.length ≤ keys'.length) : keys <+: keys' := by
  induction t' generalizing keys y with
  | none =>
      obtain rfl := List.eq_nil_of_length_eq_zero (Nat.le_zero.mp h)
      exact List.prefix_refl _
  | @next keys' rest' key' z t' hq' hl' ih =>
      by_cases hlt : keys.length ≤ keys'.length
      · exact (ih t hlt).trans (List.prefix_append ..)
      · rw [List.length_append, List.length_singleton] at h
        have same : keys.length = keys'.length + 1 := by omega
        cases t with
        | none => simp at same
        | @next keys rest key y t hq hl =>
            rw [List.length_append, List.length_singleton, Nat.add_right_cancel_iff] at same
            obtain rfl : y = z := by rw [t.eq_repeat, t'.eq_repeat, same]
            obtain rfl : key = key' := (List.cons.inj (hq.symm.trans hq')).1
            obtain rfl := (ih t (Nat.le_of_eq same)).eq_of_length same
            exact List.prefix_refl _

/-- Where an expansion has ended nothing is taken. -/
theorem Takes.length_le_of_isDone (t : Takes l x keys y) (hd : y.isDone = true)
    (t' : Takes l x keys' z) : keys'.length ≤ keys.length := by
  induction t' with
  | none => exact Nat.zero_le _
  | @next keys' rest key z t' hq hl ih =>
      rw [List.length_append, List.length_singleton]
      refine Nat.lt_of_le_of_ne ih fun same => ?_
      obtain rfl : y = z := by rw [t.eq_repeat, t'.eq_repeat, same]
      rw [isDone, hq, hl] at hd
      cases hd

/-- Any number of steps takes some keys. -/
theorem takes_repeat (l : Lookup) (x : Expansion) : ∀ n : Nat,
    ∃ keys, Takes l x keys (n.repeat (step l) x)
  | 0 => ⟨[], .none⟩
  | n + 1 => by
      obtain ⟨keys, t⟩ := takes_repeat l x n
      rw [Nat.repeat]
      generalize n.repeat (step l) x = y at t
      cases hd : y.isDone with
      | true =>
          rw [step_of_isDone hd]
          exact ⟨keys, t⟩
      | false =>
          obtain ⟨key, rest, hq, hl⟩ := exists_next_of_isDone hd
          rw [step_of_queue hq hl]
          exact ⟨keys ++ [key], t.next hq hl⟩

/-! ### No key twice -/

theorem Takes.accounted (t : Takes l x keys y) (hx : Accounted [] x) : Accounted keys y := by
  induction t with
  | none => exact hx
  | next _ hq _ ih => exact ih.process hq

/-- All that is ever requested is kept, if what is kept depends on such keys only. -/
theorem Takes.known {kept : TypeKey → Prop} (t : Takes l x keys y) (hx : Accounted [] x)
    (closed : ∀ k b, kept k → Answers l k b → ∀ d ∈ b.dependencies, kept d.key)
    (known : ∀ k, x.requested.contains k = true → kept k) :
    ∀ k, y.requested.contains k = true → kept k := by
  induction t with
  | none => exact known
  | @next keys rest key y t hq _ ih =>
      have waits : y.requested.contains key = true :=
        (t.accounted hx).requested key (List.mem_append_right _ (hq ▸ List.mem_cons_self))
      exact known_process closed ih (ih key waits) rest

end Expansion

/-! ### The keys of a build -/

/-- What the classes of an index depend on: the parameters of constructors, and members. -/
def Index.dependencies (i : Index) : List Dependency :=
  i.classes.values.flatMap fun c =>
    c.constructors.flatMap (fun k => k.parameters.map (·.dependency)) ++ c.members

theorem Index.Makes.key_mem {i : Index} {key : TypeKey} {b : Binding} (h : i.Makes key b)
    {d : Dependency} (hd : d ∈ b.dependencies) : d.key ∈ i.dependencies.map (·.key) := by
  simp only [dependencies, List.mem_map, List.mem_flatMap, List.mem_append]
  obtain ⟨c, hc, ⟨k, hk, p, hp, he⟩ | hm⟩ := h.dependency hd
  · exact ⟨p.dependency, ⟨c, hc, .inl ⟨k, hk, p, hp, rfl⟩⟩, he.symm⟩
  · exact ⟨d, ⟨c, hc, .inr hm⟩, rfl⟩

namespace BuildRequest

variable {r : BuildRequest} {key : TypeKey}

/-- The keys that a build mentions: its roots, what is registered and what that depends on, its
collections, the elements that its ancestors hold, and what classes depend on. -/
def mentioned (r : BuildRequest) : List TypeKey :=
  r.roots ++ r.registered.keys ++
    (r.registered.values.flatMap (·.dependencies)).map (·.key) ++
    r.looked.collections.keys ++
    (r.ancestors.flatMap fun a => a.collections.values.flatten).map (·.elementKey) ++
    r.index.dependencies.map (·.key)

/-- The slot of an element that the build itself contributes is registered. -/
theorem contains_slot {e : Element} (h : e ∈ r.looked.collections.contributors key) :
    r.registered.contains e.elementKey = true := by
  have seed : e.toBinding ∈ r.seeds r.aggregated.1 :=
    List.mem_append_right _
      (List.mem_map_of_mem (CollectionTable.mem_elements_of_contributors h))
  have slot : e.toBinding.key = e.elementKey := by
    rw [Element.toBinding]
    split <;> rfl
  exact SortedMap.contains_iff.mpr (slot ▸ Catalog.exists_kept seed)

/-- **What a look-up finds depends on mentioned keys alone.** -/
theorem mem_mentioned {b : Binding} (hb : Expansion.Answers r.looked key b) {d : Dependency}
    (hd : d ∈ b.dependencies) : d.key ∈ r.mentioned := by
  simp only [mentioned, List.mem_append, SortedMap.mem_keys]
  rcases hb with hb | ⟨-, rfl⟩
  · rcases Lookup.found_cases hb with registered | ⟨a, -, rfl, -⟩ | collected | made
    · have value : b ∈ r.registered.values := SortedMap.mem_values.mpr ⟨key, registered⟩
      have listed : d ∈ r.registered.values.flatMap (·.dependencies) :=
        List.mem_flatMap.mpr ⟨b, value, hd⟩
      have mention := List.mem_map_of_mem (f := Dependency.key) listed
      simp only [mention, true_or, or_true]
    · cases hd
    · rcases CollectionTable.slot_of_aggregateWith collected hd with ⟨e, he, hk⟩ | ⟨s, hs, hk⟩
      · rw [hk]
        simp only [contains_slot he, true_or, or_true]
      · obtain ⟨a, ha, hs⟩ := Lookup.mem_sources_of_inherited hs
        have held : s ∈ r.ancestors.flatMap fun a => a.collections.values.flatten :=
          List.mem_flatMap.mpr ⟨a, ha, hs⟩
        have mention := List.mem_map_of_mem (f := Source.elementKey) held
        rw [hk]
        simp only [mention, true_or, or_true]
    · rw [index_looked] at made
      have mention := (Index.makes_of_synthesize? made).key_mem hd
      simp only [mention, or_true]
  · cases hd

/-- What is requested before the first step is mentioned. -/
theorem mem_mentioned_start {k : TypeKey}
    (h : (r.start r.looked r.early).requested.contains k = true) : k ∈ r.mentioned := by
  obtain ⟨fresh, -, -, sub, -, requested⟩ := (r.grows_start r.looked r.early).queue
  have hk : k ∈ fresh := ((requested k).mp h).resolve_left (by simp [SortedMap.contains])
  simp only [mentioned, roots, List.mem_append]
  rcases List.mem_append.mp (sub hk) with entry | other
  · simp only [entry, true_or]
  · rcases List.mem_append.mp other with retained | checked
    · simp only [retained, true_or, or_true]
    · rw [BuildRequest.checked] at checked
      split at checked
      · rcases List.mem_append.mp checked with registered | collection
        · have registered : k ∈ r.registered.keys := registered
          simp only [registered, true_or, or_true]
        · simp only [collection, true_or, or_true]
      · cases checked

/-- How the expansion of a build goes. -/
structure Ending (r : BuildRequest) : Prop where
  /-- It takes some keys and has ended then; on its way it takes the first of these. -/
  ends : ∃ all, Expansion.Takes r.looked (r.start r.looked r.early) all r.expansion ∧
    r.expansion.isDone = true ∧
    ∀ keys x, Expansion.Takes r.looked (r.start r.looked r.early) keys x → keys <+: all
  /-- No key is taken twice, and none that was taken waits. -/
  once : ∀ keys x, Expansion.Takes r.looked (r.start r.looked r.early) keys x →
    (keys ++ x.queue).Nodup
  /-- The keys that are taken or wait are mentioned. -/
  mentioned : ∀ keys x, Expansion.Takes r.looked (r.start r.looked r.early) keys x →
    ∀ k ∈ keys ++ x.queue, k ∈ r.mentioned
  /-- So there are at most as many as are mentioned. -/
  bounded : ∀ keys x, Expansion.Takes r.looked (r.start r.looked r.early) keys x →
    (keys ++ x.queue).length ≤ r.mentioned.length
  /-- The aliases of a key lead to one that is no alias, or around. -/
  walks : ∀ key, AliasWalk.Ends r.looked.catalog.aliasTarget? key
    (r.looked.catalog.walk (fun _ => none) key)
  /-- The requests that led to a key are followed up to a root, or around. -/
  climbs : ∀ (parents : SortedMap TypeKey TypeKey) (key last next : TypeKey),
    let up := Expansion.ancestry parents (parents.size + 1) [] (some key)
    up.getLast? = some last → parents.get? last = some next → next ∈ up

/-- **The expansion of every build ends.**  It takes each key once at most, and mentioned keys
only. -/
theorem ending (r : BuildRequest) : r.Ending := by
  have start := r.coherent_start.accounted
  have mentions : ∀ keys x, Expansion.Takes r.looked (r.start r.looked r.early) keys x →
      ∀ k ∈ keys ++ x.queue, k ∈ r.mentioned := by
    intro keys x t k hk
    refine t.known start (fun k b _ hb d hd => mem_mentioned hb hd)
      (fun k hk => mem_mentioned_start hk) k ?_
    exact (t.accounted start).requested k hk
  refine
    { ends := ?_
      once := fun keys x t => (t.accounted start).nodup
      mentioned := mentions
      bounded := fun keys x t =>
        (List.subperm_of_subset (t.accounted start).nodup (mentions keys x t)).length_le
      walks := r.looked.catalog.plainWalk_spec
      climbs := fun _ _ _ _ => Expansion.ancestry_complete }
  obtain ⟨all, t⟩ := Expansion.takes_repeat r.looked (r.start r.looked r.early)
    ((r.start r.looked r.early).queue.length + r.looked.vocabulary.length)
  have done : r.expansion.isDone = true := r.expansion_spec.2.2.1
  refine ⟨all, t, done, fun keys x t' => ?_⟩
  exact t'.prefix_of_le t (t.length_le_of_isDone done t')

end BuildRequest

end Wiring
