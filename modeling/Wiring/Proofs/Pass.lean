import Wiring.Proofs.Closure
import Wiring.Proofs.Declarations
import Wiring.Proofs.Order

/-!
# What a pass does with a graph and its extensions

Merged requests ask for all that any of them asks for (`mem_toGraph_asked`).  A round builds a graph
once and everything below it, and either settles, with no request to the graph left open, or asks
for keys that the graph does not bind (`rounds_attempt`); what `settle` returns is the result of a
round that settled (`settled_of_settle`).

Graphs are asked for keys of scoped classes only (`scoped_of_requested`).  The proof is by induction
on the declaration: a graph's own requests come from look-up, the others from its extensions.
-/

namespace Wiring

/-! ### Requests -/

namespace Requests

variable {r s : Requests} {id : DeclarationId} {k : TypeKey}

theorem mem_toGraph_merge : k ∈ ((r.merge s).toGraph id).toList ↔
    k ∈ (r.toGraph id).toList ∨ k ∈ (s.toGraph id).toList := by
  have merged : ∀ (es : List (DeclarationId × SortedSet TypeKey)) (r : Requests),
      k ∈ (Requests.toGraph (es.foldl (fun r e =>
        r.alter e.1 fun keys => (keys.getD .empty).union e.2) r) id).toList ↔
      k ∈ (r.toGraph id).toList ∨ ∃ keys, (id, keys) ∈ es ∧ k ∈ keys.toList := by
    intro es
    induction es with
    | nil => simp
    | cons e rest ih =>
        intro r
        have first : k ∈ (Requests.toGraph
            (r.alter e.1 fun keys => (keys.getD .empty).union e.2) id).toList ↔
            k ∈ (r.toGraph id).toList ∨ id = e.1 ∧ k ∈ e.2.toList := by
          simp only [toGraph, SortedMap.get?_alter]
          by_cases h : id = e.1
          · subst h
            simp [or_comm]
          · simp [h]
        rw [List.foldl_cons, ih, first, or_assoc]
        refine or_congr_right ?_
        constructor
        · rintro (⟨rfl, hk⟩ | ⟨keys, hm, hk⟩)
          · exact ⟨e.2, List.mem_cons_self, hk⟩
          · exact ⟨keys, List.mem_cons_of_mem e hm, hk⟩
        · rintro ⟨keys, hm, hk⟩
          rcases List.mem_cons.mp hm with rfl | hm
          · exact .inl ⟨rfl, hk⟩
          · exact .inr ⟨keys, hm, hk⟩
  rw [merge, merged, mem_toGraph (r := s)]
  simp only [SortedMap.get?_eq_some_iff]

/-- A graph whose requests are met asks no more. -/
theorem mem_toGraph_erase {graph : DeclarationId} :
    k ∈ (Requests.toGraph (r.erase graph) id).toList ↔ id ≠ graph ∧ k ∈ (r.toGraph id).toList := by
  simp only [mem_toGraph, SortedMap.get?_erase]
  by_cases h : id = graph <;> simp [h]

/-- All that a graph and its extensions ask for. -/
def asked (g : Graph) (grown : List Subtree) : Requests :=
  grown.foldl (fun r s => r.merge s.requests) g.ancestorRequests

theorem mem_toGraph_asked {g : Graph} {grown : List Subtree} :
    k ∈ ((asked g grown).toGraph id).toList ↔
      k ∈ (Requests.toGraph g.ancestorRequests id).toList ∨
        ∃ s ∈ grown, k ∈ (s.requests.toGraph id).toList := by
  have merged : ∀ (grown : List Subtree) (r : Requests),
      k ∈ (Requests.toGraph (grown.foldl (fun r s => r.merge s.requests) r) id).toList ↔
        k ∈ (r.toGraph id).toList ∨ ∃ s ∈ grown, k ∈ (s.requests.toGraph id).toList := by
    intro grown
    induction grown with
    | nil => simp
    | cons s rest ih =>
        intro r
        rw [List.foldl_cons, ih, mem_toGraph_merge, or_assoc]
        simp
  exact merged grown g.ancestorRequests

end Requests

/-! ### Rounds -/

namespace Pass

variable {p : Pass} {d : GraphDeclaration} {ancestors : List Ancestor}
  {retained : SortedSet TypeKey}

theorem branches_eq (p : Pass) : ∀ ds : List GraphDeclaration,
    p.branches ds = ds.map fun d => ⟨d.id, p.resolveTree d⟩
  | [] => by rw [branches, List.map_nil]
  | d :: rest => by rw [branches, branches_eq p rest, List.map_cons]

/-- The graphs that extend a list of graphs, in the order of their names. -/
theorem grow_branches (p : Pass) (ds : List GraphDeclaration) (ancestors : List Ancestor) :
    grow (p.branches ds) ancestors =
      (sortBy (compareOn (·.id)) ds).map fun d => p.resolveTree d ancestors := by
  have keyed : ∀ d, (⟨d.id, p.resolveTree d⟩ : Branch).id = d.id := fun _ => rfl
  rw [grow, branches_eq, ← map_sortBy keyed, List.map_map]
  rfl

theorem mem_grow_branches {ds : List GraphDeclaration} {s : Subtree} :
    s ∈ grow (p.branches ds) ancestors ↔ ∃ d ∈ ds, s = p.resolveTree d ancestors := by
  simp only [grow_branches, List.mem_map, mem_sortBy, eq_comm]

/-! ### Rounds -/

/-- What a build of a pass starts from. -/
def request (p : Pass) (d : GraphDeclaration) (ancestors : List Ancestor)
    (retained : SortedSet TypeKey) : BuildRequest :=
  ⟨p.index, p.provider, p.options, d, ancestors, retained⟩

/-- The bindings registered in the catalog of a graph. -/
def registered (p : Pass) (d : GraphDeclaration) : SortedMap TypeKey Binding :=
  (p.request d [] .empty).registered

/-- Graphs above and keys retained have no part in what is registered. -/
theorem registered_request (p : Pass) (d : GraphDeclaration) (ancestors : List Ancestor)
    (retained : SortedSet TypeKey) : (p.request d ancestors retained).registered = p.registered d :=
  rfl

/-- A round of a declared graph. -/
def attempt (p : Pass) (d : GraphDeclaration) (ancestors : List Ancestor) :
    SortedSet TypeKey → Round :=
  p.round d (p.branches d.extensions) ancestors

/-- What becomes of the graphs that extend a graph. -/
def grown (p : Pass) (d : GraphDeclaration) (g : Graph) (ancestors : List Ancestor) :
    List Subtree :=
  grow (p.branches d.extensions) (.ofGraph g :: ancestors)

/-- What a round makes of a graph that was built and of what grew below it. -/
def close (id : DeclarationId) (g : Graph) (grown : List Subtree)
    (retained : SortedSet TypeKey) : Round :=
  let wanted := ((Requests.asked g grown).toGraph id).filter fun key =>
    !g.contains key && !retained.contains key
  if wanted.isEmpty then
    .settled
      { outcome := ({ graphs := [g] } : Outcome) ++ .concat (grown.map (·.outcome))
        requests := (Requests.asked g grown).erase id }
  else .unsettled wanted

theorem attempt_of_error {report : ErrorReport} (h : p.build d ancestors retained = .error report) :
    p.attempt d ancestors retained = .settled
      { outcome := { failures := [⟨d.id, report⟩], skipped := d.descendants.map (·.id) } } := by
  rw [attempt, round, h]

theorem attempt_of_ok {g : Graph} (h : p.build d ancestors retained = .ok g) :
    p.attempt d ancestors retained = close d.id g (p.grown d g ancestors) retained := by
  rw [attempt, round, h]
  rfl

theorem resolveTree_eq (p : Pass) (d : GraphDeclaration) (ancestors : List Ancestor) :
    p.resolveTree d ancestors = (settle (p.attempt d ancestors) p.rounds .empty).getD {} := by
  cases d
  rfl

/-- What a settled round makes of a graph and all that extend it. -/
inductive Settled (p : Pass) (d : GraphDeclaration) (ancestors : List Ancestor)
    (retained : SortedSet TypeKey) : Subtree → Prop where
  /-- The graph cannot be built. -/
  | failed {report : ErrorReport}
      (h : (p.request d ancestors retained).build = .error report) :
      Settled p d ancestors retained
        { outcome := { failures := [⟨d.id, report⟩], skipped := d.descendants.map (·.id) } }
  /-- The graph is built and holds all that it is asked to hold. -/
  | built {g : Graph} (h : (p.request d ancestors retained).build = .ok g)
      (hk : ∀ k ∈ ((Requests.asked g (p.grown d g ancestors)).toGraph d.id).toList,
        g.contains k = true) :
      Settled p d ancestors retained
        { outcome :=
            ({ graphs := [g] } : Outcome) ++ .concat ((p.grown d g ancestors).map (·.outcome))
          requests := (Requests.asked g (p.grown d g ancestors)).erase d.id }

/-- What a round makes of a graph. -/
inductive Rounds (p : Pass) (d : GraphDeclaration) (ancestors : List Ancestor)
    (retained : SortedSet TypeKey) : Round → Prop where
  /-- Nothing further is asked. -/
  | settled {s : Subtree} (h : p.Settled d ancestors retained s) :
      Rounds p d ancestors retained (.settled s)
  /-- Keys are asked for that the graph does not hold. -/
  | unsettled {g : Graph} {wanted : SortedSet TypeKey} (hw : wanted.toList ≠ [])
      (h : (p.request d ancestors retained).build = .ok g)
      (hk : ∀ k ∈ wanted.toList, k ∉ retained.toList ∧
        k ∈ ((Requests.asked g (p.grown d g ancestors)).toGraph d.id).toList) :
      Rounds p d ancestors retained (.unsettled wanted)

theorem rounds_attempt (p : Pass) (d : GraphDeclaration) (ancestors : List Ancestor)
    (retained : SortedSet TypeKey) :
    p.Rounds d ancestors retained (p.attempt d ancestors retained) := by
  cases h : p.build d ancestors retained with
  | error report =>
      rw [attempt_of_error h]
      exact .settled (.failed h)
  | ok g =>
      have open_iff : ∀ k, k ∈ (((Requests.asked g (p.grown d g ancestors)).toGraph d.id).filter
          fun key => !g.contains key && !retained.contains key).toList ↔
          k ∈ ((Requests.asked g (p.grown d g ancestors)).toGraph d.id).toList ∧
            g.contains k = false ∧ k ∉ retained.toList := fun k => by
        rw [SortedSet.mem_filter, Bool.and_eq_true, Bool.not_eq_true', Bool.not_eq_true',
          SortedSet.not_contains_iff]
      rw [attempt_of_ok h, close]
      split
      · rename_i hw
        refine .settled (.built h fun k hk => ?_)
        by_contra hn
        -- a key that is asked for and retained was a root of the build
        by_cases hr : k ∈ retained.toList
        · exact hn ((BuildRequest.built_of_build h).contains_root
            (BuildRequest.mem_roots.mpr (List.mem_append_right _ hr)))
        · exact SortedSet.isEmpty_iff.mp hw k
            ((open_iff k).mpr ⟨hk, Bool.eq_false_iff.mpr hn, hr⟩)
      · rename_i hw
        refine .unsettled (fun he => hw (List.isEmpty_iff.mpr he)) h fun k hk => ?_
        obtain ⟨hk, -, hr⟩ := (open_iff k).mp hk
        exact ⟨hr, hk⟩

/-- A settled tree is the result of one of its rounds. -/
theorem settled_of_settle {round : SortedSet TypeKey → Round} {rounds : Nat} {s : Subtree}
    (h : settle round rounds retained = some s) : ∃ retained, round retained = .settled s := by
  induction rounds generalizing retained with
  | zero => cases h
  | succ rounds ih =>
      rw [settle] at h
      cases hr : round retained with
      | settled t =>
          rw [hr] at h
          cases h
          exact ⟨retained, hr⟩
      | unsettled wanted =>
          rw [hr] at h
          exact ih h

/-! ### What graphs are asked for -/

/-- The keys of the classes that a scope keeps. -/
def Scoped (p : Pass) (k : TypeKey) : Prop :=
  ∃ c, p.index.classes.get? k = some c ∧ c.scope.isSome = true

/-- A graph asks for keys of scoped classes, and all that is asked is if its extensions do too. -/
theorem scoped_of_mem_asked {g : Graph} (h : (p.request d ancestors retained).build = .ok g)
    {id : DeclarationId} {k : TypeKey}
    (hk : k ∈ ((Requests.asked g (p.grown d g ancestors)).toGraph id).toList)
    (below : ∀ e ∈ d.extensions, ∀ above : List Ancestor,
      k ∈ ((p.resolveTree e above).requests.toGraph id).toList → p.Scoped k) : p.Scoped k := by
  rcases Requests.mem_toGraph_asked.mp hk with hk | ⟨s, hm, hk⟩
  · obtain ⟨-, -, -, -, -, b, s, hb, hs⟩ :=
      Lookup.scoped_of_asked ((BuildRequest.built_of_build h).mem_asked_iff.mp hk).2
    rw [BuildRequest.index_looked] at hb
    obtain ⟨c, hc, hs⟩ := (Index.makes_of_synthesize? hb).scope hs
    exact ⟨c, hc, Option.isSome_iff_exists.mpr ⟨s, hs⟩⟩
  · obtain ⟨e, he, rfl⟩ := mem_grow_branches.mp hm
    exact below e he _ hk

/-- **Graphs are asked for keys of scoped classes only.** -/
theorem scoped_of_requested {id : DeclarationId} {k : TypeKey} : ∀ (ancestors : List Ancestor),
    k ∈ ((p.resolveTree d ancestors).requests.toGraph id).toList → p.Scoped k := by
  induction d using GraphDeclaration.induction with
  | step d ih =>
      intro ancestors hk
      rw [resolveTree_eq] at hk
      cases hs : settle (p.attempt d ancestors) p.rounds .empty with
      | none =>
          rw [hs] at hk
          cases hk
      | some s =>
          rw [hs, Option.getD_some] at hk
          obtain ⟨retained, hr⟩ := settled_of_settle hs
          have := p.rounds_attempt d ancestors retained
          rw [hr] at this
          cases this with
          | settled h =>
              cases h with
              | failed => cases hk
              | built h => exact scoped_of_mem_asked h (Requests.mem_toGraph_erase.mp hk).2 ih

end Pass

end Wiring
