import Wiring.Proofs.Initialization
import Wiring.Proofs.Silence

/-!
# A build that keeps less

A build that checks everything yields a graph.  Built again with what no root reaches left out, and
below graphs that may offer less, it yields a part of that graph (`Remains`), provided that
(`Sustained`)

* looking a key up that may be kept brings what it brought before, or another accessor in the place
  of one (`Stands`), and
* no dependency without a default, of a key that may be kept, is on a key declared to have no value.

The second expansion stays within the keys that may be kept and demands none that nothing yields
(`Within`), so it meets no error (`silent`).  Its edges are edges of the first, so there is no cycle
either (`build_pruned`).
-/

namespace Wiring

open Relation

/-! ### Findings that stand -/

/-- A binding of a key is another one, or both are accessors to graphs above. -/
def Binding.Matches (k : TypeKey) (b b' : Binding) : Prop :=
  b' = b ∨ ∃ a a' : Ancestor, b = a.accessor k ∧ b' = a'.accessor k

namespace Binding.Matches

variable {k : TypeKey} {b b' : Binding}

theorem eq_of_mem_dependencies (h : Matches k b b') {d : Dependency} (hd : d ∈ b'.dependencies) :
    b' = b := by
  rcases h with h | ⟨_, _, -, rfl⟩
  · exact h
  · cases hd

theorem eq_of_scope? (h : Matches k b b') {s : Scope} (hs : b'.scope? = some s) : b' = b := by
  rcases h with h | ⟨_, _, -, rfl⟩
  · exact h
  · cases hs

theorem dependencies_eq (h : Matches k b b') : b'.dependencies = b.dependencies := by
  rcases h with rfl | ⟨_, _, rfl, rfl⟩ <;> rfl

theorem isAbsent_eq (h : Matches k b b') : b'.isAbsent = b.isAbsent := by
  rcases h with rfl | ⟨_, _, rfl, rfl⟩ <;> rfl

theorem sourcesOf?_eq (h : Matches k b b') :
    Ancestor.sourcesOf? b' = Ancestor.sourcesOf? b := by
  rcases h with rfl | ⟨_, _, rfl, rfl⟩ <;> rfl

end Binding.Matches

namespace Graph

/-- The entry points of a graph lead to a key. -/
def Needs (g : Graph) (k : TypeKey) : Prop := Reaches g.edges g.rootKeys k

/-- A graph is a part of another one, but for accessors to other graphs above, and binds all that
the entry points need. -/
structure Remains (g g' : Graph) : Prop where
  id : g'.id = g.id
  scopes : g'.scopes = g.scopes
  bindings : ∀ k b', g'.binding? k = some b' → ∃ b, g.binding? k = some b ∧ b.Matches k b'
  needed : ∀ k, g.Needs k → g'.contains k = true

/-- What the entry points of a graph need, a part of it binds alike. -/
theorem Remains.exists_matching {g g' : Graph} (h : g.Remains g') {k : TypeKey} {b : Binding}
    (hk : g.Needs k) (hb : g.binding? k = some b) :
    ∃ b', g'.binding? k = some b' ∧ b.Matches k b' := by
  obtain ⟨b', hb'⟩ := SortedMap.contains_iff.mp (h.needed k hk)
  obtain ⟨_, hb₁, hm⟩ := h.bindings k b' hb'
  obtain rfl := Option.some.inj (hb.symm.trans hb₁)
  exact ⟨b', hb', hm⟩

end Graph

namespace Lookup

/-- The same place below other graphs. -/
def below (l : Lookup) (ancestors : List Ancestor) : Lookup := { l with ancestors }

/-- What a key was bound to stands if it is looked up in another place. -/
structure Stands (l l' : Lookup) (k : TypeKey) (b : Binding) : Prop where
  errors : (l'.resolve k).errors = []
  answers : ∃ b', Expansion.Answers l' k b' ∧ b.Matches k b'
  missing : (l'.resolve k).resolution = .missing → (l.resolve k).resolution = .missing

end Lookup

namespace BuildRequest

variable {r r' : BuildRequest} {g g' : Graph} {ancestors : List Ancestor}
  {retained : SortedSet TypeKey} {kept : TypeKey → Prop} {k : TypeKey}

theorem entryPoints_of_build (h : r.build = .ok g) : g.entryPoints = r.entryPoints := by
  obtain rfl := eq_graph_of_build h
  rfl

theorem scopes_of_build (h : r.build = .ok g) : g.scopes = r.declaration.scopes := by
  obtain rfl := eq_graph_of_build h
  rfl

/-! ### Builds that retrace another -/

theorem analysisErrors_reporting (r : BuildRequest) (x : Expansion) (d : Diagnostics) :
    r.analysisErrors (x.reporting d) = r.analysisErrors x := rfl

/-- The expansion of a build is a part of that of another one, but for accessors to other graphs
above. -/
def Retraces (r r' : BuildRequest) : Prop :=
  ∀ k b', r'.expansion.bindings.get? k = some b' →
    ∃ b, r.expansion.bindings.get? k = some b ∧ b.Matches k b'

namespace Retraces

variable (h : r.Retraces r')

include h

theorem contains (hk : r'.expansion.bindings.contains k = true) :
    r.expansion.bindings.contains k = true := by
  obtain ⟨b', hb'⟩ := SortedMap.contains_iff.mp hk
  obtain ⟨b, hb, -⟩ := h k b' hb'
  exact SortedMap.contains_iff.mpr ⟨b, hb⟩

theorem mem_edges {e : Edge} (he : e ∈ r'.expansion.edges.toList) :
    e ∈ r.expansion.edges.toList := by
  obtain ⟨hx, -⟩ := r.expansion_spec
  obtain ⟨hx', -⟩ := r'.expansion_spec
  obtain ⟨k, b', hb', he⟩ := (hx'.mem_edges e).mp he
  obtain ⟨b, hb, hmatch⟩ := h k b' hb'
  obtain ⟨d, hd, -⟩ := List.mem_map.mp he
  exact (hx.mem_edges e).mpr ⟨k, b, hb, hmatch.eq_of_mem_dependencies hd ▸ he⟩

/-- If nothing leads around in an expansion, nothing does in one that retraces it. -/
theorem cycles (hc : r.cycles.errors = []) : r'.cycles.errors = [] := by
  by_contra met
  obtain ⟨k, hk⟩ := CycleAnalysis.errors_ne_nil_iff.mp met
  refine CycleAnalysis.errors_ne_nil_iff.mpr ⟨k, hk.mono fun a c hac => ?_⟩ hc
  obtain ⟨ha, hc, e, he, counts⟩ := CycleAnalysis.eager_arc.mp hac
  exact CycleAnalysis.eager_arc.mpr ⟨h.contains ha, h.contains hc, e, h.mem_edges he, counts⟩

/-- If the graph and those above hold the same scopes, the scopes of the second expansion are
allowed. -/
theorem scopeMismatches (hg : r.Built g)
    (allowed : ∀ s, (s ∈ r.declaration.scopes ∨ ∃ a ∈ r.ancestors, s ∈ a.scopes) →
      s ∈ r'.declaration.scopes ∨ ∃ a ∈ r'.ancestors, s ∈ a.scopes)
    (graph : DeclarationId) (order : List TypeKey) :
    Wiring.scopeMismatches graph (allowedScopes r'.declaration.scopes r'.ancestors)
      r'.expansion.bindings order = [] := by
  refine List.filterMap_eq_nil_iff.mpr fun b' hb' => ?_
  obtain ⟨k, -, hb'⟩ := List.mem_filterMap.mp hb'
  obtain ⟨b, hb, hmatch⟩ := h k b' hb'
  rw [scopeMismatch?]
  cases hs : b'.scope? with
  | none => rfl
  | some s =>
      have same := hmatch.eq_of_scope? hs
      refine if_pos (SortedSet.contains_iff.mpr (SortedSet.mem_ofList.mpr ?_))
      rcases allowed s (hg.allowed k b s hb (same ▸ hs)) with hs | hs
      · exact List.mem_append_left _ hs
      · exact List.mem_append_right _ (List.mem_flatMap.mpr hs)

/-- **A silent expansion that retraces that of a graph meets no error** in its cycles and scopes. -/
theorem errorsMet (hg : r.build = .ok g)
    (allowed : ∀ s, (s ∈ r.declaration.scopes ∨ ∃ a ∈ r.ancestors, s ∈ a.scopes) →
      s ∈ r'.declaration.scopes ∨ ∃ a ∈ r'.ancestors, s ∈ a.scopes)
    (silent : r'.heard r'.steps = []) (used : r'.disuse (r'.state r'.steps) = []) :
    r'.errorsMet = [] := by
  rw [BuildRequest.errorsMet, silent, used, List.append_nil, List.nil_append,
    ← analysisErrors_reporting _ _ (r'.collected []), ← expansion_of_silent silent]
  exact List.append_eq_nil_iff.mpr ⟨h.cycles (draft_of_build hg).1,
    h.scopeMismatches (built_of_build hg) allowed _ _⟩

end Retraces

/-! ### The conditions -/

/-- The request below other graphs, with other keys retained, and with what no root reaches left
out. -/
def pruned (r : BuildRequest) (ancestors : List Ancestor) (retained : SortedSet TypeKey) :
    BuildRequest :=
  { r with options := { r.options with shrinkUnusedBindings := true }, ancestors, retained }

/-- What a build needs for its graph to stand when it is built again below other graphs; `kept` are
the keys that may be looked up again. -/
structure Sustained (r : BuildRequest) (g : Graph) (ancestors : List Ancestor)
    (retained : SortedSet TypeKey) (kept : TypeKey → Prop) : Prop where
  built : r.build = .ok g
  /-- Everything is checked and kept. -/
  whole : r.options.shrinkUnusedBindings = false
  /-- Unused keys are no errors. -/
  lenient : r.options.unusedBindingSeverity ≠ .error
  /-- The graphs above hold the same scopes. -/
  scopes : ∀ s, (∃ a ∈ r.ancestors, s ∈ a.scopes) → ∃ a ∈ ancestors, s ∈ a.scopes
  bound : ∀ k, kept k → g.contains k = true
  entered : ∀ k ∈ g.rootKeys, kept k
  /-- Retained keys are kept and can be made. -/
  retained : ∀ k ∈ retained.toList, kept k ∧ r.index.synthesize? k ≠ none
  /-- If everything is validated, everything is kept. -/
  validated : r.options.fullGraphValidation = true → ∀ k, g.contains k = true → kept k
  closed : ∀ e ∈ g.edges, kept e.source → kept e.target
  /-- Nothing that is kept depends without a default on a key declared to have no value. -/
  required : ∀ e ∈ g.edges, kept e.source → e.hasDefault = false →
    ∀ b, r.registered.get? e.target = some b → b.isAbsent = false
  stands : ∀ k b, kept k → g.binding? k = some b →
    r.looked.Stands (r.looked.below ancestors) k b

theorem looked_pruned (r : BuildRequest) (ancestors : List Ancestor)
    (retained : SortedSet TypeKey) :
    (r.pruned ancestors retained).looked = r.looked.below ancestors := rfl

theorem validates_pruned (r : BuildRequest) (ancestors : List Ancestor)
    (retained : SortedSet TypeKey) :
    (r.pruned ancestors retained).options.validatesAllDeclarations =
      r.options.fullGraphValidation := by
  simp [pruned, Options.validatesAllDeclarations]

/-- The errors before the expansion are those of the request. -/
theorem heard_pruned_eq (r : BuildRequest) (ancestors : List Ancestor)
    (retained : SortedSet TypeKey) (n : Nat) : (r.pruned ancestors retained).heard n =
      r.aggregated.2 ++ (r.lookup r.aggregated.1).2 ++
        Expansion.errorsWithin (r.looked.below ancestors) (r.pruned ancestors retained).entered n :=
  rfl

namespace Sustained

variable (h : r.Sustained g ancestors retained kept)

include h

theorem validates : r.options.validatesAllDeclarations = true := by
  simp [Options.validatesAllDeclarations, h.whole]

theorem binding?_eq_some {b : Binding} :
    g.binding? k = some b ↔ r.expansion.bindings.get? k = some b := by
  have stays : r.Keeps k := fun hs => by
    rw [h.whole] at hs
    cases hs
  exact ((built_of_build h.built).bindings k b).trans (and_iff_left stays)

theorem contains_iff : g.contains k = true ↔ r.expansion.bindings.contains k = true := by
  simp only [Graph.contains, SortedMap.contains_iff]
  exact exists_congr fun b => h.binding?_eq_some

/-- What is demanded at first is bound in the end. -/
theorem contains_of_entered (hd : r.entered.Demanded k) : g.contains k = true := by
  have hd := (candid_of_build h.built).2 k hd
  exact h.contains_iff.mpr ((built_of_build h.built).bound_of_requested
    (SortedMap.contains_iff.mpr ⟨_, hd⟩))

theorem exists_binding (hk : kept k) : ∃ b, g.binding? k = some b :=
  SortedMap.contains_iff.mp (h.bound k hk)

/-- What a kept key depends on is kept. -/
theorem kept_dependency (hk : kept k) {b : Binding} (hb : g.binding? k = some b) {d : Dependency}
    (hd : d ∈ b.dependencies) : kept d.key :=
  h.closed _ ((built_of_build h.built).edge_mem hb hd) hk

/-- What nothing yields in the second build, nothing yielded in the first. -/
theorem missing (hk : kept k)
    (hm : ((r.looked.below ancestors).resolve k).resolution = .missing) :
    (r.looked.resolve k).resolution = .missing := by
  obtain ⟨b, hb⟩ := h.exists_binding hk
  exact (h.stands k b hk hb).missing hm

end Sustained

/-! ### The second expansion -/

namespace Sustained

theorem within_entered (h : r.Sustained g ancestors retained kept) :
    Expansion.Within (r.looked.below ancestors) kept (r.pruned ancestors retained).entered := by
  -- keys are checked only if everything is validated, and then they were in the first build
  have checked : ∀ k ∈ (r.pruned ancestors retained).checked (r.looked.below ancestors),
      kept k ∧ r.entered.Demanded k := by
    intro k hk
    rw [BuildRequest.checked] at hk
    split at hk
    · rename_i hv
      have first : r.entered.Demanded k := by
        refine demanded_entered_iff.mpr (.inr (List.mem_append_right _ ?_))
        rw [BuildRequest.checked, if_pos h.validates]
        exact hk
      rw [validates_pruned] at hv
      exact ⟨h.validated hv k (h.contains_of_entered first), first⟩
    · cases hk
  constructor
  case known =>
    intro k hk
    rcases List.mem_append.mp (mem_of_requested_entered hk) with hk | hk
    · refine h.entered k ?_
      rw [Graph.rootKeys, entryPoints_of_build h.built]
      exact hk
    · rcases List.mem_append.mp hk with hk | hk
      · exact (h.retained k hk).1
      · exact (checked k hk).1
  case waived =>
    intro k hm hd
    -- an entry point or a check would have demanded the key in the first build too
    have first : kept k → ¬ r.entered.Demanded k := fun hk hd =>
      not_missing_of_demanded h.built ((candid_of_build h.built).2 k hd) (h.missing hk hm)
    rcases demanded_entered_iff.mp hd with ⟨e, he, rfl, hn⟩ | hk
    · refine first (h.entered _ ?_) (demanded_entered_iff.mpr (.inl ⟨e, he, rfl, hn⟩))
      rw [Graph.rootKeys, entryPoints_of_build h.built]
      exact List.mem_map_of_mem (f := fun e : EntryPoint => e.dependency.key) (mem_sortBy.mpr he)
    · rcases List.mem_append.mp hk with hk | hk
      · have made := Lookup.synthesize?_of_missing
          (l := r.looked.below ancestors) r.filled_looked hm
        exact (h.retained k hk).2 (r.index_looked ▸ made)
      · exact first (checked k hk).1 (checked k hk).2

/-- **Looking up again what is kept tells no error.** -/
theorem untroubled (h : r.Sustained g ancestors retained kept) :
    Expansion.Untroubled (r.looked.below ancestors) kept := by
  -- what a kept key is bound to now has the dependencies of what it was bound to
  have before : ∀ k b', kept k → Expansion.Answers (r.looked.below ancestors) k b' →
      ∃ b, g.binding? k = some b ∧ b'.dependencies = b.dependencies := by
    intro k b' hk hb'
    obtain ⟨b, hb⟩ := h.exists_binding hk
    obtain ⟨-, ⟨b'', answer, hmatch⟩, -⟩ := h.stands k b hk hb
    exact ⟨b, hb, answer.unique hb' ▸ hmatch.dependencies_eq⟩
  constructor
  case errorless =>
    intro k hk
    obtain ⟨b, hb⟩ := h.exists_binding hk
    exact (h.stands k b hk hb).errors
  case closed =>
    intro k b' hk hb' d hd
    obtain ⟨b, hb, same⟩ := before k b' hk hb'
    exact h.kept_dependency hk hb (same ▸ hd)
  case required =>
    intro k b' hk hb' d hd hn
    obtain ⟨b, hb, same⟩ := before k b' hk hb'
    rw [same] at hd
    have found := not_missing_of_dependency h.built hb hd hn
    have valued := h.required _ ((built_of_build h.built).edge_mem hb hd) hk hn
    exact ⟨fun hm => found (h.missing (h.kept_dependency hk hb hd) hm), fun b' hb' => valued b' hb'⟩

/-- **The second expansion meets no error.** -/
theorem silent (h : r.Sustained g ancestors retained kept) (n : Nat) :
    Expansion.errorsWithin (r.looked.below ancestors) (r.pruned ancestors retained).entered n =
        [] ∧
      Expansion.Within (r.looked.below ancestors) kept ((r.pruned ancestors retained).state n) :=
  silent_of_untroubled (r := r.pruned ancestors retained) h.untroubled h.within_entered n

/-! ### The second graph -/

section Second

variable (h : r.Sustained g ancestors retained kept)

include h

/-- The steps of the second build tell no error. -/
theorem heard_pruned : (r.pruned ancestors retained).heard (r.pruned ancestors retained).steps =
    [] := by
  have first := silent_of_errorsMet (errorsMet_of_build h.built)
  have early : r.aggregated.2 ++ (r.lookup r.aggregated.1).2 = [] :=
    (List.append_eq_nil_iff.mp first).1
  rw [heard_pruned_eq, early, (h.silent _).1, List.append_nil]

/-- What the second expansion binds is kept. -/
theorem kept_of_expansion
    (hk : (r.pruned ancestors retained).expansion.bindings.contains k = true) : kept k :=
  kept_of_within h.heard_pruned (h.silent _).2 hk

/-- **A binding of the second expansion is one of the graph**, or an accessor in the place of
one. -/
theorem matches_expansion {b' : Binding}
    (hb : (r.pruned ancestors retained).expansion.bindings.get? k = some b') :
    ∃ b, g.binding? k = some b ∧ b.Matches k b' := by
  obtain ⟨hx, -⟩ := (r.pruned ancestors retained).expansion_spec
  have hk := h.kept_of_expansion (SortedMap.contains_iff.mpr ⟨b', hb⟩)
  obtain ⟨b, hkb⟩ := h.exists_binding hk
  obtain ⟨-, ⟨b'', answer, hmatch⟩, -⟩ := h.stands k b hk hkb
  exact ⟨b, hkb, answer.unique (hx.answers k b' hb) ▸ hmatch⟩

theorem retraces : r.Retraces (r.pruned ancestors retained) := fun k b' hb' => by
  obtain ⟨b, hb, hmatch⟩ := h.matches_expansion hb'
  exact ⟨b, h.binding?_eq_some.mp hb, hmatch⟩

/-- **The second build meets no error.** -/
theorem errorsMet_pruned : (r.pruned ancestors retained).errorsMet = [] := by
  have lenient : (r.pruned ancestors retained).options.unusedBindingSeverity ≠ .error := h.lenient
  exact h.retraces.errorsMet h.built (fun s hs => hs.imp_right (h.scopes s)) h.heard_pruned
    (disuse_eq_nil lenient _)

end Second

end Sustained

/-- What the entry points of a graph need, a part of it binds. -/
theorem Sustained.contains_of_needs (h : r.Sustained g ancestors retained kept)
    (h' : (r.pruned ancestors retained).build = .ok g')
    (bindings : ∀ k b', g'.binding? k = some b' → ∃ b, g.binding? k = some b ∧ b.Matches k b')
    (hk : g.Needs k) : g'.contains k = true := by
  have hg := built_of_build h.built
  have hg' := built_of_build h'
  induction hk with
  | root hk =>
      rw [Graph.rootKeys, entryPoints_of_build h.built] at hk
      exact hg'.contains_root (List.mem_append_left _ hk)
  | @edge e he _ ih =>
      obtain ⟨k, b, hb, he⟩ := hg.mem_edges_iff.mp he
      obtain ⟨d, hd, rfl⟩ := List.mem_map.mp he
      obtain rfl := hg.key_eq hb
      obtain ⟨b', hb'⟩ := SortedMap.contains_iff.mp ih
      obtain ⟨_, hb₁, hmatch⟩ := bindings _ b' hb'
      obtain rfl := Option.some.inj (hb.symm.trans hb₁)
      exact hg'.contains_dependency hb' (hmatch.dependencies_eq.symm ▸ hd)

/-- **A build that keeps less yields a part of the graph**, within what is kept. -/
theorem build_pruned (h : r.Sustained g ancestors retained kept) :
    ∃ g', (r.pruned ancestors retained).build = .ok g' ∧ g.Remains g' ∧
      ∀ k, g'.contains k = true → kept k := by
  have built := build_of_errorsMet_eq_nil h.errorsMet_pruned
  generalize (r.pruned ancestors retained).graphOf _ = g' at built
  have hg := built_of_build h.built
  have hg' := built_of_build built
  have bindings : ∀ k b', g'.binding? k = some b' → ∃ b, g.binding? k = some b ∧ b.Matches k b' :=
    fun k b' hb => h.matches_expansion ((hg'.bindings k b').mp hb).1
  have remains : g.Remains g' :=
    { id := hg'.id.trans hg.id.symm
      scopes := (scopes_of_build built).trans (scopes_of_build h.built).symm
      bindings
      needed := fun k hk => h.contains_of_needs built bindings hk }
  exact ⟨g', built, remains, fun k hk => h.kept_of_expansion (hg'.contains_iff.mp hk).1⟩

end BuildRequest

end Wiring
