import Wiring.Proofs.Closure
import Wiring.Proofs.Cycles
import Wiring.Proofs.Scheduling

/-!
# The order of scoped keys

A scoped key needs the scoped keys to which edges lead from it through keys without a scope
(`NeedsScoped`).  `scopedInitializationOrder` lists every scoped key once, and unless keys need each
other in a circle it is the least list that puts needs first (`Initialized`).  A built graph has no
such circle, as handles break every way around, so whatever leads from one scoped key to another is
in its order (`scopedOrder_spec`).
-/

namespace Wiring

open Std Relation

/-! ### What a scoped key needs -/

/-- Bindings stand at their own keys. -/
def OwnKeys (bindings : SortedMap TypeKey Binding) : Prop :=
  ∀ k b, bindings.get? k = some b → b.key = k

/-- A scope keeps the value of a key. -/
def Scoped (bindings : SortedMap TypeKey Binding) (k : TypeKey) : Prop :=
  ∃ b, bindings.get? k = some b ∧ b.isScoped = true

/-- A key is bound, and no scope keeps its value. -/
def Unscoped (bindings : SortedMap TypeKey Binding) (k : TypeKey) : Prop :=
  ∃ b, bindings.get? k = some b ∧ b.isScoped = false

/-- An edge other than the handles to be ignored leads from `k` to `l`. -/
def LeadsTo (edges : List Edge) (ignored : SortedSet DeferredEdge) (k l : TypeKey) : Prop :=
  ∃ e ∈ edges, ¬ (e.access ≠ .canonical ∧ e.ends ∈ ignored.toList) ∧ e.source = k ∧ e.target = l

/-- An edge leads on to a key without a scope. -/
def LeadsThrough (bindings : SortedMap TypeKey Binding) (edges : List Edge)
    (ignored : SortedSet DeferredEdge) (k l : TypeKey) : Prop :=
  LeadsTo edges ignored k l ∧ Unscoped bindings l

/-- A way from one scoped key to another one leads through keys without a scope only. -/
def NeedsScoped (bindings : SortedMap TypeKey Binding) (edges : List Edge)
    (ignored : SortedSet DeferredEdge) (a b : TypeKey) : Prop :=
  Scoped bindings a ∧ Scoped bindings b ∧ b ≠ a ∧
    ∃ c, ReflTransGen (LeadsThrough bindings edges ignored) a c ∧ LeadsTo edges ignored c b

variable {bindings : SortedMap TypeKey Binding} {edges : List Edge}
  {ignored : SortedSet DeferredEdge}

/-- Bindings at their own keys have different keys. -/
theorem OwnKeys.nodup_keys (hk : OwnKeys bindings) : (bindings.values.map (·.key)).Nodup := by
  have hkeys : bindings.values.map (·.key) = bindings.keys := by
    rw [SortedMap.values, SortedMap.keys, List.map_map]
    exact List.map_congr_left fun e he => hk e.1 e.2 (SortedMap.get?_eq_some_iff.mpr he)
  rw [hkeys]
  exact List.pairwise_map.mpr (bindings.increasing.imp ne_of_compare_lt)

theorem Scoped.not_unscoped {k : TypeKey} (h : Scoped bindings k) : ¬ Unscoped bindings k := by
  rintro ⟨b, hb, hscope⟩
  obtain ⟨b', hb', hscope'⟩ := h
  rw [hb] at hb'
  obtain rfl := Option.some.inj hb'
  rw [hscope] at hscope'
  cases hscope'

namespace InitGraph

theorem mem_arcs {k l : TypeKey} :
    (k, l) ∈ (ofEdges bindings edges ignored).arcs ↔ LeadsTo edges ignored k l := by
  simp only [ofEdges, List.mem_map, List.mem_filter, LeadsTo, Bool.not_eq_true',
    ← Bool.not_eq_true, Bool.and_eq_true, Edge.isDeferred_iff, SortedSet.contains_iff,
    Prod.mk.injEq, and_assoc]

theorem mem_targets {k l : TypeKey} :
    l ∈ (ofEdges bindings edges ignored).targets k ↔ LeadsTo edges ignored k l := by
  simp [targets, mem_arcs]

theorem isScoped_iff {k : TypeKey} :
    (ofEdges bindings edges ignored).isScoped k = true ↔ Scoped bindings k := by
  simp only [isScoped, ofEdges, Scoped]
  cases bindings.get? k <;> simp

theorem unscoped_iff {k : TypeKey} : Unscoped bindings k ↔
    (ofEdges bindings edges ignored).isScoped k = false ∧ bindings.contains k = true := by
  simp only [isScoped, ofEdges, Unscoped, SortedMap.contains]
  cases bindings.get? k <;> simp

/-- A search from `start` goes on from keys without a scope. -/
theorem mem_onward {start k l : TypeKey} : l ∈ (ofEdges bindings edges ignored).onward start k ↔
    k ≠ start ∧ Unscoped bindings k ∧ LeadsTo edges ignored k l := by
  have unscoped : Unscoped bindings k ↔ (ofEdges bindings edges ignored).isScoped k = false ∧
      bindings.contains k = true := unscoped_iff
  rw [onward, unscoped, show (ofEdges bindings edges ignored).bindings = bindings from rfl]
  by_cases hk : k = start <;> cases (ofEdges bindings edges ignored).isScoped k <;>
    cases bindings.contains k <;> simp [hk, mem_targets]

/-- A search from a scoped key meets what ways through keys without a scope lead to. -/
theorem reach_onward_iff {a b : TypeKey} (ha : Scoped bindings a) :
    Reach ((ofEdges bindings edges ignored).onward a)
        ((ofEdges bindings edges ignored).targets a) b ↔
      ∃ c, ReflTransGen (LeadsThrough bindings edges ignored) a c ∧ LeadsTo edges ignored c b := by
  constructor
  · intro h
    induction h with
    | root h => exact ⟨a, .refl, mem_targets.mp h⟩
    | step _ hw ih =>
        obtain ⟨-, hv, hvw⟩ := mem_onward.mp hw
        obtain ⟨c, hac, hcv⟩ := ih
        exact ⟨_, hac.tail ⟨hcv, hv⟩, hvw⟩
  · rintro ⟨c, hac, hcb⟩
    induction hac generalizing b with
    | refl => exact .root (mem_targets.mpr hcb)
    | tail _ hc ih =>
        obtain ⟨hc, hunscoped⟩ := hc
        refine .step (ih hc) (mem_onward.mpr ⟨?_, hunscoped, hcb⟩)
        rintro rfl
        exact ha.not_unscoped hunscoped

theorem mem_needs {a b : TypeKey} (ha : Scoped bindings a) :
    b ∈ ((ofEdges bindings edges ignored).needs a).toList ↔
      NeedsScoped bindings edges ignored a b := by
  -- only keys that lead on have targets, and no more than edges start at them
  have targets : ∀ k, ((ofEdges bindings edges ignored).onward a k).length ≤
      ((ofEdges bindings edges ignored).arcs.filter (·.1 = k)).length := fun k => by
    rw [onward]
    split
    · exact Nat.zero_le _
    · exact Nat.le_of_eq (List.length_map _)
  rw [needs, SortedSet.mem_ofList, List.mem_filter,
    mem_explore_along targets (Nat.le_refl _), reach_onward_iff ha]
  simp only [Bool.and_eq_true, decide_eq_true_eq, isScoped_iff, NeedsScoped, ha, true_and]
  tauto

/-! ### The problem of a graph -/

theorem mem_scopedKeys (hk : OwnKeys bindings) {k : TypeKey} :
    k ∈ (ofEdges bindings edges ignored).scopedKeys ↔ Scoped bindings k := by
  simp only [scopedKeys, List.mem_map, List.mem_filter, SortedMap.mem_values, Scoped]
  constructor
  · rintro ⟨b, ⟨⟨j, hb⟩, hscope⟩, rfl⟩
    exact ⟨b, hk j b hb ▸ hb, hscope⟩
  · rintro ⟨b, hb, hscope⟩
    exact ⟨b, ⟨⟨k, hb⟩, hscope⟩, hk k b hb⟩

theorem nodup_scopedKeys (hk : OwnKeys bindings) :
    (ofEdges bindings edges ignored).scopedKeys.Nodup :=
  hk.nodup_keys.sublist (List.filter_sublist.map _)

end InitGraph

open InitGraph

theorem keys_ofGraph (g : InitGraph) :
    (InitProblem.ofGraph g).jobs.map (·.site.key) = g.scopedKeys := by
  simp [InitProblem.ofGraph, Function.comp_def, site]

theorem needs_ofGraph (hk : OwnKeys bindings) :
    (InitProblem.ofGraph (ofEdges bindings edges ignored)).Needs =
      NeedsScoped bindings edges ignored := by
  funext a b
  simp only [InitProblem.Needs, InitProblem.ofGraph, List.mem_map]
  apply propext
  constructor
  · rintro ⟨_, ⟨a, ha, rfl⟩, rfl, hb⟩
    exact (mem_needs ((mem_scopedKeys hk).mp ha)).mp hb
  · intro h
    exact ⟨_, ⟨a, (mem_scopedKeys hk).mpr h.1, rfl⟩, rfl, (mem_needs h.1).mpr h⟩

theorem wellPosed_ofGraph (edges : List Edge) (ignored : SortedSet DeferredEdge)
    (hk : OwnKeys bindings) :
    (InitProblem.ofGraph (ofEdges bindings edges ignored)).WellPosed
      (ofEdges bindings edges ignored).site where
  distinct := keys_ofGraph _ ▸ nodup_scopedKeys hk
  sited := by
    intro job hj
    obtain ⟨k, -, rfl⟩ := List.mem_map.mp hj
    rfl
  needs_mem := by
    intro job hj b hb
    obtain ⟨a, ha, rfl⟩ := List.mem_map.mp hj
    rw [keys_ofGraph, mem_scopedKeys hk]
    exact ((mem_needs ((mem_scopedKeys hk).mp ha)).mp hb).2.1

/-! ### The order -/

/-- What holds of the order in which scoped keys are initialised. -/
structure Initialized (bindings : SortedMap TypeKey Binding) (edges : List Edge)
    (ignored : SortedSet DeferredEdge) : Prop where
  /-- Each scoped key is listed once, and no other key is. -/
  nodup : (scopedInitializationOrder bindings edges ignored).Nodup
  mem_iff : ∀ k, k ∈ scopedInitializationOrder bindings edges ignored ↔ Scoped bindings k
  /-- Whenever a key is taken, the keys that wait for it are counted down from more than zero. -/
  solvent : ∀ n next rest,
    ((InitProblem.ofGraph (ofEdges bindings edges ignored)).after n).ready.toList = next :: rest →
    ∀ front waiting back, (InitProblem.ofGraph (ofEdges bindings edges ignored)).dependents
        next.key = front ++ waiting :: back →
      (front.foldl InitProblem.settle
          (((InitProblem.ofGraph (ofEdges bindings edges ignored)).after n).begin
            next)).pending.get? waiting.key ≠ some 0
  /-- Without circles the order is a linear extension, and the least one by declaration and key. -/
  least : (∀ k, ¬ TransGen (NeedsScoped bindings edges ignored) k k) →
    LinearExtension (Scoped bindings) (NeedsScoped bindings edges ignored)
        (scopedInitializationOrder bindings edges ignored) ∧
      ∀ l, LinearExtension (Scoped bindings) (NeedsScoped bindings edges ignored) l →
        l = scopedInitializationOrder bindings edges ignored ∨
          List.Lex (fun a b => compare ((ofEdges bindings edges ignored).site a)
            ((ofEdges bindings edges ignored).site b) = .lt)
            (scopedInitializationOrder bindings edges ignored) l

theorem initialized (hk : OwnKeys bindings) : Initialized bindings edges ignored := by
  have hp := wellPosed_ofGraph edges ignored hk
  have hkind : (· ∈ (InitProblem.ofGraph (ofEdges bindings edges ignored)).jobs.map
      (·.site.key)) = Scoped bindings := by
    funext k
    rw [keys_ofGraph]
    exact propext (mem_scopedKeys hk)
  refine ⟨InitProblem.nodup_order hp, fun k => ?_, fun n next rest h front waiting back =>
    (InitProblem.consistent_after hp n).solvent hp h, fun ha => ?_⟩
  · exact (InitProblem.mem_order hp).trans (iff_of_eq (congrFun hkind k))
  · rw [← needs_ofGraph hk] at ha ⊢
    rw [← hkind]
    exact ⟨InitProblem.linearExtension_order hp ha, fun l => InitProblem.order_least hp ha⟩

/-! ### Built graphs -/

/-- A way between scoped keys is made of needs. -/
theorem needs_of_leads {a b c : TypeKey} (ha : Scoped bindings a) (hb : Scoped bindings b)
    (hac : ReflTransGen (LeadsThrough bindings edges ignored) a c)
    (hcb : ReflTransGen (fun k l => LeadsTo edges ignored k l ∧ bindings.contains l) c b) :
    a = b ∨ TransGen (NeedsScoped bindings edges ignored) a b := by
  induction hcb using ReflTransGen.head_induction_on generalizing a with
  | refl =>
      cases hac with
      | refl => exact .inl rfl
      | tail _ h => exact absurd h.2 hb.not_unscoped
  | @head c d hcd _ ih =>
      obtain ⟨hcd, hd⟩ := hcd
      obtain ⟨bound, hbound⟩ := SortedMap.contains_iff.mp hd
      cases hscope : bound.isScoped with
      | false => exact ih ha (hac.tail ⟨hcd, bound, hbound, hscope⟩)
      | true =>
          have hd : Scoped bindings d := ⟨bound, hbound, hscope⟩
          by_cases heq : d = a
          · exact heq ▸ ih hd .refl
          · have hneeds : NeedsScoped bindings edges ignored a d := ⟨ha, hd, heq, c, hac, hcd⟩
            rcases ih hd .refl with rfl | h
            · exact .inr (.single hneeds)
            · exact .inr (.head hneeds h)

/-- A need is a way between bound keys. -/
theorem depends_of_needs {a b : TypeKey} (h : NeedsScoped bindings edges ignored a b) :
    TransGen (CycleAnalysis.DependsBy bindings edges fun e =>
      ¬ (e.access ≠ .canonical ∧ e.ends ∈ ignored.toList)) a b := by
  obtain ⟨⟨ba, hba, -⟩, ⟨bb, hbb, -⟩, -, c, hac, hcb⟩ := h
  have ha : bindings.contains a = true := SortedMap.contains_iff.mpr ⟨ba, hba⟩
  have hway : ∀ c, ReflTransGen (LeadsThrough bindings edges ignored) a c →
      bindings.contains c = true ∧ ReflTransGen (CycleAnalysis.DependsBy bindings edges
        fun e => ¬ (e.access ≠ .canonical ∧ e.ends ∈ ignored.toList)) a c := by
    intro c hac
    induction hac with
    | refl => exact ⟨ha, .refl⟩
    | tail _ h ih =>
        obtain ⟨hleads, bc, hbc, -⟩ := h
        have hc := SortedMap.contains_iff.mpr ⟨bc, hbc⟩
        exact ⟨hc, ih.2.tail ⟨ih.1, hc, hleads⟩⟩
  exact .tail' (hway c hac).2 ⟨(hway c hac).1, SortedMap.contains_iff.mpr ⟨bb, hbb⟩, hcb⟩

/-- What leads to another key without circles stands behind it. -/
theorem sublist_scopedInitializationOrder (hk : OwnKeys bindings)
    (hacyclic : ∀ k, ¬ TransGen (NeedsScoped bindings edges ignored) k k) {a b : TypeKey}
    (h : TransGen (NeedsScoped bindings edges ignored) a b) :
    [b, a].Sublist (scopedInitializationOrder bindings edges ignored) := by
  obtain ⟨hext, -⟩ := (initialized hk).least hacyclic
  induction h with
  | single h => exact hext.needs_first _ _ h
  | tail _ h ih => exact sublist_pair_trans hext.nodup (hext.needs_first _ _ h) ih

namespace BuildRequest

variable {r : BuildRequest} {g : Graph}

/-- The cycles that a build finds. -/
def cycles (r : BuildRequest) : CycleAnalysis :=
  .analyze r.expansion.bindings r.expansion.edges.toList r.expansion.order

theorem draft_of_build (h : r.build = .ok g) : r.cycles.errors = [] ∧
    r.draft.permittedCycles = r.cycles.permitted ∧
    r.draft.scopedOrder = scopedInitializationOrder r.expansion.bindings r.expansion.edges.toList
      r.cycles.deferredEdges := by
  rw [build_eq, Diagnostics.result_eq_ok, late, Diagnostics.isEmpty_reportAll,
    Bool.and_eq_true] at h
  obtain ⟨⟨h, -⟩, -⟩ := h
  have hcap := r.expansion_spec.1.capped
  rw [draft, cycles]
  -- only the expansion matters from here on, not how it came about
  generalize r.expansion = x at h hcap ⊢
  rw [analyse] at h ⊢
  by_cases hlimit : x.diagnostics.limitReached = true
  · rw [if_pos hlimit, Diagnostics.isEmpty_eq_false_of_limitReached hcap hlimit] at h
    cases h
  · simp only [if_neg hlimit, Diagnostics.isEmpty_reportAll, Bool.and_eq_true] at h ⊢
    have hnone := h.1.2
    exact ⟨List.isEmpty_iff.mp hnone, rfl, if_pos hnone⟩

/-- The target of an edge of a build's expansion is kept if its source is. -/
theorem keeps_of_depends {keep : Edge → Prop} {k l : TypeKey} (hk : r.Keeps k)
    (h : ReflTransGen (CycleAnalysis.DependsBy r.expansion.bindings r.expansion.edges.toList keep)
      k l) : r.Keeps l := by
  induction h with
  | refl => exact hk
  | tail _ h ih =>
      obtain ⟨-, -, e, he, -, rfl, rfl⟩ := h
      exact Keeps.target he ih

/-- A handle that breaks a cycle of the expansion breaks one of the graph, if its source stays. -/
theorem mem_deferredEdges_of_build (h : r.build = .ok g) {d : DeferredEdge}
    (hd : d ∈ r.cycles.deferredEdges.toList) (hk : r.Keeps d.source) :
    d ∈ g.deferredEdges.toList := by
  obtain ⟨c, hc, hdc⟩ := CycleAnalysis.mem_deferredEdges.mp hd
  have hc' := CycleAnalysis.mem_permitted_iff.mp hc
  obtain ⟨hs, -, -⟩ := (hc'.mem_deferredEdges d).mp hdc
  have hmembers : ∀ l ∈ c.members, r.Keeps l := fun l hl =>
    keeps_of_depends hk ((hc'.mem_members d.source hs l).mp hl).2.1
  obtain ⟨-, hpermitted, -⟩ := draft_of_build h
  obtain rfl := eq_graph_of_build h
  have hstays : c ∈ r.kept.permittedCycles := Draft.mem_permittedCycles_shrink.mpr
    ⟨hpermitted ▸ hc, fun hshrinks l hl => keeps_iff.mp (hmembers l hl) hshrinks⟩
  exact SortedSet.mem_ofList.mpr (List.mem_flatMap.mpr ⟨c, hstays, hdc⟩)

theorem ownKeys_expansion (r : BuildRequest) : OwnKeys r.expansion.bindings := fun k b hb =>
  (r.expansion_spec.1.answers k b hb).key_eq r.keyed_looked

/-- What leads on in the graph leads on in the expansion. -/
theorem leadsTo_expansion (h : r.build = .ok g) {k l : TypeKey}
    (hkl : LeadsTo g.edges g.deferredEdges k l) :
    LeadsTo r.expansion.edges.toList r.cycles.deferredEdges k l ∧
      r.expansion.bindings.contains l = true := by
  have hg := built_of_build h
  obtain ⟨e, he, hcounts, rfl, rfl⟩ := hkl
  obtain ⟨hx, hk⟩ := (hg.mem_edges e).mp he
  refine ⟨⟨e, hx, fun ⟨haccess, hignored⟩ => hcounts
    ⟨haccess, mem_deferredEdges_of_build h hignored hk⟩, rfl, rfl⟩, ?_⟩
  exact (hg.contains_iff.mp (hg.contains_target he)).1

/-- The scoped keys of a build do not need each other in a circle: that would be a way around without
the handles that break cycles. -/
theorem acyclic_needs_of_build (h : r.build = .ok g) (k : TypeKey) :
    ¬ TransGen (NeedsScoped r.expansion.bindings r.expansion.edges.toList
      r.cycles.deferredEdges) k k := fun hk =>
  CycleAnalysis.acyclic_of_errors_eq_nil (draft_of_build h).1 k
    (TransGen.closed (fun _ _ => depends_of_needs) _ _ hk)

/-- **Of two scoped keys of a built graph, the one that leads to the other stands behind it.** -/
theorem sublist_scopedOrder (h : r.build = .ok g) {a b : TypeKey} (hab : a ≠ b)
    (ha : Scoped g.bindings a) (hb : Scoped g.bindings b)
    (hway : ReflTransGen (LeadsTo g.edges g.deferredEdges) a b) : [b, a].Sublist g.scopedOrder := by
  have hg := built_of_build h
  have inExpansion : ∀ k, Scoped g.bindings k → Scoped r.expansion.bindings k ∧ r.Keeps k :=
    fun k ⟨bound, hbound, hscope⟩ =>
      have ⟨hbound, hk⟩ := (hg.bindings k bound).mp hbound
      ⟨⟨bound, hbound, hscope⟩, hk⟩
  obtain ⟨-, -, horder⟩ := draft_of_build h
  have hneeds := (needs_of_leads (inExpansion a ha).1 (inExpansion b hb).1 .refl
    (ReflTransGen.mono (fun _ _ => leadsTo_expansion h) _ _ hway)).resolve_left hab
  have hsub := horder ▸
    sublist_scopedInitializationOrder r.ownKeys_expansion (acyclic_needs_of_build h) hneeds
  obtain rfl := eq_graph_of_build h
  refine Draft.sublist_scopedOrder_shrink hsub fun hshrinks k hk => ?_
  simp only [List.mem_cons, List.not_mem_nil, or_false] at hk
  rcases hk with rfl | rfl
  · exact keeps_iff.mp (inExpansion _ hb).2 hshrinks
  · exact keeps_iff.mp (inExpansion _ ha).2 hshrinks

/-- A graph with two scoped keys that lead to each other, back through a handle only. -/
def circular : BuildRequest where
  index := .ofDeclarations [] []
  provider _ := []
  options := {}
  declaration :=
    { origin := .of "AppGraph"
      key := ⟨"AppGraph", none⟩
      scopes := [⟨"App"⟩]
      entryPoints := [.accessor "api" { key := ⟨"Api", none⟩ }]
      bindings :=
        [.provided ⟨"Api", none⟩ (.of "api") (some ⟨"App"⟩) [{ key := ⟨"Client", none⟩ }],
          .provided ⟨"Client", none⟩ (.of "client") none [{ key := ⟨"Db", none⟩ }],
          .provided ⟨"Db", none⟩ (.of "db") (some ⟨"App"⟩)
            [{ key := ⟨"Api", none⟩, access := .provider }]] }
  ancestors := []
  retained := .empty

end BuildRequest

/-- **Scoped keys are initialised in order**, of any bindings and edges and in any built graph. -/
theorem scopedOrder_spec :
    (∀ (bindings : SortedMap TypeKey Binding) (edges : List Edge)
        (ignored : SortedSet DeferredEdge), OwnKeys bindings →
      Initialized bindings edges ignored) ∧
    ∀ (r : BuildRequest) (g : Graph), r.build = .ok g → ∀ a b, a ≠ b → Scoped g.bindings a →
      Scoped g.bindings b → ReflTransGen (LeadsTo g.edges g.deferredEdges) a b →
        [b, a].Sublist g.scopedOrder :=
  ⟨fun _ _ _ => initialized, fun _ _ h _ _ => BuildRequest.sublist_scopedOrder h⟩

/-- The key that leads to the other one by values stands behind it; the handle does not count. -/
theorem scopedOrder_spec_circular : ∃ g, BuildRequest.circular.build = .ok g ∧
    g.deferredEdges.toList = [⟨⟨"Db", none⟩, ⟨"Api", none⟩⟩] ∧
    Initialized g.bindings g.edges g.deferredEdges ∧
    [(⟨"Db", none⟩ : TypeKey), ⟨"Api", none⟩].Sublist g.scopedOrder := by
  have built : BuildRequest.circular.build.toOption.map (fun g => (g.edges,
        g.deferredEdges.toList, (g.bindings.get? ⟨"Api", none⟩).map (·.isScoped),
        (g.bindings.get? ⟨"Db", none⟩).map (·.isScoped))) =
      some ([{ source := ⟨"Api", none⟩, target := ⟨"Client", none⟩ },
        { source := ⟨"Client", none⟩, target := ⟨"Db", none⟩ },
        { source := ⟨"Db", none⟩, target := ⟨"Api", none⟩, access := .provider }],
        [⟨⟨"Db", none⟩, ⟨"Api", none⟩⟩], some true, some true) := by
    decide +kernel
  cases h : BuildRequest.circular.build with
  | error => simp [h, Except.toOption] at built
  | ok g =>
      simp only [h, Except.toOption, Option.map_some, Option.some.injEq, Prod.mk.injEq,
        Option.map_eq_some_iff] at built
      obtain ⟨hedges, hdeferred, hapi, hdb⟩ := built
      have keyed : OwnKeys g.bindings := fun k b hb => (BuildRequest.built_of_build h).key_eq hb
      have first : LeadsTo g.edges g.deferredEdges ⟨"Api", none⟩ ⟨"Client", none⟩ :=
        ⟨{ source := ⟨"Api", none⟩, target := ⟨"Client", none⟩ }, by simp [hedges], by simp, rfl,
          rfl⟩
      have second : LeadsTo g.edges g.deferredEdges ⟨"Client", none⟩ ⟨"Db", none⟩ :=
        ⟨{ source := ⟨"Client", none⟩, target := ⟨"Db", none⟩ }, by simp [hedges], by simp, rfl,
          rfl⟩
      exact ⟨g, rfl, hdeferred, scopedOrder_spec.1 _ _ _ keyed,
        scopedOrder_spec.2 _ g h _ _ (by decide) hapi hdb (.tail (.single first) second)⟩

end Wiring
