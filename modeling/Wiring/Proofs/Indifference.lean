import Wiring.Metadata
import Wiring.Proofs.Pass
import Wiring.Proofs.Relisting

/-!
# A pass is indifferent to the order of its facts

Facts may list classes, factories, contributions, graphs and what graphs are made of in any order
(`Facts.Relisted`).  If nothing but its place in a list told two of them apart, the order would show
in what a pass makes of them; otherwise (`Facts.Distinct`) every round of every graph comes out
alike, and so does the pass (`resolve_relisted`): only names that are listed as declared, those of
extensions and of skipped graphs, may stand in another order.
-/

namespace Wiring

open Std

/-! ### Facts in another order -/

/-- A graph declared with its entry points, collections, elements and extensions in another order,
and so its extensions. -/
inductive GraphDeclaration.Relisted : GraphDeclaration → GraphDeclaration → Prop where
  | mk {d : GraphDeclaration} {entryPoints : List EntryPoint}
      {collections : List CollectionDeclaration} {elements : List Element}
      {relisted extensions : List GraphDeclaration} (he : d.entryPoints.Perm entryPoints)
      (hc : d.collections.Perm collections) (hl : d.elements.Perm elements)
      (hx : List.Forall₂ Relisted d.extensions relisted) (hp : relisted.Perm extensions) :
      Relisted d { d with entryPoints, collections, elements, extensions }

namespace GraphDeclaration

/-- Graphs in another order, and so what each of them is made of. -/
def Shuffled (ds ds' : List GraphDeclaration) : Prop :=
  ∃ relisted, List.Forall₂ Relisted ds relisted ∧ relisted.Perm ds'

theorem Relisted.id_eq {d d' : GraphDeclaration} (h : d.Relisted d') : d.id = d'.id := by
  cases h
  rfl

theorem Relisted.refl (d : GraphDeclaration) : d.Relisted d := by
  induction d using GraphDeclaration.induction with
  | step d ih =>
      cases d
      exact .mk (.refl _) (.refl _) (.refl _) (List.forall₂_same.mpr ih) (.refl _)

/-- Relisted graphs have the same names as before. -/
theorem map_id_eq {ds ds' : List GraphDeclaration} (h : List.Forall₂ Relisted ds ds') :
    ds.map id = ds'.map id := by
  induction h with
  | nil => rfl
  | cons h _ ih => rw [List.map_cons, List.map_cons, h.id_eq, ih]

theorem Relisted.shuffled {d d' : GraphDeclaration} (h : d.Relisted d') :
    Shuffled d.extensions d'.extensions := by
  cases h with
  | mk _ _ _ hx hp => exact ⟨_, hx, hp⟩

theorem Shuffled.perm_ids {ds ds' : List GraphDeclaration} (h : Shuffled ds ds') :
    (ds.map id).Perm (ds'.map id) := by
  obtain ⟨relisted, hr, hp⟩ := h
  exact map_id_eq hr ▸ hp.map id

/-- The graphs that extend a graph keep their names. -/
theorem Relisted.perm_descendants {d d' : GraphDeclaration} (h : d.Relisted d') :
    (d.descendants.map id).Perm (d'.descendants.map id) := by
  have listed : ∀ {ds ds' : List GraphDeclaration}, List.Forall₂ Relisted ds ds' →
      (∀ e ∈ ds, ∀ {e'}, e.Relisted e' → (e.descendants.map id).Perm (e'.descendants.map id)) →
        ((preorder ds).map id).Perm ((preorder ds').map id) := by
    intro ds ds' h
    induction h with
    | nil => exact fun _ => .refl _
    | cons h _ ih =>
        intro below
        rw [preorder, preorder, List.map_cons, List.map_cons, List.map_append, List.map_append,
          h.id_eq]
        exact ((below _ (.head _) h).append (ih fun e he => below e (.tail _ he))).cons _
  induction d using GraphDeclaration.induction generalizing d' with
  | step d ih =>
      cases h with
      | mk _ _ _ hx hp =>
          rw [descendants_eq, descendants_eq]
          refine (listed hx fun e he _ => ih e he).trans ?_
          rw [preorder_eq, preorder_eq]
          exact (hp.flatMap_right _).map _

end GraphDeclaration

namespace Facts

/-- The same facts in another order. -/
structure Relisted (f f' : Facts) : Prop where
  classes : f.classes.Perm f'.classes
  factories : f.assistedFactories.Perm f'.assistedFactories
  contributions : f.contributions.Perm f'.contributions
  graphs : GraphDeclaration.Shuffled f.graphs f'.graphs

/-- Facts that are told apart by more than their places in lists. -/
@[mk_iff]
structure Distinct (f : Facts) : Prop where
  classes : (f.classes.map (·.key)).Nodup
  factories : (f.assistedFactories.map (·.key)).Nodup
  /-- Different contributions differ in declaration, kind, scope or contributed type. -/
  contributions : ∀ a ∈ f.contributions, ∀ b ∈ f.contributions, a.declaration = b.declaration →
    a.kind = b.kind → a.scope = b.scope → a.contributedType = b.contributedType → a = b
  roots : (f.graphs.map (·.id)).Nodup
  graphs : ∀ d ∈ GraphDeclaration.preorder f.graphs, d.Distinct

instance (f : Facts) : Decidable f.Distinct := decidable_of_iff' _ (distinct_iff f)

end Facts

/-! ### Outcomes alike -/

/-- Two graphs differ at most in the order in which their extensions are listed. -/
def Graph.Alike (g g' : Graph) : Prop :=
  ∃ listed, g.extensions.Perm listed ∧ g' = { g with extensions := listed }

/-- Two outcomes agree in all but the order of names that stand as declared. -/
structure Outcome.Alike (o o' : Outcome) : Prop where
  graphs : List.Forall₂ Graph.Alike o.graphs o'.graphs
  failures : o'.failures = o.failures
  skipped : o.skipped.Perm o'.skipped

/-- What became of a graph and all that extend it is alike, and so is what they ask for. -/
structure Subtree.Alike (s s' : Subtree) : Prop where
  outcome : s.outcome.Alike s'.outcome
  requests : s'.requests = s.requests

/-- A round came out alike. -/
inductive Round.Alike : Round → Round → Prop where
  | settled {s s' : Subtree} (h : s.Alike s') : Alike (.settled s) (.settled s')
  | unsettled (wanted : SortedSet TypeKey) : Alike (.unsettled wanted) (.unsettled wanted)

namespace Graph.Alike

variable {g g' : Graph} (h : g.Alike g')

include h

/-- The metadata of a graph do not tell how its extensions were listed. -/
theorem metadata : g'.metadata = g.metadata := by
  obtain ⟨listed, hp, rfl⟩ := h
  rw [Graph.metadata, Graph.metadata, sortBy_compare_eq_of_perm hp.symm]
  rfl

theorem contains_eq : g'.contains = g.contains := by
  obtain ⟨listed, -, rfl⟩ := h
  rfl

/-- Graphs that are alike ask for the same, if what grows below them does. -/
theorem asked_eq {grown grown' : List Subtree} (hs : List.Forall₂ Subtree.Alike grown grown') :
    Requests.asked g' grown' = Requests.asked g grown := by
  have merged : ∀ r : Requests, grown'.foldl (fun r s => r.merge s.requests) r =
      grown.foldl (fun r s => r.merge s.requests) r := by
    induction hs with
    | nil => exact fun _ => rfl
    | cons hs _ ih => exact fun r => by rw [List.foldl_cons, List.foldl_cons, hs.requests, ih]
  obtain ⟨listed, -, rfl⟩ := h
  exact merged g.ancestorRequests

end Graph.Alike

namespace Outcome.Alike

variable {o o' p p' : Outcome}

theorem refl_empty : Outcome.Alike {} {} := ⟨.nil, rfl, .nil⟩

/-- Reports on graphs that are alike are the same. -/
theorem metadata (h : o.Alike o') : o'.graphs.map (·.metadata) = o.graphs.map (·.metadata) := by
  have reported : ∀ {gs gs' : List Graph}, List.Forall₂ Graph.Alike gs gs' →
      gs'.map (·.metadata) = gs.map (·.metadata) := fun h => by
    induction h with
    | nil => rfl
    | cons h _ ih => rw [List.map_cons, List.map_cons, h.metadata, ih]
  exact reported h.graphs

theorem append (h : o.Alike o') (k : p.Alike p') : (o ++ p).Alike (o' ++ p') where
  graphs := List.rel_append h.graphs k.graphs
  failures := congrArg₂ (· ++ ·) h.failures k.failures
  skipped := h.skipped.append k.skipped

/-- Trees that are alike, one by one, come to the same one behind the other. -/
theorem concat {ss ss' : List Subtree} (h : List.Forall₂ Subtree.Alike ss ss') :
    Outcome.Alike (.concat (ss.map (·.outcome))) (.concat (ss'.map (·.outcome))) := by
  induction h with
  | nil => exact refl_empty
  | cons h _ ih => exact h.outcome.append ih

end Outcome.Alike

/-! ### Rounds alike -/

namespace Pass

variable {p : Pass} {provider : Scope → List Contribution} {d : GraphDeclaration}

/-- Trees that grow from shuffled graphs are alike, one by one. -/
theorem alike_grow {q : Pass} {ds ds' : List GraphDeclaration} {ancestors : List Ancestor}
    (h : GraphDeclaration.Shuffled ds ds') (hn : (ds.map (·.id)).Nodup)
    (alike : ∀ d ∈ ds, ∀ d', d.Relisted d' →
      (p.resolveTree d ancestors).Alike (q.resolveTree d' ancestors)) :
    List.Forall₂ Subtree.Alike (grow (p.branches ds) ancestors)
      (grow (q.branches ds') ancestors) := by
  obtain ⟨relisted, hr, hp⟩ := h
  have hn : (relisted.map (·.id)).Nodup := by rwa [GraphDeclaration.map_id_eq hr] at hn
  have sorted : sortBy (compareOn GraphDeclaration.id) relisted =
      sortBy (compareOn GraphDeclaration.id) ds' :=
    sortBy_eq_of_perm hp fun d hd e he hde =>
      List.inj_on_of_nodup_map hn hd he (eq_of_compareOn hde)
  have related : List.Forall₂ (fun d d' => d ∈ ds ∧ d.Relisted d') ds relisted :=
    (List.forall₂_and_left _ _).mpr ⟨fun _ hd => hd, hr⟩
  rw [grow_branches, grow_branches, ← sorted, List.forall₂_map_left_iff,
    List.forall₂_map_right_iff]
  exact (forall₂_sortBy (fun _ _ h => h.2.id_eq) related).imp fun _ _ h => alike _ h.1 _ h.2

theorem alike_settle {round round' : SortedSet TypeKey → Round}
    (h : ∀ retained, (round retained).Alike (round' retained)) (rounds : Nat)
    (retained : SortedSet TypeKey) : Subtree.Alike ((settle round rounds retained).getD {})
      ((settle round' rounds retained).getD {}) := by
  induction rounds generalizing retained with
  | zero => exact ⟨.refl_empty, rfl⟩
  | succ rounds ih =>
      rw [settle, settle]
      have := h retained
      generalize round retained = r at this
      generalize round' retained = r' at this
      cases this with
      | settled h => exact h
      | unsettled wanted => exact ih _

theorem alike_close {g g' : Graph} {grown grown' : List Subtree} (id : DeclarationId)
    (retained : SortedSet TypeKey) (hg : g.Alike g')
    (h : List.Forall₂ Subtree.Alike grown grown') :
    (close id g grown retained).Alike (close id g' grown' retained) := by
  have asked : Requests.asked g' grown' = Requests.asked g grown := hg.asked_eq h
  have contained : g'.contains = g.contains := hg.contains_eq
  have built : Outcome.Alike { graphs := [g] } { graphs := [g'] } := ⟨.cons hg .nil, rfl, .nil⟩
  rw [close, close, asked, contained]
  split
  · exact .settled ⟨built.append (.concat h), rfl⟩
  · exact .unsettled _

/-! A pass whose contributions are listed in another order. -/

variable (hc : Contribution.Distinct p.provider)
  (hp : ∀ scope, (p.provider scope).Perm (provider scope))

include hc hp

/-- A relisted graph is built alike, but for the order in which its extensions are listed. -/
theorem build_relisted {d' : GraphDeclaration} (hd : d.Distinct) (h : d.Relisted d')
    (ancestors : List Ancestor) (retained : SortedSet TypeKey) :
    ({ p with provider } : Pass).build d' ancestors retained =
      (p.build d ancestors retained).map fun g =>
        { g with extensions := d'.extensions.map (·.id) } := by
  cases h with
  | mk he hl hm _ _ =>
      exact (BuildRequest.readsAlike_of_distinct (r := p.request d ancestors retained) hc hd hp he
        hl hm).build

/-- **A round of a relisted graph comes out alike**, if what extends the graph does. -/
theorem alike_attempt {d' : GraphDeclaration} {ancestors : List Ancestor} (hd : d.Distinct)
    (h : d.Relisted d')
    (below : ∀ e ∈ d.extensions, ∀ e' above, e.Relisted e' →
      (p.resolveTree e above).Alike (({ p with provider } : Pass).resolveTree e' above))
    (retained : SortedSet TypeKey) : (p.attempt d ancestors retained).Alike
      (({ p with provider } : Pass).attempt d' ancestors retained) := by
  have rebuilt := build_relisted hc hp hd h ancestors retained
  cases hb : p.build d ancestors retained with
  | error report =>
      rw [hb] at rebuilt
      rw [attempt_of_error hb, attempt_of_error rebuilt, ← h.id_eq]
      exact .settled ⟨⟨.nil, rfl, h.perm_descendants⟩, rfl⟩
  | ok g =>
      rw [hb] at rebuilt
      have alike : g.Alike { g with extensions := d'.extensions.map (·.id) } :=
        ⟨_, BuildRequest.extensions_of_build hb ▸ h.shuffled.perm_ids, rfl⟩
      rw [attempt_of_ok hb, attempt_of_ok rebuilt, ← h.id_eq]
      exact alike_close _ _ alike (alike_grow h.shuffled hd.extensions fun e he e' =>
        below e he e' (.ofGraph g :: ancestors))

/-- What becomes of a relisted graph and all that extend it is alike. -/
theorem alike_resolveTree {d' : GraphDeclaration} (hd : ∀ e ∈ d :: d.descendants, e.Distinct)
    (h : d.Relisted d') (ancestors : List Ancestor) : (p.resolveTree d ancestors).Alike
      (({ p with provider } : Pass).resolveTree d' ancestors) := by
  induction d using GraphDeclaration.induction generalizing d' ancestors with
  | step d ih =>
      rw [resolveTree_eq, resolveTree_eq]
      refine alike_settle (alike_attempt hc hp (hd d (.head _)) h fun e he e' above he' => ?_) _ _
      refine ih e he (fun x hx => hd x (.tail _ ?_)) he' above
      rw [GraphDeclaration.descendants_eq]
      exact GraphDeclaration.mem_preorder.mpr ⟨e, he, hx⟩

/-- **A pass over shuffled graphs comes out alike.** -/
theorem alike_resolve {ds ds' : List GraphDeclaration} (hn : (ds.map (·.id)).Nodup)
    (hd : ∀ d ∈ GraphDeclaration.preorder ds, d.Distinct)
    (h : GraphDeclaration.Shuffled ds ds') :
    (p.resolve ds).Alike (({ p with provider } : Pass).resolve ds') :=
  .concat (alike_grow h hn fun d hm _ hr => alike_resolveTree hc hp
    (fun _ he => hd _ (GraphDeclaration.mem_preorder.mpr ⟨d, hm, he⟩)) hr [])

end Pass

/-! ### The pass -/

namespace Facts

variable {f f' : Facts}

/-- Classes and factories of different keys are found in whatever order they are listed. -/
theorem Distinct.index_eq (hd : f.Distinct) (h : f.Relisted f') : f'.index = f.index := by
  rw [index, index, Index.ofDeclarations, Index.ofDeclarations,
    SortedMap.index_eq_of_perm h.classes hd.classes,
    SortedMap.index_eq_of_perm h.factories hd.factories]

theorem Distinct.contributionsTo (hd : f.Distinct) : Contribution.Distinct f.contributionsTo :=
  fun _ _ a ha b hb =>
    hd.contributions a (List.mem_of_mem_filter ha) b (List.mem_of_mem_filter hb)

/-- **The outcome of a pass does not depend on the order of the facts.**  Whatever the options, the
same graphs fail with the same reports in the same order, the same graphs are skipped, and the same
graphs are resolved in the same order; the names of skipped graphs and of the extensions of a
resolved one may stand in another order, and the metadata of graphs do not show it. -/
theorem resolve_relisted (hd : f.Distinct) (h : f.Relisted f') (options : Options) :
    (f.resolve options).Alike (f'.resolve options) ∧
      (f'.resolve options).graphs.map (·.metadata) =
        (f.resolve options).graphs.map (·.metadata) := by
  have alike : (f.resolve options).Alike (f'.resolve options) := by
    rw [resolve, resolve, hd.index_eq h]
    exact Pass.alike_resolve hd.contributionsTo (fun scope => h.contributions.filter _) hd.roots
      hd.graphs h.graphs
  exact ⟨alike, alike.metadata⟩

/-- Two graphs, each with two that extend it, and what they are made of, listed in some way.  The
second graph cannot be built. -/
def arranged (arrange : {α : Type} → List α → List α) : Facts where
  classes := arrange
    [.ofDependencies ⟨"Api", none⟩ [{ key := ⟨"Db", none⟩ }],
      { origin := .of "Db"
        key := ⟨"Db", none⟩
        scope := some ⟨"AppScope"⟩
        constructors := [{ injectable := true }] }]
  contributions := arrange
    [{ origin := .of "Zip"
       scope := ⟨"AppScope"⟩
       kind := .intoSet
       contributedType := ⟨"Zip", none⟩
       supertypes := [⟨"Plugin", none⟩] },
      .ofBindings (.of "Tools") ⟨"AppScope"⟩ [.provided ⟨"Zip", none⟩ (.of "makeZip") none []]]
  graphs := arrange
    [{ origin := .of "AppGraph"
       key := ⟨"AppGraph", none⟩
       scopes := [⟨"AppScope"⟩]
       entryPoints := arrange
         [.accessor "plugins" { key := TypeKey.setOf ⟨"Plugin", none⟩ },
           .accessor "api" { key := ⟨"Api", none⟩ }]
       elements := arrange
         [.intoSet (.of "First") ⟨"Plugin", none⟩ [], .intoSet (.of "Second") ⟨"Plugin", none⟩ []]
       extensions := arrange
         [{ origin := .of "LoginGraph"
            key := ⟨"LoginGraph", none⟩
            entryPoints := [.accessor "db" { key := ⟨"Db", none⟩ }] },
           .ofKey ⟨"AdminGraph", none⟩] },
      { origin := .of "OtherGraph"
        key := ⟨"OtherGraph", none⟩
        entryPoints := arrange
          [.accessor "missing" { key := ⟨"Missing", none⟩ },
            .accessor "lost" { key := ⟨"Lost", none⟩ }]
        extensions := arrange [.ofKey ⟨"FarGraph", none⟩, .ofKey ⟨"NearGraph", none⟩] }]

theorem relisted_arranged : (arranged id).Relisted (arranged List.reverse) where
  classes := (List.reverse_perm _).symm
  factories := .nil
  contributions := (List.reverse_perm _).symm
  graphs :=
    ⟨(arranged List.reverse).graphs.reverse,
      .cons
        (.mk (List.reverse_perm _).symm .nil (List.reverse_perm _).symm
          (List.forall₂_same.mpr fun _ _ => .refl _) (List.reverse_perm _).symm)
        (.cons
          (.mk (List.reverse_perm _).symm .nil .nil
            (List.forall₂_same.mpr fun _ _ => .refl _) (List.reverse_perm _).symm)
          .nil),
      List.reverse_perm _⟩

/-- Listed backward, the same facts come to the same graphs and failures; only the names of skipped
graphs and of extensions stand in another order. -/
theorem resolve_relisted_reversed : (arranged id).Distinct ∧
    (arranged id).Relisted (arranged List.reverse) ∧
    ((arranged id).resolve {}).Alike ((arranged List.reverse).resolve {}) ∧
    ((arranged List.reverse).resolve {}).graphs.map (·.metadata) =
      ((arranged id).resolve {}).graphs.map (·.metadata) ∧
    ((arranged id).resolve {}).skipped = [⟨"FarGraph"⟩, ⟨"NearGraph"⟩] ∧
    ((arranged List.reverse).resolve {}).skipped = [⟨"NearGraph"⟩, ⟨"FarGraph"⟩] := by
  have distinct : (arranged id).Distinct := by decide +kernel
  obtain ⟨alike, same⟩ := resolve_relisted distinct relisted_arranged {}
  exact ⟨distinct, relisted_arranged, alike, same, by decide +kernel, by decide +kernel⟩

end Facts

end Wiring
