import Wiring.Proofs.Offering

/-!
# Shrinking the graphs of a pass

Shrinking leaves out what no root of a graph reaches after everything was checked, so a graph that
extends it can no longer read that.  A pass that came to no failure comes to none when its graphs
are shrunk, provided that along each lineage the graphs above keep what is read from them, and that
no dependency without a default is on a key declared to have no value (`Supported`,
`resolve_shrunk`).  Otherwise it may fail (`resolve_shrunk_fails`).

The proof follows the rounds of both passes down the declarations: below what shrunk graphs offer, a
graph is built from its own part of the former one (`Link.sustained`), asks for what the graphs
above hold or held when they were whole (`Link.fulfilled_asked`), and retains nothing else
(`Link.attempt`).
-/

namespace Wiring

/-- Outcomes one behind the other have no failure if none of them has. -/
theorem Outcome.failures_concat_eq_nil : ∀ {os : List Outcome},
    (concat os).failures = [] ↔ ∀ o ∈ os, o.failures = []
  | [] => by simp [concat]
  | o :: rest => by
      have split : (concat (o :: rest)).failures = o.failures ++ (concat rest).failures := rfl
      rw [split, List.append_eq_nil_iff, failures_concat_eq_nil, List.forall_mem_cons]

instance (edges : List Edge) (roots : List TypeKey) (k : TypeKey) :
    Decidable (Reaches edges roots k) :=
  decidable_of_iff _ mem_reachableFrom

instance (g : Graph) (k : TypeKey) : Decidable (g.Needs k) :=
  inferInstanceAs (Decidable (Reaches ..))

namespace Pass

variable {p : Pass} {roots : List GraphDeclaration} {L : Line} {d : GraphDeclaration}
  {g g' : Graph} {k : TypeKey} {id : DeclarationId} {retained held : SortedSet TypeKey}
  {ancestors : List Ancestor}

/-- The pass with what no root reaches left out. -/
def shrinking (p : Pass) : Pass :=
  { p with options := { p.options with shrinkUnusedBindings := true } }

theorem request_shrinking (p : Pass) (d : GraphDeclaration) (above ancestors : List Ancestor)
    (retained held : SortedSet TypeKey) : p.shrinking.request d ancestors held =
      (p.request d above retained).pruned ancestors held := rfl

/-! ### A graph built again -/

theorem Link.contains_of_kept (hl : p.Link L d g retained) (hk : p.Kept g k) :
    g.contains k = true := by
  have hg := BuildRequest.built_of_build hl.build
  induction hk with
  | validated _ hk | held _ hk => exact hk
  | entered h =>
      rw [Graph.rootKeys, BuildRequest.entryPoints_of_build hl.build] at h
      exact hg.contains_root (List.mem_append_left _ h)
  | edge he _ _ =>
      exact hg.contains_target he

/-- Keys that a graph can be made to hold. -/
def Holds (p : Pass) (g : Graph) (held : SortedSet TypeKey) : Prop :=
  ∀ k ∈ held.toList, g.contains k = true ∧ p.Promotable k

theorem Link.sustained (hl : p.Link L d g retained) (hs : p.Supported L d g)
    (h : L.Offers ancestors) (whole : p.options.shrinkUnusedBindings = false)
    (lenient : p.options.unusedBindingSeverity ≠ .error) (hh : p.Holds g held) :
    (p.request d L.ancestors retained).Sustained g ancestors held (p.Kept g) where
  built := hl.build
  whole := whole
  lenient := lenient
  scopes _ hs := h.mem_scopes hs
  bound _ hk := hl.contains_of_kept hk
  entered _ hk := .entered hk
  retained k hk := by
    obtain ⟨hc, b, s, hb, hs⟩ := hh k hk
    exact ⟨.held ⟨b, s, hb, hs⟩ hc, fun hn => by cases hb.symm.trans hn⟩
  validated hv k hk := .validated hv hk
  closed _ he hk := .edge he hk
  required e he hk hn b hb := by
    by_contra ha
    exact hs.required e he hk hn ⟨b, hb, Bool.eq_true_of_not_eq_false ha⟩
  stands k b hk hb := by
    have hg := BuildRequest.built_of_build hl.build
    obtain ⟨hx, -⟩ := (p.request d L.ancestors retained).expansion_spec
    have bound := (hg.contains_iff.mp (SortedMap.contains_iff.mpr ⟨b, hb⟩)).1
    exact (hl.follows hs hk h hb).stands (hg.answers hb)
      ((BuildRequest.candid_of_build hl.build).1.errorless k ((hx.mem_order k).mpr bound))

/-- What a graph built again asks for was asked for, or is held by the graph that is asked. -/
theorem Link.asked (hL : p.Lineage roots L) (hl : p.Link L d g retained)
    (hs : p.Supported L d g) (h : L.Offers ancestors)
    (built : (p.shrinking.request d ancestors held).build = .ok g')
    (kept : ∀ k, g'.contains k = true → p.Kept g k)
    (hk : k ∈ (Requests.toGraph g'.ancestorRequests id).toList) :
    p.Promotable k ∧ (k ∈ (Requests.toGraph g.ancestorRequests id).toList ∨
      ∃ e, L.find? (·.2.id = id) = some e ∧ e.2.contains k = true) := by
  have hg := BuildRequest.built_of_build hl.build
  obtain ⟨hc, asked⟩ := (BuildRequest.built_of_build built).mem_asked_iff.mp hk
  rw [p.request_shrinking d L.ancestors ancestors retained held,
    BuildRequest.looked_pruned] at asked
  have hc := hl.contains_of_kept (kept k hc)
  obtain ⟨b, hb⟩ := SortedMap.contains_iff.mp hc
  obtain ⟨-, -, -, -, -, b', s, hm, hs'⟩ := Lookup.scoped_of_asked asked
  have index : (p.request d L.ancestors retained).looked.catalog.index = p.index :=
    (p.request d L.ancestors retained).index_looked
  refine ⟨⟨b', s, index ▸ hm, hs'⟩, ?_⟩
  cases hl.follows hs (kept k ‹_›) h hb with
  | same same => exact .inl (hg.mem_asked_iff.mpr ⟨hc, same ▸ asked⟩)
  | moved _ _ _ yields nearest =>
      have he := nearest id asked
      obtain ⟨b, hb, -⟩ := (hL.provides_iff (List.mem_of_find?_eq_some he)).mp yields
      exact .inr ⟨_, he, SortedMap.contains_iff.mpr ⟨b, hb⟩⟩

/-! ### Requests -/

/-- **What is asked of a name from below, the nearest graph of that name holds.** -/
theorem Lineage.granted_nearest (h : p.Lineage roots L)
    (hd : d ∈ GraphDeclaration.next roots L.path)
    (hk : k ∈ ((p.resolveTree d L.ancestors).requests.toGraph id).toList)
    {e : GraphDeclaration × Graph} (he : L.find? (·.2.id = id) = some e) :
    e.2.contains k = true := by
  induction h generalizing d with
  | nil => cases he
  | @cons L d' g' _ hd' hg ih =>
      obtain ⟨_, hl⟩ := link_of_graph? hg
      have asked : k ∈ ((Requests.asked g' (p.grown d' g' L.ancestors)).toGraph id).toList :=
        Requests.mem_toGraph_asked.mpr (.inr ⟨_, mem_grow_branches.mpr ⟨d, hd, rfl⟩, hk⟩)
      by_cases hi : g'.id = id
      · rw [List.find?_cons_of_pos (by simpa using hi)] at he
        obtain rfl := Option.some.inj he
        exact hl.granted k (hl.id_eq ▸ hi.symm ▸ asked)
      · rw [List.find?_cons_of_neg (by simpa using hi)] at he
        refine ih hd' ?_ he
        rw [hl.requests]
        exact Requests.mem_toGraph_erase.mpr ⟨fun hid => hi (hl.id_eq.trans hid.symm), asked⟩

/-! ### Trees of graphs built again -/

/-- A tree of graphs comes to no failure if the graph is built, with all that extend it. -/
theorem link_of_failures_eq_nil
    (hf : (p.resolveTree d L.ancestors).outcome.failures = []) :
    ∃ g, (p.resolveTree d L.ancestors).graph? = some g ∧ ∀ e ∈ d.extensions,
      (p.resolveTree e (Line.ancestors ((d, g) :: L))).outcome.failures = [] := by
  obtain ⟨retained, hs⟩ := p.settled_resolveTree d L.ancestors
  generalize p.resolveTree d L.ancestors = s at hf hs
  cases hs with
  | failed => cases hf
  | @built g _ _ =>
      refine ⟨g, rfl, fun e he => ?_⟩
      have below := Outcome.failures_concat_eq_nil.mp (List.append_eq_nil_iff.mp hf).2
      exact below _ (List.mem_map_of_mem (mem_grow_branches.mpr ⟨e, he, rfl⟩))

/-- A tree below a line comes to no failure, and asks for what the graphs of the line hold. -/
structure Fulfilled (p : Pass) (L : Line) (s : Subtree) : Prop where
  failures : s.outcome.failures = []
  promotable : ∀ id k, k ∈ (s.requests.toGraph id).toList → p.Promotable k
  granted : ∀ id k, k ∈ (s.requests.toGraph id).toList →
    ∀ e, L.find? (·.2.id = id) = some e → e.2.contains k = true

/-- What a graph built again and the graphs below it ask for is held. -/
theorem Link.fulfilled_asked (hL : p.Lineage roots ((d, g) :: L)) (hl : p.Link L d g retained)
    (hs : p.Supported L d g) (h : L.Offers ancestors)
    (built : (p.shrinking.request d ancestors held).build = .ok g')
    (kept : ∀ k, g'.contains k = true → p.Kept g k) {grown : List Subtree}
    (below : ∀ s ∈ grown, p.Fulfilled ((d, g) :: L) s)
    (hk : k ∈ ((Requests.asked g' grown).toGraph id).toList) :
    p.Promotable k ∧ (id = d.id → g.contains k = true) ∧
      (id ≠ d.id → ∀ e, L.find? (·.2.id = id) = some e → e.2.contains k = true) := by
  rcases Requests.mem_toGraph_asked.mp hk with hk | ⟨s, hm, hk⟩
  · obtain ⟨hp, asked⟩ := hl.asked hL.tail hs h built kept hk
    have hc := ((BuildRequest.built_of_build built).mem_asked_iff.mp hk).1
    refine ⟨hp, fun _ => hl.contains_of_kept (kept k hc), fun hid e he => ?_⟩
    rcases asked with asked | ⟨e', he', hc'⟩
    · -- the graph asked for the key before, so the request was handed up and granted
      have handed : k ∈ ((p.resolveTree d L.ancestors).requests.toGraph id).toList := by
        rw [hl.requests]
        exact Requests.mem_toGraph_erase.mpr ⟨hid, Requests.mem_toGraph_asked.mpr (.inl asked)⟩
      cases hL with
      | cons hL hd _ => exact hL.granted_nearest hd handed he
    · exact Option.some.inj (he'.symm.trans he) ▸ hc'
  · refine ⟨(below s hm).promotable id k hk, fun hid => ?_, fun hid e he => ?_⟩
    · have here : g.id = id := hl.id_eq.trans hid.symm
      exact (below s hm).granted id k hk (d, g) (List.find?_cons_of_pos (by simpa using here))
    · have elsewhere : g.id ≠ id := fun here => hid (here.symm.trans hl.id_eq)
      refine (below s hm).granted id k hk e ?_
      rw [List.find?_cons_of_neg (by simpa using elsewhere), he]

/-- **A round of a graph built again** settles without a failure, or asks for keys that the graph
can be made to hold. -/
theorem Link.attempt (hL : p.Lineage roots ((d, g) :: L)) (hl : p.Link L d g retained)
    (hs : p.Supported L d g) (h : L.Offers ancestors)
    (whole : p.options.shrinkUnusedBindings = false)
    (lenient : p.options.unusedBindingSeverity ≠ .error)
    (below : ∀ e ∈ d.extensions, ∀ above, Line.Offers ((d, g) :: L) above →
      p.Fulfilled ((d, g) :: L) (p.shrinking.resolveTree e above))
    (hh : p.Holds g held) :
    (∀ s, p.shrinking.attempt d ancestors held = .settled s → p.Fulfilled L s) ∧
      ∀ wanted, p.shrinking.attempt d ancestors held = .unsettled wanted →
        p.Holds g (held.union wanted) := by
  obtain ⟨g', built, remains, kept⟩ :=
    BuildRequest.build_pruned (hl.sustained hs h whole lenient hh)
  have built' : (p.shrinking.request d ancestors held).build = .ok g' := built
  have hg := BuildRequest.built_of_build hl.build
  have above : Line.Offers ((d, g) :: L) (.ofGraph g' :: ancestors) :=
    .cons (hg.offers (BuildRequest.built_of_build built) remains) h
  have grown : ∀ s ∈ p.shrinking.grown d g' ancestors, p.Fulfilled ((d, g) :: L) s := by
    intro s hm
    obtain ⟨e, he, rfl⟩ := mem_grow_branches.mp hm
    exact below e he _ above
  have asked := fun (id : DeclarationId) (k : TypeKey)
      (hk : k ∈ ((Requests.asked g' (p.shrinking.grown d g' ancestors)).toGraph id).toList) =>
    hl.fulfilled_asked hL hs h built' kept grown hk
  have rounds := p.shrinking.rounds_attempt d ancestors held
  generalize p.shrinking.attempt d ancestors held = round at rounds
  cases rounds with
  | settled settled =>
      refine ⟨fun s hr => ?_, fun _ hr => (nomatch hr)⟩
      obtain rfl := Round.settled.inj hr
      cases settled with
      | failed hb => cases built'.symm.trans hb
      | built hb _ =>
          obtain rfl := Except.ok.inj (built'.symm.trans hb)
          constructor
          case failures =>
            refine List.append_eq_nil_iff.mpr ⟨rfl, Outcome.failures_concat_eq_nil.mpr ?_⟩
            intro o ho
            obtain ⟨s, hm, rfl⟩ := List.mem_map.mp ho
            exact (grown s hm).failures
          case promotable =>
            exact fun id k hk => (asked id k (Requests.mem_toGraph_erase.mp hk).2).1
          case granted =>
            intro id k hk
            obtain ⟨hid, hk⟩ := Requests.mem_toGraph_erase.mp hk
            exact (asked id k hk).2.2 hid
  | unsettled _ hb hw =>
      refine ⟨fun _ hr => (nomatch hr), fun wanted hr => ?_⟩
      obtain rfl := Round.unsettled.inj hr
      obtain rfl := Except.ok.inj (built'.symm.trans hb)
      intro k hk
      rcases SortedSet.mem_union.mp hk with hk | hk
      · obtain ⟨hp, here, -⟩ := asked d.id k (hw k hk).2
        exact ⟨here rfl, hp⟩
      · exact hh k hk

/-- **A tree of graphs that came to no failure comes to none when it is shrunk.** -/
theorem Lineage.fulfilled (whole : p.options.shrinkUnusedBindings = false)
    (lenient : p.options.unusedBindingSeverity ≠ .error)
    (hs : ∀ d g L, p.Lineage roots ((d, g) :: L) → p.Supported L d g)
    (hL : p.Lineage roots L) (hd : d ∈ GraphDeclaration.next roots L.path)
    (hf : (p.resolveTree d L.ancestors).outcome.failures = []) (h : L.Offers ancestors) :
    p.Fulfilled L (p.shrinking.resolveTree d ancestors) := by
  induction d using GraphDeclaration.induction generalizing L ancestors with
  | step d ih =>
      obtain ⟨g, hg, hbelow⟩ := link_of_failures_eq_nil hf
      obtain ⟨retained, hl⟩ := link_of_graph? hg
      have hL' : p.Lineage roots ((d, g) :: L) := .cons hL hd hg
      have below : ∀ e ∈ d.extensions, ∀ above, Line.Offers ((d, g) :: L) above →
          p.Fulfilled ((d, g) :: L) (p.shrinking.resolveTree e above) :=
        fun e he above habove => ih e he hL' he (hbelow e he) habove
      have round := fun held (hh : p.Holds g held) =>
        hl.attempt hL' (hs d g L hL') h whole lenient below hh
      obtain ⟨-, n, -, run⟩ := p.shrinking.settle_attempt d ancestors
      have rounds : ∀ {held n s}, Settles (p.shrinking.attempt d ancestors) held n s →
          p.Holds g held → p.Fulfilled L s := by
        intro held n s run
        induction run with
        | done hr => exact fun hh => (round _ hh).1 _ hr
        | again hr _ ih => exact fun hh => ih ((round _ hh).2 _ hr)
      exact rounds run (by simp [Holds, SortedSet.empty])

/-- The graphs along a lineage of a graph and one that extends it. -/
theorem Lineage.of_extension {d e : GraphDeclaration} (h : p.Lineage [d] L)
    (hd : d.extensions = [e]) (he : e.extensions = []) :
    L = [] ∨ ∃ g, (p.resolveTree d []).graph? = some g ∧ (L = [(d, g)] ∨
      ∃ g', (p.resolveTree e [.ofGraph g]).graph? = some g' ∧ L = [(e, g'), (d, g)]) := by
  induction h with
  | nil => exact .inl rfl
  | cons _ hm hg ih =>
      rcases ih with rfl | ⟨g, hg', rfl | ⟨g', hg'', rfl⟩⟩
      · obtain rfl := List.mem_singleton.mp hm
        exact .inr ⟨_, hg, .inl rfl⟩
      · rw [Line.path, List.map_singleton, GraphDeclaration.next, hd] at hm
        obtain rfl := List.mem_singleton.mp hm
        exact .inr ⟨g, hg', .inr ⟨_, hg, rfl⟩⟩
      · rw [Line.path, List.map_cons, GraphDeclaration.next, he] at hm
        cases hm

end Pass

namespace Facts

/-- **Shrinking fails no pass whose graphs keep what others read.**  Unless unused keys are errors,
a pass over whole graphs without failures has none when its graphs are shrunk, provided that
whatever a graph may keep is supported by the graphs above it. -/
theorem resolve_shrunk (f : Facts) (o : Options) (whole : o.shrinkUnusedBindings = false)
    (lenient : o.unusedBindingSeverity ≠ .error) (hf : (f.resolve o).failures = [])
    (hs : ∀ d g L, (f.pass o).Lineage f.graphs ((d, g) :: L) → (f.pass o).Supported L d g) :
    (f.resolve { o with shrinkUnusedBindings := true }).failures = [] := by
  have trees := Outcome.failures_concat_eq_nil.mp hf
  refine Outcome.failures_concat_eq_nil.mpr fun outcome ho => ?_
  obtain ⟨s, hm, rfl⟩ := List.mem_map.mp ho
  obtain ⟨d, hd, rfl⟩ := Pass.mem_grow_branches.mp hm
  refine (Pass.Lineage.fulfilled (p := f.pass o) whole lenient hs .nil hd ?_ .nil).failures
  exact trees _ (List.mem_map_of_mem (Pass.mem_grow_branches.mpr ⟨d, hd, rfl⟩))

/-- A graph and one that extends it, beside a class for the scope of the graph. -/
def layered (graph extension : GraphDeclaration) : Facts where
  classes :=
    [{ origin := .of "Db"
       key := ⟨"Db", none⟩
       scope := some ⟨"AppScope"⟩
       constructors := [{ injectable := true }] }]
  graphs := [{ graph with scopes := [⟨"AppScope"⟩], extensions := [extension] }]

/-- A graph with entry points to a key and to a collection, and another key. -/
def offering : GraphDeclaration :=
  { GraphDeclaration.ofKey ⟨"AppGraph", none⟩ with
    entryPoints :=
      [.accessor "url" { key := ⟨"Url", none⟩ },
        .accessor "plugins" { key := .setOf ⟨"Plugin", none⟩ }]
    bindings :=
      [.provided ⟨"Url", none⟩ (.of "url") none [], .provided ⟨"Cache", none⟩ (.of "cache") none []]
    elements := [.intoSet (.of "First") ⟨"Plugin", none⟩ []] }

/-- A graph with entry points to a class, to a key, and to a collection that it adds to. -/
def reading : GraphDeclaration :=
  { GraphDeclaration.ofKey ⟨"LoginGraph", none⟩ with
    entryPoints :=
      [.accessor "db" { key := ⟨"Db", none⟩ }, .accessor "url" { key := ⟨"Url", none⟩ },
        .accessor "plugins" { key := .setOf ⟨"Plugin", none⟩ }]
    elements := [.intoSet (.of "Second") ⟨"Plugin", none⟩ []] }

/-- The extension reads what the graph needs itself, and a class that is left to it. -/
def sparing : Facts := layered offering reading

/-- Everything is checked and kept. -/
def whole : Options := { shrinkUnusedBindings := false }

/-- What is read along the lineages of these facts is kept. -/
theorem supported_sparing {d : GraphDeclaration} {g : Graph} {L : Line}
    (h : (sparing.pass whole).Lineage sparing.graphs ((d, g) :: L)) :
    (sparing.pass whole).Supported L d g := by
  have present : ∀ d ∈ GraphDeclaration.preorder sparing.graphs, ∀ k,
      ¬ (sparing.pass whole).Withholds d k := by
    have values : ∀ d ∈ GraphDeclaration.preorder sparing.graphs,
        ∀ b ∈ ((sparing.pass whole).registered d).values, b.isAbsent = false := by
      decide +kernel
    rintro d hd k ⟨b, hb, ha⟩
    rw [values d hd b (SortedMap.mem_values.mpr ⟨k, hb⟩)] at ha
    cases ha
  have read : ∀ d ∈ sparing.graphs, ∀ g ∈ ((sparing.pass whole).resolveTree d []).graph?,
      ∀ g' ∈ ((sparing.pass whole).resolveTree reading [.ofGraph g]).graph?,
        g.scopes = [⟨"AppScope"⟩] ∧ ∀ e ∈ g'.bindings.entries,
          (e.2.holder? = none ∨ g.Needs e.1 ∨ e.1 = ⟨"Db", none⟩) ∧
            (Ancestor.sourcesOf? e.2 = none ∨ g.Needs e.1) := by
    decide +kernel
  have made : ((sparing.pass whole).registered reading).get? ⟨"Db", none⟩ = none ∧
      ((sparing.pass whole).index.synthesize? ⟨"Db", none⟩).map (·.scope?) =
        some (some ⟨"AppScope"⟩) := by
    decide +kernel
  obtain hL | ⟨top, htop, hL | ⟨low, hlow, hL⟩⟩ := h.of_extension rfl rfl
  · cases hL
  · cases hL
    constructor
    case required => exact fun e _ _ _ => present _ (.head _) e.target
    case read => exact fun k id _ _ e he => by cases he
    case gathered => exact fun k b _ _ _ _ e he => by cases he
  · cases hL
    obtain ⟨scopes, read⟩ := read _ (.head _) top htop g hlow
    have entry : ∀ {k b}, g.binding? k = some b → (k, b) ∈ g.bindings.entries := fun hb =>
      SortedMap.get?_eq_some_iff.mp hb
    constructor
    case required => exact fun e _ _ _ => present _ (.tail _ (.head _)) e.target
    case read =>
      rintro k id - ⟨b, hb, hh, -⟩ e he rfl -
      obtain rfl := List.mem_singleton.mp he
      rcases (read (k, b) (entry hb)).1 with hn | hk | rfl
      · cases hn.symm.trans hh
      · exact .inl hk
      · obtain ⟨b', hb', hs⟩ := Option.map_eq_some_iff.mp made.2
        exact .inr ⟨made.1, ⟨b', _, hb', hs, by decide, by simp [scopes]⟩, by simp⟩
    case gathered =>
      intro k b _ _ hb hs e he
      obtain rfl := List.mem_singleton.mp (List.mem_of_find?_eq_some he)
      exact ((read (k, b) (entry hb)).2).resolve_left hs

theorem resolve_shrunk_sparing : whole.shrinkUnusedBindings = false ∧
    whole.unusedBindingSeverity ≠ .error ∧ (sparing.resolve whole).failures = [] ∧
    (∀ d g L, (sparing.pass whole).Lineage sparing.graphs ((d, g) :: L) →
      (sparing.pass whole).Supported L d g) ∧
    (sparing.resolve { whole with shrinkUnusedBindings := true }).failures = [] := by
  have passed : (sparing.resolve whole).failures = [] := by decide +kernel
  exact ⟨rfl, by decide, passed, fun _ _ _ => supported_sparing,
    resolve_shrunk sparing whole rfl (by decide) passed fun _ _ _ => supported_sparing⟩

/-- The extension reads a key that the graph offers, but does not need itself. -/
def unneeded : Facts :=
  layered { offering with entryPoints := [] }
    { GraphDeclaration.ofKey ⟨"LoginGraph", none⟩ with
      entryPoints := [.accessor "url" { key := ⟨"Url", none⟩ }] }

/-- The extension adds nothing to a collection that the graph does not need itself. -/
def ungathered : Facts :=
  layered { offering with entryPoints := [] }
    { GraphDeclaration.ofKey ⟨"LoginGraph", none⟩ with
      entryPoints := [.accessor "plugins" { key := .setOf ⟨"Plugin", none⟩ }]
      collections := [{ origin := .of "plugins", collection := .set ⟨"Plugin", none⟩ }] }

/-- A key that is declared to have no value is read with a default and, later, without. -/
def overlooked : Facts :=
  layered
    { GraphDeclaration.ofKey ⟨"AppGraph", none⟩ with
      entryPoints := [.accessor "api" { key := ⟨"Api", none⟩ }]
      bindings :=
        [.provided ⟨"Api", none⟩ (.of "api") none
            [{ key := ⟨"Url", none⟩, hasDefault := true }, { key := ⟨"Client", none⟩ }],
          .provided ⟨"Client", none⟩ (.of "client") none [{ key := ⟨"Url", none⟩ }],
          .absent ⟨"Url", none⟩ (.of "noUrl")] }
    (.ofKey ⟨"LoginGraph", none⟩)

/-- Shrinking fails a pass if a key or a collection is read from a graph that does not need it
itself, or if a key without a value is read without a default. -/
theorem resolve_shrunk_fails : whole.unusedBindingSeverity ≠ .error ∧
    ((unneeded.resolve whole).failures = [] ∧
      (unneeded.resolve { whole with shrinkUnusedBindings := true }).failures.map (·.graph) =
        [⟨"LoginGraph"⟩]) ∧
    ((ungathered.resolve whole).failures = [] ∧
      (ungathered.resolve { whole with shrinkUnusedBindings := true }).failures.map (·.graph) =
        [⟨"LoginGraph"⟩]) ∧
    (overlooked.resolve whole).failures = [] ∧
      (overlooked.resolve { whole with shrinkUnusedBindings := true }).failures.map (·.graph) =
        [⟨"AppGraph"⟩] := by
  decide +kernel

end Facts

end Wiring
