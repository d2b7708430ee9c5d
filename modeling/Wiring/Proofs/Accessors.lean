import Wiring.Proofs.Lineage

/-!
# Accessors to the graphs above

A build makes an accessor before the graph that it leads to binds the key; the pass then builds that
graph again, and hands requests further up.  Once everything has settled, every graph binds what it
was asked to hold (`Lineage.granted`), so each accessor leads to a graph that binds the key
(`Lineage.accessor`), and following accessors ends (`Lineage.climbs`).

Only one thing keeps a graph from yielding a key that it was asked to hold: that the key is
registered there as having no value (`Withholds`).  Then the request is left over
(`Lineage.withholds_of_asked`).
-/

namespace Wiring

/-- No way down through declarations meets a name twice. -/
def GraphDeclaration.DistinctIds (roots : List GraphDeclaration) : Prop :=
  ∀ path, Path roots path → (path.map (·.id)).Nodup

namespace Pass

variable {p : Pass} {roots : List GraphDeclaration} {L : Line} {d : GraphDeclaration} {g : Graph}
  {k : TypeKey} {id : DeclarationId} {b : Binding}

/-- A graph is declared to have no value for a key. -/
def Withholds (p : Pass) (d : GraphDeclaration) (k : TypeKey) : Prop :=
  ∃ b, (p.registered d).get? k = some b ∧ b.isAbsent = true

/-- A graph binds a key to an accessor that was not declared, to the graph of a name. -/
def Refers (p : Pass) (e : GraphDeclaration × Graph) (k : TypeKey) (id : DeclarationId) : Prop :=
  ∃ b, e.2.binding? k = some b ∧ b.holder? = some id ∧ (p.registered e.1).get? k ≠ some b

/-- Following the accessors of a key from the first graph of a line leads to a graph without one. -/
inductive Climbs (p : Pass) (k : TypeKey) : Line → GraphDeclaration × Graph → Prop where
  | stay {e : GraphDeclaration × Graph} {L : Line} (h : ∀ id, ¬ p.Refers e k id) :
      Climbs p k (e :: L) e
  | up {e f t : GraphDeclaration × Graph} {L M : Line} (h : p.Refers e k f.2.id)
      (hf : f :: M <:+ L) (ht : Climbs p k (f :: M) t) : Climbs p k (e :: L) t

/-! ### Requests and accessors -/

theorem Lineage.nodup_ids (h : p.Lineage roots L) (hd : GraphDeclaration.DistinctIds roots) :
    (L.map (·.2.id)).Nodup := by
  have : L.map (·.2.id) = L.path.map (·.id) := by
    rw [Line.path, List.map_map]
    exact List.map_congr_left fun e he => h.id_eq he
  exact this ▸ hd _ h.path

/-- A graph has no value for a key that can be made only if it is declared to have none. -/
theorem Lineage.withholds (h : p.Lineage roots L) {e : GraphDeclaration × Graph} (he : e ∈ L)
    (hm : p.index.synthesize? k ≠ none) (hb : e.2.binding? k = some b) (ha : b.isAbsent = true) :
    p.Withholds e.1 k := by
  obtain ⟨M, retained, hl⟩ := h.link_of_mem he
  have hr := (BuildRequest.built_of_build hl.build).registered_of_isAbsent hb ha hm
  rw [registered_request] at hr
  exact ⟨b, hr, ha⟩

/-- **A request that is left over is for a key withheld.**  The graph asked binds the key, and is
declared to have no value for it. -/
theorem Lineage.withholds_of_asked (h : p.Lineage roots ((d, g) :: L))
    (hd : GraphDeclaration.DistinctIds roots)
    (hk : k ∈ (Requests.toGraph g.ancestorRequests id).toList) :
    ∃ e ∈ L, e.2.id = id ∧ e.2.contains k = true ∧ p.Withholds e.1 k := by
  obtain ⟨retained, hl⟩ := h.link
  have hg := BuildRequest.built_of_build hl.build
  obtain ⟨a, ha, hi, hp, -, b, s, hm, -⟩ := Lookup.scoped_of_asked (hg.mem_asked_iff.mp hk).2
  obtain ⟨e, he, rfl⟩ := List.mem_map.mp ha
  replace hm : p.index.synthesize? k ≠ none := fun hn => by
    rw [BuildRequest.index_looked] at hm
    cases hn.symm.trans hm
  obtain ⟨hne, hnd⟩ := List.nodup_cons.mp (h.nodup_ids hd)
  have hid : id ∈ L.map (·.2.id) := List.mem_map.mpr ⟨e, he, hi⟩
  -- the name is not that of the graph itself, so the request is handed up
  have handed : k ∈ ((p.resolveTree d L.ancestors).requests.toGraph id).toList := by
    rw [hl.requests, Requests.mem_toGraph_erase, Requests.mem_toGraph_asked]
    refine ⟨fun hj => hne ?_, .inl hk⟩
    show g.id ∈ _
    rw [hl.id_eq, ← hj]
    exact hid
  cases h with
  | cons hL hd' _ =>
      obtain ⟨e', he', hi', hc⟩ := hL.granted hd' handed hid
      -- no other graph of the line has the name
      obtain rfl : e' = e := List.inj_on_of_nodup_map hnd he' he (hi'.trans hi.symm)
      obtain ⟨b', hb'⟩ := SortedMap.contains_iff.mp hc
      refine ⟨e', he, hi, hc, hL.withholds he hm hb' ?_⟩
      by_contra hv
      have := (hL.provides_iff he).mpr ⟨b', hb', Bool.eq_false_iff.mpr hv⟩
      exact absurd this (Bool.eq_false_iff.mp hp)

/-- **An accessor leads to a graph that binds the key.** -/
theorem Lineage.accessor (h : p.Lineage roots ((d, g) :: L))
    (hd : GraphDeclaration.DistinctIds roots) (hr : p.Refers (d, g) k id) :
    ∃ e ∈ L, e.2.id = id ∧
      ∃ b, e.2.binding? k = some b ∧ (b.isAbsent = true → p.Withholds e.1 k) := by
  obtain ⟨b, hb, hh, hn⟩ := hr
  obtain ⟨retained, hl⟩ := h.link
  have hg := BuildRequest.built_of_build hl.build
  rcases hg.answers hb with hf | ⟨-, rfl⟩
  · obtain ⟨a, ha, hi, hp⟩ := Lookup.accessor_of_found hf hn hh
    obtain ⟨e, he, rfl⟩ := List.mem_map.mp ha
    rcases hp with hp | hq
    · obtain ⟨b', hb', hv⟩ := (h.tail.provides_iff he).mp hp
      exact ⟨e, he, hi, b', hb', fun ha => absurd ha (Bool.eq_false_iff.mp hv)⟩
    · have hc : g.contains k = true := SortedMap.contains_iff.mpr ⟨b, hb⟩
      obtain ⟨e, he, hi, hc, hw⟩ := h.withholds_of_asked hd (hg.mem_asked_iff.mpr ⟨hc, hq⟩)
      obtain ⟨b', hb'⟩ := SortedMap.contains_iff.mp hc
      exact ⟨e, he, hi, b', hb', fun _ => hw⟩
  · cases hh

/-- **Following accessors ends.** -/
theorem Lineage.climbs (hd : GraphDeclaration.DistinctIds roots) :
    ∀ (n : Nat) {L : Line} {d : GraphDeclaration} {g : Graph} {id : DeclarationId}, L.length ≤ n →
      p.Lineage roots ((d, g) :: L) → p.Refers (d, g) k id →
        ∃ e ∈ L, p.Climbs k ((d, g) :: L) e ∧
          ∃ b, e.2.binding? k = some b ∧ (b.isAbsent = true → p.Withholds e.1 k) := by
  intro n
  induction n with
  | zero =>
      intro L d g id hn h hr
      obtain ⟨e, he, -⟩ := h.accessor hd hr
      rw [List.eq_nil_of_length_eq_zero (Nat.le_zero.mp hn)] at he
      cases he
  | succ n ih =>
      intro L d g id hn h hr
      obtain ⟨e, he, rfl, b, hb, hw⟩ := h.accessor hd hr
      -- the graph reached has fewer graphs above it
      obtain ⟨front, M, rfl⟩ := List.append_of_mem he
      have hf : e :: M <:+ front ++ e :: M := List.suffix_append ..
      by_cases hs : ∃ id, p.Refers e k id
      · obtain ⟨id, hs⟩ := hs
        rw [List.length_append, List.length_cons] at hn
        obtain ⟨t, ht, hc, h⟩ := ih (by omega) h.tail.suffix hs
        exact ⟨t, List.mem_append_right _ (List.mem_cons_of_mem e ht), .up hr hf hc, h⟩
      · exact ⟨e, he, .up hr hf (.stay (not_exists.mp hs)), b, hb, hw⟩

/-! ### No accessor dangles -/

/-- Nothing in a graph of a line refers to what is not there. -/
structure Anchored (p : Pass) (roots : List GraphDeclaration) (L : Line) (d : GraphDeclaration)
    (g : Graph) : Prop where
  /-- A request that is left over is to a graph above that withholds the key. -/
  asked : ∀ id k, k ∈ (Requests.toGraph g.ancestorRequests id).toList →
    ∃ e ∈ L, e.2.id = id ∧ p.Withholds e.1 k
  /-- None is left over if the graphs above withhold nothing. -/
  settled : (∀ e ∈ L, ∀ k, ¬ p.Withholds e.1 k) → g.ancestorRequests = .empty
  /-- An accessor leads to a graph above, in the outcome as well, that binds the key, and to a value
  unless the key is withheld there. -/
  leads : ∀ k id, p.Refers (d, g) k id → ∃ e ∈ L, e.2.id = id ∧ e.2 ∈ (p.resolve roots).graphs ∧
    ∃ b, e.2.binding? k = some b ∧ (b.isAbsent = true → p.Withholds e.1 k)
  /-- Following accessors ends at such a graph. -/
  ends : ∀ k id, p.Refers (d, g) k id → ∃ e ∈ L, p.Climbs k ((d, g) :: L) e ∧
    ∃ b, e.2.binding? k = some b ∧ (b.isAbsent = true → p.Withholds e.1 k)

theorem Lineage.anchored (h : p.Lineage roots ((d, g) :: L))
    (hd : GraphDeclaration.DistinctIds roots) : p.Anchored roots L d g where
  asked id k hk := by
    obtain ⟨e, he, hi, -, hw⟩ := h.withholds_of_asked hd hk
    exact ⟨e, he, hi, hw⟩
  settled hn := by
    obtain ⟨retained, hl⟩ := h.link
    have hg := BuildRequest.built_of_build hl.build
    refine SortedMap.eq_empty_of_get? fun id => ?_
    refine Option.eq_none_iff_forall_ne_some.mpr fun keys hi => ?_
    obtain ⟨k, hk⟩ := List.exists_mem_of_ne_nil _ (hg.asked_ne_nil id keys hi)
    obtain ⟨e, he, -, -, hw⟩ := h.withholds_of_asked hd (Requests.mem_toGraph.mpr ⟨keys, hi, hk⟩)
    exact hn e he k hw
  leads k id hr := by
    obtain ⟨e, he, hi, hb⟩ := h.accessor hd hr
    exact ⟨e, he, hi, h.tail.mem_graphs he, hb⟩
  ends k id hr := h.climbs hd L.length (Nat.le_refl _) hr

end Pass

namespace Facts

/-- **No accessor dangles.**  Provided that no way down through the declared graphs meets a name
twice, every graph of the outcome has a lineage, and along each lineage accessors lead to graphs
that bind what is read; only a key that a graph is declared to have no value for stays without one
there. -/
theorem resolve_anchored (f : Facts) (options : Options)
    (hd : GraphDeclaration.DistinctIds f.graphs) :
    (∀ g ∈ (f.resolve options).graphs,
      ∃ d L, (f.pass options).Lineage f.graphs ((d, g) :: L)) ∧
    ∀ d g L, (f.pass options).Lineage f.graphs ((d, g) :: L) →
      (f.pass options).Anchored f.graphs L d g :=
  ⟨fun _ hg => Pass.mem_resolve_iff.mp hg, fun _ _ _ h => h.anchored hd⟩

/-- A graph and one that extends it, of different names. -/
theorem distinctIds_of_extension {d e : GraphDeclaration} (hd : d.extensions = [e])
    (he : e.extensions = []) (hn : e.id ≠ d.id) :
    GraphDeclaration.DistinctIds [d] := by
  have paths : ∀ path, GraphDeclaration.Path [d] path →
      path = [] ∨ path = [d] ∨ path = [e, d] := by
    intro path h
    induction h with
    | nil => exact .inl rfl
    | cons _ hm ih =>
        rcases ih with rfl | rfl | rfl <;> simp_all [GraphDeclaration.next]
  intro path h
  rcases paths path h with rfl | rfl | rfl <;> simp [hn]

/-- A graph whose class an extension reads, with further bindings of the graph. -/
def nested (bindings : List Binding) : Facts where
  classes :=
    [{ origin := .of "Db"
       key := ⟨"Db", none⟩
       scope := some ⟨"AppScope"⟩
       constructors := [{ injectable := true }] }]
  graphs :=
    [{ origin := .of "AppGraph"
       key := ⟨"AppGraph", none⟩
       scopes := [⟨"AppScope"⟩]
       bindings := bindings
       extensions :=
         [{ origin := .of "LoginGraph"
            key := ⟨"LoginGraph", none⟩
            scopes := [⟨"LoginScope"⟩]
            entryPoints := [.accessor "db" { key := ⟨"Db", none⟩ }] }] }]

theorem distinctIds_nested (bindings : List Binding) :
    GraphDeclaration.DistinctIds (nested bindings).graphs :=
  distinctIds_of_extension rfl rfl (by simp [GraphDeclaration.id, Origin.of])

/-- The class is made by the graph that it is scoped to, and the extension reads it there. -/
theorem resolve_anchored_nested :
    ∃ d g L, ((nested []).pass {}).Lineage (nested []).graphs ((d, g) :: L) ∧
      g.binding? ⟨"Db", none⟩ =
        some (.graphAccessor ⟨"Db", none⟩ (.madeUp "AppGraph#Db") ⟨"AppGraph"⟩ none true) ∧
      ((nested []).pass {}).Anchored (nested []).graphs L d g := by
  have read : ((nested []).resolve {}).graphs.any fun g => g.binding? ⟨"Db", none⟩ =
      some (.graphAccessor ⟨"Db", none⟩ (.madeUp "AppGraph#Db") ⟨"AppGraph"⟩ none true) := by
    decide +kernel
  obtain ⟨g, hg, hb⟩ := List.any_eq_true.mp read
  obtain ⟨lineages, anchored⟩ := resolve_anchored (nested []) {} (distinctIds_nested [])
  obtain ⟨d, L, hl⟩ := lineages g hg
  exact ⟨d, g, L, hl, of_decide_eq_true hb, anchored d g L hl⟩

/-- A graph and one that extends it; the graph is declared to have no value for the class that is
scoped to it. -/
def withheld : Facts := nested [.absent ⟨"Db", none⟩ (.of "NoDb")]

/-- A graph that withholds a key is asked for it in vain: the extension keeps an accessor that leads
to no value, and the request. -/
theorem resolve_withheld : GraphDeclaration.DistinctIds withheld.graphs ∧
    (¬ ∀ g ∈ (withheld.resolve {}).graphs, g.ancestorRequests = .empty) ∧
    (withheld.resolve {}).graphs.map (fun g => (g.id.name, g.binding? ⟨"Db", none⟩)) =
      [("AppGraph", some (.absent ⟨"Db", none⟩ (.of "NoDb"))),
        ("LoginGraph", some
          (.graphAccessor ⟨"Db", none⟩ (.madeUp "AppGraph#Db") ⟨"AppGraph"⟩ none true))] := by
  have left : (withheld.resolve {}).graphs.any fun g => !g.ancestorRequests.entries.isEmpty := by
    decide +kernel
  obtain ⟨g, hg, hr⟩ := List.any_eq_true.mp left
  refine ⟨distinctIds_nested _, fun h => ?_, by decide +kernel⟩
  rw [h g hg] at hr
  cases hr

end Facts

end Wiring
