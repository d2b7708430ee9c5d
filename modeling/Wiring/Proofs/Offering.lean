import Wiring.Proofs.Accessors
import Wiring.Proofs.Pruning

/-!
# Looking keys up below graphs that keep less

A graph that was built again and kept less offers less to those that extend it, but all that its own
entry points need (`Built.offers`).  Below such graphs, looking a key up brings what it brought
before, or another accessor in the place of one (`Link.follows`), provided that what is read from a
graph above is needed there by entry points, or is a class that the graph will be asked to hold
(`Supported`).
-/

namespace Wiring

/-! ### What a part of a graph offers -/

namespace Graph

/-- A graph built again offers no more than the graph, and all that the entry points need. -/
structure Offers (g : Graph) (a : Ancestor) : Prop where
  id : a.id = g.id
  scopes : a.scopes = g.scopes
  yields : ∀ k, a.provides k = true → (Ancestor.ofGraph g).provides k = true
  needed : ∀ k, g.Needs k → (Ancestor.ofGraph g).provides k = true → a.provides k = true
  gathered : ∀ k sources, a.collections.get? k = some sources →
    (Ancestor.ofGraph g).collections.get? k = some sources
  collected : ∀ k sources, g.Needs k → (Ancestor.ofGraph g).collections.get? k = some sources →
    a.collections.get? k = some sources

end Graph

/-- A binding with a scope is no alias. -/
theorem Binding.isAlias_of_scope? {b : Binding} {s : Scope} (hs : b.scope? = some s) :
    b.isAlias = false := by
  cases b with
  | aliased => cases hs
  | _ => rfl

/-- Accessors tell nothing of a graph but its name. -/
theorem Ancestor.accessor_eq_of_id {a a' : Ancestor} (h : a'.id = a.id) (k : TypeKey) :
    a'.accessor k = a.accessor k := by
  rw [accessor, accessor, h]

namespace BuildRequest

variable {r r' : BuildRequest} {g g' : Graph} {k : TypeKey}

/-- A graph offers the sources of the collections that it binds. -/
theorem Built.get?_collections (hg : r.Built g) {sources : List Source} :
    (Ancestor.ofGraph g).collections.get? k = some sources ↔
      ∃ b, g.binding? k = some b ∧ Ancestor.sourcesOf? b = some sources := by
  have listed : (g.bindings.values.filterMap fun b =>
      (Ancestor.sourcesOf? b).map (b.key, ·)).map (·.1) =
        (g.bindings.values.filter fun b => (Ancestor.sourcesOf? b).isSome).map (·.key) := by
    rw [List.map_filterMap, ← List.filterMap_eq_map, List.filterMap_filter]
    refine List.filterMap_congr fun b _ => ?_
    cases Ancestor.sourcesOf? b <;> rfl
  have distinct : (g.bindings.values.map (·.key)).Nodup :=
    OwnKeys.nodup_keys fun k b hb => hg.key_eq hb
  rw [Ancestor.ofGraph, SortedMap.get?_ofList
    (listed ▸ distinct.sublist (List.filter_sublist.map _))]
  simp only [List.mem_filterMap, Option.map_eq_some_iff, SortedMap.mem_values, Prod.mk.injEq]
  constructor
  · rintro ⟨b, ⟨j, hb⟩, _, hs, rfl, rfl⟩
    exact ⟨b, (hg.key_eq hb).symm ▸ hb, hs⟩
  · rintro ⟨b, hb, hs⟩
    exact ⟨b, ⟨k, hb⟩, _, hs, hg.key_eq hb, rfl⟩

/-- **A part of a graph offers a part of what the graph offers.** -/
theorem Built.offers (hg : r.Built g) (hg' : r'.Built g') (h : g.Remains g') :
    g.Offers (.ofGraph g') where
  id := h.id
  scopes := h.scopes
  yields k hp := by
    obtain ⟨b', hb', ha⟩ := hg'.provides_iff.mp hp
    obtain ⟨b, hb, hm⟩ := h.bindings k b' hb'
    exact hg.provides_iff.mpr ⟨b, hb, hm.isAbsent_eq ▸ ha⟩
  needed k hk hp := by
    obtain ⟨b, hb, ha⟩ := hg.provides_iff.mp hp
    obtain ⟨b', hb', hm⟩ := h.exists_matching hk hb
    exact hg'.provides_iff.mpr ⟨b', hb', hm.isAbsent_eq.trans ha⟩
  gathered k sources hs := by
    obtain ⟨b', hb', hs⟩ := hg'.get?_collections.mp hs
    obtain ⟨b, hb, hm⟩ := h.bindings k b' hb'
    exact hg.get?_collections.mpr ⟨b, hb, hm.sourcesOf?_eq ▸ hs⟩
  collected k sources hk hs := by
    obtain ⟨b, hb, hs⟩ := hg.get?_collections.mp hs
    obtain ⟨b', hb', hm⟩ := h.exists_matching hk hb
    exact hg'.get?_collections.mpr ⟨b', hb', hm.sourcesOf?_eq.trans hs⟩

end BuildRequest

/-! ### Lines side by side -/

/-- Of two lists side by side, the one whose entries are accepted less often is searched no
shorter. -/
theorem forall₂_find? {α β : Type} {R : α → β → Prop} {p : α → Bool} {q : β → Bool} {as : List α}
    {bs : List β} (h : List.Forall₂ R as bs) (hqp : ∀ a b, R a b → q b = true → p a = true) :
    (as.find? p = none ∧ bs.find? q = none) ∨
      ∃ a b, R a b ∧ as.find? p = some a ∧ (q b = true → bs.find? q = some b) := by
  induction h with
  | nil => exact .inl ⟨rfl, rfl⟩
  | @cons a b as bs hab _ ih =>
      cases hp : p a with
      | true =>
          exact .inr ⟨a, b, hab, List.find?_cons_of_pos hp, fun hq => List.find?_cons_of_pos hq⟩
      | false =>
          have hp : ¬ p a = true := Bool.eq_false_iff.mp hp
          have hq : ¬ q b = true := fun hq => hp (hqp a b hab hq)
          rw [List.find?_cons_of_neg hp, List.find?_cons_of_neg hq]
          exact ih

namespace Line

/-- What the graphs of a line offer when they are built again. -/
def Offers (L : Line) (ancestors : List Ancestor) : Prop :=
  List.Forall₂ (fun e a => e.2.Offers a) L ancestors

variable {L : Line} {ancestors : List Ancestor} (h : L.Offers ancestors)

include h

theorem Offers.mem_scopes {s : Scope} (hs : ∃ a ∈ L.ancestors, s ∈ a.scopes) :
    ∃ a ∈ ancestors, s ∈ a.scopes := by
  induction h with
  | nil => exact hs
  | @cons e a L ancestors ha _ ih =>
      rcases (List.exists_mem_cons_iff ..).mp hs with hs | hs
      · exact ⟨a, .head _, ha.scopes ▸ hs⟩
      · obtain ⟨a', ha', hs⟩ := ih hs
        exact ⟨a', .tail _ ha', hs⟩

/-- The nearest holder of a scope is the same. -/
theorem Offers.find?_holdsScope (s : Scope) :
    (L.find? (·.2.scopes.contains s) = none ∧ ancestors.find? (·.holdsScope s) = none) ∨
      ∃ e a, e.2.Offers a ∧ L.find? (·.2.scopes.contains s) = some e ∧
        ancestors.find? (·.holdsScope s) = some a := by
  have same : ∀ (e : GraphDeclaration × Graph) (a : Ancestor), e.2.Offers a →
      a.holdsScope s = e.2.scopes.contains s := fun e a ha => by rw [Ancestor.holdsScope, ha.scopes]
  rcases forall₂_find? h fun e a ha hs => (same e a ha).symm.trans hs with hn | ⟨e, a, ha, he, hs⟩
  · exact .inl hn
  · exact .inr ⟨e, a, ha, he, hs ((same e a ha).trans (List.find?_some
      (p := fun e : GraphDeclaration × Graph => e.2.scopes.contains s) he))⟩

/-- The nearest graph that yields a key, if it still does. -/
theorem Offers.find?_provides (k : TypeKey) :
    (L.find? (fun e => (Ancestor.ofGraph e.2).provides k) = none ∧
      ancestors.find? (·.provides k) = none) ∨
      ∃ e a, e.2.Offers a ∧ L.find? (fun e => (Ancestor.ofGraph e.2).provides k) = some e ∧
        (a.provides k = true → ancestors.find? (·.provides k) = some a) :=
  forall₂_find? h fun _ _ ha => ha.yields k

/-- The sources that the nearest graph with them offers, if its entry points need the
collection. -/
theorem Offers.findSome?_collections {k : TypeKey}
    (hn : ∀ e, L.find? (fun e => (Ancestor.ofGraph e.2).collections.contains k) = some e →
      e.2.Needs k) :
    (ancestors.findSome? fun a => a.collections.get? k) =
      L.ancestors.findSome? fun a => a.collections.get? k := by
  induction h with
  | nil => rfl
  | @cons e a L ancestors ha _ ih =>
      rw [List.findSome?_cons, Line.ancestors, List.map_cons, List.findSome?_cons]
      cases hs : (Ancestor.ofGraph e.2).collections.get? k with
      | some sources =>
          have first := hn e (List.find?_cons_of_pos (SortedMap.contains_iff.mpr ⟨sources, hs⟩))
          rw [ha.collected k sources first hs]
      | none =>
          have none' : a.collections.get? k = none :=
            Option.eq_none_iff_forall_ne_some.mpr fun sources hs' => by
              rw [ha.gathered k sources hs'] at hs
              cases hs
          rw [none']
          refine ih fun e' he' => hn e' ?_
          rw [List.find?_cons_of_neg, he']
          exact Bool.eq_false_iff.mp (SortedMap.not_contains_iff.mpr hs)

end Line

/-! ### Look-up below them -/

namespace Lookup

variable {l : Lookup} {L : Line} {ancestors : List Ancestor} {k : TypeKey}

/-- What looking a key up brings in another place: the same, or another accessor in the place of one
to a graph that yields the key; if a graph is asked to hold the key, it is that one. -/
inductive Follows (l l' : Lookup) (L : Line) (k : TypeKey) : Prop where
  | same (h : l'.resolve k = l.resolve k)
  | moved {e : GraphDeclaration × Graph} {a : Ancestor}
      (old : (l.resolve k).resolution = .found ((Ancestor.ofGraph e.2).accessor k))
      (new : (l'.resolve k).resolution = .found (a.accessor k))
      (errorless : (l'.resolve k).errors = [])
      (yields : (Ancestor.ofGraph e.2).provides k = true)
      (asked : ∀ id, (l'.resolve k).asked = some id → L.find? (·.2.id = id) = some e)

/-- What follows stands. -/
theorem Follows.stands {l' : Lookup} (h : l.Follows l' L k) {b : Binding}
    (hb : Expansion.Answers l k b) (he : (l.resolve k).errors = []) : l.Stands l' k b := by
  cases h with
  | same h =>
      refine ⟨h ▸ he, ⟨b, ?_, .inl rfl⟩, fun hm => h ▸ hm⟩
      rw [Expansion.Answers, h]
      exact hb
  | moved old new errorless =>
      refine ⟨errorless, ⟨_, .inl new, .inr ⟨_, _, hb.unique (.inl old), rfl⟩⟩, fun hm => ?_⟩
      rw [new] at hm
      cases hm

theorem resolve_of_registered {b : Binding} (hb : l.catalog.explicit.get? k = some b)
    (ha : b.isAlias = false) : l.resolve k = { resolution := .found (l.ofExplicit k b) } := by
  simp only [resolve, hb, ha, Bool.false_eq_true, if_false]

section Stages

variable (hn : l.catalog.explicit.get? k = none)

include hn

theorem resolve_of_collected (hc : l.collections.isCollection k = true) {b : Binding}
    {errors : List GraphError}
    (ha : l.collections.aggregateWith k (l.inherited k) = (some b, errors)) :
    l.resolve k = { resolution := .found b, errors } := by
  simp only [resolve, hn, hc, ha, if_true]

theorem resolve_of_provider (hc : l.collections.isCollection k = false) {a : Ancestor}
    (hp : l.provider? k = some a) : l.resolve k = { resolution := .found (a.accessor k) } := by
  simp only [resolve, hn, hc, hp, Bool.false_eq_true, if_false]

theorem resolve_of_made (hc : l.collections.isCollection k = false) (hp : l.provider? k = none)
    {b : Binding} (hb : l.catalog.index.synthesize? k = some b) :
    l.resolve k = l.ofImplicit k b := by
  simp only [resolve, hn, hc, hp, hb, Bool.false_eq_true, if_false]

theorem resolve_of_unmade (hc : l.collections.isCollection k = false) (hp : l.provider? k = none)
    (hb : l.catalog.index.synthesize? k = none) : l.resolve k = { resolution := .missing } := by
  simp only [resolve, hn, hc, hp, hb, Bool.false_eq_true, if_false]

/-- The key of a collection is bound to its sources. -/
theorem sourcesOf?_of_collection (hf : l.collections.Filled)
    (hc : l.collections.isCollection k = true) {b : Binding} (hb : Expansion.Answers l k b) :
    Ancestor.sourcesOf? b ≠ none := by
  cases ha : l.collections.aggregateWith k (l.inherited k) with
  | mk collected errors =>
      cases collected with
      | none => exact absurd ha (hf.aggregateWith_ne_none hc)
      | some b' =>
          have found := resolve_of_collected hn hc ha
          obtain rfl := hb.unique (.inl (by rw [found]))
          obtain ⟨_, _, _, _, _, rfl⟩ := CollectionTable.multibinding_of_aggregateWith ha
          exact Option.some_ne_none _

end Stages

/-- A class that was read from the graph that it is left to is read from another one above, or that
graph is asked to hold it. -/
theorem follows_of_left (h : L.Offers ancestors) {e : GraphDeclaration × Graph} {b : Binding}
    {s : Scope} (hn : l.catalog.explicit.get? k = none) (hc : l.collections.isCollection k = false)
    (hp : l.provider? k = some (.ofGraph e.2)) (hb : l.catalog.index.synthesize? k = some b)
    (hs : b.scope? = some s) (hout : s ∉ l.scopes)
    (holder : L.find? (·.2.scopes.contains s) = some e)
    (nearest : L.find? (·.2.id = e.2.id) = some e) : l.Follows (l.below ancestors) L k := by
  have old : (l.resolve k).resolution = .found ((Ancestor.ofGraph e.2).accessor k) := by
    rw [resolve_of_provider hn hc hp]
  have yields := (provider?_eq_some hp).2
  cases hp' : (l.below ancestors).provider? k with
  | some a =>
      have found := resolve_of_provider (l := l.below ancestors) hn hc hp'
      exact .moved (a := a) old (by rw [found]) (by rw [found]) yields fun id hid => by
        rw [found] at hid
        cases hid
  | none =>
      obtain ⟨a, ha, left⟩ : ∃ a, e.2.Offers a ∧ (l.below ancestors).scopeHolder? b = some a := by
        have out : ¬ l.scopes.contains s = true := by simpa using hout
        have left : (l.below ancestors).scopeHolder? b = ancestors.find? (·.holdsScope s) := by
          rw [scopeHolder?, hs, Option.bind_some]
          exact if_neg out
        rcases h.find?_holdsScope s with ⟨none', -⟩ | ⟨e', a, ha, he', ha'⟩
        · cases none'.symm.trans holder
        · obtain rfl := Option.some.inj (he'.symm.trans holder)
          exact ⟨a, ha, left.trans ha'⟩
      have found := resolve_of_made (l := l.below ancestors) hn hc hp' hb
      rw [ofImplicit, left] at found
      dsimp only at found
      refine .moved (a := a) old (by rw [found]) (by rw [found]) yields fun id hid => ?_
      rw [found] at hid
      dsimp only at hid
      split at hid
      · cases hid
      · obtain rfl := Option.some.inj hid
        rw [ha.id]
        exact nearest

variable (hl : l.ancestors = L.ancestors) (h : L.Offers ancestors)

include hl h

/-- The graph that holds the scope of a binding is the same. -/
theorem scopeHolder?_below (b : Binding) :
    (l.scopeHolder? b = none ∧ (l.below ancestors).scopeHolder? b = none) ∨
      ∃ e a s, e ∈ L ∧ e.2.Offers a ∧ l.scopeHolder? b = some (.ofGraph e.2) ∧
        (l.below ancestors).scopeHolder? b = some a ∧ b.scope? = some s ∧ s ∉ l.scopes ∧
          L.find? (·.2.scopes.contains s) = some e := by
  have here : (l.below ancestors).scopeHolder? b = b.scope?.bind fun s =>
      if l.scopes.contains s then none else ancestors.find? (·.holdsScope s) := rfl
  rw [here, scopeHolder?, hl]
  cases b.scope? with
  | none => exact .inl ⟨rfl, rfl⟩
  | some s =>
      rw [Option.bind_some, Option.bind_some]
      cases hs : l.scopes.contains s with
      | true => exact .inl ⟨rfl, rfl⟩
      | false =>
          have found : L.ancestors.find? (·.holdsScope s) =
              (L.find? (·.2.scopes.contains s)).map fun e => .ofGraph e.2 := List.find?_map ..
          rw [found]
          rcases h.find?_holdsScope s with ⟨hn, hn'⟩ | ⟨e, a, ha, he, ha'⟩
          · rw [hn, hn']
            exact .inl ⟨rfl, rfl⟩
          · rw [he, ha']
            exact .inr ⟨e, a, s, List.mem_of_find?_eq_some he, ha, rfl, rfl, rfl,
              by simpa using hs, he⟩

/-- The nearest graph that yields a key, if it still does. -/
theorem provider?_below (k : TypeKey) :
    (l.provider? k = none ∧ (l.below ancestors).provider? k = none) ∨
      ∃ e a, e ∈ L ∧ e.2.Offers a ∧ (Ancestor.ofGraph e.2).provides k = true ∧
        l.provider? k = some (.ofGraph e.2) ∧
          (a.provides k = true → (l.below ancestors).provider? k = some a) := by
  have found : l.provider? k = (L.find? fun e => (Ancestor.ofGraph e.2).provides k).map fun e =>
      .ofGraph e.2 := by
    rw [provider?, hl]
    exact List.find?_map ..
  rw [found]
  rcases h.find?_provides k with ⟨hn, hn'⟩ | ⟨e, a, ha, he, ha'⟩
  · rw [hn]
    exact .inl ⟨rfl, hn'⟩
  · rw [he]
    exact .inr ⟨e, a, List.mem_of_find?_eq_some he, ha, List.find?_some
      (p := fun e : GraphDeclaration × Graph => (Ancestor.ofGraph e.2).provides k) he, rfl, ha'⟩

/-- A registered binding is left to the graph that it was left to, if that still yields the key. -/
theorem ofExplicit_below {b : Binding} (hn : ∀ e ∈ L, l.scopeHolder? b = some (.ofGraph e.2) →
    (Ancestor.ofGraph e.2).provides k = true → e.2.Needs k) :
    (l.below ancestors).ofExplicit k b = l.ofExplicit k b := by
  rw [ofExplicit, ofExplicit]
  rcases scopeHolder?_below hl h b with ⟨hs, hs'⟩ | ⟨e, a, -, he, ha, hs, hs', -⟩
  · rw [hs, hs']
  · rw [hs, hs']
    dsimp only
    have same : a.provides k = (Ancestor.ofGraph e.2).provides k := by
      rw [Bool.eq_iff_iff]
      exact ⟨ha.yields k, fun hp => ha.needed k (hn e he hs hp) hp⟩
    rw [same, Ancestor.accessor_eq_of_id (a := .ofGraph e.2) ha.id]

/-- A registered key comes to the same. -/
theorem resolve_below_of_registered {b : Binding} (hb : l.catalog.explicit.get? k = some b)
    (hn : ∀ e ∈ L, l.scopeHolder? b = some (.ofGraph e.2) →
      (Ancestor.ofGraph e.2).provides k = true → e.2.Needs k) :
    (l.below ancestors).resolve k = l.resolve k := by
  have hb' : (l.below ancestors).catalog.explicit.get? k = some b := hb
  simp only [resolve, hb, hb', ofExplicit_below hl h hn]
  rfl

/-- A collection comes to the same, if the graph that it is gathered from needs it. -/
theorem resolve_below_of_collection (hf : l.collections.Filled)
    (hn : l.catalog.explicit.get? k = none) (hc : l.collections.isCollection k = true)
    (hg : ∀ e, L.find? (fun e => (Ancestor.ofGraph e.2).collections.contains k) = some e →
      e.2.Needs k) : (l.below ancestors).resolve k = l.resolve k := by
  have gathered : (l.below ancestors).inherited k = l.inherited k := by
    rw [inherited, inherited, hl]
    exact congrArg (·.getD []) (h.findSome?_collections hg)
  cases ha : l.collections.aggregateWith k (l.inherited k) with
  | mk collected errors =>
      cases collected with
      | none => exact absurd ha (hf.aggregateWith_ne_none hc)
      | some b =>
          have found := resolve_of_collected (l := l.below ancestors) hn hc (gathered ▸ ha)
          rw [found, resolve_of_collected hn hc ha]

/-- A binding made from the index is left to the graph that it was left to. -/
theorem ofImplicit_below (hp : l.provider? k = none) (b : Binding) :
    (l.below ancestors).ofImplicit k b = l.ofImplicit k b := by
  rw [ofImplicit, ofImplicit]
  rcases scopeHolder?_below hl h b with ⟨hs, hs'⟩ | ⟨e, a, s, he, ha, hs, hs', -⟩
  · rw [hs, hs']
  · have above : Ancestor.ofGraph e.2 ∈ l.ancestors := hl ▸ List.mem_map_of_mem he
    have withheld : ¬ (Ancestor.ofGraph e.2).provides k = true :=
      List.find?_eq_none.mp hp _ above
    have withheld' : ¬ a.provides k = true := fun hp => withheld (ha.yields k hp)
    rw [hs, hs']
    dsimp only
    rw [if_neg withheld, if_neg withheld', Ancestor.accessor_eq_of_id (a := .ofGraph e.2) ha.id,
      ha.id]
    rfl

/-- A key that no graph above yields comes to the same. -/
theorem resolve_below_of_provider?_eq_none (hn : l.catalog.explicit.get? k = none)
    (hc : l.collections.isCollection k = false) (hp : l.provider? k = none)
    (hp' : (l.below ancestors).provider? k = none) :
    (l.below ancestors).resolve k = l.resolve k := by
  cases hb : l.catalog.index.synthesize? k with
  | none =>
      rw [resolve_of_unmade hn hc hp hb, resolve_of_unmade (l := l.below ancestors) hn hc hp' hb]
  | some b =>
      rw [resolve_of_made hn hc hp hb, resolve_of_made (l := l.below ancestors) hn hc hp' hb,
        ofImplicit_below hl h hp]

/-- A key that a graph above yields comes to the same, if the entry points of that graph need it. -/
theorem resolve_below_of_needs (hn : l.catalog.explicit.get? k = none)
    (hc : l.collections.isCollection k = false)
    (hk : ∀ e ∈ L, l.provider? k = some (.ofGraph e.2) → e.2.Needs k) :
    (l.below ancestors).resolve k = l.resolve k := by
  rcases provider?_below hl h k with ⟨hp, hp'⟩ | ⟨e, a, he, ha, hy, hp, hp'⟩
  · exact resolve_below_of_provider?_eq_none hl h hn hc hp hp'
  · have found := resolve_of_provider (l := l.below ancestors) hn hc
      (hp' (ha.needed k (hk e he hp) hy))
    rw [found, resolve_of_provider hn hc hp, Ancestor.accessor_eq_of_id (a := .ofGraph e.2) ha.id]

end Lookup

namespace Pass

variable {p : Pass} {L : Line} {d : GraphDeclaration} {g : Graph} {k : TypeKey}
  {retained : SortedSet TypeKey} {ancestors : List Ancestor}

/-- The index makes a key for a scope; graphs above may be asked to hold it. -/
def Promotable (p : Pass) (k : TypeKey) : Prop :=
  ∃ b s, p.index.synthesize? k = some b ∧ b.scope? = some s

/-- What a graph may keep when it is shrunk: what its entry points need, what it may be asked to
hold, and what these need; everything if everything is validated. -/
inductive Kept (p : Pass) (g : Graph) : TypeKey → Prop where
  | validated {k : TypeKey} (h : p.options.fullGraphValidation = true)
      (hk : g.contains k = true) : Kept p g k
  | entered {k : TypeKey} (h : k ∈ g.rootKeys) : Kept p g k
  | held {k : TypeKey} (h : p.Promotable k) (hk : g.contains k = true) : Kept p g k
  | edge {e : Edge} (he : e ∈ g.edges) (h : Kept p g e.source) : Kept p g e.target

/-- A graph leaves a key to a graph above: the index makes the key for a scope that the graph does
not hold, and the graph above is the nearest that does, and the nearest of its name. -/
structure Leaves (p : Pass) (L : Line) (d : GraphDeclaration) (k : TypeKey)
    (e : GraphDeclaration × Graph) : Prop where
  unregistered : (p.registered d).get? k = none
  holder : ∃ b s, p.index.synthesize? k = some b ∧ b.scope? = some s ∧ s ∉ d.scopes ∧
    L.find? (·.2.scopes.contains s) = some e
  nearest : L.find? (·.2.id = e.2.id) = some e

/-- The graphs above support what a graph may keep. -/
structure Supported (p : Pass) (L : Line) (d : GraphDeclaration) (g : Graph) : Prop where
  /-- Nothing depends without a default on a key declared to have no value. -/
  required : ∀ e ∈ g.edges, p.Kept g e.source → e.hasDefault = false → ¬ p.Withholds d e.target
  /-- What is read from a graph above is needed there by entry points, or left to it. -/
  read : ∀ k id, p.Kept g k → p.Refers (d, g) k id → ∀ e ∈ L, e.2.id = id →
    (Ancestor.ofGraph e.2).provides k = true → e.2.Needs k ∨ p.Leaves L d k e
  /-- The graph that a collection is gathered from needs it for entry points. -/
  gathered : ∀ k b, p.Kept g k → (p.registered d).get? k = none → g.binding? k = some b →
    Ancestor.sourcesOf? b ≠ none →
      ∀ e, L.find? (fun e => (Ancestor.ofGraph e.2).collections.contains k) = some e → e.2.Needs k

section Link

variable (hl : p.Link L d g retained) (hs : p.Supported L d g) (hk : p.Kept g k)

include hl hs hk

/-- What is read from a graph above is needed there, or left to it. -/
theorem Link.read {e : GraphDeclaration × Graph} (he : e ∈ L) {b : Binding}
    (hb : g.binding? k = some b) (found : ((p.request d L.ancestors retained).looked.resolve
      k).resolution = .found ((Ancestor.ofGraph e.2).accessor k))
    (hn : (p.registered d).get? k ≠ some ((Ancestor.ofGraph e.2).accessor k))
    (hy : (Ancestor.ofGraph e.2).provides k = true) : e.2.Needs k ∨ p.Leaves L d k e := by
  obtain rfl := ((BuildRequest.built_of_build hl.build).answers hb).unique (.inl found)
  exact hs.read k _ hk ⟨_, hb, rfl, hn⟩ e he rfl hy

/-- **What a supported graph keeps, it finds again** below what the graphs above offer. -/
theorem Link.follows (h : L.Offers ancestors) {b : Binding} (hb : g.binding? k = some b) :
    (p.request d L.ancestors retained).looked.Follows
      ((p.request d L.ancestors retained).looked.below ancestors) L k := by
  have answer := (BuildRequest.built_of_build hl.build).answers hb
  have read := fun e (he : e ∈ L) => hl.read hs hk he hb
  have index := (p.request d L.ancestors retained).index_looked
  have filled := (p.request d L.ancestors retained).filled_looked
  have above : (p.request d L.ancestors retained).looked.ancestors = L.ancestors := rfl
  have scopes : (p.request d L.ancestors retained).looked.scopes = d.scopes := rfl
  have explicit : (p.request d L.ancestors retained).looked.catalog.explicit = p.registered d := rfl
  rw [← explicit] at read
  -- how the graph came about matters no more
  generalize (p.request d L.ancestors retained).looked = l at *
  cases hr : l.catalog.explicit.get? k with
  | some b₀ =>
      refine .same (Lookup.resolve_below_of_registered above h hr fun e he holder hy => ?_)
      obtain ⟨-, s, hs₀⟩ := Lookup.scopeHolder?_eq_some holder
      have found : (l.resolve k).resolution = .found ((Ancestor.ofGraph e.2).accessor k) := by
        rw [Lookup.resolve_of_registered hr (Binding.isAlias_of_scope? hs₀), Lookup.ofExplicit,
          holder]
        exact congrArg Resolution.found (if_pos hy)
      refine (read e he found (fun hr' => ?_) hy).resolve_right fun left => ?_
      · rw [hr] at hr'
        rw [Option.some.inj hr'] at hs₀
        cases hs₀
      · have := left.unregistered
        rw [← explicit, hr] at this
        cases this
  | none =>
      cases hc : l.collections.isCollection k with
      | true =>
          refine .same (Lookup.resolve_below_of_collection above h filled hr hc ?_)
          exact hs.gathered k b hk (explicit ▸ hr) hb
            (Lookup.sourcesOf?_of_collection hr filled hc answer)
      | false =>
          by_cases hn : ∀ e ∈ L, l.provider? k = some (.ofGraph e.2) → e.2.Needs k
          · exact .same (Lookup.resolve_below_of_needs above h hr hc hn)
          · simp only [not_forall] at hn
            obtain ⟨e, he, hp, hn⟩ := hn
            have found : (l.resolve k).resolution = .found ((Ancestor.ofGraph e.2).accessor k) := by
              rw [Lookup.resolve_of_provider hr hc hp]
            have unregistered : l.catalog.explicit.get? k ≠
                some ((Ancestor.ofGraph e.2).accessor k) := fun hr' => by
              rw [hr] at hr'
              cases hr'
            obtain ⟨-, ⟨b', s, hb', hs', hout, holder⟩, nearest⟩ :=
              (read e he found unregistered (Lookup.provider?_eq_some hp).2).resolve_left hn
            exact Lookup.follows_of_left h hr hc hp (index ▸ hb') hs' (scopes ▸ hout) holder nearest

end Link

end Pass

end Wiring
