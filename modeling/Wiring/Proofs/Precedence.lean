import Wiring.Proofs.Closure

/-!
# Which binding a key gets

A key gets the binding that comes first of: the registered one, its collection, an accessor to the
nearest ancestor that yields it, the one made from the index, none.  A registered or made binding may
be left to the nearest ancestor that has its scope.  `Precedence` says so, case by case, of what is
registered, the collections, the index, the ancestors and the scopes of the graph, and of nothing
else: a graph that was built binds each key so (`binding?_iff_precedence`), in whatever order its
keys were found.

Nor do the answers remembered from one request to the next play a part: what is made for a key, or
aggregated, is what would be made or aggregated without them (`Catalog.implicit_asked`,
`CollectionTable.resolve_asked`).
-/

namespace Wiring

/-! ### The nearest ancestor -/

/-- The nearest of some ancestors with a property. -/
structure Nearest (p : Ancestor → Prop) (ancestors : List Ancestor) (a : Ancestor) : Prop where
  has : p a
  first : ∃ nearer farther, ancestors = nearer ++ a :: farther ∧ ∀ a' ∈ nearer, ¬ p a'

theorem nearest_iff_find? {p : Ancestor → Bool} {ancestors : List Ancestor} {a : Ancestor} :
    Nearest (fun a => p a = true) ancestors a ↔ ancestors.find? p = some a := by
  rw [List.find?_eq_some_iff_append]
  simp only [Bool.not_eq_true', ← Bool.not_eq_true]
  exact ⟨fun ⟨has, first⟩ => ⟨has, first⟩, fun ⟨has, first⟩ => ⟨has, first⟩⟩

section

variable (registered : SortedMap TypeKey Binding) (collections : CollectionTable) (index : Index)
  (ancestors : List Ancestor) (scopes : List Scope)

/-- The graph leaves a binding to the ancestor: it has not got the scope of the binding itself, and
the ancestor is the nearest that has. -/
def Holds (b : Binding) (a : Ancestor) : Prop :=
  ∃ s, b.scope? = some s ∧ s ∉ scopes ∧ Nearest (fun a => s ∈ a.scopes) ancestors a

/-- The sources of a collection that the nearest ancestor with it has. -/
inductive Inherits (key : TypeKey) : List Source → Prop
  | sources {a : Ancestor} {sources : List Source}
      (nearest : Nearest (fun a => a.collections.contains key = true) ancestors a)
      (held : a.collections.get? key = some sources) : Inherits key sources
  | nothing (without : ∀ a ∈ ancestors, a.collections.contains key = false) : Inherits key []

/-- The binding that a key gets. -/
inductive Precedence (key : TypeKey) : Binding → Prop
  | registered {b : Binding} (bound : registered.get? key = some b)
      (own : ∀ a, Holds ancestors scopes b a → a.provides key = false) : Precedence key b
  | left {b : Binding} {a : Ancestor} (bound : registered.get? key = some b)
      (holds : Holds ancestors scopes b a) (provides : a.provides key = true) :
      Precedence key (a.accessor key)
  | collected {b : Binding} {sources : List Source} (free : registered.get? key = none)
      (collection : collections.isCollection key = true) (inherits : Inherits ancestors key sources)
      (aggregate : (collections.aggregateWith key sources).1 = some b) : Precedence key b
  | inherited {a : Ancestor} (free : registered.get? key = none)
      (single : collections.isCollection key = false)
      (nearest : Nearest (fun a => a.provides key = true) ancestors a) :
      Precedence key (a.accessor key)
  | made {b : Binding} (free : registered.get? key = none)
      (single : collections.isCollection key = false)
      (lacking : ∀ a ∈ ancestors, a.provides key = false) (made : index.synthesize? key = some b)
      (own : ∀ a, ¬ Holds ancestors scopes b a) : Precedence key b
  | promoted {b : Binding} {a : Ancestor} (free : registered.get? key = none)
      (single : collections.isCollection key = false)
      (lacking : ∀ a ∈ ancestors, a.provides key = false) (made : index.synthesize? key = some b)
      (holds : Holds ancestors scopes b a) : Precedence key (a.accessor key)
  | absent (free : registered.get? key = none) (single : collections.isCollection key = false)
      (lacking : ∀ a ∈ ancestors, a.provides key = false) (unmade : index.synthesize? key = none) :
      Precedence key (Expansion.absentBinding key)

end

/-! ### Look-up -/

namespace Lookup

variable {l : Lookup} {key : TypeKey} {b : Binding}

/-- What a lookup has to go by. -/
abbrev Grants (l : Lookup) : TypeKey → Binding → Prop :=
  Precedence l.catalog.explicit l.collections l.catalog.index l.ancestors l.scopes

theorem provider?_eq_some_iff {a : Ancestor} : l.provider? key = some a ↔
    Nearest (fun a => a.provides key = true) l.ancestors a :=
  nearest_iff_find?.symm

theorem provider?_eq_none_iff : l.provider? key = none ↔
    ∀ a ∈ l.ancestors, a.provides key = false := by
  rw [provider?, List.find?_eq_none]
  simp

theorem holds_iff {a : Ancestor} : Holds l.ancestors l.scopes b a ↔ l.scopeHolder? b = some a := by
  have near : ∀ s, Nearest (fun a => s ∈ a.scopes) l.ancestors a ↔
      l.ancestors.find? (·.holdsScope s) = some a := fun s => by
    rw [← nearest_iff_find?]
    simp [Ancestor.holdsScope]
  rw [Holds, scopeHolder?, Option.bind_eq_some_iff]
  refine exists_congr fun s => and_congr_right fun _ => ?_
  by_cases hs : s ∈ l.scopes <;> simp [hs, near]

theorem inherits_iff {sources : List Source} :
    Inherits l.ancestors key sources ↔ l.inherited key = sources := by
  have found : ∀ {a : Ancestor} {sources : List Source}, a.collections.get? key = some sources →
      Nearest (fun a => a.collections.contains key = true) l.ancestors a →
        l.ancestors.findSome? (fun a => a.collections.get? key) = some sources := by
    rintro a sources held ⟨-, nearer, farther, he, hn⟩
    refine List.findSome?_eq_some_iff.mpr ⟨nearer, a, farther, he, held, fun a' ha' => ?_⟩
    exact SortedMap.not_contains_iff.mp (Bool.eq_false_iff.mpr (hn a' ha'))
  constructor
  · rintro (⟨nearest, held⟩ | without)
    · rw [inherited, found held nearest, Option.getD_some]
    · rw [inherited, List.findSome?_eq_none_iff.mpr fun a ha =>
        SortedMap.not_contains_iff.mp (without a ha), Option.getD_none]
  · rintro rfl
    rw [inherited]
    cases hf : l.ancestors.findSome? fun a => a.collections.get? key with
    | none =>
        exact .nothing fun a ha =>
          SortedMap.not_contains_iff.mpr (List.findSome?_eq_none_iff.mp hf a ha)
    | some sources =>
        obtain ⟨nearer, a, farther, he, held, hn⟩ := List.findSome?_eq_some_iff.mp hf
        refine .sources ⟨SortedMap.contains_iff.mpr ⟨_, held⟩, nearer, farther, he, ?_⟩ held
        exact fun a' ha' => Bool.eq_false_iff.mp (SortedMap.not_contains_iff.mpr (hn a' ha'))

theorem grants_ofExplicit (hb : l.catalog.explicit.get? key = some b) :
    l.Grants key (l.ofExplicit key b) := by
  rw [ofExplicit]
  cases hs : l.scopeHolder? b with
  | none =>
      refine .registered hb fun a ha => ?_
      rw [holds_iff, hs] at ha
      cases ha
  | some a =>
      dsimp only
      split
      · rename_i hp
        exact .left hb (holds_iff.mpr hs) hp
      · rename_i hp
        refine .registered hb fun a' ha' => ?_
        rw [holds_iff, hs] at ha'
        exact Option.some.inj ha' ▸ Bool.eq_false_iff.mpr hp

theorem resolution_of_registered (hb : l.catalog.explicit.get? key = some b) :
    (l.resolve key).resolution = .found (l.ofExplicit key b) ∨
      (l.resolve key).resolution = .failed := by
  simp only [resolve, hb]
  split
  · split
    · exact .inl rfl
    · exact .inr rfl
  · exact .inl rfl

section

variable (hn : l.catalog.explicit.get? key = none)

include hn

theorem resolution_of_collection (hc : l.collections.isCollection key = true) :
    (l.resolve key).resolution =
      ((l.collections.aggregateWith key (l.inherited key)).1.map .found).getD .missing := by
  simp only [resolve, hn, hc, if_true]
  split <;> simp_all

variable (hc : l.collections.isCollection key = false)

include hc

theorem resolution_of_provider {a : Ancestor} (hp : l.provider? key = some a) :
    (l.resolve key).resolution = .found (a.accessor key) := by
  simp [resolve, hn, hc, hp]

variable (hp : l.provider? key = none)

include hp

theorem resolution_of_made (hb : l.catalog.index.synthesize? key = some b) :
    (l.resolve key).resolution =
      .found (((l.scopeHolder? b).map (·.accessor key)).getD b) := by
  simp only [resolve, hn, hc, hp, hb, Bool.false_eq_true, if_false, ofImplicit]
  cases l.scopeHolder? b <;> rfl

theorem resolution_of_unmade (hb : l.catalog.index.synthesize? key = none) :
    (l.resolve key).resolution = .missing := by
  simp [resolve, hn, hc, hp, hb]

end

/-- What look-up answers is what takes precedence. -/
theorem grants_of_answers (hf : l.collections.Filled) (h : Expansion.Answers l key b) :
    l.Grants key b := by
  have answered : ∀ {b'}, (l.resolve key).resolution = .found b' → b' = b := fun hr =>
    Expansion.Answers.unique (.inl hr) h
  cases hb : l.catalog.explicit.get? key with
  | some b' =>
      rcases resolution_of_registered hb with hr | hr
      · exact answered hr ▸ grants_ofExplicit hb
      · rcases h with h | ⟨h, -⟩ <;> cases hr.symm.trans h
  | none =>
      cases hc : l.collections.isCollection key with
      | true =>
          have hr := resolution_of_collection hb hc
          cases ha : (l.collections.aggregateWith key (l.inherited key)).1 with
          | none => exact (hf.aggregateWith_ne_none hc (Prod.ext ha rfl)).elim
          | some b' =>
              rw [ha] at hr
              exact answered hr ▸ .collected hb hc (inherits_iff.mpr rfl) ha
      | false =>
          cases hp : l.provider? key with
          | some a =>
              exact answered (resolution_of_provider hb hc hp) ▸
                .inherited hb hc (provider?_eq_some_iff.mp hp)
          | none =>
              have lacking := provider?_eq_none_iff.mp hp
              cases hm : l.catalog.index.synthesize? key with
              | none =>
                  have hr := resolution_of_unmade hb hc hp hm
                  exact Expansion.Answers.unique (.inr ⟨hr, rfl⟩) h ▸ .absent hb hc lacking hm
              | some b' =>
                  have hr := answered (resolution_of_made hb hc hp hm)
                  cases hs : l.scopeHolder? b' with
                  | some a =>
                      rw [hs] at hr
                      exact hr ▸ .promoted hb hc lacking hm (holds_iff.mpr hs)
                  | none =>
                      rw [hs] at hr
                      obtain rfl : b' = b := hr
                      refine .made hb hc lacking hm fun a ha => ?_
                      rw [holds_iff, hs] at ha
                      cases ha

/-- What takes precedence is what look-up answers, unless the aliases of the key lead nowhere. -/
theorem answers_of_grants (h : l.Grants key b) :
    Expansion.Answers l key b ∨ (l.resolve key).resolution = .failed := by
  cases h with
  | registered bound own =>
      refine (resolution_of_registered bound).imp_left fun hr => .inl (hr.trans ?_)
      rw [ofExplicit]
      split
      · rename_i a ha
        rw [if_neg (Bool.eq_false_iff.mp (own a (holds_iff.mpr ha)))]
      · rfl
  | left bound holds provides =>
      refine (resolution_of_registered bound).imp_left fun hr => .inl (hr.trans ?_)
      simp only [ofExplicit, holds_iff.mp holds, provides, if_true]
  | collected free collection inherits aggregate =>
      have hr := resolution_of_collection free collection
      rw [inherits_iff.mp inherits, aggregate] at hr
      exact .inl (.inl hr)
  | inherited free single nearest =>
      exact .inl (.inl (resolution_of_provider free single (provider?_eq_some_iff.mpr nearest)))
  | made free single lacking made own =>
      have hr := resolution_of_made free single (provider?_eq_none_iff.mpr lacking) made
      have hs : l.scopeHolder? b = none :=
        Option.eq_none_iff_forall_ne_some.mpr fun a ha => own a (holds_iff.mpr ha)
      rw [hs] at hr
      exact .inl (.inl hr)
  | promoted free single lacking made holds =>
      have hr := resolution_of_made free single (provider?_eq_none_iff.mpr lacking) made
      rw [holds_iff.mp holds] at hr
      exact .inl (.inl hr)
  | absent free single lacking unmade =>
      exact .inl (.inr ⟨resolution_of_unmade free single (provider?_eq_none_iff.mpr lacking) unmade,
        rfl⟩)

end Lookup

/-! ### Builds -/

namespace BuildRequest

variable {r : BuildRequest} {g : Graph}

/-- The binding that a key gets in a graph. -/
abbrev Grants (r : BuildRequest) : TypeKey → Binding → Prop :=
  Precedence r.registered (r.collections r.aggregated.1) r.index r.ancestors r.declaration.scopes

/-- **A key gets the binding that takes precedence.**  Every bound key is bound by what is
registered, the collections, the index, the ancestors and the scopes alone, so graphs that agree in
these bind alike what both bind; and the answers that are remembered between requests, whichever
came before, are those that would be given without them. -/
theorem binding?_iff_precedence (h : r.build = .ok g) :
    (∀ key, g.contains key = true → ∀ b, g.binding? key = some b ↔ r.Grants key b) ∧
      (∀ (r' : BuildRequest) (g' : Graph), r'.build = .ok g' → r'.registered = r.registered →
        r'.collections r'.aggregated.1 = r.collections r.aggregated.1 → r'.index = r.index →
        r'.ancestors = r.ancestors → r'.declaration.scopes = r.declaration.scopes →
        ∀ key, g.contains key = true → g'.contains key = true →
          g'.binding? key = g.binding? key) ∧
      ∀ earlier key,
        ((r.looked.catalog.asked earlier).implicit key).1 = r.index.synthesize? key ∧
        ∀ d, let before := r.looked.collections.asked r.looked.inherited d earlier
          (before.1.resolve key (r.looked.inherited key) before.2).1 =
            (r.looked.collections.aggregateWith key (r.looked.inherited key)).1 := by
  have granted : ∀ {r : BuildRequest} {g : Graph}, r.build = .ok g → ∀ key,
      g.contains key = true → ∀ b, g.binding? key = some b ↔ r.Grants key b := by
    intro r g h key hk b
    obtain ⟨b', hb'⟩ := SortedMap.contains_iff.mp hk
    have answers := (built_of_build h).answers hb'
    have same : r.looked.Grants = r.Grants := by rw [Lookup.Grants, r.index_looked]; rfl
    rw [← same]
    refine ⟨fun hb => Lookup.grants_of_answers r.filled_looked ((built_of_build h).answers hb),
      fun hb => ?_⟩
    rcases Lookup.answers_of_grants hb with hb | failed
    · exact hb.unique answers ▸ hb'
    · rcases answers with hr | ⟨hr, -⟩ <;> cases failed.symm.trans hr
  refine ⟨granted h, fun r' g' h' hr hc hi ha hs key hk hk' => ?_,
    fun earlier key => ⟨?_, fun d => ?_⟩⟩
  · obtain ⟨b, hb⟩ := SortedMap.contains_iff.mp hk
    have same : r'.Grants = r.Grants := by rw [Grants, hr, hc, hi, ha, hs]
    exact ((granted h' key hk' b).mpr (same ▸ (granted h key hk b).mp hb)).trans hb.symm
  · rw [Catalog.implicit_asked r.honest_looked.implicits, r.index_looked]
  · exact CollectionTable.resolve_asked (fun _ _ h => by cases h) earlier key d

/-- A graph below another one: a class made from the index needs a registered value, one that the
graph above yields, and one that nothing yields and that it can do without. -/
def layered : BuildRequest where
  index := .ofDeclarations [.ofDependencies ⟨"Api", none⟩
    [{ key := ⟨"Url", none⟩ }, { key := ⟨"Db", none⟩ },
      { key := ⟨"Log", none⟩, hasDefault := true }]] []
  provider _ := []
  options := {}
  declaration :=
    { origin := .of "UserGraph"
      key := ⟨"UserGraph", none⟩
      entryPoints := [.accessor "api" { key := ⟨"Api", none⟩ }]
      bindings := [.provided ⟨"Url", none⟩ (.of "url") none []] }
  ancestors := [⟨⟨"AppGraph"⟩, ⟨"AppGraph", none⟩, [], .ofList [⟨"Db", none⟩, ⟨"Url", none⟩], .empty⟩]
  retained := .empty

theorem binding?_iff_precedence_layered :
    ∃ g, layered.build = .ok g ∧
      g.bindings.entries.map (fun e => (e.1.typeName, e.2.kind.name)) =
        [("Api", "Injected"), ("Db", "GraphAccessor"), ("Log", "Absent"), ("Url", "Provided")] ∧
      (∀ key, g.contains key = true → ∀ b, g.binding? key = some b ↔ layered.Grants key b) := by
  have built : layered.build.toOption.map (fun g =>
      g.bindings.entries.map fun e => (e.1.typeName, e.2.kind.name)) =
        some [("Api", "Injected"), ("Db", "GraphAccessor"), ("Log", "Absent"),
          ("Url", "Provided")] := by
    decide +kernel
  cases h : layered.build with
  | error => simp [h, Except.toOption] at built
  | ok g =>
      exact ⟨g, rfl, by simpa [h, Except.toOption] using built, (binding?_iff_precedence h).1⟩

end BuildRequest

end Wiring
