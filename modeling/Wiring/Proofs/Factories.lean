import Wiring.Proofs.ErrorKinds
import Wiring.Proofs.FatalCycles
import Wiring.Proofs.Precedence
import Wiring.Proofs.Terminals

/-!
# Assisted factories

A factory made from the index takes from its caller what the only injectable constructor of its
class leaves to a caller, and everything else from the graph, through handles
(`Constructor.HandedOn`).  So no canonical edge leads on from a factory, while one leads on from
every key of a fatal cycle (`CycleAnalysis.exists_canonical_of_mem_cycle`): a way around by a factory
is never fatal, whatever the constructor asks for.  The other fatal cycles that a build reports are
loops of aliases, which no factory is on.  A class that its caller has to help with is never made by
injection (`Index.assists`).
-/

namespace Wiring

open AliasWalk

/-! ### What a factory hands on -/

theorem Access.throughProvider_ne_canonical (a : Access) : a.throughProvider ≠ .canonical := by
  cases a <;> simp [throughProvider]

/-- The parameters of a factory and its dependencies are the parameters of a constructor that a
caller supplies and those that it does not, in order. -/
structure Constructor.HandedOn (k : Constructor) (parameters : List AssistedParameter)
    (dependencies : List Dependency) : Prop where
  supplied : List.Forall₂ (fun p a => a.name = p.name ∧ a.key = p.dependency.key)
    (k.parameters.filter (·.assisted)) parameters
  /-- Whatever the constructor asks for, the factory asks for a handle. -/
  resolved : List.Forall₂ (fun p d => d.key = p.dependency.key ∧
      d.hasDefault = p.dependency.hasDefault ∧ d.access ≠ .canonical)
    (k.parameters.filter (!·.assisted)) dependencies

namespace Index.Makes

variable {i : Index} {key key' target : TypeKey} {origin : Origin} {b : Binding}
  {parameters : List AssistedParameter} {dependencies : List Dependency}

/-- **A factory keeps the contract** of the only injectable constructor of its class. -/
theorem handedOn (h : i.Makes key (.assisted key' origin target parameters dependencies)) :
    ∃ made only, i.classes.get? target = some made ∧ made.injectables = [only] ∧
      only.HandedOn parameters dependencies := by
  cases h with
  | factory _ hc hk =>
      refine ⟨_, _, hc, InjectableClass.injectableConstructor?_eq_some.mp hk, ?_, ?_⟩
      · exact List.forall₂_map_right_iff.mpr (List.forall₂_same.mpr fun _ _ => ⟨rfl, rfl⟩)
      · exact List.forall₂_map_right_iff.mpr (List.forall₂_same.mpr fun p _ =>
          ⟨rfl, rfl, p.dependency.access.throughProvider_ne_canonical⟩)

/-- A class that its caller has to help with is not made by injection. -/
theorem kind_ne_injected (h : i.Makes key b) {found : InjectableClass}
    (hc : i.classes.get? key = some found) {k : Constructor} (hk : k ∈ found.injectables)
    (ha : k.hasAssistedParameters = true) : b.kind ≠ .injected := by
  cases h with
  | injector | factory => exact fun h => by cases h
  | construction hc' hk' ha' =>
      obtain rfl := Option.some.inj (hc.symm.trans hc')
      rw [InjectableClass.injectableConstructor?_eq_some.mp hk', List.mem_singleton] at hk
      rw [hk, ha'] at ha
      cases ha

/-- A factory reaches nothing but through handles. -/
theorem access_ne_canonical (h : i.Makes key b) (hb : b.kind = .assisted) {d : Dependency}
    (hd : d ∈ b.dependencies) : d.access ≠ .canonical := by
  cases h with
  | injector | construction => cases hb
  | factory =>
      obtain ⟨p, -, rfl⟩ := List.mem_map.mp hd
      exact p.dependency.access.throughProvider_ne_canonical

end Index.Makes

/-! ### Requests to catalogs -/

namespace Catalog

variable {i : Index} {c : Catalog} {key : TypeKey}

/-- The catalogs over an index, after whatever was registered and asked for. -/
inductive Serves (i : Index) : Catalog → Prop where
  | empty : Serves i (ofIndex i)
  | call {c : Catalog} (h : Serves i c) (call : Call) : Serves i (c.call call)
  | implicit {c : Catalog} (h : Serves i c) (key : TypeKey) : Serves i (c.implicit key).2
  | lookup {c : Catalog} (h : Serves i c) (key : TypeKey) : Serves i (c.lookup key).2

/-- Neither registering nor asking for chains touches what is made from the index. -/
theorem implicits_call (c : Catalog) (call : Call) :
    (c.call call).implicits = c.implicits ∧ (c.call call).index = c.index := by
  cases call with
  | register b =>
      rw [Catalog.call]
      cases hc : c.register b with
      | ok c' => exact implicits_of_register hc
      | error e => exact ⟨rfl, rfl⟩
  | resolveAlias key =>
      rw [Catalog.call]
      split
      · rename_i hc
        rw [eq_of_resolveAlias hc]
        exact ⟨rfl, rfl⟩
      · exact ⟨rfl, rfl⟩

theorem Serves.remembers (h : Serves i c) : c.Remembers ∧ c.index = i := by
  induction h with
  | empty => exact ⟨fun _ _ h => (nomatch h), rfl⟩
  | @call c _ call ih =>
      obtain ⟨same, index⟩ := c.implicits_call call
      rw [Remembers, same, index]
      exact ih
  | implicit _ key ih =>
      obtain ⟨-, hr, hi⟩ := ih.1.implicit key
      exact ⟨hr, hi.trans ih.2⟩
  | @lookup c _ key ih =>
      rw [Catalog.lookup]
      cases c.explicit.get? key with
      | some b => exact ih
      | none =>
          obtain ⟨-, hr, hi⟩ := ih.1.implicit key
          exact ⟨hr, hi.trans ih.2⟩

theorem Serves.makes (h : Serves i c) {b : Binding} (hb : (c.implicit key).1 = some b) :
    i.Makes key b := by
  obtain ⟨hr, rfl⟩ := h.remembers
  exact Index.makes_of_synthesize? ((hr.implicit key).1.symm.trans hb)

/-- The keys of a loop are registered aliases. -/
theorem isSome_aliasTarget?_of_mem_loop {cycle : List TypeKey} {origin : Option Origin}
    (h : c.aliasChain key = .error (.fatalCycle cycle origin)) {k : TypeKey} (hk : k ∈ cycle) :
    (c.aliasTarget? k).isSome = true := by
  have walk := c.plainWalk_spec key
  rw [aliasChain] at h
  split at h
  · cases h
  · rename_i passed back hw
    rw [hw] at walk
    cases h
    cases walk with
    | loop t _ hn hb =>
        obtain ⟨front, rest, rfl, he⟩ := loopKeys_eq hb
        have around := (t.loopKeys hn hb).isChain
        rw [he] at around hk
        obtain ⟨next, hnext⟩ := exists_next_of_mem_loop around hk
        exact Option.isSome_of_eq_some hnext

end Catalog

/-! ### Cycles -/

/-- From every key of a fatal cycle a canonical edge leads on. -/
theorem CycleAnalysis.exists_canonical_of_mem_cycle {bindings : SortedMap TypeKey Binding}
    {edges : List Edge} {order cycle : List TypeKey} {origin : Option Origin}
    (h : .fatalCycle cycle origin ∈ (analyze bindings edges order).errors) {key : TypeKey}
    (hk : key ∈ cycle) : ∃ e ∈ edges, e.access = .canonical ∧ e.source = key := by
  obtain ⟨group, hgroup, herror⟩ := mem_errors.mp h
  obtain ⟨_, hsame, start, inner, hr⟩ := exists_reports hgroup
  obtain rfl := Option.some.inj (herror.symm.trans hsame)
  obtain ⟨_, -, he⟩ := hr.error
  obtain ⟨rfl, -⟩ := GraphError.fatalCycle.inj he
  obtain ⟨_, -, -, e, hedge, hcanonical, hsource, -⟩ :=
    exists_next_of_mem_loop hr.loop.chain hk
  exact ⟨e, hedge, hcanonical, hsource⟩

namespace BuildRequest

variable {r : BuildRequest} {key : TypeKey} {b : Binding}

/-- An edge from a bound key is that of a dependency of its binding. -/
theorem exists_dependency_of_edge {e : Edge} (he : e ∈ r.expansion.edges.toList)
    (hb : r.expansion.bindings.get? e.source = some b) :
    ∃ d ∈ b.dependencies, d.access = e.access := by
  obtain ⟨k, b', hb', he⟩ := (r.expansion_spec.1.mem_edges e).mp he
  obtain ⟨d, hd, rfl⟩ := List.mem_map.mp he
  have own : b'.key = k := r.ownKeys_expansion k b' hb'
  obtain rfl := Option.some.inj (hb'.symm.trans (own ▸ hb))
  exact ⟨d, hd, rfl⟩

/-- What is bound to a key of a loop of aliases is the alias. -/
theorem kind_of_mem_loop {start : TypeKey} {cycle : List TypeKey} {origin : Option Origin}
    (h : r.looked.catalog.aliasChain start = .error (.fatalCycle cycle origin)) (hk : key ∈ cycle)
    (hb : r.expansion.bindings.get? key = some b) : b.kind = .aliased := by
  obtain ⟨target, ht⟩ := Option.isSome_iff_exists.mp (Catalog.isSome_aliasTarget?_of_mem_loop h hk)
  obtain ⟨registered, hr, ht⟩ := Option.bind_eq_some_iff.mp ht
  have aliased : registered.isAlias = true := by
    by_contra ha
    rw [Binding.aliasTarget?_eq_none.mpr (Bool.eq_false_iff.mpr ha)] at ht
    cases ht
  obtain rfl := (r.expansion_spec.1.answers key b hb).eq_of_isAlias hr aliased
  cases b with
  | aliased => rfl
  | _ => cases aliased

end BuildRequest

/-! ### The law of factories -/

namespace Index

/-- A binding is a factory that is made for a key, whatever was asked for before. -/
def MakesFactory (i : Index) (key : TypeKey) (b : Binding) : Prop :=
  ∃ c, Catalog.Serves i c ∧ (c.implicit key).1 = some b ∧ b.kind = .assisted

/-- What the factories of an index hand on, and what they keep apart. -/
structure Assists (i : Index) : Prop where
  /-- The class of a factory has one injectable constructor, and the factory keeps to it. -/
  contract : ∀ c, Catalog.Serves i c → ∀ key key' origin target parameters dependencies,
    (c.implicit key).1 = some (.assisted key' origin target parameters dependencies) →
      ∃ made only, i.classes.get? target = some made ∧ made.injectables = [only] ∧
        only.HandedOn parameters dependencies
  /-- A class that its caller has to help with is not made by injection. -/
  withheld : ∀ c, Catalog.Serves i c → ∀ key found, i.classes.get? key = some found →
    ∀ k ∈ found.injectables, k.hasAssistedParameters = true →
      ∀ b, (c.implicit key).1 = some b → b.kind ≠ .injected
  /-- No fatal cycle that a build finds passes through a key bound to a factory. -/
  breaks : ∀ r : BuildRequest, r.index = i →
    ∀ cycle origin, .fatalCycle cycle origin ∈ r.cycles.errors →
      ∀ key ∈ cycle, ∀ b, r.expansion.bindings.get? key = some b → ¬ i.MakesFactory key b
  /-- Nor does one that it reports. -/
  unreported : ∀ r : BuildRequest, r.index = i → ∀ report, r.build = .error report →
    ∀ cycle origin, .fatalCycle cycle origin ∈ report.errors →
      ∀ key ∈ cycle, ∀ b, r.expansion.bindings.get? key = some b → ¬ i.MakesFactory key b

theorem not_makesFactory_of_mem_cycle {r : BuildRequest} {cycle : List TypeKey}
    {origin : Option Origin} (h : .fatalCycle cycle origin ∈ r.cycles.errors) {key : TypeKey}
    (hk : key ∈ cycle) {b : Binding} (hb : r.expansion.bindings.get? key = some b) :
    ¬ r.index.MakesFactory key b := by
  rintro ⟨c, hc, made, assisted⟩
  obtain ⟨e, he, canonical, rfl⟩ := CycleAnalysis.exists_canonical_of_mem_cycle h hk
  obtain ⟨d, hd, access⟩ := BuildRequest.exists_dependency_of_edge he hb
  exact (hc.makes made).access_ne_canonical assisted hd (access.trans canonical)

/-- **Assisted factories break cycles** and keep the contract of the constructor. -/
theorem assists (i : Index) : i.Assists where
  contract _ hc _ _ _ _ _ _ made := (hc.makes made).handedOn
  withheld _ hc _ _ hfound _ hk ha _ made := (hc.makes made).kind_ne_injected hfound hk ha
  breaks := by
    rintro r rfl cycle origin h key hk b hb
    exact not_makesFactory_of_mem_cycle h hk hb
  unreported := by
    rintro r rfl report failed cycle origin h key hk b hb
    rcases BuildRequest.fatalCycle_of_report failed h rfl with found | ⟨start, looped⟩
    · exact not_makesFactory_of_mem_cycle found hk hb
    · rintro ⟨-, -, -, assisted⟩
      cases assisted.symm.trans (BuildRequest.kind_of_mem_loop looped hk hb)

/-- A graph where a car is made by its factory, of a name that the caller supplies and of a garage,
and a garage needs the factory; a hermit needs itself. -/
def driven : BuildRequest :=
  let garage : TypeKey := ⟨"Garage", none⟩
  let factory : TypeKey := ⟨"CarFactory", none⟩
  let hermit : TypeKey := ⟨"Hermit", none⟩
  let car : InjectableClass :=
    { origin := .of "Car", key := ⟨"Car", none⟩
      constructors := [{
        injectable := true
        parameters := [
          { name := "name", dependency := { key := ⟨"String", none⟩ }, assisted := true },
          { name := "garage", dependency := { key := garage } }] }] }
  { BuildRequest.plain [] with
    index := .ofDeclarations
      [car, .ofDependencies garage [{ key := factory }], .ofDependencies hermit [{ key := hermit }]]
      [{ origin := .of "CarFactory", key := factory, target := car.key }] }.entering [garage, hermit]

theorem assists_driven :
    let factory : TypeKey := ⟨"CarFactory", none⟩
    ∃ b, driven.expansion.bindings.get? factory = some b ∧ driven.index.MakesFactory factory b ∧
      (∃ c ∈ driven.cycles.permitted, factory ∈ c.members) ∧
      ∃ cycle origin, .fatalCycle cycle origin ∈ driven.cycles.errors ∧ factory ∉ cycle := by
  intro factory
  have bound : driven.expansion.bindings.get? factory = driven.index.synthesize? factory := by
    decide +kernel
  have assisted : (driven.index.synthesize? factory).map (·.kind) = some .assisted := by
    decide +kernel
  have permitted : ∃ c ∈ driven.cycles.permitted, factory ∈ c.members := by decide +kernel
  have fatal : .fatalCycle [⟨"Hermit", none⟩, ⟨"Hermit", none⟩] (some (.of "Hermit")) ∈
      driven.cycles.errors := by decide +kernel
  obtain ⟨b, hb, kind⟩ := Option.map_eq_some_iff.mp assisted
  have made : driven.index.MakesFactory factory b := ⟨.ofIndex driven.index, .empty, hb, kind⟩
  exact ⟨b, bound.trans hb, made, permitted, _, _, fatal, fun apart =>
    (assists driven.index).breaks driven rfl _ _ fatal factory apart b (bound.trans hb) made⟩

end Index

end Wiring
