import Mathlib.Data.List.Perm.Basic
import Wiring.Proofs.Build

/-!
# The order in which facts are listed

Entry points, contributions, collections and their elements are put in an order of their own before
anything is made of them.  So a graph is built alike however they are listed
(`ReadsAlike.build`), if contributions, elements of one collection and collections are told apart by
more than their places in lists (`readsAlike_of_distinct`).  What is contributed stands behind what
is declared and in an order of its own, so of elements and collections only the declared ones count.
-/

namespace Wiring

open Std

/-! ### Orders of facts -/

instance : TransOrd Dependency := inferInstanceAs (TransCmp (compareLex _ _))

instance : LawfulEqOrd Dependency where
  compare_self := ReflCmp.compare_self
  eq_of_compare h :=
    have ⟨h₁, h⟩ := and_eq_of_compareLex h
    have ⟨h₂, h₃⟩ := and_eq_of_compareLex h
    Dependency.ext (eq_of_compareOn h₁) (eq_of_compareOn h₂) (eq_of_compareOn h₃)

namespace EntryPoint

/-- Whether the entry point fills members. -/
def isInjector : EntryPoint → Bool
  | accessor .. => false
  | injector .. => true

/-- What an accessor requests. -/
def requested? : EntryPoint → Option Dependency
  | accessor _ d => some d
  | injector .. => none

/-- The class whose members an injector fills. -/
def filled? : EntryPoint → Option TypeKey
  | accessor .. => none
  | injector _ target => some target

/-- Entry points are compared by kind, name and what they offer. -/
theorem compare_eq : EntryPoint.compare = compareLex (compareOn isInjector)
    (compareLex (compareOn name) (compareLex (compareOn requested?) (compareOn filled?))) := by
  funext a b
  cases a <;> cases b <;>
    simp [EntryPoint.compare, compareLex, compareOn, isInjector, name, requested?, filled?] <;> rfl

instance : TransCmp EntryPoint.compare :=
  compare_eq ▸ inferInstanceAs (TransCmp (compareLex _ _))

theorem eq_of_compare {a b : EntryPoint} (h : a.compare b = .eq) : a = b := by
  rw [compare_eq] at h
  obtain ⟨hkind, h⟩ := and_eq_of_compareLex h
  obtain ⟨hname, h⟩ := and_eq_of_compareLex h
  obtain ⟨hrequested, hfilled⟩ := and_eq_of_compareLex h
  replace hkind := eq_of_compareOn hkind
  replace hname := eq_of_compareOn hname
  replace hrequested := eq_of_compareOn hrequested
  replace hfilled := eq_of_compareOn hfilled
  cases a <;> cases b <;> simp_all [isInjector, name, requested?, filled?]

end EntryPoint

instance : TransCmp Contribution.compare := inferInstanceAs (TransCmp (compareLex _ _))

instance : TransCmp Element.compare := inferInstanceAs (TransCmp (compareLex _ _))

/-- Contributions that compare equal agree in what tells two of them apart. -/
theorem Contribution.of_compare_eq {a b : Contribution} (h : a.compare b = .eq) :
    a.declaration = b.declaration ∧ a.kind = b.kind ∧ a.scope = b.scope ∧
      a.contributedType = b.contributedType := by
  obtain ⟨hdeclaration, h⟩ := and_eq_of_compareLex h
  obtain ⟨hkind, h⟩ := and_eq_of_compareLex h
  obtain ⟨hscope, htype⟩ := and_eq_of_compareLex h
  refine ⟨eq_of_compareOn hdeclaration, ?_, eq_of_compareOn hscope, eq_of_compareOn htype⟩
  have hrank : a.kind.rank = b.kind.rank := eq_of_compareOn hkind
  revert hrank
  cases a.kind <;> cases b.kind <;> simp [ContributionKind.rank]

/-! ### Contributions and collections -/

namespace Contribution

/-- Different contributions to scopes differ in what their order looks at. -/
def Distinct (provider : Scope → List Contribution) : Prop :=
  ∀ s s', ∀ a ∈ provider s, ∀ b ∈ provider s', a.declaration = b.declaration → a.kind = b.kind →
    a.scope = b.scope → a.contributedType = b.contributedType → a = b

/-- Distinct contributions are gathered alike in whatever order they are listed. -/
theorem Distinct.gather_eq {provider provider' : Scope → List Contribution}
    (hd : Distinct provider) (hp : ∀ scope, (provider scope).Perm (provider' scope))
    (scopes : List Scope) : gather provider' scopes = gather provider scopes := by
  rw [gather, gather]
  congr 1
  refine (sortBy_eq_of_perm (List.Perm.flatMap_left _ fun s _ => hp s) fun a ha b hb h => ?_).symm
  obtain ⟨s, -, ha⟩ := List.mem_flatMap.mp ha
  obtain ⟨s', -, hb⟩ := List.mem_flatMap.mp hb
  obtain ⟨hdeclaration, hkind, hscope, htype⟩ := of_compare_eq h
  exact hd s s' a ha b hb hdeclaration hkind hscope htype

end Contribution

/-- The lesser of two origins. -/
def lesserOrigin (a b : Origin) : Origin := if compare b a = .lt then b else a

/-- One of some origins, and none of them is less. -/
structure LeastOrigin (a : Origin) (os : List Origin) : Prop where
  mem : a ∈ os
  le : ∀ o ∈ os, (compare a o).isLE

namespace LeastOrigin

theorem singleton (a : Origin) : LeastOrigin a [a] :=
  ⟨.head _, by simp⟩

/-- The least origin is one, in whatever order and how often origins are listed. -/
theorem unique {a b : Origin} {os os' : List Origin} (ha : LeastOrigin a os)
    (hb : LeastOrigin b os') (h : ∀ o, o ∈ os ↔ o ∈ os') : a = b :=
  LawfulEqOrd.eq_of_compare (OrientedCmp.isLE_antisymm (ha.le b ((h b).mpr hb.mem))
    (hb.le a ((h a).mp ha.mem)))

theorem lesser {a : Origin} {os : List Origin} (h : LeastOrigin a os) (b : Origin) :
    LeastOrigin (lesserOrigin a b) (b :: os) := by
  rw [lesserOrigin]
  split
  · rename_i hlt
    refine ⟨.head _, List.forall_mem_cons.mpr ⟨ReflCmp.isLE_rfl, fun o ho => ?_⟩⟩
    exact TransCmp.isLE_trans (Ordering.isLE_of_eq_lt hlt) (h.le o ho)
  · rename_i hnot
    refine ⟨.tail _ h.mem, List.forall_mem_cons.mpr ⟨?_, h.le⟩⟩
    by_contra hle
    exact hnot (OrientedCmp.lt_of_not_isLE hle)

end LeastOrigin

namespace CollectionDeclaration

theorem merge_eq (c d : CollectionDeclaration) : c.merge d =
    ⟨lesserOrigin c.origin d.origin, c.collection, c.allowEmpty || d.allowEmpty⟩ := rfl

theorem merge_comm {c d : CollectionDeclaration} (h : c.collection = d.collection) :
    c.merge d = d.merge c := by
  have horigin : lesserOrigin c.origin d.origin = lesserOrigin d.origin c.origin :=
    ((LeastOrigin.singleton _).lesser _).unique ((LeastOrigin.singleton _).lesser _)
      fun _ => (List.Perm.swap ..).mem_iff
  rw [merge_eq, merge_eq, horigin, h, Bool.or_comm]

theorem merge_right_comm (c d e : CollectionDeclaration) :
    (c.merge d).merge e = (c.merge e).merge d := by
  have horigin : lesserOrigin (lesserOrigin c.origin d.origin) e.origin =
      lesserOrigin (lesserOrigin c.origin e.origin) d.origin :=
    (((LeastOrigin.singleton _).lesser _).lesser _).unique
      (((LeastOrigin.singleton _).lesser _).lesser _) fun _ => (List.Perm.swap ..).mem_iff
  simp only [merge_eq, horigin, Bool.or_right_comm]

end CollectionDeclaration

namespace CollectionTable

/-- Declarations may come in any order, if those of one key declare one collection. -/
theorem mergeDeclarations_eq_of_perm {ds ds' : List CollectionDeclaration} (h : ds.Perm ds')
    (hd : ∀ d ∈ ds, ∀ e ∈ ds, d.collection.key = e.collection.key → d.collection = e.collection)
    (added : List CollectionDeclaration) :
    mergeDeclarations (ds' ++ added) = mergeDeclarations (ds ++ added) := by
  rw [mergeDeclarations, mergeDeclarations, List.foldl_append, List.foldl_append]
  congr 1
  refine (h.foldl_eq' (fun d hd' e he m => SortedMap.ext_get? fun k => ?_) _).symm
  simp only [SortedMap.get?_alter]
  by_cases hkd : k = d.collection.key <;> by_cases hke : k = e.collection.key
  · subst hkd
    simp only [hke, if_true]
    have hcoll := hd d hd' e he (by assumption)
    cases m.get? e.collection.key with
    | none => simp [CollectionDeclaration.merge_comm hcoll]
    | some c => simp [CollectionDeclaration.merge_right_comm]
  all_goals simp_all

/-- Elements may come in any order, if those of one collection have sites of their own. -/
theorem groupElements_eq_of_perm {es es' : List Element} (h : es.Perm es')
    (hd : ∀ e ∈ es, ∀ f ∈ es, e.collection.key = f.collection.key →
      e.origin.declaration = f.origin.declaration → e.mapKey? = f.mapKey? → e = f)
    (added : List Element) : groupElements (es' ++ added) = groupElements (es ++ added) := by
  refine SortedMap.ext_get? fun k => ?_
  have hk := h.filter (·.collection.key = k)
  have sorted : sortBy Element.compare ((es' ++ added).filter (·.collection.key = k)) =
      sortBy Element.compare ((es ++ added).filter (·.collection.key = k)) := by
    rw [List.filter_append, List.filter_append]
    refine (sortBy_append_eq_of_perm hk (fun e he f hf hef => ?_) _).symm
    obtain ⟨he, hek⟩ := List.mem_filter.mp he
    obtain ⟨hf, hfk⟩ := List.mem_filter.mp hf
    obtain ⟨hdeclaration, hmap⟩ := and_eq_of_compareLex hef
    exact hd e he f hf ((of_decide_eq_true hek).trans (of_decide_eq_true hfk).symm)
      (eq_of_compareOn hdeclaration) (eq_of_compareOn hmap)
  have hnil : (es' ++ added).filter (·.collection.key = k) = [] ↔
      (es ++ added).filter (·.collection.key = k) = [] := by
    rw [List.filter_append, List.filter_append, List.append_eq_nil_iff, List.append_eq_nil_iff]
    exact and_congr_left' ⟨fun h => (h ▸ hk).eq_nil, fun h => (h ▸ hk).nil_eq.symm⟩
  simp only [groupElements, SortedMap.get?_mapValues, SortedMap.get?_group, hnil]
  split
  · rfl
  · rw [Option.map_some, Option.map_some, sorted]

end CollectionTable

/-- The elements, collections and extensions of a graph are told apart by more than their places in
lists. -/
@[mk_iff]
structure GraphDeclaration.Distinct (d : GraphDeclaration) : Prop where
  /-- Different elements of one collection differ in declaration or map key. -/
  elements : ∀ a ∈ d.elements, ∀ b ∈ d.elements, a.collection.key = b.collection.key →
    a.origin.declaration = b.origin.declaration → a.mapKey? = b.mapKey? → a = b
  /-- Different collections have different keys. -/
  collections : ∀ a ∈ d.collections, ∀ b ∈ d.collections,
    a.collection.key = b.collection.key → a.collection = b.collection
  extensions : (d.extensions.map (·.id)).Nodup

instance (d : GraphDeclaration) : Decidable d.Distinct :=
  decidable_of_iff' _ (GraphDeclaration.distinct_iff d)

/-! ### Builds -/

namespace BuildRequest

/-- The request with facts listed in another way. -/
def relist (r : BuildRequest) (provider : Scope → List Contribution)
    (entryPoints : List EntryPoint) (collections : List CollectionDeclaration)
    (elements : List Element) (extensions : List GraphDeclaration) : BuildRequest :=
  { r with
    provider
    declaration := { r.declaration with entryPoints, collections, elements, extensions } }

/-- A request and one with its facts listed in another way, of which a build makes the same. -/
structure ReadsAlike (r r' : BuildRequest) : Prop where
  relisted : ∃ provider entryPoints collections elements extensions,
    r' = r.relist provider entryPoints collections elements extensions
  aggregated : r'.aggregated = r.aggregated
  entryPoints : r'.entryPoints = r.entryPoints
  collections : r'.collections r.aggregated.1 = r.collections r.aggregated.1

namespace ReadsAlike

variable {r r' : BuildRequest} (h : ReadsAlike r r')

include h

theorem lookup : r'.lookup r.aggregated.1 = r.lookup r.aggregated.1 := by
  have seeds : r'.seeds r.aggregated.1 = r.seeds r.aggregated.1 := by
    rw [BuildRequest.seeds, h.collections]
    obtain ⟨_, _, _, _, _, rfl⟩ := h.relisted
    rfl
  rw [BuildRequest.lookup, seeds, h.collections]
  obtain ⟨_, _, _, _, _, rfl⟩ := h.relisted
  rfl

theorem expansion : r'.expansion = r.expansion := by
  have started : ∀ l d, r'.start l d = r.start l d := fun l d => by
    rw [start, h.entryPoints]
    obtain ⟨_, _, _, _, _, rfl⟩ := h.relisted
    rfl
  rw [BuildRequest.expansion, started, looked, early, h.aggregated, h.lookup]
  obtain ⟨_, _, _, _, _, rfl⟩ := h.relisted
  rfl

theorem roots : r'.roots = r.roots := by
  rw [BuildRequest.roots, h.entryPoints]
  obtain ⟨_, _, _, _, _, rfl⟩ := h.relisted
  rfl

theorem draft : r'.draft = r.draft := by
  rw [BuildRequest.draft, h.expansion]
  obtain ⟨_, _, _, _, _, rfl⟩ := h.relisted
  rfl

theorem reached : r'.reached = r.reached := by
  rw [BuildRequest.reached, h.roots, h.draft]
  rfl

theorem kept : r'.kept = r.kept := by
  rw [BuildRequest.kept, h.draft, h.reached]
  obtain ⟨_, _, _, _, _, rfl⟩ := h.relisted
  rfl

theorem late : r'.late = r.late := by
  rw [BuildRequest.late, h.expansion, h.draft, h.reached, h.aggregated]
  obtain ⟨_, _, _, _, _, rfl⟩ := h.relisted
  rfl

/-- **A graph is built alike however its facts are listed**; its extensions stand as listed. -/
theorem build : r'.build =
    r.build.map fun g => { g with extensions := r'.declaration.extensions.map (·.id) } := by
  have graph : ∀ d unused, r'.graph d unused =
      { r.graph d unused with extensions := r'.declaration.extensions.map (·.id) } := by
    intro d unused
    rw [BuildRequest.graph, h.entryPoints, h.roots]
    obtain ⟨_, _, _, _, _, rfl⟩ := h.relisted
    rfl
  have unused : r'.unusedKeys r.aggregated.1 r.reached = r.unusedKeys r.aggregated.1 r.reached := by
    obtain ⟨_, _, _, _, _, rfl⟩ := h.relisted
    rfl
  rw [build_eq, build_eq, h.late, h.kept, h.reached, h.aggregated, graph, unused,
    Diagnostics.result, Diagnostics.result]
  split <;> rfl

end ReadsAlike

/-- Facts that are told apart are read alike in whatever order they are listed. -/
theorem readsAlike_of_distinct {r : BuildRequest} {provider : Scope → List Contribution}
    {entryPoints : List EntryPoint} {collections : List CollectionDeclaration}
    {elements : List Element} {extensions : List GraphDeclaration}
    (hr : Contribution.Distinct r.provider) (hd : r.declaration.Distinct)
    (hp : ∀ scope, (r.provider scope).Perm (provider scope))
    (hentry : r.declaration.entryPoints.Perm entryPoints)
    (hcoll : r.declaration.collections.Perm collections)
    (helem : r.declaration.elements.Perm elements) :
    ReadsAlike r (r.relist provider entryPoints collections elements extensions) where
  relisted := ⟨_, _, _, _, _, rfl⟩
  aggregated := by
    rw [aggregated, aggregated, Contribution.aggregate, Contribution.aggregate]
    exact hr.gather_eq hp _ ▸ rfl
  entryPoints := (sortBy_eq_of_perm hentry fun _ _ _ _ => EntryPoint.eq_of_compare).symm
  collections := by
    have declared := CollectionTable.mergeDeclarations_eq_of_perm hcoll hd.collections
      r.aggregated.1.collections
    have grouped := CollectionTable.groupElements_eq_of_perm helem hd.elements
      r.aggregated.1.elements
    simp only [BuildRequest.collections, relist, CollectionTable.ofDeclarations, declared, grouped]

end BuildRequest

end Wiring
