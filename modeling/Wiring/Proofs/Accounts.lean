import Mathlib.Data.List.Perm.Basic
import Wiring.Proofs.Lineage
import Wiring.Proofs.Order

/-!
# What becomes of each declared graph

A declared graph stands at a `Place`: it has the graphs that it extends above it.  `places` lists
the places of all declared graphs, each before those that extend it, siblings by name.  The `Fate`
of a graph depends on its place only: it is resolved or fails, or is skipped because a graph above
it failed (`fate_eq_skipped_iff`).

The outcome of a pass is what its places come to (`covers_places`): the graphs are those of the
resolved places in their order, the failures those of the failed ones, and the names of the skipped
ones are listed once each.  The proof is by induction on the declaration, along the round that
settled; rounds before it leave no trace.
-/

namespace Wiring

/-! ### Places -/

/-- A declared graph in its place. -/
structure Place where
  declaration : GraphDeclaration
  /-- The graphs that it extends, nearest first. -/
  path : List GraphDeclaration

namespace Place

/-- The name of the graph. -/
def id (x : Place) : DeclarationId := x.declaration.id

/-- The places of graphs each of which extends the next. -/
def ofPath : List GraphDeclaration → List Place
  | [] => []
  | d :: path => ⟨d, path⟩ :: ofPath path

/-- The places of the graphs that it extends, nearest first. -/
def above (x : Place) : List Place := ofPath x.path

/-- The place of the graph that it extends at once. -/
def parent? (x : Place) : Option Place := x.above.head?

/-- Groups of places in the order of their names. -/
def inOrder (groups : List (DeclarationId × List Place)) : List Place :=
  (sortBy (compareOn (·.1)) groups).flatMap (·.2)

end Place

namespace GraphDeclaration

mutual

/-- The places of a graph and of all that extend it. -/
def places : GraphDeclaration → List GraphDeclaration → List Place
  | ⟨origin, key, scopes, aggregationScopes, excludes, entryPoints, boundInstances, includes,
      bindings, collections, elements, extensions⟩, path =>
      let d : GraphDeclaration := ⟨origin, key, scopes, aggregationScopes, excludes, entryPoints,
        boundInstances, includes, bindings, collections, elements, extensions⟩
      ⟨d, path⟩ :: Place.inOrder (placeGroups extensions (d :: path))

/-- The places of each graph of a list and of all that extend it, under its name. -/
def placeGroups : List GraphDeclaration → List GraphDeclaration →
    List (DeclarationId × List Place)
  | [], _ => []
  | d :: rest, path => (d.id, d.places path) :: placeGroups rest path

end

/-- The places of the graphs of a list, by name, and of all that extend them. -/
def placesBelow (path ds : List GraphDeclaration) : List Place :=
  (sortBy (compareOn id) ds).flatMap (·.places path)

theorem placeGroups_eq (path : List GraphDeclaration) : ∀ ds : List GraphDeclaration,
    placeGroups ds path = ds.map fun d => (d.id, d.places path)
  | [] => by rw [placeGroups, List.map_nil]
  | d :: rest => by rw [placeGroups, placeGroups_eq path rest, List.map_cons]

theorem inOrder_placeGroups (path ds : List GraphDeclaration) :
    Place.inOrder (placeGroups ds path) = placesBelow path ds := by
  have keyed : ∀ d : GraphDeclaration, (d.id, d.places path).1 = d.id := fun _ => rfl
  rw [placeGroups_eq, Place.inOrder, ← map_sortBy keyed, List.flatMap_map, placesBelow]

theorem places_eq (d : GraphDeclaration) (path : List GraphDeclaration) :
    d.places path = ⟨d, path⟩ :: placesBelow (d :: path) d.extensions := by
  cases d
  rw [places, inOrder_placeGroups]

variable {path : List GraphDeclaration}

/-- **Every declaration has its place.** -/
theorem places_perm (d : GraphDeclaration) : ∀ path : List GraphDeclaration,
    ((d.places path).map (·.declaration)).Perm (d :: d.descendants) := by
  induction d using GraphDeclaration.induction with
  | step d ih =>
      intro path
      rw [places_eq, List.map_cons, placesBelow, List.map_flatMap, descendants_eq, preorder_eq]
      refine List.Perm.cons d (((sortBy_perm ..).flatMap_right _).trans ?_)
      exact List.Perm.flatMap_left _ fun e he => ih e he _

theorem placesBelow_perm (path ds : List GraphDeclaration) :
    ((placesBelow path ds).map (·.declaration)).Perm (preorder ds) := by
  rw [placesBelow, List.map_flatMap, preorder_eq]
  exact ((sortBy_perm ..).flatMap_right _).trans (.flatMap_left _ fun d _ => d.places_perm path)

/-- All places below a path have it above them. -/
theorem suffix_of_mem_places {d : GraphDeclaration} {x : Place} (h : x ∈ d.places path) :
    path <:+ x.path := by
  induction d using GraphDeclaration.induction generalizing path with
  | step d ih =>
      rw [places_eq] at h
      rcases List.mem_cons.mp h with rfl | h
      · exact List.suffix_refl path
      · obtain ⟨e, he, h⟩ := List.mem_flatMap.mp h
        exact (List.suffix_cons d path).trans (ih e (mem_sortBy.mp he) h)

/-- An element of lists put one behind the other stands in one of them. -/
theorem exists_split_flatMap {α β : Type} {f : α → List β} {x : β} {back : List β} :
    ∀ {xs : List α} {front : List β}, xs.flatMap f = front ++ x :: back →
      ∃ a ∈ xs, ∃ before front' back', f a = front' ++ x :: back' ∧ front = before ++ front'
  | [], front, h => by simp at h
  | a :: rest, front, h => by
      have later : ∀ {c}, rest.flatMap f = c ++ x :: back → front = f a ++ c →
          ∃ b ∈ a :: rest, ∃ before front' back',
            f b = front' ++ x :: back' ∧ front = before ++ front' := by
        intro c h hc
        obtain ⟨b, hb, before, front', back', hf, rfl⟩ := exists_split_flatMap h
        exact ⟨b, List.mem_cons_of_mem a hb, f a ++ before, front', back', hf,
          hc.trans (List.append_assoc ..).symm⟩
      rw [List.flatMap_cons] at h
      rcases List.append_eq_append_iff.mp h with ⟨c, hc, hr⟩ | ⟨c, hc, hr⟩
      · exact later hr hc
      · cases c with
        | nil => exact later (c := []) hr.symm (by simpa using hc.symm)
        | cons y c =>
            obtain ⟨rfl, -⟩ := List.cons.inj hr
            exact ⟨a, List.mem_cons_self, [], front, c, hc, rfl⟩

/-- **A graph stands before those that extend it.** -/
theorem parent_mem_front {d : GraphDeclaration} {x : Place} {front back : List Place}
    (h : d.places path = front ++ x :: back) :
    x = ⟨d, path⟩ ∨ ∃ y ∈ front, x.parent? = some y := by
  induction d using GraphDeclaration.induction generalizing path front x back with
  | step d ih =>
      rw [places_eq] at h
      cases front with
      | nil => exact .inl (List.cons.inj h).1.symm
      | cons y front =>
          obtain ⟨rfl, hb⟩ := List.cons.inj h
          obtain ⟨e, he, before, front', back', hf, rfl⟩ := exists_split_flatMap hb
          refine .inr ?_
          rcases ih e (mem_sortBy.mp he) hf with rfl | ⟨y, hy, hp⟩
          · exact ⟨_, List.mem_cons_self, rfl⟩
          · exact ⟨y, List.mem_cons_of_mem _ (List.mem_append_right _ hy), hp⟩

end GraphDeclaration

/-! ### Fates -/

/-- What becomes of a declared graph. -/
inductive Fate where
  /-- It is built. -/
  | resolved (graph : Graph)
  /-- It cannot be built. -/
  | failed (report : ErrorReport)
  /-- It extends a graph that cannot be built. -/
  | skipped

namespace Fate

def graph? : Fate → Option Graph
  | resolved g => some g
  | failed _ | skipped => none

def report? : Fate → Option ErrorReport
  | failed report => some report
  | resolved _ | skipped => none

def isSkipped : Fate → Bool
  | skipped => true
  | resolved _ | failed _ => false

end Fate

/-- What becomes of the graph at the head of a subtree. -/
def Subtree.fate (s : Subtree) : Fate :=
  match s.graph?, s.outcome.failures with
  | some g, _ => .resolved g
  | none, f :: _ => .failed f.report
  | none, [] => .skipped

namespace Pass

variable {p : Pass} {d : GraphDeclaration} {path : List GraphDeclaration}
  {ancestors : List Ancestor} {x : Place}

/-- What the graphs of a path offer to those that extend them, if all of them are built. -/
def ancestors? (p : Pass) : List GraphDeclaration → Option (List Ancestor)
  | [] => some []
  | d :: path =>
      (p.ancestors? path).bind fun ancestors =>
        (p.resolveTree d ancestors).graph?.map fun g => .ofGraph g :: ancestors

/-- What becomes of the graph at a place. -/
def fate (p : Pass) (x : Place) : Fate :=
  match p.ancestors? x.path with
  | some ancestors => (p.resolveTree x.declaration ancestors).fate
  | none => .skipped

/-- The failure at a place. -/
def failure? (p : Pass) (x : Place) : Option Failure :=
  (p.fate x).report?.map fun report => ⟨x.id, report⟩

theorem fate_eq_resolved_iff {g : Graph} : p.fate x = .resolved g ↔
    ∃ ancestors, p.ancestors? x.path = some ancestors ∧
      (p.resolveTree x.declaration ancestors).graph? = some g := by
  rw [fate]
  cases p.ancestors? x.path with
  | none => simp
  | some ancestors =>
      simp only [Option.some.injEq, exists_eq_left', Subtree.fate]
      split <;> simp_all

/-- A graph that is not built below others fails there. -/
theorem fate_eq_failed (ha : p.ancestors? path = some ancestors)
    (hg : (p.resolveTree d ancestors).graph? = none) :
    ∃ retained report, (p.request d ancestors retained).build = .error report ∧
      p.fate ⟨d, path⟩ = .failed report ∧
      (p.resolveTree d ancestors).outcome =
        { failures := [⟨d.id, report⟩], skipped := d.descendants.map (·.id) } := by
  obtain ⟨retained, hs⟩ := p.settled_resolveTree d ancestors
  rw [fate, ha]
  dsimp only
  generalize p.resolveTree d ancestors = s at hg hs
  cases hs with
  | failed h => exact ⟨retained, _, h, rfl, rfl⟩
  | built => cases hg

theorem ancestors?_eq_none_of_suffix {path' : List GraphDeclaration} (hs : path <:+ path')
    (h : p.ancestors? path = none) : p.ancestors? path' = none := by
  obtain ⟨front, rfl⟩ := hs
  induction front with
  | nil => exact h
  | cons d front ih => rw [List.cons_append, ancestors?, ih, Option.bind_none]

/-- The graphs of a path are all built unless one of them fails. -/
theorem ancestors?_eq_none_iff : ∀ {path : List GraphDeclaration},
    p.ancestors? path = none ↔ ∃ y ∈ Place.ofPath path, ∃ report, p.fate y = .failed report
  | [] => by simp [ancestors?, Place.ofPath]
  | d :: path => by
      rw [ancestors?, Place.ofPath, List.exists_mem_cons_iff, ← ancestors?_eq_none_iff]
      cases ha : p.ancestors? path with
      | none => simp
      | some ancestors =>
          rw [Option.bind_some, Option.map_eq_none_iff]
          simp only [reduceCtorEq, or_false]
          constructor
          · intro hg
            obtain ⟨_, report, _, hf, _⟩ := fate_eq_failed ha hg
            exact ⟨report, hf⟩
          · rintro ⟨report, hf⟩
            cases hg : (p.resolveTree d ancestors).graph? with
            | none => rfl
            | some g =>
                rw [fate_eq_resolved_iff.mpr ⟨ancestors, ha, hg⟩] at hf
                cases hf

/-- **A graph is skipped if and only if one above it failed.** -/
theorem fate_eq_skipped_iff :
    p.fate x = .skipped ↔ ∃ y ∈ x.above, ∃ report, p.fate y = .failed report := by
  rw [Place.above, ← ancestors?_eq_none_iff]
  cases ha : p.ancestors? x.path with
  | none => simp [fate, ha]
  | some ancestors =>
      simp only [reduceCtorEq, iff_false]
      intro hs
      cases hg : (p.resolveTree x.declaration ancestors).graph? with
      | some g =>
          rw [fate_eq_resolved_iff.mpr ⟨ancestors, ha, hg⟩] at hs
          cases hs
      | none =>
          obtain ⟨_, _, _, hf, _⟩ := fate_eq_failed ha hg
          cases hs.symm.trans hf

/-! ### The outcome of places -/

/-- An outcome is what becomes of the graphs at given places, in their order but for the names of
those skipped. -/
structure Covers (p : Pass) (xs : List Place) (o : Outcome) : Prop where
  graphs : o.graphs = xs.filterMap fun x => (p.fate x).graph?
  failures : o.failures = xs.filterMap p.failure?
  skipped : o.skipped.Perm ((xs.filter fun x => (p.fate x).isSkipped).map (·.id))

theorem Covers.append {xs ys : List Place} {o o' : Outcome} (h : p.Covers xs o)
    (h' : p.Covers ys o') : p.Covers (xs ++ ys) (o ++ o') where
  graphs := by
    rw [List.filterMap_append, ← h.graphs, ← h'.graphs]
    rfl
  failures := by
    rw [List.filterMap_append, ← h.failures, ← h'.failures]
    rfl
  skipped := by
    rw [List.filter_append, List.map_append]
    exact h.skipped.append h'.skipped

theorem covers_concat {α : Type} {places : α → List Place} {outcome : α → Outcome} :
    ∀ {xs : List α}, (∀ a ∈ xs, p.Covers (places a) (outcome a)) →
      p.Covers (xs.flatMap places) (.concat (xs.map outcome))
  | [], _ => ⟨rfl, rfl, .refl _⟩
  | a :: rest, h => by
      obtain ⟨ha, hr⟩ := List.forall_mem_cons.mp h
      exact ha.append (covers_concat hr)

/-- Skipped graphs come to nothing but their names. -/
theorem covers_skipped {xs : List Place} (h : ∀ x ∈ xs, p.fate x = .skipped)
    {names : List DeclarationId} (hn : names.Perm (xs.map (·.id))) :
    p.Covers xs { skipped := names } where
  graphs := (List.filterMap_eq_nil_iff.mpr fun x hx => by rw [h x hx]; rfl).symm
  failures := (List.filterMap_eq_nil_iff.mpr fun x hx => by rw [failure?, h x hx]; rfl).symm
  skipped := by
    rw [List.filter_eq_self.mpr fun x hx => by rw [h x hx]; rfl]
    exact hn

theorem covers_resolved {g : Graph} (h : p.fate x = .resolved g) :
    p.Covers [x] { graphs := [g] } where
  graphs := by simp [h, Fate.graph?]
  failures := by simp [failure?, h, Fate.report?]
  skipped := by simp [h, Fate.isSkipped]

theorem covers_failed {report : ErrorReport} (h : p.fate x = .failed report) :
    p.Covers [x] { failures := [⟨x.id, report⟩] } where
  graphs := by simp [h, Fate.graph?]
  failures := by simp [failure?, h, Fate.report?]
  skipped := by simp [h, Fate.isSkipped]

/-- **What becomes of a graph and all that extend it is what becomes of their places.** -/
theorem covers_places (ha : p.ancestors? path = some ancestors) :
    p.Covers (d.places path) (p.resolveTree d ancestors).outcome := by
  induction d using GraphDeclaration.induction generalizing path ancestors with
  | step d ih =>
      rw [GraphDeclaration.places_eq]
      cases hg : (p.resolveTree d ancestors).graph? with
      | none =>
          obtain ⟨_, report, _, hf, ho⟩ := fate_eq_failed ha hg
          have below : p.ancestors? (d :: path) = none := by
            rw [ancestors?, ha, Option.bind_some, hg, Option.map_none]
          rw [ho]
          refine (covers_failed hf).append (covers_skipped (fun x hx => ?_) ?_)
          · obtain ⟨e, -, hx⟩ := List.mem_flatMap.mp hx
            rw [fate, ancestors?_eq_none_of_suffix (GraphDeclaration.suffix_of_mem_places hx) below]
          · have := (GraphDeclaration.placesBelow_perm (d :: path) d.extensions).map (·.id)
            rw [List.map_map, ← GraphDeclaration.descendants_eq] at this
            exact this.symm
      | some g =>
          have hf : p.fate ⟨d, path⟩ = .resolved g := fate_eq_resolved_iff.mpr ⟨_, ha, hg⟩
          have below : p.ancestors? (d :: path) = some (.ofGraph g :: ancestors) := by
            rw [ancestors?, ha, Option.bind_some, hg, Option.map_some]
          obtain ⟨retained, hs⟩ := p.settled_resolveTree d ancestors
          generalize p.resolveTree d ancestors = s at hg hs
          cases hs with
          | failed => cases hg
          | built =>
              obtain rfl := Option.some.inj hg
              refine (covers_resolved hf).append ?_
              rw [grown, grow_branches, List.map_map]
              exact covers_concat fun e he => ih e (mem_sortBy.mp he) below

theorem covers_resolve (p : Pass) (roots : List GraphDeclaration) :
    p.Covers (GraphDeclaration.placesBelow [] roots) (p.resolve roots) := by
  rw [resolve, grow_branches, List.map_map]
  exact covers_concat fun d _ => covers_places rfl

/-- The names of all places stand in an outcome, each once. -/
theorem Covers.ids_perm {o : Outcome} (hi : ∀ x g, p.fate x = .resolved g → g.id = x.id) :
    ∀ {xs : List Place}, p.Covers xs o →
      (o.graphs.map (·.id) ++ o.failures.map (·.graph) ++ o.skipped).Perm (xs.map (·.id)) := by
  intro xs h
  refine ((List.Perm.refl _).append h.skipped).trans ?_
  rw [h.graphs, h.failures]
  clear h
  induction xs with
  | nil => exact .refl _
  | cons x rest ih =>
      rw [List.map_cons]
      refine List.Perm.trans ?_ (ih.cons x.id)
      cases hf : p.fate x with
      | resolved g =>
          simp only [List.filterMap_cons, failure?, hf, Fate.graph?, Fate.report?, Option.map_none,
            List.filter_cons, Fate.isSkipped, Bool.false_eq_true, if_false, List.map_cons,
            hi x g hf, List.cons_append]
          exact .refl _
      | failed report =>
          simp only [List.filterMap_cons, failure?, hf, Fate.graph?, Fate.report?, Option.map_some,
            List.filter_cons, Fate.isSkipped, Bool.false_eq_true, if_false, List.map_cons,
            List.append_assoc, List.cons_append]
          exact List.perm_middle
      | skipped =>
          simp only [List.filterMap_cons, failure?, hf, Fate.graph?, Fate.report?, Option.map_none,
            List.filter_cons, Fate.isSkipped, if_true, List.map_cons]
          exact List.perm_middle

/-! ### The outcome of a pass -/

/-- A graph at a resolved place was built below the graphs above it. -/
theorem build_of_resolved {g : Graph} (h : p.fate x = .resolved g) :
    ∃ ancestors retained, p.ancestors? x.path = some ancestors ∧
      (p.request x.declaration ancestors retained).build = .ok g := by
  obtain ⟨ancestors, ha, hg⟩ := fate_eq_resolved_iff.mp h
  obtain ⟨retained, hs⟩ := p.settled_resolveTree x.declaration ancestors
  refine ⟨ancestors, retained, ha, ?_⟩
  generalize p.resolveTree x.declaration ancestors = s at hg hs
  cases hs with
  | failed => cases hg
  | built h => exact Option.some.inj hg ▸ h

/-- A report at a failed place is that of a build below the graphs above it. -/
theorem build_of_failed {report : ErrorReport} (h : p.fate x = .failed report) :
    ∃ ancestors retained, p.ancestors? x.path = some ancestors ∧
      (p.request x.declaration ancestors retained).build = .error report := by
  cases ha : p.ancestors? x.path with
  | none =>
      rw [fate, ha] at h
      cases h
  | some ancestors =>
      cases hg : (p.resolveTree x.declaration ancestors).graph? with
      | some g => cases h.symm.trans (fate_eq_resolved_iff.mpr ⟨ancestors, ha, hg⟩)
      | none =>
          obtain ⟨retained, report', hb, hf, -⟩ := fate_eq_failed ha hg
          obtain rfl := Fate.failed.inj (hf.symm.trans h)
          exact ⟨ancestors, retained, rfl, hb⟩

theorem id_eq_of_resolved {g : Graph} (h : p.fate x = .resolved g) : g.id = x.id := by
  obtain ⟨_, _, _, hb⟩ := build_of_resolved h
  exact (BuildRequest.built_of_build hb).id

/-- What a built graph extends is built. -/
theorem resolved_parent {g : Graph} {y : Place} (h : p.fate x = .resolved g)
    (hy : x.parent? = some y) : ∃ g, p.fate y = .resolved g := by
  obtain ⟨d, path⟩ := x
  cases path with
  | nil => cases hy
  | cons e path =>
      obtain rfl := Option.some.inj hy
      obtain ⟨_, ha, -⟩ := fate_eq_resolved_iff.mp h
      obtain ⟨ancestors, ha, hg⟩ := Option.bind_eq_some_iff.mp ha
      obtain ⟨g, hg, -⟩ := Option.map_eq_some_iff.mp hg
      exact ⟨g, fate_eq_resolved_iff.mpr ⟨ancestors, ha, hg⟩⟩

/-- Every declared graph is accounted for in an outcome, once. -/
structure Accounted (p : Pass) (roots : List GraphDeclaration) (o : Outcome) : Prop where
  /-- Every declared graph has one place. -/
  places : ((GraphDeclaration.placesBelow [] roots).map (·.declaration)).Perm
    (GraphDeclaration.preorder roots)
  /-- The names of graphs, failures and skipped graphs are those of the declared graphs. -/
  ids : (o.graphs.map (·.id) ++ o.failures.map (·.graph) ++ o.skipped).Perm
    ((GraphDeclaration.preorder roots).map (·.id))
  /-- The graphs are those of the places, in their order. -/
  graphs : o.graphs = (GraphDeclaration.placesBelow [] roots).filterMap fun x => (p.fate x).graph?
  /-- The failures are those of the places, in their order. -/
  failures : o.failures = (GraphDeclaration.placesBelow [] roots).filterMap p.failure?
  /-- The names of skipped graphs are those of the skipped places. -/
  skipped : o.skipped.Perm (((GraphDeclaration.placesBelow [] roots).filter fun x =>
    (p.fate x).isSkipped).map (·.id))
  /-- A graph is skipped if and only if one above it failed. -/
  skips : ∀ x : Place,
    p.fate x = .skipped ↔ ∃ y ∈ x.above, ∃ report, p.fate y = .failed report
  /-- A graph that is built stands behind the one that it extends, which is built too. -/
  parents : ∀ front x back g, GraphDeclaration.placesBelow [] roots = front ++ x :: back →
    p.fate x = .resolved g → x.path = [] ∨
      ∃ y ∈ front, x.parent? = some y ∧ ∃ h, p.fate y = .resolved h
  /-- A resolved graph bears its name, and was built below those above it. -/
  built : ∀ x g, p.fate x = .resolved g → g.id = x.id ∧ ∃ ancestors retained,
    p.ancestors? x.path = some ancestors ∧
      (p.request x.declaration ancestors retained).build = .ok g
  /-- A failed graph could not be built below those above it. -/
  refused : ∀ x report, p.fate x = .failed report → ∃ ancestors retained,
    p.ancestors? x.path = some ancestors ∧
      (p.request x.declaration ancestors retained).build = .error report

theorem accounted_resolve (p : Pass) (roots : List GraphDeclaration) :
    p.Accounted roots (p.resolve roots) where
  places := GraphDeclaration.placesBelow_perm [] roots
  ids := by
    refine ((p.covers_resolve roots).ids_perm fun x g => id_eq_of_resolved).trans ?_
    have := (GraphDeclaration.placesBelow_perm [] roots).map (·.id)
    rwa [List.map_map] at this
  graphs := (p.covers_resolve roots).graphs
  failures := (p.covers_resolve roots).failures
  skipped := (p.covers_resolve roots).skipped
  skips _ := fate_eq_skipped_iff
  parents front x back g h hf := by
    obtain ⟨d, -, before, front', back', hd, rfl⟩ := GraphDeclaration.exists_split_flatMap h
    rcases GraphDeclaration.parent_mem_front hd with rfl | ⟨y, hy, hp⟩
    · exact .inl rfl
    · exact .inr ⟨y, List.mem_append_right _ hy, hp, resolved_parent hf hp⟩
  built _ _ h := ⟨id_eq_of_resolved h, build_of_resolved h⟩
  refused _ _ h := build_of_failed h

/-- Roots are resolved one by one, in the order of their names. -/
theorem resolve_eq_concat (p : Pass) (roots : List GraphDeclaration) :
    p.resolve roots = .concat ((sortBy (compareOn (·.id)) roots).map fun d => p.resolve [d]) := by
  have alone : ∀ d, p.resolve [d] = (p.resolveTree d []).outcome := by
    intro d
    show (p.resolveTree d []).outcome ++ ({} : Outcome) = _
    show Outcome.append _ _ = _
    simp only [Outcome.append, List.append_nil]
  rw [resolve, grow_branches, List.map_map]
  simp only [alone]
  rfl

end Pass

/-- **Every declared graph is accounted for once**, whatever is declared: it is resolved, fails, or
is skipped below one that failed, however often it was built before; and what becomes of the graphs
that extend no other is what becomes of each of them alone, one behind the other by name. -/
theorem Facts.resolve_accounted (f : Facts) (options : Options) :
    (f.pass options).Accounted f.graphs (f.resolve options) ∧
    f.resolve options = .concat ((sortBy (compareOn (·.id)) f.graphs).map fun d =>
      ({ f with graphs := [d] } : Facts).resolve options) :=
  ⟨(f.pass options).accounted_resolve f.graphs, (f.pass options).resolve_eq_concat f.graphs⟩

end Wiring
