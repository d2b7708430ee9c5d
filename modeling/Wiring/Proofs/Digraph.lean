import Mathlib.Data.List.Basic
import Mathlib.Logic.Relation
import Wiring.Digraph
import Wiring.Proofs.Reachability

/-!
# Ways around in directed graphs

`components` finds the classes of vertices that lead to each other, each once
(`discovered_components`), and `knots` those of them that a way around goes through
(`exists_mem_knots_perm`).  Whether there is a way around at all is a test of its own
(`isCyclic_iff`).  A vertex on a way around has a shortest one (`isSome_shortestLoop?`).
-/

namespace Wiring

open Relation

theorem reach_singleton_iff {α : Type} {next : α → List α} {v w : α} :
    Reach next [v] w ↔ ReflTransGen (fun a b => b ∈ next a) v w := by
  constructor
  · intro h
    induction h with
    | root h => exact (List.mem_singleton.mp h) ▸ .refl
    | step _ hw ih => exact ih.tail hw
  · intro h
    induction h with
    | refl => exact .root (List.mem_singleton.mpr rfl)
    | tail _ hw ih => exact .step ih hw

/-- A way on which all that lies between its ends satisfies `p` is a way through such vertices. -/
theorem reflTransGen_through {α : Type} {r : α → α → Prop} {p : α → Prop} {v w : α}
    (h : ReflTransGen r v w) (hp : ∀ u, ReflTransGen r v u → ReflTransGen r u w → p u) :
    ReflTransGen (fun a b => r a b ∧ p b) v w := by
  induction h with
  | refl => exact .refl
  | tail hab hbc ih =>
      exact (ih fun u hu hub => hp u hu (hub.tail hbc)).tail ⟨hbc, hp _ (hab.tail hbc) .refl⟩

/-- A way keeps to any relation that holds along it. -/
theorem reflTransGen_imp {α : Type} {r s : α → α → Prop} {v w : α} (h : ReflTransGen r v w)
    (hrs : ∀ a b, r a b → ReflTransGen r v a → ReflTransGen r b w → s a b) :
    ReflTransGen s v w := by
  induction h with
  | refl => exact .refl
  | tail hva hab ih =>
      exact (ih fun a b h ha hb => hrs a b h ha (hb.tail hab)).tail (hrs _ _ hab hva .refl)

/-- A way around keeps to any relation that holds along it. -/
theorem transGen_self_imp {α : Type} {r s : α → α → Prop} {v : α} (h : TransGen r v v)
    (hrs : ∀ a b, r a b → ReflTransGen r v a → ReflTransGen r b v → s a b) : TransGen s v v := by
  suffices ∀ w, TransGen r v w → ReflTransGen r w v → TransGen s v w from this v h .refl
  intro w hvw hwv
  induction hvw with
  | single hab => exact .single (hrs _ _ hab .refl hwv)
  | tail hva hab ih => exact (ih (hwv.head hab)).tail (hrs _ _ hab hva.to_reflTransGen hwv)

namespace Digraph

variable {α : Type} {g : Digraph α} {v w : α}

/-- An arc leads from `v` to `w`. -/
def Arc (g : Digraph α) (v w : α) : Prop := (v, w) ∈ g.arcs

/-- Arcs are between vertices. -/
def Proper (g : Digraph α) : Prop := ∀ v w, g.Arc v w → v ∈ g.vertices ∧ w ∈ g.vertices

/-- Two vertices lead to each other. -/
def Tied (g : Digraph α) (v w : α) : Prop := ReflTransGen g.Arc v w ∧ ReflTransGen g.Arc w v

/-- A way around leads through `v`. -/
def Loops (g : Digraph α) (v : α) : Prop := TransGen g.Arc v v

namespace Tied

theorem refl (v : α) : g.Tied v v := ⟨.refl, .refl⟩

theorem symm (h : g.Tied v w) : g.Tied w v := ⟨h.2, h.1⟩

theorem trans {u : α} (h : g.Tied u v) (k : g.Tied v w) : g.Tied u w :=
  ⟨h.1.trans k.1, k.2.trans h.2⟩

end Tied

theorem Loops.mono {h : Digraph α} (harc : ∀ a b, g.Arc a b → h.Arc a b) (hv : g.Loops v) :
    h.Loops v :=
  TransGen.mono harc _ _ hv

theorem Tied.mono {h : Digraph α} (harc : ∀ a b, g.Arc a b → h.Arc a b) (hv : g.Tied v w) :
    h.Tied v w :=
  ⟨ReflTransGen.mono harc _ _ hv.1, ReflTransGen.mono harc _ _ hv.2⟩

theorem Proper.mem_of_tied (hg : g.Proper) (hv : v ∈ g.vertices) (h : g.Tied v w) :
    w ∈ g.vertices := by
  cases h.1 with
  | refl => exact hv
  | tail _ ha => exact (hg _ _ ha).2

/-- `members` lists a class of vertices that lead to each other, each once. -/
structure IsComponent (g : Digraph α) (members : List α) : Prop where
  nonempty : members ≠ []
  nodup : members.Nodup
  subset : members ⊆ g.vertices
  mem_iff : ∀ v ∈ members, ∀ w, w ∈ members ↔ g.Tied v w

namespace IsComponent

variable {members others : List α}

/-- Components that share a vertex have the same vertices. -/
theorem perm_of_mem (h : g.IsComponent members) (k : g.IsComponent others) (hv : v ∈ members)
    (kv : v ∈ others) : members.Perm others :=
  (List.perm_ext_iff_of_nodup h.nodup k.nodup).mpr fun w => by
    rw [h.mem_iff v hv, k.mem_iff v kv]

theorem of_perm (h : g.IsComponent members) (hp : members.Perm others) : g.IsComponent others where
  nonempty heq := h.nonempty (heq ▸ hp).eq_nil
  nodup := hp.nodup_iff.mp h.nodup
  subset := fun _ hv => h.subset (hp.mem_iff.mpr hv)
  mem_iff v hv w := by
    rw [← hp.mem_iff]
    exact h.mem_iff v (hp.mem_iff.mpr hv) w

end IsComponent

/-- A component with an arc inside. -/
structure IsKnot (g : Digraph α) (members : List α) : Prop extends g.IsComponent members where
  inner : ∃ v ∈ members, ∃ w ∈ members, g.Arc v w

namespace IsKnot

variable {members others : List α}

theorem of_perm (h : g.IsKnot members) (hp : members.Perm others) : g.IsKnot others where
  toIsComponent := h.toIsComponent.of_perm hp
  inner := by
    obtain ⟨v, hv, w, hw, ha⟩ := h.inner
    exact ⟨v, hp.mem_iff.mp hv, w, hp.mem_iff.mp hw, ha⟩

/-- All vertices of a knot are on ways around. -/
theorem loops (h : g.IsKnot members) (hv : v ∈ members) : g.Loops v := by
  obtain ⟨a, ha, b, hb, hab⟩ := h.inner
  have hva := ((h.mem_iff v hv a).mp ha).1
  exact TransGen.trans_right hva (TransGen.head' hab ((h.mem_iff b hb v).mp hv).1)

end IsKnot

/-- `after` comes of `before` by walking on: what it enters anew, it leaves again. -/
structure Walk.Extends (before after : Walk α) : Prop where
  entered : ∀ v ∈ before.entered, v ∈ after.entered
  left : ∀ v ∈ before.left, v ∈ after.left
  fresh : ∀ v ∈ after.entered, v ∈ before.entered ∨ v ∈ after.left

namespace Walk.Extends

variable {a b c : Walk α}

theorem refl (a : Walk α) : Walk.Extends a a := ⟨fun _ h => h, fun _ h => h, fun _ h => .inl h⟩

theorem trans (h : Walk.Extends a b) (k : Walk.Extends b c) : Walk.Extends a c where
  entered v hv := k.entered v (h.entered v hv)
  left v hv := k.left v (h.left v hv)
  fresh v hv := (k.fresh v hv).elim (fun hv => (h.fresh v hv).imp_right (k.left v)) .inr

theorem foldl {f : Walk α → α → Walk α} (hf : ∀ walk v, Walk.Extends walk (f walk v)) :
    ∀ (vs : List α) (walk : Walk α), Walk.Extends walk (vs.foldl f walk)
  | [], walk => refl walk
  | v :: vs, walk => (hf walk v).trans (foldl hf vs (f walk v))

end Walk.Extends

variable [DecidableEq α]

@[simp] theorem mem_targets : w ∈ g.targets v ↔ g.Arc v w := by
  simp [targets, Arc]

@[simp] theorem mem_sources : v ∈ g.sources w ↔ g.Arc v w := by
  simp [sources, Arc]

theorem mem_next : w ∈ g.next v ↔ w ∈ g.vertices ∧ g.Arc v w := by
  simp [next]

theorem restrict_arc {vs : List α} :
    (g.restrict vs).Arc v w ↔ g.Arc v w ∧ v ∈ vs ∧ w ∈ vs := by
  simp [restrict, Arc]

theorem Proper.restrict (hg : g.Proper) (vs : List α) : (g.restrict vs).Proper := by
  intro v w h
  obtain ⟨h, hv, hw⟩ := restrict_arc.mp h
  simp [Digraph.restrict, hg v w h, hv, hw]

/-! ### What a search along the arcs finds -/

theorem length_targets_filter_le (g : Digraph α) (p : α → Bool) (v : α) :
    ((g.targets v).filter p).length ≤ (g.arcs.filter (·.1 = v)).length :=
  Nat.le_trans (List.length_filter_le ..) (by simp [targets])

theorem length_sources_filter_le (g : Digraph α) (p : α → Bool) (v : α) :
    ((g.sources v).filter p).length ≤ (g.arcs.filter (·.2 = v)).length :=
  Nat.le_trans (List.length_filter_le ..) (by simp [sources])

/-- Forward from `v`, through vertices that `p` accepts. -/
theorem mem_explore_targets {p : α → Bool} :
    w ∈ explore (fun u => (g.targets u).filter p) (g.arcs.length + 1) [] [v] ↔
      ReflTransGen (fun a b => g.Arc a b ∧ p b) v w := by
  have steps : [v].length + g.arcs.length ≤ g.arcs.length + 1 := Nat.le_of_eq (Nat.add_comm ..)
  rw [mem_explore_along (g.length_targets_filter_le p) steps, reach_singleton_iff]
  simp only [List.mem_filter, mem_targets]

/-- Back from `v`, through vertices that `p` accepts. -/
theorem mem_explore_sources {p : α → Bool} :
    w ∈ explore (fun u => (g.sources u).filter p) (g.arcs.length + 1) [] [v] ↔
      ReflTransGen (fun a b => Function.swap g.Arc a b ∧ p b) v w := by
  have steps : [v].length + g.arcs.length ≤ g.arcs.length + 1 := Nat.le_of_eq (Nat.add_comm ..)
  rw [mem_explore_along (g.length_sources_filter_le p) steps, reach_singleton_iff]
  simp only [List.mem_filter, mem_sources, Function.swap]

/-! ### Components -/

/-- The search back and forth from `v` finds the class of `v`, if `free` accepts the whole class. -/
theorem mem_component {free : α → Bool} (hfree : ∀ w, g.Tied v w → free w) :
    w ∈ g.component free v ↔ g.Tied v w := by
  simp only [component, decide_eq_true_eq, mem_explore_targets, mem_explore_sources]
  refine ⟨fun h => ⟨ReflTransGen.mono (fun _ _ h => h.1) _ _ h, ?_⟩, fun h => ?_⟩
  · cases h with
    | refl => exact .refl
    | tail _ hw => exact reflTransGen_swap.mp (ReflTransGen.mono (fun _ _ h => h.1) _ _ hw.2)
  -- all that lies on a way from `v` to `w` or back is tied to `v`
  · have behind : ∀ u, g.Tied v u →
        ReflTransGen (fun a b => Function.swap g.Arc a b ∧ free b) v u := fun u hu =>
      reflTransGen_through (reflTransGen_swap.mpr hu.2) fun x hx hxu =>
        hfree x ⟨hu.1.trans (reflTransGen_swap.mp hxu), reflTransGen_swap.mp hx⟩
    exact reflTransGen_through h.1 fun u hu huw => behind u ⟨hu, huw.trans h.2⟩

theorem isComponent_component (hg : g.Proper) (hv : v ∈ g.vertices) {free : α → Bool}
    (hfree : ∀ w, g.Tied v w → free w) : g.IsComponent (g.component free v) where
  nonempty := List.ne_nil_of_mem ((mem_component hfree).mpr (.refl v))
  nodup := nodup_explore _ _ _ .nil
  subset := fun _ hw => hg.mem_of_tied hv ((mem_component hfree).mp hw)
  mem_iff := by
    intro u hu w
    have hvu := (mem_component hfree).mp hu
    rw [mem_component hfree]
    exact ⟨fun h => hvu.symm.trans h, fun h => hvu.trans h⟩

/-! ### The vertices that a depth-first walk leaves -/

theorem extends_visit (g : Digraph α) :
    ∀ (depth : Nat) (walk : Walk α) (v : α), Walk.Extends walk (g.visit depth walk v)
  | 0, walk, _ => .refl walk
  | depth + 1, walk, v => by
      rw [visit]
      split
      · exact .refl walk
      · have h := Walk.Extends.foldl (g.extends_visit depth) (g.targets v)
          { walk with entered := v :: walk.entered }
        refine ⟨fun u hu => h.entered u (.tail _ hu), fun u hu => .tail _ (h.left u hu),
          fun u hu => ?_⟩
        rcases h.fresh u hu with hu | hu
        · exact (List.mem_cons.mp hu).elim (fun hu => .inr (hu ▸ .head _)) .inl
        · exact .inr (.tail _ hu)

theorem mem_entered_visit (g : Digraph α) (depth : Nat) (walk : Walk α) (v : α) :
    v ∈ (g.visit (depth + 1) walk v).entered := by
  rw [visit]
  split
  · assumption
  · exact (Walk.Extends.foldl (g.extends_visit depth) _ _).entered v (.head _)

/-- A walk from vertices leaves vertices only. -/
theorem visit_left_mem (hg : g.Proper) :
    ∀ (depth : Nat) (walk : Walk α) (v : α), v ∈ g.vertices → (∀ u ∈ walk.left, u ∈ g.vertices) →
      ∀ u ∈ (g.visit depth walk v).left, u ∈ g.vertices
  | 0, _, _, _, hw => hw
  | depth + 1, walk, v, hv, hw => by
      rw [visit]
      split
      · exact hw
      · refine List.forall_mem_cons.mpr ⟨hv, ?_⟩
        refine List.foldlRecOn (motive := fun w : Walk α => ∀ u ∈ w.left, u ∈ g.vertices) _ _ hw ?_
        exact fun w hw u hu => visit_left_mem hg depth w u (hg _ _ (mem_targets.mp hu)).2 hw

theorem mem_entered_foldl (g : Digraph α) (depth : Nat) {vs : List α} (hv : v ∈ vs)
    (walk : Walk α) :
    v ∈ (vs.foldl (g.visit (depth + 1)) walk).entered := by
  obtain ⟨front, rest, rfl⟩ := List.append_of_mem hv
  rw [List.foldl_append, List.foldl_cons]
  exact (Walk.Extends.foldl (g.extends_visit _) rest _).entered v (g.mem_entered_visit depth _ v)

/-- A depth-first walk leaves each vertex. -/
theorem mem_finished (hg : g.Proper) : v ∈ g.finished ↔ v ∈ g.vertices := by
  constructor
  · refine List.foldlRecOn (motive := fun w : Walk α => ∀ u ∈ w.left, u ∈ g.vertices) _ _ (by simp)
      ?_ v
    exact fun w hw u hu => visit_left_mem hg _ w u hu hw
  · intro hv
    rcases (Walk.Extends.foldl (g.extends_visit _) g.vertices ⟨[], []⟩).fresh v
      (g.mem_entered_foldl _ hv _) with h | h
    · cases h
    · exact h

/-! ### All components -/

/-- What is found after a vertex: its component, if it is in none found before. -/
def discover (g : Digraph α) (found : List (List α)) (v : α) : List (List α) :=
  if found.any (v ∈ ·) then found else g.component (fun w => !found.any (w ∈ ·)) v :: found

theorem components_eq (g : Digraph α) : g.components = g.finished.foldl g.discover [] := rfl

/-- What is found are components, no two of them with a vertex in common. -/
structure Discovered (g : Digraph α) (found : List (List α)) : Prop where
  component : ∀ members ∈ found, g.IsComponent members
  disjoint : found.Pairwise List.Disjoint

namespace Discovered

variable {found : List (List α)}

theorem step (hg : g.Proper) (h : g.Discovered found) (hv : v ∈ g.vertices) :
    g.Discovered (g.discover found v) := by
  rw [discover]
  split
  · exact h
  · rename_i hnew
    have hnew : ∀ members ∈ found, v ∉ members := by simpa using hnew
    -- a vertex tied to `v` is in no component found before, or `v` would be in it too
    have apart : ∀ w, g.Tied v w → ∀ members ∈ found, w ∉ members := fun w hw members hm hwm =>
      hnew members hm (((h.component members hm).mem_iff w hwm v).mpr hw.symm)
    have hfree : ∀ w, g.Tied v w → !found.any (w ∈ ·) := fun w hw => by simpa using apart w hw
    exact ⟨List.forall_mem_cons.mpr ⟨isComponent_component hg hv hfree, h.component⟩,
      List.pairwise_cons.mpr ⟨fun members hm w hw hwm =>
        apart w ((mem_component hfree).mp hw) members hm hwm, h.disjoint⟩⟩

theorem foldl (hg : g.Proper) {vs : List α} (hvs : ∀ v ∈ vs, v ∈ g.vertices)
    (h : g.Discovered found) : g.Discovered (vs.foldl g.discover found) :=
  List.foldlRecOn (motive := g.Discovered) vs g.discover h fun _ h v hv => h.step hg (hvs v hv)

end Discovered

theorem mem_discover {found : List (List α)} {members : List α} (h : members ∈ found) :
    members ∈ g.discover found v := by
  rw [discover]
  split
  · exact h
  · exact .tail _ h

theorem mem_foldl_discover {found : List (List α)} {members : List α} (h : members ∈ found)
    (vs : List α) : members ∈ vs.foldl g.discover found :=
  List.foldlRecOn (motive := (members ∈ ·)) vs g.discover h fun _ h _ _ => mem_discover h

theorem exists_mem_discover (v : α) (found : List (List α)) :
    ∃ members ∈ g.discover found v, v ∈ members := by
  rw [discover]
  split
  · rename_i hknown
    simpa using hknown
  · exact ⟨_, .head _, by simp [component, mem_explore_targets, ReflTransGen.refl]⟩

/-- **The components found are classes of vertices that lead to each other**, no two of them with a
vertex in common. -/
theorem discovered_components (hg : g.Proper) : g.Discovered g.components :=
  Discovered.foldl hg (fun _ hv => (mem_finished hg).mp hv) ⟨by simp, .nil⟩

/-- Each vertex is in a component that is found. -/
theorem exists_mem_components (hg : g.Proper) (hv : v ∈ g.vertices) :
    ∃ members ∈ g.components, v ∈ members := by
  obtain ⟨front, rest, hsplit⟩ := List.append_of_mem ((mem_finished hg).mpr hv)
  rw [components_eq, hsplit, List.foldl_append, List.foldl_cons]
  obtain ⟨members, hm, hvm⟩ := exists_mem_discover (g := g) v (front.foldl g.discover [])
  exact ⟨members, mem_foldl_discover hm rest, hvm⟩

/-! ### Ways around -/

theorem isKnot_of_mem_knots (hg : g.Proper) {members : List α} (h : members ∈ g.knots) :
    g.IsKnot members := by
  rw [knots, List.mem_filter] at h
  obtain ⟨v, hv, w, hvw, hw⟩ : ∃ v ∈ members, ∃ w, g.Arc v w ∧ w ∈ members := by simpa using h.2
  exact ⟨(discovered_components hg).component members h.1, v, hv, w, hw, hvw⟩

theorem disjoint_knots (hg : g.Proper) : g.knots.Pairwise List.Disjoint :=
  (discovered_components hg).disjoint.filter _

/-- A vertex on a way around is in a component with an arc inside. -/
theorem exists_mem_knots (hg : g.Proper) (h : g.Loops v) : ∃ members ∈ g.knots, v ∈ members := by
  obtain ⟨w, hvw, hwv⟩ := TransGen.head'_iff.mp h
  obtain ⟨members, hm, hv⟩ := exists_mem_components hg (hg v w hvw).1
  have hcomp := (discovered_components hg).component members hm
  have hw : w ∈ members := (hcomp.mem_iff v hv w).mpr ⟨.single hvw, hwv⟩
  refine ⟨members, List.mem_filter.mpr ⟨hm, ?_⟩, hv⟩
  simpa using ⟨v, hv, w, hvw, hw⟩

/-- Each component with an arc inside is found, whatever the order of its vertices. -/
theorem exists_mem_knots_perm (hg : g.Proper) {members : List α} (h : g.IsKnot members) :
    ∃ others ∈ g.knots, others.Perm members := by
  obtain ⟨v, hv⟩ := List.exists_mem_of_ne_nil _ h.nonempty
  obtain ⟨others, ho, hvo⟩ := exists_mem_knots hg (h.loops hv)
  exact ⟨others, ho, (isKnot_of_mem_knots hg ho).perm_of_mem h.toIsComponent hvo hv⟩

theorem isCyclic_iff : g.isCyclic = true ↔ ∃ v, g.Loops v := by
  have found (v w : α) : v ∈ explore g.targets (g.arcs.length + 1) [] [w] ↔
      ReflTransGen g.Arc w v := by
    simpa using mem_explore_targets (g := g) (p := fun _ => true) (v := w) (w := v)
  rw [isCyclic, List.any_eq_true]
  constructor
  · rintro ⟨⟨v, w⟩, hvw, hback⟩
    exact ⟨v, TransGen.head' hvw ((found v w).mp (of_decide_eq_true hback))⟩
  · rintro ⟨v, hv⟩
    obtain ⟨w, hvw, hwv⟩ := TransGen.head'_iff.mp hv
    exact ⟨(v, w), hvw, decide_eq_true ((found v w).mpr hwv)⟩

/-- A way around through a vertex keeps to vertices that hold all vertices tied to it. -/
theorem Loops.restrict {vs : List α} (h : g.Loops v) (hvs : ∀ w, g.Tied v w → w ∈ vs) :
    (g.restrict vs).Loops v :=
  transGen_self_imp h fun _ _ hab hva hbv => restrict_arc.mpr
    ⟨hab, hvs _ ⟨hva, hbv.head hab⟩, hvs _ ⟨hva.tail hab, hbv⟩⟩

/-! ### Ways around in a part of a graph -/

/-- Vertices tied in a graph are tied in a part of it that holds all vertices tied to them. -/
theorem Tied.restrict {vs : List α} (h : g.Tied v w) (hvs : ∀ u, g.Tied v u → u ∈ vs) :
    (g.restrict vs).Tied v w where
  left := reflTransGen_imp h.1 fun _ _ hab hva hbw => restrict_arc.mpr
    ⟨hab, hvs _ ⟨hva, (hbw.head hab).trans h.2⟩, hvs _ ⟨hva.tail hab, hbw.trans h.2⟩⟩
  right := reflTransGen_imp h.2 fun _ _ hab hwa hbv => restrict_arc.mpr
    ⟨hab, hvs _ ⟨h.1.trans hwa, hbv.head hab⟩, hvs _ ⟨h.1.trans (hwa.tail hab), hbv⟩⟩

/-- The knots of a part that ties nothing to what it leaves out are knots of the whole. -/
theorem isKnot_restrict {vs members : List α} (closed : ∀ v ∈ vs, ∀ w, g.Tied v w → w ∈ vs) :
    (g.restrict vs).IsKnot members ↔ g.IsKnot members ∧ members ⊆ vs := by
  have tied : ∀ v ∈ vs, ∀ w, (g.restrict vs).Tied v w ↔ g.Tied v w := fun v hv w =>
    ⟨Tied.mono fun _ _ h => (restrict_arc.mp h).1, fun h => h.restrict (closed v hv)⟩
  have mem_vertices : ∀ v, v ∈ (g.restrict vs).vertices ↔ v ∈ g.vertices ∧ v ∈ vs := by
    simp [Digraph.restrict]
  constructor
  · intro h
    have hs : members ⊆ vs := fun v hv => ((mem_vertices v).mp (h.subset hv)).2
    obtain ⟨v, hv, w, hw, ha⟩ := h.inner
    exact ⟨⟨⟨h.nonempty, h.nodup, fun v hv => ((mem_vertices v).mp (h.subset hv)).1,
      fun v hv w => (h.mem_iff v hv w).trans (tied v (hs hv) w)⟩,
      v, hv, w, hw, (restrict_arc.mp ha).1⟩, hs⟩
  · rintro ⟨h, hs⟩
    obtain ⟨v, hv, w, hw, ha⟩ := h.inner
    exact ⟨⟨h.nonempty, h.nodup, fun v hv => (mem_vertices v).mpr ⟨h.subset hv, hs hv⟩,
      fun v hv w => (h.mem_iff v hv w).trans (tied v (hs hv) w).symm⟩,
      v, hv, w, hw, restrict_arc.mpr ⟨ha, hs hv, hs hw⟩⟩

/-! ### The shortest way around -/

/-- The ways on from a vertex to vertices not met before, with the vertices then still not met, are
the vertices not met before. -/
theorem unseen_append_fresh (g : Digraph α) (seen : List α) (v : α) :
    unseen id g.vertices (seen ++ (g.next v).filter (· ∉ seen)) +
      ((g.next v).filter (· ∉ seen)).length = unseen id g.vertices seen := by
  have hfresh : (g.next v).filter (· ∉ seen) =
      (g.vertices.filter (· ∉ seen)).filter (· ∈ g.targets v) := by
    simp only [next, List.filter_filter, Bool.and_comm]
  have hrest : g.vertices.filter (· ∉ seen ++ (g.next v).filter (· ∉ seen)) =
      (g.vertices.filter (· ∉ seen)).filter fun w => !decide (w ∈ g.targets v) := by
    rw [List.filter_filter]
    refine List.filter_congr fun w hw => ?_
    by_cases hs : w ∈ seen <;> simp [hs, mem_next, hw]
  have := List.length_eq_length_filter_add (l := g.vertices.filter (· ∉ seen)) (· ∈ g.targets v)
  simp only [unseen, id]
  rw [hrest, hfresh]
  omega

/-- What a search for a way back has met: each vertex is still on the list of ways, or it was left,
with nothing new to meet behind it. -/
def Met (g : Digraph α) (start : α) (seen : List α) (ways : List (List α)) : Prop :=
  ∀ v ∈ seen, (∃ way ∈ ways, way.head? = some v) ∨ start ∉ g.next v ∧ g.next v ⊆ seen

theorem Met.step {start v : α} {passed seen : List α} {ways : List (List α)}
    (h : g.Met start seen ((v :: passed) :: ways)) (hstart : start ∉ g.next v) :
    g.Met start (seen ++ (g.next v).filter (· ∉ seen))
      (ways ++ ((g.next v).filter (· ∉ seen)).map (· :: v :: passed)) := by
  intro u hu
  rcases List.mem_append.mp hu with hu | hu
  · rcases h u hu with ⟨way, hway, hhead⟩ | ⟨hback, hnext⟩
    · rcases List.mem_cons.mp hway with rfl | hway
      · obtain rfl : v = u := by simpa using hhead
        refine .inr ⟨hstart, fun w hw => ?_⟩
        by_cases hs : w ∈ seen <;> simp [hs, hw]
      · exact .inl ⟨way, List.mem_append_left _ hway, hhead⟩
    · exact .inr ⟨hback, fun w hw => List.mem_append_left _ (hnext hw)⟩
  · exact .inl ⟨_, List.mem_append_right _ (List.mem_map_of_mem hu), rfl⟩

/-- If no way back is found, what was met and what follows leads nowhere back. -/
theorem closed_of_wayBack? {start : α} :
    ∀ (steps : Nat) (seen : List α) (ways : List (List α)),
      ways.length + unseen id g.vertices seen ≤ steps → g.Met start seen ways →
      g.wayBack? start steps seen ways = none →
      ∃ closed : List α, seen ⊆ closed ∧ ∀ v ∈ closed, start ∉ g.next v ∧ g.next v ⊆ closed
  | 0, seen, ways, hn, hm, _ => by
      obtain rfl : ways = [] := List.eq_nil_of_length_eq_zero (by omega)
      exact ⟨seen, fun _ h => h, by simpa [Met] using hm⟩
  | _ + 1, seen, [], _, hm, _ => ⟨seen, fun _ h => h, by simpa [Met] using hm⟩
  | steps + 1, seen, [] :: ways, hn, hm, hw => by
      rw [List.length_cons] at hn
      exact closed_of_wayBack? steps seen ways (by omega) (by simpa [Met] using hm) hw
  | steps + 1, seen, (v :: passed) :: ways, hn, hm, hw => by
      rw [List.length_cons] at hn
      simp only [wayBack?] at hw
      split at hw
      · cases hw
      · rename_i hstart
        have hfresh := g.unseen_append_fresh seen v
        obtain ⟨closed, hsub, hclosed⟩ := closed_of_wayBack? steps _ _
          (by simp only [List.length_append, List.length_map]; omega) (hm.step hstart) hw
        exact ⟨closed, fun u hu => hsub (List.mem_append_left _ hu), hclosed⟩

/-- **A vertex on a way around has a shortest one.** -/
theorem isSome_shortestLoop? (hg : g.Proper) (h : g.Loops v) : (g.shortestLoop? v).isSome := by
  rw [shortestLoop?]
  split
  · rfl
  · rename_i hstart
    by_contra hnone
    have hsteps : ((g.next v).map fun w => [w]).length + unseen id g.vertices (g.next v) ≤
        g.vertices.length := by
      have := g.unseen_append_fresh [] v
      simp [unseen] at this ⊢
      omega
    obtain ⟨closed, hsub, hclosed⟩ := closed_of_wayBack? _ _ _ hsteps
      (fun w hw => .inl ⟨[w], List.mem_map_of_mem hw, rfl⟩) (by simpa using hnone)
    -- all that `v` leads to is met, and no arc leads from there to `v`
    have hmet : ∀ w, TransGen g.Arc v w → w ∈ closed ∧ w ≠ v := by
      intro w hw
      induction hw with
      | single ha =>
          have hw := mem_next.mpr ⟨(hg _ _ ha).2, ha⟩
          exact ⟨hsub hw, fun heq => hstart (heq ▸ hw)⟩
      | tail _ ha ih =>
          have hw := mem_next.mpr ⟨(hg _ _ ha).2, ha⟩
          obtain ⟨hback, hnext⟩ := hclosed _ ih.1
          exact ⟨hnext hw, fun heq => hback (heq ▸ hw)⟩
    exact (hmet v h).2 rfl

end Digraph

end Wiring
