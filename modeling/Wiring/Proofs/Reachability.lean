import Wiring.Build
import Wiring.Proofs.SortedSet

/-!
# What a walk from roots finds

`explore` takes a number of steps that its callers compute.  A step takes a vertex off the stack and
puts the targets of a new vertex on it, so a walk ends before its steps do if each vertex pays for
its targets out of a weight that shrinks as vertices are seen (`explore_closed`).  With enough steps
the walk finds exactly what the roots reach (`mem_explore_iff`); along items such as edges, each
pays for its own target (`mem_explore_along`, `mem_reachableFrom`).
-/

namespace Wiring

/-- A vertex is reached from roots along `next`. -/
inductive Reach {α : Type} (next : α → List α) (roots : List α) : α → Prop where
  | root {v : α} (h : v ∈ roots) : Reach next roots v
  | step {v w : α} (h : Reach next roots v) (hw : w ∈ next v) : Reach next roots w

section Explore

variable {α : Type} [DecidableEq α] {next : α → List α}

/-- What holds of the vertices seen and stacked, and passes along `next`, holds of all found. -/
theorem forall_mem_explore {P : α → Prop} (hP : ∀ v, P v → ∀ w ∈ next v, P w) :
    ∀ (steps : Nat) (seen stack : List α), (∀ v ∈ seen, P v) → (∀ v ∈ stack, P v) →
      ∀ v ∈ explore next steps seen stack, P v
  | 0, _, _, hs, _ => hs
  | _ + 1, _, [], hs, _ => hs
  | steps + 1, seen, v :: stack, hs, ht => by
      obtain ⟨hv, ht⟩ := List.forall_mem_cons.mp ht
      rw [explore]
      split
      · exact forall_mem_explore hP steps seen stack hs ht
      · exact forall_mem_explore hP steps _ _ (List.forall_mem_cons.mpr ⟨hv, hs⟩)
          (List.forall_mem_append.mpr ⟨hP v hv, ht⟩)

theorem nodup_explore : ∀ (steps : Nat) (seen stack : List α), seen.Nodup →
    (explore next steps seen stack).Nodup
  | 0, _, _, hs => hs
  | _ + 1, _, [], hs => hs
  | steps + 1, seen, v :: stack, hs => by
      rw [explore]
      split
      · exact nodup_explore steps seen stack hs
      · exact nodup_explore steps _ _ (List.nodup_cons.mpr ⟨‹_›, hs⟩)

/-- **A walk with enough steps is closed.**  `weight` pays for the targets of each new vertex; if
the steps cover the stack and the weight, all that is seen and stacked is found, and so is every
target of what is found. -/
theorem explore_closed {weight : List α → Nat}
    (hw : ∀ seen v, v ∉ seen → weight (v :: seen) + (next v).length ≤ weight seen) :
    ∀ (steps : Nat) (seen stack : List α), stack.length + weight seen ≤ steps →
      (∀ v ∈ seen, ∀ w ∈ next v, w ∈ seen ∨ w ∈ stack) →
        (∀ v, v ∈ seen ∨ v ∈ stack → v ∈ explore next steps seen stack) ∧
        ∀ v ∈ explore next steps seen stack, ∀ w ∈ next v, w ∈ explore next steps seen stack
  | 0, seen, stack, hn, hc => by
      obtain rfl : stack = [] := List.eq_nil_of_length_eq_zero (by omega)
      simpa [explore] using hc
  | _ + 1, seen, [], _, hc => by simpa [explore] using hc
  | steps + 1, seen, v :: stack, hn, hc => by
      rw [List.length_cons] at hn
      rw [explore]
      split
      · rename_i hv
        have known : ∀ x, x ∈ seen ∨ x ∈ v :: stack → x ∈ seen ∨ x ∈ stack := by
          rintro x (h | h)
          · exact .inl h
          · rcases List.mem_cons.mp h with rfl | h
            · exact .inl hv
            · exact .inr h
        obtain ⟨hin, hclosed⟩ := explore_closed hw steps seen stack (by omega)
          fun x hx w hxw => known w (hc x hx w hxw)
        exact ⟨fun x hx => hin x (known x hx), hclosed⟩
      · rename_i hv
        -- the weight that a new vertex gives up pays for its targets on the stack
        have := hw seen v hv
        obtain ⟨hin, hclosed⟩ := explore_closed hw steps (v :: seen) (next v ++ stack)
          (by rw [List.length_append]; omega) fun x hx w hxw => by
            simp only [List.mem_cons, List.mem_append] at hx ⊢
            rcases hx with rfl | hx
            · exact .inr (.inl hxw)
            · rcases hc x hx w hxw with h | h
              · exact .inl (.inr h)
              · exact (List.mem_cons.mp h).elim (fun h => .inl (.inl h)) fun h => .inr (.inr h)
        refine ⟨fun x hx => hin x ?_, hclosed⟩
        simp only [List.mem_cons, List.mem_append] at hx ⊢
        rcases hx with h | h | h
        · exact .inl (.inr h)
        · exact .inl (.inl h)
        · exact .inr (.inr h)

/-- A walk from roots with enough steps finds what the roots reach. -/
theorem mem_explore_iff (weight : List α → Nat)
    (hw : ∀ seen v, v ∉ seen → weight (v :: seen) + (next v).length ≤ weight seen)
    {steps : Nat} {roots : List α} (hn : roots.length + weight [] ≤ steps) {v : α} :
    v ∈ explore next steps [] roots ↔ Reach next roots v := by
  obtain ⟨hin, hclosed⟩ := explore_closed hw steps [] roots hn (by simp)
  constructor
  · exact forall_mem_explore (P := Reach next roots) (fun _ h _ hw => .step h hw) steps [] roots
      (by simp) (fun _ h => .root h) v
  · intro h
    induction h with
    | root h => exact hin _ (.inr h)
    | step _ hw ih => exact hclosed _ ih _ hw

/-- The number of items whose key is not seen. -/
def unseen {β : Type} (key : β → α) (items : List β) (seen : List α) : Nat :=
  (items.filter (key · ∉ seen)).length

/-- Seeing a vertex uses up the items with it as key. -/
theorem unseen_cons {β : Type} (key : β → α) {seen : List α} {v : α} (hv : v ∉ seen) :
    ∀ items : List β, unseen key items (v :: seen) + (items.filter (key · = v)).length ≤
      unseen key items seen
  | [] => by simp [unseen]
  | i :: rest => by
      have ih := unseen_cons key hv rest
      unfold unseen at ih ⊢
      by_cases hi : key i = v
      · simp [hi, hv] at ih ⊢
        omega
      · by_cases hs : key i ∈ seen
        · simpa [hi, hs] using ih
        · simp [hi, hs] at ih ⊢
          omega

/-- **A walk along items finds what the roots reach**, if the targets of a vertex are no more than
the items with it as key, and there are as many steps as roots and items. -/
theorem mem_explore_along {β : Type} {key : β → α} {items : List β}
    (ht : ∀ v, (next v).length ≤ (items.filter (key · = v)).length) {steps : Nat} {roots : List α}
    (hn : roots.length + items.length ≤ steps) {v : α} :
    v ∈ explore next steps [] roots ↔ Reach next roots v := by
  have hlen : roots.length + unseen key items [] ≤ steps :=
    Nat.le_trans (Nat.add_le_add_left (List.length_filter_le ..) _) hn
  refine mem_explore_iff (unseen key items) (fun seen v hv => ?_) hlen
  exact Nat.le_trans (Nat.add_le_add_left (ht v) _) (unseen_cons key hv items)

end Explore

/-! ### Along the edges of a graph -/

/-- A key is reached from roots along edges. -/
inductive Reaches (edges : List Edge) (roots : List TypeKey) : TypeKey → Prop where
  | root {key : TypeKey} (h : key ∈ roots) : Reaches edges roots key
  | edge {e : Edge} (he : e ∈ edges) (h : Reaches edges roots e.source) :
      Reaches edges roots e.target

theorem mem_reachableFrom {roots : List TypeKey} {edges : List Edge} {key : TypeKey} :
    key ∈ (reachableFrom roots edges).toList ↔ Reaches edges roots key := by
  have targets : ∀ v, ((edges.filter (·.source = v)).map (·.target)).length ≤
      (edges.filter (·.source = v)).length := fun v => Nat.le_of_eq (List.length_map _)
  rw [reachableFrom, SortedSet.mem_ofList, mem_explore_along targets (Nat.le_refl _)]
  constructor
  · intro h
    induction h with
    | root h => exact .root h
    | step _ hw ih =>
        obtain ⟨e, he, rfl⟩ := List.mem_map.mp hw
        obtain ⟨he, hs⟩ := List.mem_filter.mp he
        exact .edge he ((of_decide_eq_true hs) ▸ ih)
  · intro h
    induction h with
    | root h => exact .root h
    | edge he _ ih => exact .step ih (List.mem_map.mpr ⟨_, List.mem_filter.mpr ⟨he, by simp⟩, rfl⟩)

end Wiring
