import Wiring.GraphDeclaration

/-!
# Graph declarations and their extensions

What holds of a graph if it holds of the graphs that extend it holds of all graphs
(`GraphDeclaration.induction`).  The graphs of a list, with all that extend them, are those of the
list and their descendants (`mem_preorder`).
-/

namespace Wiring

namespace GraphDeclaration

/-- What holds of a graph if it holds of the graphs that extend it holds of all graphs. -/
theorem induction {P : GraphDeclaration → Prop}
    (step : ∀ d : GraphDeclaration, (∀ e ∈ d.extensions, P e) → P d) (d : GraphDeclaration) : P d :=
  step d fun e _ => GraphDeclaration.induction step e
termination_by sizeOf d
decreasing_by
  rename_i he
  have := List.sizeOf_lt_of_mem he
  cases d
  dsimp only at this
  simp only [GraphDeclaration.mk.sizeOf_spec]
  omega

theorem preorder_eq : ∀ ds : List GraphDeclaration,
    preorder ds = ds.flatMap fun d => d :: d.descendants
  | [] => by rw [preorder, List.flatMap_nil]
  | d :: rest => by rw [preorder, preorder_eq rest, List.flatMap_cons, List.cons_append]

theorem mem_preorder {ds : List GraphDeclaration} {e : GraphDeclaration} :
    e ∈ preorder ds ↔ ∃ d ∈ ds, e ∈ d :: d.descendants := by
  rw [preorder_eq, List.mem_flatMap]

theorem descendants_eq (d : GraphDeclaration) : d.descendants = preorder d.extensions := by
  cases d
  rfl

end GraphDeclaration

end Wiring
