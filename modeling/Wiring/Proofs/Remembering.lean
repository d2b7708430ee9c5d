import Wiring.Proofs.AliasChain
import Wiring.Proofs.Expansion

/-!
# Expanding with a memory

A build remembers chains of aliases, the bindings made from its index and the collections aggregated
so far.  What is known of expansions is proved without these memories: an expansion that has them
is, state by state, the one without (`Expansion.runRemembering_eq`).

For chains and made bindings that is because what is remembered is what would be worked out again.
For collections it is not enough, since a collection tells its errors only when it is aggregated:
here it matters that no key is taken off the queue twice, so that none is aggregated twice.  An
`Honest` look-up, the invariant of the run, says both.
-/

namespace Wiring

/-! ### Remembered answers -/

namespace Catalog

/-- The catalog after requests for bindings that nothing registers. -/
def asked (c : Catalog) (keys : List TypeKey) : Catalog :=
  keys.foldl (fun c key => (c.implicit key).2) c

/-- Every answer remembered is the one that the index gives. -/
def Remembers (c : Catalog) : Prop :=
  ∀ key answer, c.implicits.answers.get? key = some answer → answer = c.index.synthesize? key

theorem Remembers.implicit {c : Catalog} (h : c.Remembers) (key : TypeKey) :
    (c.implicit key).1 = c.index.synthesize? key ∧ (c.implicit key).2.Remembers ∧
      (c.implicit key).2.index = c.index := by
  rw [Catalog.implicit, ImplicitCache.getOrMake]
  cases known : c.implicits.answers.get? key with
  | some answer => exact ⟨h key answer known, h, rfl⟩
  | none =>
      refine ⟨rfl, fun k answer hk => ?_, rfl⟩
      rcases SortedMap.get?_insert_cases hk with ⟨rfl, rfl⟩ | hk
      · rfl
      · exact h k answer hk

/-- What is made for a key does not depend on the keys asked for before. -/
theorem implicit_asked {c : Catalog} (h : c.Remembers) (earlier : List TypeKey) (key : TypeKey) :
    ((c.asked earlier).implicit key).1 = c.index.synthesize? key := by
  induction earlier generalizing c with
  | nil => exact (h.implicit key).1
  | cons k rest ih =>
      obtain ⟨-, hrest, hindex⟩ := h.implicit k
      exact (ih hrest).trans (by rw [hindex])

theorem remembers_registerAll : ∀ {c : Catalog} (bs : List Binding), c.Remembers →
    (c.registerAll bs).1.Remembers
  | _, [], h => h
  | c, b :: rest, h => by
      have registered : ∀ c', c.register b = .ok c' → c'.Remembers := fun c' hc => by
        obtain ⟨same, index⟩ := implicits_of_register hc
        rw [Remembers, same, index]
        exact h
      rw [registerAll]
      split
      · rename_i hc
        exact remembers_registerAll rest (registered _ hc)
      · exact remembers_registerAll rest h

end Catalog

namespace CollectionTable

/-- The table and the errors after requests for collections, each with what is inherited for it. -/
def asked (t : CollectionTable) (inherited : TypeKey → List Source) (d : Diagnostics)
    (keys : List TypeKey) : CollectionTable × Diagnostics :=
  keys.foldl (fun s key => (s.1.resolve key (inherited key) s.2).2) (t, d)

/-- Every aggregate remembered is the one of the table. -/
def Remembers (t : CollectionTable) (inherited : TypeKey → List Source) : Prop :=
  ∀ key answer, t.aggregated.get? key = some answer →
    answer = (t.aggregateWith key (inherited key)).1

theorem Remembers.resolve {t : CollectionTable} {inherited : TypeKey → List Source}
    (h : t.Remembers inherited) (key : TypeKey) (d : Diagnostics) :
    let after := t.resolve key (inherited key) d
    after.1 = (t.aggregateWith key (inherited key)).1 ∧ after.2.1.Remembers inherited ∧
      ∀ k sources, after.2.1.aggregateWith k sources = t.aggregateWith k sources := by
  intro after
  simp only [after, CollectionTable.resolve]
  split
  · rename_i answer known
    exact ⟨h key answer known, h, fun _ _ => rfl⟩
  · refine ⟨rfl, fun k answer hk => ?_, fun _ _ => rfl⟩
    rcases SortedMap.get?_insert_cases hk with ⟨rfl, rfl⟩ | hk
    · rfl
    · exact h k answer hk

/-- What is aggregated for a key does not depend on the keys asked for before. -/
theorem resolve_asked {t : CollectionTable} {inherited : TypeKey → List Source}
    (h : t.Remembers inherited) (earlier : List TypeKey) (key : TypeKey) (d : Diagnostics) :
    let before := t.asked inherited d earlier
    (before.1.resolve key (inherited key) before.2).1 =
      (t.aggregateWith key (inherited key)).1 := by
  induction earlier generalizing t d with
  | nil => exact (h.resolve key d).1
  | cons k rest ih =>
      obtain ⟨-, hrest, same⟩ := h.resolve k d
      exact (ih hrest _).trans (by rw [same])

end CollectionTable

/-! ### A look-up that remembers -/

namespace Lookup

variable {l l' : Lookup} {key : TypeKey} {taken : List TypeKey}

/-- A look-up without what it remembers. -/
def forget (l : Lookup) : Lookup :=
  { l with
    catalog := { l.catalog with implicits := .empty, chains := .empty }
    collections := { l.collections with aggregated := .empty } }

/-- What a look-up remembers is right, and it has aggregated collections only for keys taken. -/
structure Honest (taken : List TypeKey) (l : Lookup) : Prop where
  chains : l.catalog.Coherent
  implicits : l.catalog.Remembers
  aggregated : ∀ k, l.collections.aggregated.contains k = true → k ∈ taken

/-- A binding made from the index comes without errors. -/
theorem ofImplicit_eq (l : Lookup) (key : TypeKey) (b : Binding) :
    l.ofImplicit key b = { l.ofImplicit key b with errors := [] } := by
  rw [ofImplicit]
  split <;> rfl

/-- **Remembering does not show.**  An honest look-up answers a key that was not taken as if it had
no memory, reports the errors of that answer, and stays honest. -/
theorem Honest.consult (h : l.Honest taken) (new : key ∉ taken) (d : Diagnostics) :
    ∃ l' : Lookup, l'.forget = l.forget ∧ l'.Honest (taken ++ [key]) ∧
      l.consult key d =
        ({ l.resolve key with errors := [] }, l', d.reportAll (l.resolve key).errors) := by
  have later : l.Honest (taken ++ [key]) :=
    { h with aggregated := fun k hk => List.mem_append_left _ (h.aggregated k hk) }
  simp only [Lookup.consult, Lookup.resolve]
  cases hb : l.catalog.explicit.get? key with
  | some b =>
      dsimp only
      split
      · -- an alias: the chain remembered is the one that the walk would give
        have plain := h.chains.resolveAlias_eq key
        cases hr : l.catalog.resolveAlias key with
        | error e =>
            rw [← plain, hr]
            exact ⟨l, rfl, later, rfl⟩
        | ok answer =>
            obtain ⟨chain, c⟩ := answer
            have same := Catalog.eq_of_resolveAlias hr
            rw [← plain, hr]
            refine ⟨{ l with catalog := c }, ?_,
              { later with chains := h.chains.resolveAlias hr, implicits := ?_ }, rfl⟩
            · rw [same]
              rfl
            · rw [same]
              exact h.implicits
      · exact ⟨l, rfl, later, rfl⟩
  | none =>
      dsimp only
      split
      · -- a collection: it was not aggregated before, so its errors are told now
        have unknown : l.collections.aggregated.get? key = none :=
          SortedMap.not_contains_iff.mp (Bool.eq_false_iff.mpr fun hk => new (h.aggregated key hk))
        simp only [CollectionTable.resolve, unknown]
        obtain ⟨collected, errors⟩ := l.collections.aggregateWith key (l.inherited key)
        let table := { l.collections with
          aggregated := l.collections.aggregated.insert key collected }
        refine ⟨{ l with collections := table }, rfl,
          { later with aggregated := fun k hk => ?_ }, ?_⟩
        · rcases SortedMap.contains_insert.mp hk with rfl | hk
          · exact List.mem_append_right _ (List.mem_singleton_self k)
          · exact later.aggregated k hk
        · cases collected <;> rfl
      · cases l.provider? key with
        | some a => exact ⟨l, rfl, later, rfl⟩
        | none =>
            -- a binding from the index: the one remembered is the one that would be made
            obtain ⟨answer, remembers, -⟩ := h.implicits.implicit key
            refine ⟨{ l with catalog := (l.catalog.implicit key).2 }, rfl,
              { later with implicits := remembers }, ?_⟩
            simp only [answer]
            cases l.catalog.index.synthesize? key with
            | none => rfl
            | some b =>
                dsimp only
                rw [l.ofImplicit_eq key b]
                rfl

end Lookup

/-! ### An expansion that remembers -/

namespace Expansion

variable {l : Lookup} {x : Expansion} {s : Lookup × Expansion}

/-- What is made of an answer does not depend on what the look-up remembers. -/
theorem settle_forget (l : Lookup) (x : Expansion) (key : TypeKey) (f : Finding) :
    settle l.forget x key f = settle l x key f := rfl

theorem step_forget (l : Lookup) : step l.forget = step l := rfl

/-- `s` is `x` with a memory: the look-up is `l` but for what it remembers, and honest about it. -/
structure Recalls (l : Lookup) (x : Expansion) (s : Lookup × Expansion) : Prop where
  lookup : s.1.forget = l.forget
  expansion : s.2 = x
  honest : ∃ taken, s.1.Honest taken ∧ Accounted taken x

theorem stepRemembering_of_isDone (h : x.isDone = true) :
    stepRemembering (l, x) = (l, x) := by
  rw [stepRemembering]
  split
  · rfl
  · rename_i hq
    exact if_pos (by simpa [isDone, hq] using h)

theorem stepRemembering_of_queue {l' : Lookup} {key : TypeKey} {rest : List TypeKey} {f : Finding}
    {d : Diagnostics} (hq : x.queue = key :: rest) (hl : x.diagnostics.limitReached = false)
    (h : l.consult key x.diagnostics = (f, l', d)) : stepRemembering (l, x) =
      (l', settle l' { x with queue := rest, diagnostics := d } key f) := by
  simp only [stepRemembering, hq, hl, h, Bool.false_eq_true, if_false]

/-- **A step that remembers is the step without memory.** -/
theorem Recalls.step (h : Recalls l x s) : Recalls l (step l x) (stepRemembering s) := by
  obtain ⟨m, y⟩ := s
  obtain ⟨same, rfl, taken, honest, accounted⟩ := h
  have plain : Expansion.step l = Expansion.step m := by rw [← step_forget, ← same, step_forget]
  rw [plain]
  cases hd : y.isDone with
  | true =>
      rw [stepRemembering_of_isDone hd, step_of_isDone hd]
      exact ⟨same, rfl, taken, honest, accounted⟩
  | false =>
      obtain ⟨key, rest, hq, hl⟩ := exists_next_of_isDone hd
      -- the key has not been taken before, so the look-up answers it honestly
      have new : key ∉ taken := fun hk =>
        (List.nodup_append.mp accounted.nodup).2.2 key hk key (hq ▸ List.mem_cons_self) rfl
      obtain ⟨m', same', honest', answered⟩ := honest.consult new y.diagnostics
      rw [stepRemembering_of_queue hq hl answered, step_of_queue hq hl]
      refine ⟨same'.trans same, ?_, taken ++ [key], honest', accounted.process hq⟩
      show settle m' _ key _ = settle m _ key (m.resolve key)
      rw [← settle_forget, same', settle_forget]
      rfl

theorem Recalls.repeat (h : Recalls l x s) : ∀ n : Nat,
    Recalls l (n.repeat (Expansion.step l) x) (n.repeat stepRemembering s)
  | 0 => h
  | n + 1 => (h.repeat n).step

/-- **An expansion that remembers its answers is the one without memory**, if it starts with an
honest look-up that has aggregated nothing. -/
theorem runRemembering_eq (h : l.Honest []) (hx : Accounted [] x) :
    x.runRemembering l = x.run l := by
  have start : Recalls l x (l, x) := ⟨rfl, rfl, [], h, hx⟩
  exact (start.repeat _).expansion

end Expansion

end Wiring
