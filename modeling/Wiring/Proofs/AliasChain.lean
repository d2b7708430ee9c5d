import Mathlib.Data.List.Chain
import Mathlib.Data.List.Perm.Subperm
import Wiring.Proofs.Catalog

/-!
# Remembered chains of aliases

From a key the aliases lead one way only, so a walk that ends is known by where it starts
(`Leads.eq_of_ends`); that is why it passes no key twice, and why a chain known from before may take
the place of the rest of a walk (`follow_spec`).  A walk never stops for want of steps: all keys
passed but the last are registered aliases.

A catalog remembers the chains of the bindings that it holds at the time (`Coherent`), whatever is
registered and asked for in between.  So what it answers is what a walk without chains known would
answer (`Coherent.resolvesPlainly`).
-/

namespace Wiring

namespace AliasWalk

variable {target? : TypeKey → Option TypeKey} {known : TypeKey → Option (List TypeKey)}
  {key next last last' back : TypeKey} {keys keys' passed : List TypeKey}

/-! ### Ways along aliases -/

/-- `keys` are passed on the way from `key` to `last`, both included. -/
inductive Leads (target? : TypeKey → Option TypeKey) : TypeKey → List TypeKey → TypeKey → Prop where
  | here (key : TypeKey) : Leads target? key [key] key
  | step {key next last : TypeKey} {keys : List TypeKey} (h : target? key = some next)
      (t : Leads target? next keys last) : Leads target? key (key :: keys) last

namespace Leads

theorem exists_cons (h : Leads target? key keys last) : ∃ rest, keys = key :: rest := by
  cases h with
  | here => exact ⟨[], rfl⟩
  | step _ t => exact ⟨_, rfl⟩

theorem append (h : Leads target? key keys last) (hn : target? last = some next)
    (t : Leads target? next keys' last') : Leads target? key (keys ++ keys') last' := by
  induction h with
  | here => exact .step hn t
  | step h _ ih => exact .step h (ih hn)

theorem concat (h : Leads target? key keys last) (hn : target? last = some next) :
    Leads target? key (keys ++ [next]) next :=
  h.append hn (.here next)

theorem suffix {front rest : List TypeKey} (h : Leads target? key (front ++ back :: rest) last) :
    Leads target? back (back :: rest) last := by
  induction front generalizing key with
  | nil =>
      obtain ⟨_, he⟩ := h.exists_cons
      obtain ⟨rfl, -⟩ := List.cons.inj he
      exact h
  | cons k front ih =>
      rw [List.cons_append] at h
      generalize hrest : front ++ back :: rest = later at h
      cases h with
      | here => simp at hrest
      | step _ t => exact ih (hrest ▸ t)

theorem isChain (h : Leads target? key keys last) :
    keys.IsChain fun k l => target? k = some l := by
  induction h with
  | here key => exact List.isChain_singleton key
  | step h t ih =>
      obtain ⟨rest, rfl⟩ := t.exists_cons
      exact List.isChain_cons_cons.mpr ⟨h, ih⟩

theorem getLast? (h : Leads target? key keys last) : keys.getLast? = some last := by
  induction h with
  | here => rfl
  | step _ t ih =>
      obtain ⟨rest, rfl⟩ := t.exists_cons
      rw [List.getLast?_cons_cons, ih]

theorem of_isChain {rest : List TypeKey}
    (h : (key :: rest).IsChain fun k l => target? k = some l) :
    ∃ last, Leads target? key (key :: rest) last := by
  induction rest generalizing key with
  | nil => exact ⟨key, .here key⟩
  | cons next rest ih =>
      obtain ⟨hn, h⟩ := List.isChain_cons_cons.mp h
      obtain ⟨last, t⟩ := ih h
      exact ⟨last, .step hn t⟩

/-- Every key passed on the way is an alias. -/
theorem isSome_of_mem_dropLast (h : Leads target? key keys last) :
    ∀ k ∈ keys.dropLast, (target? k).isSome = true := by
  induction h with
  | here => simp
  | step h t ih =>
      obtain ⟨rest, rfl⟩ := t.exists_cons
      intro k hk
      rw [List.dropLast_cons_cons] at hk
      rcases List.mem_cons.mp hk with rfl | hk
      · rw [h]
        rfl
      · exact ih k hk

/-- Of two ways from one key one goes on from the other, or they are one. -/
theorem compare (h : Leads target? key keys last) (h' : Leads target? key keys' last') :
    (∃ next rest, target? last = some next ∧ keys' = keys ++ next :: rest) ∨
      (keys = keys' ∧ last = last') ∨
      ∃ next rest, target? last' = some next ∧ keys = keys' ++ next :: rest := by
  induction h generalizing keys' with
  | here key =>
      cases h' with
      | here => exact .inr (.inl ⟨rfl, rfl⟩)
      | step hn t =>
          obtain ⟨rest, rfl⟩ := t.exists_cons
          exact .inl ⟨_, rest, hn, rfl⟩
  | step hn t ih =>
      cases h' with
      | here =>
          obtain ⟨rest, rfl⟩ := t.exists_cons
          exact .inr (.inr ⟨_, rest, hn, rfl⟩)
      | step hn' t' =>
          obtain rfl := Option.some.inj (hn.symm.trans hn')
          rcases ih t' with ⟨next, rest, hl, rfl⟩ | ⟨rfl, hl⟩ | ⟨next, rest, hl, rfl⟩
          · exact .inl ⟨next, rest, hl, rfl⟩
          · exact .inr (.inl ⟨rfl, hl⟩)
          · exact .inr (.inr ⟨next, rest, hl, rfl⟩)

/-- Ways from one key that end are one. -/
theorem eq_of_ends (h : Leads target? key keys last) (he : target? last = none)
    (h' : Leads target? key keys' last') (he' : target? last' = none) : keys = keys' := by
  rcases h.compare h' with ⟨next, rest, hn, -⟩ | ⟨rfl, -⟩ | ⟨next, rest, hn, -⟩
  · rw [he] at hn
    cases hn
  · rfl
  · rw [he'] at hn
    cases hn

/-- A way that ends passes no key twice: from there it would have to end twice. -/
theorem nodup_of_ends (h : Leads target? key keys last) (he : target? last = none) :
    keys.Nodup := by
  induction h with
  | here key => exact List.nodup_singleton key
  | @step key next last keys h t ih =>
      refine List.nodup_cons.mpr ⟨fun hk => ?_, ih he⟩
      obtain ⟨front, rest, rfl⟩ := List.append_of_mem hk
      have same := t.suffix.eq_of_ends he (.step h t) he
      have := congrArg List.length same
      simp only [List.length_cons, List.length_append] at this
      omega

end Leads

/-! ### The walk -/

/-- How a walk from a key ends: where no alias leads on, or when it comes back to a key passed. -/
inductive Ends (target? : TypeKey → Option TypeKey) (key : TypeKey) : AliasWalk → Prop where
  | chain {keys : List TypeKey} {last : TypeKey} (h : Leads target? key keys last)
      (he : target? last = none) : Ends target? key (.chain keys)
  | loop {passed : List TypeKey} {last back : TypeKey} (h : Leads target? key passed last)
      (hp : passed.Nodup) (hn : target? last = some back) (hb : back ∈ passed) :
      Ends target? key (.loop passed back)

/-- A walk ends one way. -/
theorem Ends.unique {w w' : AliasWalk} (h : Ends target? key w) (h' : Ends target? key w') :
    w = w' := by
  -- a way that ends does not go on from one that came back
  have apart : ∀ {keys passed : List TypeKey} {last last' back : TypeKey},
      Leads target? key keys last → target? last = none → Leads target? key passed last' →
      target? last' = some back → back ∈ passed → False := by
    intro keys passed last last' back h he h' hn hb
    rcases h.compare h' with ⟨next, rest, hl, -⟩ | ⟨-, rfl⟩ | ⟨next, rest, hl, rfl⟩
    · rw [he] at hl
      cases hl
    · rw [he] at hn
      cases hn
    · obtain rfl := Option.some.inj (hn.symm.trans hl)
      exact (List.nodup_append.mp (h.nodup_of_ends he)).2.2 back hb back (.head _) rfl
  -- nor does one that came back go on
  have done : ∀ {passed passed' : List TypeKey} {last back : TypeKey},
      passed'.Nodup → target? last = some back → back ∈ passed →
      ¬ ∃ next rest, target? last = some next ∧ passed' = passed ++ next :: rest := by
    rintro passed passed' last back hp hn hb ⟨next, rest, hl, rfl⟩
    obtain rfl := Option.some.inj (hn.symm.trans hl)
    exact (List.nodup_append.mp hp).2.2 back hb back (.head _) rfl
  cases h with
  | chain h he =>
      cases h' with
      | chain h' he' => rw [h.eq_of_ends he h' he']
      | loop h' _ hn hb => exact (apart h he h' hn hb).elim
  | loop h hp hn hb =>
      cases h' with
      | chain h' he' => exact (apart h' he' h hn hb).elim
      | loop h' hp' hn' hb' =>
          rcases h.compare h' with goes | ⟨rfl, rfl⟩ | goes
          · exact (done hp' hn hb goes).elim
          · rw [Option.some.inj (hn.symm.trans hn')]
          · exact (done hp hn' hb' goes).elim

/-- **A walk ends as the aliases lead**, whatever chains it knows: the steps allowed suffice, and a
chain known from before takes the place of the rest of the walk. -/
theorem follow_spec {aliases : List TypeKey}
    (ha : ∀ k, (target? k).isSome = true → k ∈ aliases)
    (hk : ∀ k keys, known k = some keys → Ends target? k (.chain keys)) :
    ∀ {steps : Nat} {passed : List TypeKey} {current : TypeKey},
      Leads target? key passed current → passed.Nodup →
      aliases.length + 2 ≤ steps + passed.length →
      Ends target? key (follow target? known steps passed current)
  | 0, passed, current, h, hp, hn => by
      -- the keys passed but the last are aliases, and there are not so many
      have hsub : passed.dropLast ⊆ aliases := fun k hk => ha k (h.isSome_of_mem_dropLast k hk)
      have hle := (List.subperm_of_subset (hp.sublist (List.dropLast_sublist _)) hsub).length_le
      rw [List.length_dropLast] at hle
      omega
  | steps + 1, passed, current, h, hp, hn => by
      rw [follow]
      cases ht : target? current with
      | none => exact .chain h ht
      | some target =>
          simp only
          split
          · rename_i hmem
            exact .loop h hp ht hmem
          · rename_i hmem
            cases hkt : known target with
            | some rest =>
                cases hk target rest hkt with
                | chain t he => exact .chain (h.append ht t) he
            | none =>
                refine follow_spec ha hk (h.concat ht) ?_ ?_
                · exact List.nodup_append.mpr ⟨hp, List.nodup_singleton target, by
                    rintro k hk l hl rfl
                    exact hmem (List.mem_singleton.mp hl ▸ hk)⟩
                · rw [List.length_append, List.length_singleton]
                  omega

/-! ### What is met -/

/-- The key met after a number of steps. -/
def met (target? : TypeKey → Option TypeKey) (key : TypeKey) : Nat → Option TypeKey
  | 0 => some key
  | n + 1 => (met target? key n).bind target?

theorem met_succ (h : target? key = some next) (n : Nat) :
    met target? key (n + 1) = met target? next n := by
  induction n with
  | zero => exact h
  | succ n ih => rw [met, ih, met]

theorem Leads.met_eq (h : Leads target? key keys last) :
    ∀ n < keys.length, met target? key n = keys[n]? := by
  induction h with
  | here => simp [met]
  | step hn t ih =>
      intro n hlt
      cases n with
      | zero => rfl
      | succ n => rw [met_succ hn, List.getElem?_cons_succ, ih n (Nat.lt_of_succ_lt_succ hlt)]

theorem Leads.met_length (h : Leads target? key keys last) :
    met target? key keys.length = target? last := by
  induction h with
  | here => rfl
  | step hn t ih => rw [List.length_cons, met_succ hn, ih]

/-- The keys of a chain: from a key along its aliases to a key that is none, none twice. -/
structure IsChain (target? : TypeKey → Option TypeKey) (key : TypeKey) (keys : List TypeKey) :
    Prop where
  starts : keys.head? = some key
  steps : keys.IsChain fun k l => target? k = some l
  nodup : keys.Nodup
  ends : ∀ last ∈ keys.getLast?, target? last = none

theorem isChain_iff : IsChain target? key keys ↔ Ends target? key (.chain keys) := by
  constructor
  · rintro ⟨starts, steps, -, ends⟩
    obtain ⟨rest, rfl⟩ := List.head?_eq_some_iff.mp starts
    obtain ⟨last, h⟩ := Leads.of_isChain steps
    exact .chain h (ends last h.getLast?)
  · rintro (⟨h, he⟩)
    refine ⟨?_, h.isChain, h.nodup_of_ends he, fun last hl => ?_⟩
    · obtain ⟨rest, rfl⟩ := h.exists_cons
      rfl
    · rw [h.getLast?] at hl
      exact Option.some.inj hl ▸ he

/-- A walk comes twice by one key. -/
def Revisits (target? : TypeKey → Option TypeKey) (key : TypeKey) : Prop :=
  ∃ i j k, i < j ∧ met target? key i = some k ∧ met target? key j = some k

/-- The first key that a walk comes by again: up to then it comes by no key twice. -/
def FirstRevisited (target? : TypeKey → Option TypeKey) (key back : TypeKey) : Prop :=
  ∃ i j, i < j ∧ met target? key i = some back ∧ met target? key j = some back ∧
    ∀ a b, a < b → b < j → met target? key a ≠ met target? key b

theorem FirstRevisited.revisits (h : FirstRevisited target? key back) : Revisits target? key :=
  have ⟨i, j, hlt, hi, hj, _⟩ := h
  ⟨i, j, back, hlt, hi, hj⟩

theorem Leads.met_ne {a b : Nat} (h : Leads target? key keys last) (hk : keys.Nodup)
    (hab : a < b) (hb : b < keys.length) : met target? key a ≠ met target? key b := by
  rw [h.met_eq a (hab.trans hb), h.met_eq b hb, List.getElem?_eq_getElem (hab.trans hb),
    List.getElem?_eq_getElem hb]
  intro he
  exact hab.ne ((List.Nodup.getElem_inj_iff hk).mp (Option.some.inj he))

/-- A walk that ends comes by no key twice. -/
theorem Leads.not_revisits (h : Leads target? key keys last) (he : target? last = none) :
    ¬ Revisits target? key := by
  have past : ∀ n, met target? key (keys.length + n) = none := by
    intro n
    induction n with
    | zero => exact h.met_length.trans he
    | succ n ih => rw [← Nat.add_assoc, met, ih, Option.bind_none]
  rintro ⟨i, j, k, hlt, hi, hj⟩
  have hj' : j < keys.length := by
    by_contra hge
    obtain ⟨n, rfl⟩ := Nat.exists_eq_add_of_le (Nat.le_of_not_lt hge)
    rw [past n] at hj
    cases hj
  exact h.met_ne (h.nodup_of_ends he) hlt hj' (hi.trans hj.symm)

theorem Leads.firstRevisited (h : Leads target? key passed last) (hp : passed.Nodup)
    (hn : target? last = some back) (hb : back ∈ passed) :
    FirstRevisited target? key back := by
  obtain ⟨i, hi, rfl⟩ := List.getElem_of_mem hb
  refine ⟨i, passed.length, hi, ?_, h.met_length.trans hn, fun a b hab hb => h.met_ne hp hab hb⟩
  rw [h.met_eq i hi, List.getElem?_eq_getElem hi]

theorem loopKeys_eq (hb : back ∈ passed) :
    ∃ front rest, passed = front ++ back :: rest ∧ loopKeys passed back = back :: (rest ++ [back]) := by
  induction passed with
  | nil => cases hb
  | cons k passed ih =>
      by_cases hk : k = back
      · subst hk
        exact ⟨[], passed, rfl, by simp [loopKeys]⟩
      · obtain ⟨front, rest, rfl, he⟩ := ih ((List.mem_cons.mp hb).resolve_left (Ne.symm hk))
        refine ⟨k :: front, rest, rfl, ?_⟩
        rw [← he]
        simp [loopKeys, hk]

/-- The keys of a loop lead from the key come back to around to it again. -/
theorem Leads.loopKeys (h : Leads target? key passed last) (hn : target? last = some back)
    (hb : back ∈ passed) : Leads target? back (loopKeys passed back) back := by
  obtain ⟨front, rest, rfl, he⟩ := loopKeys_eq hb
  rw [he]
  exact h.suffix.concat hn

end AliasWalk

/-! ### Calls on a catalog -/

namespace Catalog

open AliasWalk

variable {c : Catalog} {key : TypeKey}

/-- What may be asked of a catalog. -/
inductive Call where
  | register (binding : Binding)
  | resolveAlias (key : TypeKey)

/-- The catalog after a call; one that fails leaves it as it is. -/
def call (c : Catalog) : Call → Catalog
  | .register b => match c.register b with
      | .ok c' => c'
      | .error _ => c
  | .resolveAlias key => match c.resolveAlias key with
      | .ok (_, c') => c'
      | .error _ => c

/-- The catalog after a sequence of calls. -/
def after (c : Catalog) (calls : List Call) : Catalog := calls.foldl call c

theorem after_register (bs : List Binding) :
    c.after (bs.map .register) = (c.registerAll bs).1 := by
  induction bs generalizing c with
  | nil => rfl
  | cons b rest ih =>
      rw [registerAll]
      cases hc : c.register b <;> simpa [after, call, hc] using ih

/-- Asking for a chain changes nothing but the chains remembered. -/
theorem eq_of_resolveAlias {c' : Catalog} {keys : List TypeKey}
    (h : c.resolveAlias key = .ok (keys, c')) : c' = { c with chains := c'.chains } := by
  rw [resolveAlias] at h
  split at h
  · cases h
    rfl
  · split at h
    · cases h
      rfl
    · cases h

/-- Asking for chains registers nothing. -/
theorem explicit_after_resolveAlias (keys : List TypeKey) :
    (c.after (keys.map .resolveAlias)).explicit = c.explicit := by
  induction keys generalizing c with
  | nil => rfl
  | cons key rest ih =>
      have asked : (c.call (.resolveAlias key)).explicit = c.explicit := by
        rw [call]
        split
        · rename_i hc
          rw [eq_of_resolveAlias hc]
        · rfl
      exact ih.trans asked

/-- A walk without chains known goes by the registered bindings alone. -/
theorem aliasChain_congr {c' : Catalog} (h : c'.explicit = c.explicit) (key : TypeKey) :
    c'.aliasChain key = c.aliasChain key := by
  have target : c'.aliasTarget? = c.aliasTarget? := by
    funext k
    rw [aliasTarget?, h, aliasTarget?]
  simp only [aliasChain, walk, loopError, target, h]

/-- The chains remembered are those of the registered aliases. -/
def Coherent (c : Catalog) : Prop :=
  ∀ key keys, c.chains.get? key = some keys → Ends c.aliasTarget? key (.chain keys)

theorem walk_spec {known : TypeKey → Option (List TypeKey)}
    (h : ∀ k keys, known k = some keys → Ends c.aliasTarget? k (.chain keys)) (key : TypeKey) :
    Ends c.aliasTarget? key (c.walk known key) := by
  have aliases : ∀ k, (c.aliasTarget? k).isSome = true → k ∈ c.explicit.keys := by
    intro k hk
    obtain ⟨target, ht⟩ := Option.isSome_iff_exists.mp hk
    obtain ⟨b, hb, -⟩ := Option.bind_eq_some_iff.mp ht
    exact SortedMap.mem_keys.mpr (SortedMap.contains_iff.mpr ⟨b, hb⟩)
  refine follow_spec aliases h (.here key) (List.nodup_singleton key) ?_
  rw [SortedMap.keys, List.length_map, List.length_singleton]
  exact Nat.le_refl _

/-- A walk without chains known. -/
theorem plainWalk_spec (c : Catalog) (key : TypeKey) :
    Ends c.aliasTarget? key (c.walk (fun _ => none) key) :=
  walk_spec (fun _ _ h => by cases h) key

theorem aliasChain_iff {keys : List TypeKey} :
    c.aliasChain key = .ok keys ↔ Ends c.aliasTarget? key (.chain keys) := by
  have walk := c.plainWalk_spec key
  rw [aliasChain]
  constructor
  · intro h
    split at h
    · rename_i found
      obtain rfl := Except.ok.inj h
      exact found ▸ walk
    · cases h
  · intro h
    rw [walk.unique h]

/-- A walk is done once in either way. -/
theorem Coherent.walk_eq (h : c.Coherent) (key : TypeKey) :
    c.walk c.chains.get? key = c.walk (fun _ => none) key :=
  (walk_spec h key).unique (c.plainWalk_spec key)

/-- **What is remembered does not show.** -/
theorem Coherent.resolveAlias_eq (h : c.Coherent) (key : TypeKey) :
    (c.resolveAlias key).map (·.1) = c.aliasChain key := by
  rw [resolveAlias]
  cases hk : c.chains.get? key with
  | some keys => exact (aliasChain_iff.mpr (h key keys hk)).symm
  | none =>
      simp only [h.walk_eq, aliasChain]
      cases c.walk (fun _ => none) key <;> rfl

/-- A chain that was walked is remembered for what it is. -/
theorem Coherent.resolveAlias {c' : Catalog} {keys : List TypeKey} (h : c.Coherent)
    (hr : c.resolveAlias key = .ok (keys, c')) : c'.Coherent := by
  rw [Catalog.resolveAlias] at hr
  split at hr
  · cases hr
    exact h
  · split at hr
    · rename_i hw
      have walk := walk_spec h key
      rw [hw] at walk
      cases hr
      intro k keys' hk
      rcases SortedMap.get?_insert_cases hk with ⟨rfl, rfl⟩ | hk
      · exact walk
      · exact h k keys' hk
    · cases hr

theorem Coherent.call (h : c.Coherent) (call : Call) : (c.call call).Coherent := by
  cases call with
  | register b =>
      rw [Catalog.call, Catalog.register]
      cases c.explicit.get? b.key with
      | none => exact fun key keys hk => by cases hk
      | some registered =>
          by_cases ha : agrees registered b
          · simpa [ha] using h
          · simpa [ha] using h
  | resolveAlias key =>
      rw [Catalog.call]
      split
      · rename_i hr
        exact h.resolveAlias hr
      · exact h

theorem Coherent.after (h : c.Coherent) (calls : List Call) : (c.after calls).Coherent := by
  induction calls generalizing c with
  | nil => exact h
  | cons call rest ih => exact ih (h.call call)

theorem coherent_ofIndex (i : Index) : (ofIndex i).Coherent := fun _ _ h => by cases h

/-- What a catalog answers for the aliases from a key. -/
structure ResolvesPlainly (c : Catalog) (key : TypeKey) : Prop where
  /-- The chains remembered do not show. -/
  uncached : (c.resolveAlias key).map (·.1) = c.aliasChain key
  chain_iff : ∀ keys, c.aliasChain key = .ok keys ↔ IsChain c.aliasTarget? key keys
  error_iff : (∃ e, c.aliasChain key = .error e) ↔ Revisits c.aliasTarget? key
  /-- The error shows the way around from the key first come back to. -/
  error : ∀ e, c.aliasChain key = .error e → ∃ back path, FirstRevisited c.aliasTarget? key back ∧
    e = .fatalCycle path ((c.explicit.get? back).map (·.origin)) ∧
      path.head? = some back ∧ path.getLast? = some back ∧
      path.IsChain fun k l => c.aliasTarget? k = some l

theorem Coherent.resolvesPlainly (h : c.Coherent) (key : TypeKey) : c.ResolvesPlainly key := by
  have walk := c.plainWalk_spec key
  have failed : ∀ e, c.aliasChain key = .error e → ∃ back path,
      FirstRevisited c.aliasTarget? key back ∧
        e = .fatalCycle path ((c.explicit.get? back).map (·.origin)) ∧
        path.head? = some back ∧ path.getLast? = some back ∧
        path.IsChain fun k l => c.aliasTarget? k = some l := by
    intro e he
    rw [aliasChain] at he
    split at he
    · cases he
    · rename_i passed back hw
      obtain rfl := Except.error.inj he
      rw [hw] at walk
      cases walk with
      | loop t hp hn hb =>
          have around := t.loopKeys hn hb
          obtain ⟨rest, hrest⟩ := around.exists_cons
          exact ⟨back, _, t.firstRevisited hp hn hb, rfl, by rw [hrest]; rfl, around.getLast?,
            around.isChain⟩
  refine ⟨h.resolveAlias_eq key, fun keys => aliasChain_iff.trans isChain_iff.symm, ?_, failed⟩
  constructor
  · rintro ⟨e, he⟩
    obtain ⟨back, path, first, -⟩ := failed e he
    exact first.revisits
  · intro revisits
    cases hc : c.aliasChain key with
    | error e => exact ⟨e, rfl⟩
    | ok keys =>
        cases aliasChain_iff.mp hc with
        | chain t he => exact absurd revisits (t.not_revisits he)

end Catalog

end Wiring
