import Mathlib.Data.List.Perm.Basic
import Wiring.Proofs.Catalog

/-!
# Registration in any order

A call to register a binding either takes a free key or leaves the catalog as it is.  So of the
bindings of a key the first one stays (`get?_registerAll`), and the calls of a list succeed if each
of its bindings agrees with the first of its key (`errors_registerAll_eq_nil_iff`).

Agreeing is no equivalence: an alias may agree with one binding by its origin and with another by
what it stands for.  So bindings that are accepted in one order may be refused in another one.
`orderly_of_accepted` says what does not depend on the order, and when nothing does.
-/

namespace Wiring

/-- Both bindings are aliases, of one key. -/
def Binding.Synonyms (a b : Binding) : Prop :=
  ∃ target, a.aliasTarget? = some target ∧ b.aliasTarget? = some target

theorem Binding.Synonyms.symm {a b : Binding} (h : a.Synonyms b) : b.Synonyms a :=
  have ⟨target, ha, hb⟩ := h
  ⟨target, hb, ha⟩

theorem Binding.Synonyms.trans {a b c : Binding} (h : a.Synonyms b) (h' : b.Synonyms c) :
    a.Synonyms c := by
  obtain ⟨target, ha, hb⟩ := h
  obtain ⟨target', hb', hc⟩ := h'
  obtain rfl := Option.some.inj (hb.symm.trans hb')
  exact ⟨target, ha, hc⟩

namespace Catalog

variable {c : Catalog} {a b o : Binding} {bs cs : List Binding} {key : TypeKey}

/-! ### Agreement -/

/-- Bindings agree if they have one origin or are aliases of one key. -/
theorem agrees_iff : agrees a b = true ↔ a.origin = b.origin ∨ a.Synonyms b := by
  rw [agrees, Bool.or_eq_true, decide_eq_true_eq, Bool.and_eq_true, decide_eq_true_eq]
  refine or_congr_right ⟨?_, ?_⟩
  · rintro ⟨ha, ht⟩
    cases a with
    | aliased => exact ⟨_, rfl, ht.symm⟩
    | _ => cases ha
  · rintro ⟨target, ha, hb⟩
    cases a with
    | aliased => exact ⟨rfl, ha.trans hb.symm⟩
    | _ => cases ha

theorem agrees_self (b : Binding) : agrees b b = true := agrees_iff.mpr (.inl rfl)

/-! ### One call -/

/-- A binding takes a free key. -/
theorem register_of_free (h : c.explicit.get? b.key = none) :
    c.register b = .ok { c with explicit := c.explicit.insert b.key b, chains := .empty } := by
  rw [register, h]

/-- At a key that is taken nothing changes, and the call fails unless the bindings agree. -/
theorem register_of_taken (h : c.explicit.get? b.key = some o) : c.register b =
    if agrees o b then .ok c else .error (.duplicateBinding b.key o.origin b.origin) := by
  rw [register, h]

/-! ### A list of calls -/

theorem registerAll_of_free (h : c.explicit.get? b.key = none) : c.registerAll (b :: bs) =
    { c with explicit := c.explicit.insert b.key b, chains := .empty }.registerAll bs := by
  rw [registerAll, register_of_free h]

theorem registerAll_of_taken (h : c.explicit.get? b.key = some o) : c.registerAll (b :: bs) =
    ((c.registerAll bs).1,
      if agrees o b then (c.registerAll bs).2
      else .duplicateBinding b.key o.origin b.origin :: (c.registerAll bs).2) := by
  rw [registerAll, register_of_taken h]
  split
  · rename_i heq
    split at heq
    · cases heq
      simp [*]
    · cases heq
  · rename_i heq
    split at heq
    · cases heq
    · cases heq
      simp [*]

/-- **Of the bindings of a key the first one stays.** -/
theorem get?_registerAll (c : Catalog) (bs : List Binding) (key : TypeKey) :
    (c.registerAll bs).1.explicit.get? key =
      (c.explicit.get? key).or (bs.find? (·.key = key)) := by
  induction bs generalizing c with
  | nil => simp [registerAll]
  | cons b rest ih =>
      cases h : c.explicit.get? b.key with
      | none =>
          rw [registerAll_of_free h, ih, SortedMap.get?_insert]
          by_cases hk : key = b.key
          · subst hk
            simp [h]
          · simp [hk, Ne.symm hk]
      | some o =>
          rw [registerAll_of_taken h, ih]
          by_cases hk : key = b.key
          · subst hk
            simp [h]
          · simp [Ne.symm hk]

/-- **A call is refused if its binding does not agree with the one that its key is left with**, and
only then; the error names that one first. -/
theorem mem_errors_registerAll {e : GraphError} : e ∈ (c.registerAll bs).2 ↔
    ∃ b ∈ bs, ∃ o, (c.registerAll bs).1.explicit.get? b.key = some o ∧ agrees o b = false ∧
      e = .duplicateBinding b.key o.origin b.origin := by
  induction bs generalizing c with
  | nil => simp [registerAll]
  | cons b rest ih =>
      simp only [List.mem_cons, exists_eq_or_imp]
      cases h : c.explicit.get? b.key with
      | none =>
          rw [registerAll_of_free h, ih]
          refine (or_iff_right ?_).symm
          rintro ⟨o, ho, ha, -⟩
          rw [get?_registerAll, SortedMap.get?_insert_self, Option.some_or, Option.some_inj] at ho
          rw [← ho, agrees_self] at ha
          cases ha
      | some o =>
          have left : (c.registerAll rest).1.explicit.get? b.key = some o := by
            rw [get?_registerAll, h, Option.some_or]
          rw [registerAll_of_taken h]
          dsimp only
          rw [← ih]
          by_cases ha : agrees o b = true
          · simp [left, ha]
          · simp [left, ha]

/-- **The calls of a list succeed if each binding agrees with the one that its key is left with**,
and only then. -/
theorem errors_registerAll_eq_nil_iff : (c.registerAll bs).2 = [] ↔
    ∀ b ∈ bs, ∀ o, (c.registerAll bs).1.explicit.get? b.key = some o → agrees o b = true := by
  rw [List.eq_nil_iff_forall_not_mem]
  constructor
  · intro none b hb o ho
    by_contra ha
    exact none _ (mem_errors_registerAll.mpr ⟨b, hb, o, ho, Bool.eq_false_iff.mpr ha, rfl⟩)
  · intro agree e he
    obtain ⟨b, hb, o, ho, ha, -⟩ := mem_errors_registerAll.mp he
    exact absurd (agree b hb o ho) (Bool.eq_false_iff.mp ha)

/-! ### Any order -/

/-- What a catalog over an index registers of a list of bindings. -/
def kept (i : Index) (bs : List Binding) : SortedMap TypeKey Binding :=
  ((ofIndex i).registerAll bs).1.explicit

/-- All calls that register the bindings of a list, in its order, succeed. -/
def Accepted (i : Index) (bs : List Binding) : Prop := ((ofIndex i).registerAll bs).2 = []

variable {i : Index}

theorem get?_kept (i : Index) (bs : List Binding) (key : TypeKey) :
    (kept i bs).get? key = bs.find? (·.key = key) := by
  rw [kept, get?_registerAll]
  exact Option.none_or

theorem mem_of_kept (h : (kept i bs).get? key = some b) : b ∈ bs ∧ b.key = key := by
  rw [get?_kept] at h
  exact ⟨List.mem_of_find?_eq_some h, by simpa using List.find?_some h⟩

theorem exists_kept (h : b ∈ bs) : ∃ o, (kept i bs).get? b.key = some o := by
  rw [← Option.isSome_iff_exists, get?_kept, List.find?_isSome]
  exact ⟨b, h, by simp⟩

theorem accepted_iff : Accepted i bs ↔
    ∀ b ∈ bs, ∀ o, (kept i bs).get? b.key = some o → agrees o b = true :=
  errors_registerAll_eq_nil_iff

instance (i : Index) (bs : List Binding) : Decidable (Accepted i bs) :=
  inferInstanceAs (Decidable (_ = _))

/-- Any binding of a list may be the first. -/
theorem exists_perm_kept (h : b ∈ bs) : ∃ cs, cs.Perm bs ∧ (kept i cs).get? b.key = some b :=
  ⟨b :: bs.erase b, (List.perm_cons_erase h).symm, by simp [get?_kept]⟩

/-- Every order of a list is accepted if any two of its bindings with one key agree. -/
theorem accepted_of_agree (h : ∀ a ∈ bs, ∀ b ∈ bs, a.key = b.key → agrees a b = true)
    (hp : cs.Perm bs) : Accepted i cs := by
  refine accepted_iff.mpr fun b hb o ho => ?_
  obtain ⟨hmem, hkey⟩ := mem_of_kept ho
  exact h o (hp.mem_iff.mp hmem) b (hp.mem_iff.mp hb) hkey

/-- What two orders of a list keep at a key is related if the bindings of this key are. -/
theorem rel_kept {r : Binding → Binding → Prop} (hp : cs.Perm bs)
    (h : ∀ a b, (kept i bs).get? key = some a → b ∈ bs → b.key = key → r a b) :
    Option.Rel r ((kept i bs).get? key) ((kept i cs).get? key) := by
  cases hb : (kept i cs).get? key with
  | some b =>
      obtain ⟨hmem, hkey⟩ := mem_of_kept hb
      have hmem := hp.mem_iff.mp hmem
      obtain ⟨a, ha⟩ := exists_kept (i := i) hmem
      rw [hkey] at ha
      exact ha ▸ .some (h a b ha hmem hkey)
  | none =>
      cases ha : (kept i bs).get? key with
      | none => exact .none
      | some a =>
          obtain ⟨hmem, rfl⟩ := mem_of_kept ha
          obtain ⟨b, hb'⟩ := exists_kept (i := i) (hp.mem_iff.mpr hmem)
          rw [hb] at hb'
          cases hb'

/-- What the order of registration decides, for bindings that are accepted in one order. -/
structure Orderly (i : Index) (bs : List Binding) : Prop where
  /-- In every order the first binding of a key stays. -/
  first : ∀ cs, cs.Perm bs → ∀ key, (kept i cs).get? key = cs.find? (·.key = key)
  /-- Every order registers the same keys, with bindings that agree. -/
  agree : ∀ cs, cs.Perm bs → ∀ key,
    Option.Rel (fun a b => agrees a b = true) ((kept i bs).get? key) ((kept i cs).get? key)
  /-- Every order is accepted exactly if all bindings of one key agree. -/
  accepted_iff : (∀ cs, cs.Perm bs → Accepted i cs) ↔
    ∀ a ∈ bs, ∀ b ∈ bs, a.key = b.key → agrees a b = true
  /-- Every order registers the same bindings exactly if no key has different ones. -/
  same_iff : (∀ cs, cs.Perm bs → kept i cs = kept i bs) ↔
    ∀ a ∈ bs, ∀ b ∈ bs, a.key = b.key → a = b
  /-- If no key has different bindings from one origin, every order is accepted and registers the
  same bindings, apart from which of several aliases of one key is the first. -/
  sited : (∀ a ∈ bs, ∀ b ∈ bs, a.key = b.key → a.origin = b.origin → a = b) →
    ∀ cs, cs.Perm bs → Accepted i cs ∧ ∀ key,
      Option.Rel (fun a b => a = b ∨ a.Synonyms b) ((kept i bs).get? key) ((kept i cs).get? key)

/-- **Of bindings that are accepted in one order, another order keeps the same keys, each with a
binding that agrees.**  It may refuse some, unless all bindings of a key agree, as they do if no key
has different bindings from one origin. -/
theorem orderly_of_accepted (h : Accepted i bs) : Orderly i bs where
  first _ _ _ := get?_kept ..
  agree cs hp key := rel_kept hp fun a b ha hb hk =>
    accepted_iff.mp h b hb a (hk ▸ ha)
  accepted_iff := by
    refine ⟨fun all a ha b hb hk => ?_, fun agree cs hp => accepted_of_agree agree hp⟩
    obtain ⟨cs, hp, hfirst⟩ := exists_perm_kept (i := i) ha
    exact accepted_iff.mp (all cs hp) b (hp.mem_iff.mpr hb) a (hk ▸ hfirst)
  same_iff := by
    constructor
    · intro same a ha b hb hk
      obtain ⟨cs, hp, hfirst⟩ := exists_perm_kept (i := i) ha
      obtain ⟨ds, hq, hfirst'⟩ := exists_perm_kept (i := i) hb
      rw [same cs hp] at hfirst
      rw [same ds hq, ← hk, hfirst] at hfirst'
      exact Option.some.inj hfirst'
    · intro same cs hp
      refine SortedMap.ext_get? fun key => ?_
      have related : Option.Rel (· = ·) ((kept i bs).get? key) ((kept i cs).get? key) := by
        refine rel_kept hp fun a b ha hb hk => ?_
        obtain ⟨hmem, hka⟩ := mem_of_kept ha
        exact same a hmem b hb (hka.trans hk.symm)
      generalize (kept i bs).get? key = left, (kept i cs).get? key = now at related
      cases related with
      | none => rfl
      | some heq => rw [heq]
  sited := by
    intro sited cs hp
    -- what agrees with what a key is left with is the same or stands for the same
    have related : ∀ b ∈ bs, ∀ o, (kept i bs).get? b.key = some o → o = b ∨ o.Synonyms b := by
      intro b hb o ho
      obtain ⟨hmem, hk⟩ := mem_of_kept ho
      exact (agrees_iff.mp (accepted_iff.mp h b hb o ho)).imp_left (sited o hmem b hb hk)
    refine ⟨accepted_of_agree (fun a ha b hb hk => ?_) hp, fun key => rel_kept hp ?_⟩
    · obtain ⟨o, ho⟩ := exists_kept (i := i) ha
      rcases related a ha o ho with rfl | synonyms
      · exact accepted_iff.mp h b hb o (hk ▸ ho)
      · rcases related b hb o (hk ▸ ho) with rfl | synonyms'
        · exact agrees_iff.mpr (.inr synonyms.symm)
        · exact agrees_iff.mpr (.inr (synonyms.symm.trans synonyms'))
    · rintro a b ha hb rfl
      exact related b hb a ha

/-- An alias of the disk for the store, declared at some place. -/
def storeOnDisk (declaration : String) : Binding :=
  .aliased ⟨"Store", none⟩ (.of declaration) { key := ⟨"Disk", none⟩ }

/-- An alias declared at two places, and a binding found twice. -/
theorem orderly_of_accepted_twice :
    let disk : Binding := .provided ⟨"Disk", none⟩ (.of "disk") none []
    let bs := [storeOnDisk "ModuleA", disk, storeOnDisk "ModuleB", disk]
    Accepted (.ofDeclarations [] []) bs ∧ Orderly (.ofDeclarations [] []) bs ∧
      Accepted (.ofDeclarations [] []) bs.reverse := by
  intro disk bs
  have accepted : Accepted (.ofDeclarations [] []) bs := by decide +kernel
  have orderly := orderly_of_accepted accepted
  have sited : ∀ a ∈ bs, ∀ b ∈ bs, a.key = b.key → a.origin = b.origin → a = b := by
    decide +kernel
  exact ⟨accepted, orderly, (orderly.sited sited _ (List.reverse_perm bs)).1⟩

/-- A binding from the origin of an alias is accepted behind it, and so is an alias from elsewhere,
but behind the binding the other alias is refused.  Of two aliases the first one stays. -/
theorem accepted_reordered :
    let i : Index := .ofDeclarations [] []
    let store : Binding := .provided ⟨"Store", none⟩ (.of "ModuleA") none []
    let one := storeOnDisk "ModuleA"
    let other := storeOnDisk "ModuleB"
    (Accepted i [one, store, other] ∧ ¬ Accepted i [store, one, other]) ∧
      Accepted i [one, other] ∧ Accepted i [other, one] ∧
      ((kept i [one, other]).get? ⟨"Store", none⟩).map (·.origin) = some (.of "ModuleA") ∧
      ((kept i [other, one]).get? ⟨"Store", none⟩).map (·.origin) = some (.of "ModuleB") := by
  decide +kernel

end Catalog

end Wiring
