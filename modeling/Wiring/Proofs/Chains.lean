import Mathlib.Data.List.Chain
import Mathlib.Data.List.Perm.Subperm
import Wiring.Proofs.ErrorKinds

/-!
# Chains of requests

The chain of an unresolved dependency is read back from the keys to whose requests other keys were
put down.  Each of them was bound before it requested anything (`Traced.parent`), so a chain leads
along dependencies of bound keys to the key that nothing yields, and tells who requested it.

A chain starts at a root, with one exception.  A key that was requested with a default is put down
anew to the first request without one, and that request may come from below the key itself: then the
way up comes back to where it was, and the chain starts there (`chained_of_report`,
`report_looped`).
-/

namespace Wiring

namespace Expansion

variable {l : Lookup} {x y : Expansion} {enters : TypeKey → Bool → Prop} {key : TypeKey}

/-! ### Requests and their chains -/

/-- The requests for keys, with or without a default: those of the roots by which an expansion is
entered, and those of the keys that it binds. -/
inductive Asks (enters : TypeKey → Bool → Prop) (bindings : SortedMap TypeKey Binding) :
    Option TypeKey → TypeKey → Bool → Prop where
  | root {key : TypeKey} {hasDefault : Bool} (h : enters key hasDefault) :
      Asks enters bindings none key hasDefault
  | dependency {key : TypeKey} {b : Binding} {d : Dependency} (hb : bindings.get? key = some b)
      (hd : d ∈ b.dependencies) : Asks enters bindings (some key) d.key d.hasDefault

/-- The key is requested with a default and without one. -/
def Contested (enters : TypeKey → Bool → Prop) (bindings : SortedMap TypeKey Binding)
    (key : TypeKey) : Prop :=
  (∃ parent, Asks enters bindings parent key true) ∧ ∃ parent, Asks enters bindings parent key false

/-- A bound key depends on another. -/
def DependsOn (bindings : SortedMap TypeKey Binding) (p q : TypeKey) : Prop :=
  ∃ b, bindings.get? p = some b ∧ ∃ d ∈ b.dependencies, d.key = q

/-- A chain of requests to a key, and who requested it. -/
structure Chained (enters : TypeKey → Bool → Prop) (bindings : SortedMap TypeKey Binding)
    (key : TypeKey) (chain : List TypeKey) (requestedBy : Option Origin) : Prop where
  /-- The chain ends with the key; the key before it is bound, and its origin made the request. -/
  ends : (chain = [key] ∧ requestedBy = none) ∨ ∃ front p b, chain = front ++ [p, key] ∧
    bindings.get? p = some b ∧ requestedBy = some b.origin
  /-- Each key of the chain depends on the next. -/
  steps : chain.IsChain (DependsOn bindings)
  /-- No key occurs twice. -/
  nodup : chain.Nodup
  /-- The chain starts at a root, or in a loop around a contested key. -/
  starts : ∀ k, chain.head? = some k → (∃ hasDefault, enters k hasDefault) ∨
    (∃ p ∈ chain, DependsOn bindings p k) ∧ ∃ j ∈ chain, Contested enters bindings j

section Growth

variable {bindings bindings' : SortedMap TypeKey Binding}
  (h : ∀ k b, bindings.get? k = some b → bindings'.get? k = some b)

include h

theorem Asks.mono {parent : Option TypeKey} {hasDefault : Bool}
    (ha : Asks enters bindings parent key hasDefault) :
    Asks enters bindings' parent key hasDefault := by
  cases ha with
  | root he => exact .root he
  | dependency hb hd => exact .dependency (h _ _ hb) hd

theorem Contested.mono (hc : Contested enters bindings key) : Contested enters bindings' key :=
  ⟨hc.1.imp fun _ ha => ha.mono h, hc.2.imp fun _ ha => ha.mono h⟩

theorem DependsOn.mono {p q : TypeKey} (hd : DependsOn bindings p q) : DependsOn bindings' p q :=
  hd.imp fun b ⟨hb, hq⟩ => ⟨h p b hb, hq⟩

/-- A chain stays one as further keys are bound. -/
theorem Chained.mono {chain : List TypeKey} {requestedBy : Option Origin}
    (hc : Chained enters bindings key chain requestedBy) :
    Chained enters bindings' key chain requestedBy where
  ends := hc.ends.imp_right fun ⟨front, p, b, hf, hb, hr⟩ => ⟨front, p, b, hf, h p b hb, hr⟩
  steps := hc.steps.imp fun _ _ hd => hd.mono h
  nodup := hc.nodup
  starts k hk := (hc.starts k hk).imp_right fun ⟨⟨p, hp, hd⟩, j, hj, hc⟩ =>
    ⟨⟨p, hp, hd.mono h⟩, j, hj, hc.mono h⟩

end Growth

theorem Asks.dependsOn {bindings : SortedMap TypeKey Binding} {p q : TypeKey} {hasDefault : Bool}
    (h : Asks enters bindings (some p) q hasDefault) : DependsOn bindings p q := by
  cases h with
  | dependency hb hd => exact ⟨_, hb, _, hd, rfl⟩

theorem Asks.entered {bindings : SortedMap TypeKey Binding} {hasDefault : Bool}
    (h : Asks enters bindings none key hasDefault) : enters key hasDefault := by
  cases h with
  | root he => exact he

/-! ### Ways up -/

section Ancestry

variable (parents : SortedMap TypeKey TypeKey) {p : TypeKey}

/-- The way up from a key starts there unless the key was seen. -/
theorem head?_ancestry (steps : Nat) {seen : List TypeKey} (hp : p ∉ seen) :
    (ancestry parents (steps + 1) seen (some p)).head? = some p := by
  rw [ancestry, if_neg hp, List.head?_cons]

/-- Each key of a way up is put down to the next, and none was seen before. -/
theorem ancestry_spec : ∀ (steps : Nat) (seen : List TypeKey) (parent : Option TypeKey),
    let up := ancestry parents steps seen parent
    up.Nodup ∧ (∀ k ∈ up, k ∉ seen) ∧ up.IsChain fun k j => parents.get? k = some j
  | 0, _, _ => by simp [ancestry]
  | _ + 1, _, none => by simp [ancestry]
  | steps + 1, seen, some p => by
      rw [ancestry]
      split
      · simp
      · rename_i hp
        obtain ⟨nodup, unseen, chain⟩ := ancestry_spec steps (p :: seen) (parents.get? p)
        refine ⟨List.nodup_cons.mpr ⟨fun h => unseen p h (.head _), nodup⟩, ?_, ?_⟩
        · intro k hk
          rcases List.mem_cons.mp hk with rfl | hk
          · exact hp
          · exact fun hs => unseen k hk (.tail _ hs)
        · refine List.isChain_cons.mpr ⟨fun j hj => ?_, chain⟩
          cases hn : parents.get? p with
          | none =>
              rw [hn] at hj
              cases steps <;> cases hj
          | some q =>
              cases steps with
              | zero => cases hj
              | succ steps =>
                  rw [hn, ancestry] at hj
                  split at hj
                  · cases hj
                  · exact hj

variable {parents}

/-- A way up that is shorter than it may be ends at a key without a parent, or comes back to a key
seen. -/
theorem ancestry_ends : ∀ {steps : Nat} {seen : List TypeKey} {p last q : TypeKey},
    (ancestry parents steps seen (some p)).length < steps →
      (ancestry parents steps seen (some p)).getLast? = some last → parents.get? last = some q →
        q ∈ seen ++ ancestry parents steps seen (some p)
  | 0, _, _, _, _, h, _, _ => absurd h (Nat.not_lt_zero _)
  | steps + 1, seen, p, last, q, h, hl, hq => by
      rw [ancestry] at h hl ⊢
      split at h
      · rename_i hp
        rw [if_pos hp] at hl
        cases hl
      · rename_i hp
        rw [if_neg hp] at hl ⊢
        replace h := Nat.lt_of_succ_lt_succ h
        cases hn : parents.get? p with
        | none =>
            have alone : ancestry parents steps (p :: seen) none = [] := by
              cases steps <;> rfl
            rw [hn, alone, List.getLast?_singleton] at hl
            rw [Option.some.inj hl, hq] at hn
            cases hn
        | some r =>
            rw [hn] at h hl
            cases hup : ancestry parents steps (p :: seen) (some r) with
            | nil =>
                -- the next key was seen, and the way ends here
                rw [hup, List.getLast?_singleton] at hl
                obtain rfl := Option.some.inj hl
                obtain rfl : r = q := Option.some.inj (hn.symm.trans hq)
                by_contra hnot
                have fresh : r ∉ p :: seen := by simpa [and_comm] using hnot
                cases steps with
                | zero => exact absurd h (Nat.not_lt_zero _)
                | succ steps =>
                    rw [ancestry, if_neg fresh] at hup
                    cases hup
            | cons r' rest =>
                rw [hup, List.getLast?_cons_cons, ← hup] at hl
                have := ancestry_ends h hl hq
                rw [hup] at this
                simpa [or_left_comm, or_assoc] using this

/-- **A way up ends** at a key without a parent, or where it comes back to a key that it passed. -/
theorem ancestry_complete {last q : TypeKey}
    (hl : (ancestry parents (parents.size + 1) [] (some p)).getLast? = some last)
    (hq : parents.get? last = some q) : q ∈ ancestry parents (parents.size + 1) [] (some p) := by
  obtain ⟨nodup, -, chain⟩ := ancestry_spec parents (parents.size + 1) [] (some p)
  refine (List.nil_append _ ▸ ancestry_ends ?_ hl hq :)
  -- every key passed has a parent, so no more keys are passed than there are entries
  have known : ∀ k ∈ ancestry parents (parents.size + 1) [] (some p), k ∈ parents.keys := by
    generalize ancestry parents (parents.size + 1) [] (some p) = up at hl chain
    intro k hk
    obtain ⟨before, after, rfl⟩ := List.append_of_mem hk
    rw [SortedMap.mem_keys, SortedMap.contains_iff]
    cases after with
    | nil =>
        rw [List.getLast?_append, List.getLast?_singleton] at hl
        exact ⟨q, Option.some.inj hl ▸ hq⟩
    | cons j after =>
        have := (List.isChain_append.mp chain).2.1
        exact ⟨j, (List.isChain_cons_cons.mp this).1⟩
  have := (List.subperm_of_subset nodup known).length_le
  rw [SortedMap.keys, List.length_map] at this
  exact Nat.lt_succ_of_le this

end Ancestry

/-! ### What the parents of an expansion tell -/

/-- What holds in every state of an expansion of the keys that others are put down to. -/
structure Traced (enters : TypeKey → Bool → Prop) (x : Expansion) : Prop where
  /-- A key is put down to one that depends on it and was bound before, unless it is contested. -/
  parent : ∀ k p, x.parents.get? k = some p → DependsOn x.bindings p k ∧
    (x.order.idxOf p < x.order.idxOf k ∨ Contested enters x.bindings k)
  /-- A key that every request so far had a default for was requested so. -/
  optional : ∀ k, x.requested.get? k = some true →
    ∃ parent, Asks enters x.bindings parent k true
  /-- A requested key that is put down to none is a root. -/
  rooted : ∀ k, x.requested.contains k = true → x.parents.get? k = none →
    ∃ hasDefault, enters k hasDefault
  /-- The chains reported are chains of requests. -/
  reported : ∀ k chain requestedBy hint,
    .unresolvedDependency k chain requestedBy hint ∈ x.diagnostics.stored →
      Chained enters x.bindings k chain requestedBy

/-- The keys passed on a way up, each bound before the last, do not come back to one of them. -/
theorem Traced.contested_of_loop (ht : Traced enters x) {up : List TypeKey} {last q : TypeKey}
    (chain : up.IsChain fun k j => x.parents.get? k = some j) (hl : up.getLast? = some last)
    (hq : x.parents.get? last = some q) (hm : q ∈ up) :
    ∃ j ∈ up, Contested enters x.bindings j := by
  by_contra hn
  push Not at hn
  have earlier : ∀ k ∈ up, ∀ j, x.parents.get? k = some j →
      x.order.idxOf j < x.order.idxOf k := fun k hk j hj =>
    ((ht.parent k j hj).2).resolve_right (hn k hk)
  have decreasing : up.Pairwise fun k j => x.order.idxOf j < x.order.idxOf k := by
    have : Trans (fun k j => x.order.idxOf j < x.order.idxOf k)
      (fun k j => x.order.idxOf j < x.order.idxOf k)
      (fun k j => x.order.idxOf j < x.order.idxOf k) := ⟨fun h h' => Nat.lt_trans h' h⟩
    exact List.isChain_iff_pairwise.mp
      (chain.imp_of_mem_imp fun k j hk _ hj => earlier k hk j hj)
  obtain ⟨front, rfl⟩ := List.getLast?_eq_some_iff.mp hl
  have back := earlier last (by simp) q hq
  rcases List.mem_append.mp hm with hm | hm
  · have := (List.pairwise_append.mp decreasing).2.2 q hm last (by simp)
    omega
  · obtain rfl := List.mem_singleton.mp hm
    omega

/-- A key that another is put down to is bound, so it was requested. -/
theorem DependsOn.requested (hx : Coherent l x) {p q : TypeKey} (h : DependsOn x.bindings p q) :
    p ∈ x.order ∧ x.requested.contains p = true := by
  obtain ⟨b, hb, -⟩ := h
  have hp := (hx.mem_order p).mpr (SortedMap.contains_iff.mpr ⟨b, hb⟩)
  exact ⟨hp, hx.requested p hp⟩

/-- Each element of a chain but the first stands behind another. -/
theorem exists_of_isChain_cons {α : Type} {R : α → α → Prop} : ∀ {a : α} {as : List α},
    (a :: as).IsChain R → ∀ b ∈ as, ∃ c, R c b
  | _, [], _, _, hb => by cases hb
  | a, c :: rest, h, b, hb => by
      obtain ⟨first, chain⟩ := List.isChain_cons_cons.mp h
      rcases List.mem_cons.mp hb with rfl | hb
      · exact ⟨a, first⟩
      · exact exists_of_isChain_cons chain b hb

/-- The way up from a key that was requested ends at a root, or it comes back to one of its keys. -/
theorem Traced.ancestry_starts (ht : Traced enters x) (p last : TypeKey)
    (hl : (ancestry x.parents (x.parents.size + 1) [] (some p)).getLast? = some last)
    (bound : x.requested.contains last = true) : (∃ hasDefault, enters last hasDefault) ∨
      (∃ q ∈ ancestry x.parents (x.parents.size + 1) [] (some p), DependsOn x.bindings q last) ∧
        ∃ j ∈ ancestry x.parents (x.parents.size + 1) [] (some p),
          Contested enters x.bindings j := by
  cases hq : x.parents.get? last with
  | none => exact .inl (ht.rooted last bound hq)
  | some q =>
      have back := ancestry_complete hl hq
      obtain ⟨-, -, steps⟩ := ancestry_spec x.parents (x.parents.size + 1) [] (some p)
      exact .inr ⟨⟨q, back, (ht.parent last q hq).1⟩, ht.contested_of_loop steps hl hq back⟩

/-- **The chain to a key that depends on nothing** is one of requests, whoever requests it. -/
theorem Traced.chained (hx : Coherent l x) (ht : Traced enters x) {parent : Option TypeKey}
    {hasDefault : Bool} (ha : Asks enters x.bindings parent key hasDefault)
    (free : ∀ q, ¬ DependsOn x.bindings key q) :
    Chained enters x.bindings key (x.chainTo key parent)
      ((parent.bind x.bindings.get?).map (·.origin)) := by
  cases parent with
  | none =>
      have alone : x.chainTo key none = [key] := rfl
      rw [alone]
      exact ⟨.inl ⟨rfl, rfl⟩, .singleton key, List.nodup_singleton key,
        fun k hk => .inl ⟨hasDefault, Option.some.inj hk ▸ ha.entered⟩⟩
  | some p =>
      obtain ⟨b, hb, -⟩ := ha.dependsOn
      obtain ⟨nodup, -, steps⟩ := ancestry_spec x.parents (x.parents.size + 1) [] (some p)
      have head := head?_ancestry x.parents x.parents.size (List.not_mem_nil (a := p))
      have first := ht.ancestry_starts p
      rw [chainTo]
      generalize ancestry x.parents (x.parents.size + 1) [] (some p) = up at nodup steps head first
      obtain ⟨rest, rfl⟩ := List.head?_eq_some_iff.mp head
      have down : (key :: p :: rest).IsChain fun k j => DependsOn x.bindings j k :=
        List.isChain_cons_cons.mpr
          ⟨ha.dependsOn, steps.imp fun k j hj => (ht.parent k j hj).1⟩
      have leads := exists_of_isChain_cons down
      constructor
      case ends =>
        refine .inr ⟨rest.reverse, p, b, by simp, hb, ?_⟩
        rw [Option.bind_some, hb, Option.map_some]
      case steps => exact List.isChain_reverse.mpr down
      case nodup =>
        refine List.nodup_reverse.mpr (List.nodup_cons.mpr ⟨fun hk => ?_, nodup⟩)
        exact (leads key hk).elim free
      case starts =>
        intro last hl
        rw [List.head?_reverse, List.getLast?_cons_cons] at hl
        obtain ⟨q, hd⟩ := leads last (List.mem_of_getLast? hl)
        have listed : ∀ k ∈ p :: rest, k ∈ (key :: p :: rest).reverse :=
          fun k hk => List.mem_reverse.mpr (.tail _ hk)
        exact (first last hl (hd.requested hx).2).imp_right fun ⟨⟨q, hq, hd⟩, j, hj, hc⟩ =>
          ⟨⟨q, listed q hq, hd⟩, j, listed j hj, hc⟩

/-! ### Steps of an expansion -/

/-- Reporting a chain keeps an expansion traced. -/
theorem Traced.unresolved (ht : Traced enters x) {parent : Option TypeKey}
    (hc : Chained enters x.bindings key (x.chainTo key parent)
      ((parent.bind x.bindings.get?).map (·.origin))) :
    Traced enters (reportUnresolved l x key parent) where
  parent := ht.parent
  optional := ht.optional
  rooted := ht.rooted
  reported k chain requestedBy hint h := by
    rcases Diagnostics.mem_stored_report h with h | h
    · exact ht.reported k chain requestedBy hint h
    · cases h
      exact hc

/-- A key without a value depends on nothing. -/
theorem not_dependsOn_of_isAbsent (h : x.isAbsent key = true) (q : TypeKey) :
    ¬ DependsOn x.bindings key q := by
  rintro ⟨b, hb, d, hd, -⟩
  rw [isAbsent, hb] at h
  cases b with
  | absent => cases hd
  | _ => cases h

/-- Putting a contested key down to a request without a default keeps an expansion traced. -/
theorem Traced.credit (ht : Traced enters x) {parent : Option TypeKey}
    (ha : Asks enters x.bindings parent key false) (hc : Contested enters x.bindings key) :
    Traced enters { x.credit key parent with requested := x.requested.insert key false } := by
  have others : ∀ k, k ≠ key → (x.credit key parent).parents.get? k = x.parents.get? k := by
    intro k hk
    cases parent with
    | none => exact (SortedMap.get?_erase ..).trans (if_neg hk)
    | some p => exact SortedMap.get?_insert_of_ne _ _ hk
  constructor
  case parent =>
    intro k p hp
    by_cases hk : k = key
    · subst hk
      refine ⟨?_, .inr hc⟩
      cases parent with
      | none =>
          have : (x.parents.erase k).get? k = some p := hp
          rw [SortedMap.get?_erase, if_pos rfl] at this
          cases this
      | some p' =>
          have : (x.parents.insert k p').get? k = some p := hp
          rw [SortedMap.get?_insert_self] at this
          exact Option.some.inj this ▸ ha.dependsOn
    · exact ht.parent k p ((others k hk).symm.trans hp)
  case optional =>
    intro k hk
    replace hk : (x.requested.insert key false).get? k = some true := hk
    rw [SortedMap.get?_insert] at hk
    split at hk
    · cases hk
    · exact ht.optional k hk
  case rooted =>
    intro k hr hp
    by_cases hk : k = key
    · subst hk
      cases parent with
      | none => exact ⟨false, ha.entered⟩
      | some p =>
          have : (x.parents.insert k p).get? k = none := hp
          rw [SortedMap.get?_insert_self] at this
          cases this
    · have hr : (x.requested.insert key false).contains k = true := hr
      exact ht.rooted k ((SortedMap.contains_insert.mp hr).resolve_left hk)
        ((others k hk).symm.trans hp)
  case reported => exact ht.reported

/-- An expansion with a further key that waits, put down to its first request. -/
def enqueue (x : Expansion) (key : TypeKey) (parent : Option TypeKey) (hasDefault : Bool) :
    Expansion :=
  { x with
    requested := x.requested.insert key hasDefault
    parents := match parent with
      | some p => x.parents.insert key p
      | none => x.parents
    queue := x.queue ++ [key] }

/-- The first request for a key keeps an expansion traced. -/
theorem Traced.enqueued (hx : Coherent l x) (ht : Traced enters x) {parent : Option TypeKey}
    {hasDefault : Bool} (ha : Asks enters x.bindings parent key hasDefault)
    (new : x.requested.get? key = none) : Traced enters (x.enqueue key parent hasDefault) := by
  have unbound : key ∉ x.order := fun ho => by
    obtain ⟨flag, hf⟩ := SortedMap.contains_iff.mp (hx.requested key ho)
    rw [new] at hf
    cases hf
  constructor
  case parent =>
    intro k p hp
    cases parent with
    | none => exact ht.parent k p hp
    | some p' =>
        replace hp : (x.parents.insert key p').get? k = some p := hp
        rcases SortedMap.get?_insert_cases hp with ⟨rfl, rfl⟩ | hp
        · refine ⟨ha.dependsOn, .inl ?_⟩
          show x.order.idxOf p' < x.order.idxOf k
          rw [List.idxOf_eq_length_iff.mpr unbound]
          exact List.idxOf_lt_length_iff.mpr (ha.dependsOn.requested hx).1
        · exact ht.parent k p hp
  case optional =>
    intro k hk
    replace hk : (x.requested.insert key hasDefault).get? k = some true := hk
    rcases SortedMap.get?_insert_cases hk with ⟨rfl, rfl⟩ | hk
    · exact ⟨parent, ha⟩
    · exact ht.optional k hk
  case rooted =>
    intro k hr hp
    replace hr : (x.requested.insert key hasDefault).contains k = true := hr
    cases parent with
    | none =>
        rcases SortedMap.contains_insert.mp hr with rfl | hr
        · exact ⟨hasDefault, ha.entered⟩
        · exact ht.rooted k hr hp
    | some p' =>
        replace hp : (x.parents.insert key p').get? k = none := hp
        rw [SortedMap.get?_insert] at hp
        split at hp
        · cases hp
        · rename_i hk
          exact ht.rooted k ((SortedMap.contains_insert.mp hr).resolve_left hk) hp
  case reported => exact ht.reported

/-- A request keeps an expansion traced. -/
theorem Traced.request (hx : Coherent l x) (ht : Traced enters x) {parent : Option TypeKey}
    {hasDefault : Bool} (ha : Asks enters x.bindings parent key hasDefault) :
    Traced enters (request l x key parent hasDefault) := by
  unfold Expansion.request
  split
  · rename_i absent
    split
    · exact ht.unresolved (ht.chained hx ha (not_dependsOn_of_isAbsent absent))
    · exact ht
  · split
    · rename_i optional
      split
      · exact ht
      · rename_i required
        obtain rfl := Bool.eq_false_iff.mpr required
        exact ht.credit ha ⟨ht.optional key optional, parent, ha⟩
    · exact ht
    · rename_i new
      exact ht.enqueued hx ha new

/-- Requests one after the other keep an expansion traced. -/
theorem Traced.foldl {α : Type} (key : α → TypeKey) (parent : Option TypeKey)
    (hasDefault : α → Bool) : ∀ (requests : List α) {x : Expansion}, Coherent l x →
      Traced enters x → (∀ r ∈ requests, Asks enters x.bindings parent (key r) (hasDefault r)) →
        Traced enters
          (requests.foldl (fun x r => Expansion.request l x (key r) parent (hasDefault r)) x)
  | [], _, _, ht, _ => ht
  | r :: rest, x, hx, ht, ha => by
      have hg := grows_request l x (key r) parent (hasDefault r)
      refine Traced.foldl key parent hasDefault rest (hx.grows hg)
        (ht.request hx (ha r (.head _))) fun r' hr => ?_
      rw [hg.bindings]
      exact ha r' (.tail _ hr)

/-- Binding a key that was free keeps an expansion traced. -/
theorem Traced.bound (hx : Coherent l x) (ht : Traced enters x) {b : Binding}
    (free : x.bindings.get? b.key = none) : Traced enters (x.bound b) := by
  have grown : ∀ k b', x.bindings.get? k = some b' →
      (x.bindings.insert b.key b).get? k = some b' := fun k b' hb => by
    rw [SortedMap.get?_insert_of_ne, hb]
    rintro rfl
    rw [free] at hb
    cases hb
  constructor
  case parent =>
    intro k p hp
    obtain ⟨hd, earlier⟩ := ht.parent k p hp
    refine ⟨hd.mono grown, earlier.imp (fun h => ?_) fun h => h.mono grown⟩
    have hm := (hd.requested hx).1
    show (x.order ++ [b.key]).idxOf p < (x.order ++ [b.key]).idxOf k
    rw [List.idxOf_append_of_mem hm, List.idxOf_append]
    split
    · exact h
    · have := List.idxOf_lt_length_iff.mpr hm
      omega
  case optional => exact fun k hk => (ht.optional k hk).imp fun _ ha => ha.mono grown
  case rooted => exact ht.rooted
  case reported => exact fun k chain requestedBy hint h =>
    (ht.reported k chain requestedBy hint h).mono grown

/-- Errors of other kinds keep an expansion traced, whatever else look-up brings. -/
theorem Traced.note (ht : Traced enters x) (key : TypeKey) {f : Finding}
    (hf : ∀ e ∈ f.errors, e.kind ≠ .unresolvedDependency) : Traced enters (x.note key f) where
  parent := ht.parent
  optional := ht.optional
  rooted := ht.rooted
  reported k chain requestedBy hint h := by
    rcases Diagnostics.mem_stored_reportAll h with h | h
    · exact ht.reported k chain requestedBy hint h
    · exact absurd rfl (hf _ h)

/-- What waits has no part in what is traced. -/
theorem Traced.waiting (ht : Traced enters x) (queue : List TypeKey) :
    Traced enters { x with queue := queue } :=
  ⟨ht.parent, ht.optional, ht.rooted, ht.reported⟩

/-- A requested key was requested by the key it is put down to, or by a root. -/
theorem Traced.asked (ht : Traced enters x) (hr : x.requested.contains key = true) :
    ∃ hasDefault, Asks enters x.bindings (x.parents.get? key) key hasDefault := by
  cases hp : x.parents.get? key with
  | none => exact (ht.rooted key hr hp).imp fun _ he => .root he
  | some p =>
      obtain ⟨b, hb, d, hd, rfl⟩ := (ht.parent key p hp).1
      exact ⟨d.hasDefault, .dependency hb hd⟩

/-- Binding the key at the head of the queue keeps an expansion traced. -/
theorem Traced.accept (hk : l.catalog.Keyed) (hx : Coherent l x) (ht : Traced enters x)
    {rest : List TypeKey} (hq : x.queue = key :: rest) {b : Binding} (hb : Answers l key b)
    (hf : ∀ e ∈ (l.resolve key).errors, e.kind ≠ .unresolvedDependency) :
    Traced enters
      (Expansion.accept l (Expansion.note { x with queue := rest } key (l.resolve key)) b) := by
  obtain rfl : b.key = key := hb.key_eq hk
  have free : x.bindings.get? b.key = none := by
    rw [← SortedMap.not_contains_iff, ← Bool.not_eq_true, ← hx.mem_order]
    exact (hx.waiting b.key (hq ▸ List.mem_cons_self)).2
  have bound : Traced enters
      ((Expansion.note { x with queue := rest } b.key (l.resolve b.key)).bound b) :=
    ((ht.bound hx free).waiting rest).note b.key hf
  have kept : (x.bindings.insert b.key b).get? b.key = some b := SortedMap.get?_insert_self ..
  rw [Expansion.accept]
  exact Traced.foldl (fun d : Dependency => d.key) (some b.key) (fun d => d.hasDefault)
    b.dependencies (hx.bound hk hq hb) bound fun d hd => .dependency kept hd

/-- Looking up the key at the head of the queue keeps an expansion traced. -/
theorem Traced.process (hk : l.catalog.Keyed) (hx : Coherent l x) (ht : Traced enters x)
    {rest : List TypeKey} (hq : x.queue = key :: rest)
    (hf : ∀ e ∈ (l.resolve key).errors, e.kind ≠ .unresolvedDependency) :
    Traced enters (Expansion.process l { x with queue := rest } key) := by
  obtain ⟨requested, unbound⟩ := hx.waiting key (hq ▸ List.mem_cons_self)
  rw [Expansion.process, settle]
  cases hr : (l.resolve key).resolution with
  | found b => exact ht.accept hk hx hq (.inl hr) hf
  | failed => exact (ht.waiting rest).note key hf
  | missing =>
      dsimp only
      split
      · exact ht.accept hk hx hq (.inr ⟨hr, rfl⟩) hf
      · obtain ⟨hasDefault, ha⟩ := ht.asked requested
        refine ((ht.waiting rest).note key hf).unresolved (ht.chained hx ha fun q hd => ?_)
        exact unbound (hd.requested hx).1

/-- **Any number of steps keeps an expansion traced**, if look-up reports no chains itself. -/
theorem Traced.repeat (hk : l.catalog.Keyed) (hx : Coherent l x) (hc : Closed x)
    (ht : Traced enters x)
    (hf : ∀ key, ∀ e ∈ (l.resolve key).errors, e.kind ≠ .unresolvedDependency) : ∀ n : Nat,
      Traced enters (n.repeat (step l) x)
  | 0 => ht
  | n + 1 => by
      obtain ⟨hx', -⟩ := repeat_spec hk hx hc n
      have ht' := Traced.repeat hk hx hc ht hf n
      show Traced enters (step l (n.repeat (step l) x))
      rw [step]
      split
      · exact ht'
      · rename_i key rest hq
        split
        · exact ht'
        · exact ht'.process hk hx' hq (hf key)

end Expansion

namespace BuildRequest

variable {r : BuildRequest}

/-! ### Chains of a build -/

/-- The requests by which a build enters its expansion: those of entry points, of retained keys, and
if everything is checked, of all that is registered and all collections. -/
inductive Enters (r : BuildRequest) : TypeKey → Bool → Prop where
  | entryPoint {e : EntryPoint} (he : e ∈ r.declaration.entryPoints) :
      Enters r e.dependency.key e.dependency.hasDefault
  | retained {key : TypeKey} (hk : key ∈ r.retained.toList) : Enters r key false
  | checked {key : TypeKey} (hv : r.options.validatesAllDeclarations = true)
      (hk : r.registered.contains key = true ∨
        (r.collections r.aggregated.1).isCollection key = true) : Enters r key false

theorem enters_of_mem_checked {key : TypeKey} (h : key ∈ r.checked r.looked) :
    r.Enters key false := by
  rw [checked] at h
  split at h
  · rename_i hv
    refine .checked hv ((List.mem_append.mp h).imp SortedMap.mem_keys.mp fun hk => ?_)
    rw [CollectionTable.isCollection, Bool.or_eq_true]
    rw [CollectionTable.keys, SortedSet.mem_ofList] at hk
    exact (List.mem_append.mp hk).imp SortedMap.mem_keys.mp SortedMap.mem_keys.mp
  · cases h

/-- **An expansion reports chains of requests only.** -/
theorem traced_expansion (r : BuildRequest) : r.expansion.Traced r.Enters := by
  have hcap : 0 < r.early.cap := by
    simp only [early, Diagnostics.cap_reportAll]
    exact Diagnostics.cap_ofCap_pos _
  have initial : Expansion.Traced r.Enters { diagnostics := r.early } := by
    refine ⟨by simp, by simp, by simp [SortedMap.contains_iff], fun key chain by' hint h => ?_⟩
    rcases Diagnostics.mem_stored_reportAll h with h | h
    · rcases Diagnostics.mem_stored_reportAll h with h | h
      · cases h
      · rcases Contribution.kind_of_mem_aggregate h with h | h <;> cases h
    · cases Catalog.kind_of_mem_registerAll h
  have hx := Expansion.coherent_initial (l := r.looked) hcap
  have hg := Expansion.grows_foldl r.looked (fun e : EntryPoint => e.dependency.key) none
    (fun e => e.dependency.hasDefault) r.entryPoints { diagnostics := r.early }
  have entered := initial.foldl (fun e : EntryPoint => e.dependency.key) none
    (fun e => e.dependency.hasDefault) r.entryPoints hx fun e he =>
      .root (.entryPoint (mem_sortBy.mp he))
  have started : Expansion.Traced r.Enters (r.start r.looked r.early) :=
    entered.foldl id none (fun _ => false) (r.retained.toList ++ r.checked r.looked) (hx.grows hg)
      fun k hk => .root ((List.mem_append.mp hk).elim .retained enters_of_mem_checked)
  have hg' := r.grows_start r.looked r.early
  refine started.repeat r.keyed_looked (hx.grows hg') (fun k b hb => ?_)
    (fun _ _ => Lookup.kind_of_mem_resolve) _
  rw [hg'.bindings] at hb
  cases hb

/-- **Every unresolved dependency is reported with a chain of requests.**  It ends with the key that
nothing yields, each of its keys was bound to something that depends on the next, none occurs twice,
and the requester is the key before the last.  The chain starts at a root, unless it starts in a
loop of keys of which one was requested with a default and without one. -/
theorem chained_of_report {report : ErrorReport} (h : r.build = .error report) {key : TypeKey}
    {chain : List TypeKey} {requestedBy : Option Origin} {hint : Option String}
    (he : .unresolvedDependency key chain requestedBy hint ∈ report.errors) :
    Expansion.Chained r.Enters r.expansion.bindings key chain requestedBy := by
  rw [build_eq, Diagnostics.result] at h
  split at h
  · cases h
  · cases h
    exact r.traced_expansion.reported key chain requestedBy hint (mem_stored_expansion he)

/-- A graph whose entry point leads to a key that has a default, and from there to a key that needs
it back, and another that nothing yields. -/
def looped : BuildRequest where
  index := .ofDeclarations [] []
  provider _ := []
  options := {}
  declaration :=
    { origin := .of "AppGraph"
      key := ⟨"AppGraph", none⟩
      entryPoints := [.accessor "app" { key := ⟨"App", none⟩ }]
      bindings :=
        [.provided ⟨"App", none⟩ (.of "app") none [{ key := ⟨"A", none⟩, hasDefault := true }],
          .provided ⟨"A", none⟩ (.of "a") none [{ key := ⟨"B", none⟩ }],
          .provided ⟨"B", none⟩ (.of "b") none
            [{ key := ⟨"A", none⟩, access := .provider }, { key := ⟨"M", none⟩ }]] }
  ancestors := []
  retained := .empty

/-- The chain that its build reports. -/
def cutChain : List TypeKey := [⟨"A", none⟩, ⟨"B", none⟩, ⟨"M", none⟩]

/-- The errors of a build that fails. -/
def errors? (r : BuildRequest) : Option (List GraphError) :=
  match r.build with
  | .error report => some report.errors
  | .ok _ => none

theorem errors?_looped : looped.errors? = some
    [.unresolvedDependency ⟨"M", none⟩ cutChain (some (.of "b")) none] := by
  decide +kernel

theorem exists_report_looped : ∃ report, looped.build = .error report ∧
    .unresolvedDependency ⟨"M", none⟩ cutChain (some (.of "b")) none ∈ report.errors := by
  have failed := errors?_looped
  rw [errors?] at failed
  split at failed
  · rename_i report h
    exact ⟨report, h, by simp [Option.some.inj failed]⟩
  · cases failed

theorem chained_of_report_looped : ∃ report, looped.build = .error report ∧
    .unresolvedDependency ⟨"M", none⟩ cutChain (some (.of "b")) none ∈ report.errors ∧
    Expansion.Chained looped.Enters looped.expansion.bindings ⟨"M", none⟩ cutChain
      (some (.of "b")) := by
  obtain ⟨report, h, he⟩ := exists_report_looped
  exact ⟨report, h, he, chained_of_report h he⟩

/-- The request of `B` takes `A` over from `App`, so the chain of requests is cut off at `A`, which
is no root. -/
theorem report_looped : ¬ ∀ report, looped.build = .error report → ∀ key chain requestedBy hint,
    .unresolvedDependency key chain requestedBy hint ∈ report.errors → ∀ k, chain.head? = some k →
      ∃ hasDefault, looped.Enters k hasDefault := by
  intro rooted
  obtain ⟨report, h, he⟩ := exists_report_looped
  obtain ⟨hasDefault, entered⟩ := rooted report h _ _ _ _ he ⟨"A", none⟩ rfl
  generalize hk : (⟨"A", none⟩ : TypeKey) = key at entered
  cases entered with
  | entryPoint he =>
      rw [List.mem_singleton.mp he] at hk
      exact absurd hk (by decide)
  | retained hm => cases hm
  | checked hv => cases hv

end BuildRequest

end Wiring
