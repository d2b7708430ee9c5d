import Mathlib.Data.List.Nodup
import Mathlib.Data.List.Perm.Subperm
import Wiring.Pass
import Wiring.Proofs.Diagnostics
import Wiring.Proofs.Lookup
import Wiring.Proofs.SortedSet

/-!
# What holds along an expansion

A request touches the queue, the keys requested, their parents and the errors, and nothing else
(`Grows`).  A step takes a key off the queue and either binds it to what look-up answers or reports
an error (`process_cases`), so every state of an expansion is `Coherent`: queue and order hold each
key once and no key is in both, the bound keys are the ordered ones, each bound to what look-up
answers, the edges are those of the bindings, the ancestors are asked for what look-up asks, and
every key ever requested waits, is bound, or has left an error.

A key is put on the queue only when it is requested for the first time, so none is taken twice
(`Accounted.process`).  Steps that look a key up are at most as many as `run` takes: each key that
may be requested and has not been is paid for once (`pending`).  So an expansion always ends
(`run_spec`).
-/

namespace Wiring

namespace Requests

theorem mem_toGraph {r : Requests} {id : DeclarationId} {key : TypeKey} :
    key ∈ (r.toGraph id).toList ↔ ∃ keys, r.get? id = some keys ∧ key ∈ keys.toList := by
  rw [toGraph]
  cases r.get? id <;> simp

end Requests

namespace Expansion

variable {l : Lookup} {x y z : Expansion} {keys taken : List TypeKey} {key : TypeKey}

/-! ### Requests -/

/-- What requests for the given keys make of an expansion: fresh keys are queued, each once, and
every key is requested afterwards unless it was left without a value. -/
structure Grows (keys : List TypeKey) (x y : Expansion) : Prop where
  bindings : y.bindings = x.bindings
  order : y.order = x.order
  edges : y.edges = x.edges
  ancestorRequests : y.ancestorRequests = x.ancestorRequests
  cap : y.diagnostics.cap = x.diagnostics.cap
  failed : x.diagnostics.isEmpty = false → y.diagnostics.isEmpty = false
  queue : ∃ fresh : List TypeKey, y.queue = x.queue ++ fresh ∧ fresh.Nodup ∧ fresh ⊆ keys ∧
    (∀ k ∈ fresh, x.requested.contains k = false) ∧
    ∀ k, y.requested.contains k = true ↔ x.requested.contains k = true ∨ k ∈ fresh
  met : ∀ k ∈ keys, y.requested.contains k = true ∨ x.isAbsent k = true

/-- Requests that queue nothing. -/
theorem Grows.of_queue_eq (hb : y.bindings = x.bindings) (ho : y.order = x.order)
    (he : y.edges = x.edges) (hr : y.ancestorRequests = x.ancestorRequests)
    (hc : y.diagnostics.cap = x.diagnostics.cap)
    (hf : x.diagnostics.isEmpty = false → y.diagnostics.isEmpty = false)
    (hq : y.queue = x.queue)
    (hk : ∀ k, y.requested.contains k = true ↔ x.requested.contains k = true)
    (hm : ∀ k ∈ keys, y.requested.contains k = true ∨ x.isAbsent k = true) : Grows keys x y :=
  ⟨hb, ho, he, hr, hc, hf, ⟨[], by simpa using hq, .nil, by simp, by simp, by simpa using hk⟩, hm⟩

theorem Grows.refl (x : Expansion) : Grows [] x x :=
  .of_queue_eq rfl rfl rfl rfl rfl id rfl (fun _ => .rfl) (by simp)

theorem Grows.requested_mono (h : Grows keys x y) {k : TypeKey}
    (hk : x.requested.contains k = true) : y.requested.contains k = true := by
  obtain ⟨fresh, -, -, -, -, hr⟩ := h.queue
  exact (hr k).mpr (.inl hk)

theorem Grows.trans {keys' : List TypeKey} (h : Grows keys x y) (h' : Grows keys' y z) :
    Grows (keys ++ keys') x z where
  bindings := h'.bindings.trans h.bindings
  order := h'.order.trans h.order
  edges := h'.edges.trans h.edges
  ancestorRequests := h'.ancestorRequests.trans h.ancestorRequests
  cap := h'.cap.trans h.cap
  failed hx := h'.failed (h.failed hx)
  queue := by
    obtain ⟨fresh, hq, hn, hs, hf, hr⟩ := h.queue
    obtain ⟨fresh', hq', hn', hs', hf', hr'⟩ := h'.queue
    have new : ∀ k ∈ fresh', ¬ (x.requested.contains k = true ∨ k ∈ fresh) := fun k hk => by
      rw [← hr, hf' k hk]
      simp
    refine ⟨fresh ++ fresh', by rw [hq', hq, List.append_assoc], ?_, ?_, ?_, ?_⟩
    · exact List.nodup_append.mpr ⟨hn, hn', fun k hk j hj he => new j hj (.inr (he ▸ hk))⟩
    · exact List.append_subset.mpr ⟨fun k hk => List.mem_append_left _ (hs hk),
        fun k hk => List.mem_append_right _ (hs' hk)⟩
    · intro k hk
      rcases List.mem_append.mp hk with hk | hk
      · exact hf k hk
      · exact Bool.eq_false_iff.mpr fun hx => new k hk (.inl hx)
    · intro k
      rw [hr', hr, List.mem_append, or_assoc]
  met k hk := by
    rcases List.mem_append.mp hk with hk | hk
    · exact (h.met k hk).imp_left h'.requested_mono
    · have : y.isAbsent k = x.isAbsent k := by unfold isAbsent; rw [h.bindings]
      exact this ▸ h'.met k hk

theorem grows_request (l : Lookup) (x : Expansion) (key : TypeKey) (parent : Option TypeKey)
    (hasDefault : Bool) : Grows [key] x (request l x key parent hasDefault) := by
  unfold request
  split
  · rename_i ha
    have met : ∀ {y : Expansion}, ∀ k ∈ [key],
        y.requested.contains k = true ∨ x.isAbsent k = true :=
      fun k hk => .inr (List.mem_singleton.mp hk ▸ ha)
    split
    · exact .of_queue_eq rfl rfl rfl rfl (Diagnostics.cap_report ..)
        (fun _ => Diagnostics.isEmpty_report ..) rfl (fun _ => .rfl) met
    · exact .of_queue_eq rfl rfl rfl rfl rfl id rfl (fun _ => .rfl) met
  · split
    · rename_i hr
      have hk : x.requested.contains key = true := SortedMap.contains_iff.mpr ⟨_, hr⟩
      split
      · exact .of_queue_eq rfl rfl rfl rfl rfl id rfl (fun _ => .rfl) (by simp [hk])
      · refine .of_queue_eq rfl rfl rfl rfl rfl id rfl (fun k => ?_) ?_
        · rw [SortedMap.contains_insert, or_iff_right_iff_imp]
          exact fun he => he ▸ hk
        · exact fun k hm => .inl (SortedMap.contains_insert.mpr (.inl (List.mem_singleton.mp hm)))
    · rename_i hr
      have hk : x.requested.contains key = true := SortedMap.contains_iff.mpr ⟨_, hr⟩
      exact .of_queue_eq rfl rfl rfl rfl rfl id rfl (fun _ => .rfl) (by simp [hk])
    · rename_i hr
      refine ⟨rfl, rfl, rfl, rfl, rfl, id,
        ⟨[key], rfl, List.nodup_singleton key, by simp, ?_, ?_⟩, ?_⟩
      · simpa using SortedMap.not_contains_iff.mpr hr
      · intro k
        rw [SortedMap.contains_insert, List.mem_singleton, or_comm]
      · exact fun k hm => .inl (SortedMap.contains_insert.mpr (.inl (List.mem_singleton.mp hm)))

/-- Requests one after the other, all put down to one parent. -/
theorem grows_foldl {α : Type} (l : Lookup) (key : α → TypeKey) (parent : Option TypeKey)
    (hasDefault : α → Bool) : ∀ (requests : List α) (x : Expansion),
      Grows (requests.map key) x
        (requests.foldl (fun x r => request l x (key r) parent (hasDefault r)) x)
  | [], x => .refl x
  | r :: rest, x =>
      (grows_request l x (key r) parent (hasDefault r)).trans
        (grows_foldl l key parent hasDefault rest _)

/-! ### A step -/

/-- What a bound key is bound to: what look-up answers, or no value if nothing yields the key. -/
def Answers (l : Lookup) (key : TypeKey) (b : Binding) : Prop :=
  (l.resolve key).resolution = .found b ∨
    (l.resolve key).resolution = .missing ∧ b = absentBinding key

theorem Answers.key_eq (hk : l.catalog.Keyed) {key : TypeKey} {b : Binding}
    (h : Answers l key b) : b.key = key := by
  rcases h with h | ⟨-, rfl⟩
  · exact Lookup.key_of_found hk h
  · rfl

/-- A key is bound to one binding only. -/
theorem Answers.unique {key : TypeKey} {b b' : Binding} (h : Answers l key b)
    (h' : Answers l key b') : b = b' := by
  rcases h with h | ⟨h, rfl⟩ <;> rcases h' with h' | ⟨h', rfl⟩
  · exact Resolution.found.inj (h.symm.trans h')
  · cases h.symm.trans h'
  · cases h.symm.trans h'
  · rfl

theorem Answers.vocabulary {key : TypeKey} {b : Binding} (h : Answers l key b) {d : Dependency}
    (hd : d ∈ b.dependencies) : d.key ∈ l.vocabulary := by
  rcases h with h | ⟨-, rfl⟩
  · exact Lookup.vocabulary_of_found h hd
  · cases hd

/-- An expansion with a key bound, before what the binding depends on is requested. -/
def bound (x : Expansion) (b : Binding) : Expansion :=
  { x with
    edges := x.edges.insertAll b.edges
    order := x.order ++ [b.key]
    bindings := x.bindings.insert b.key b }

theorem grows_accept (l : Lookup) (x : Expansion) (b : Binding) :
    Grows (b.dependencies.map (·.key)) (x.bound b) (accept l x b) :=
  grows_foldl l (·.key) (some b.key) (·.hasDefault) b.dependencies (x.bound b)

/-- **A step binds or fails.**  Either the key is bound to what look-up answers, or nothing changes
but for an error. -/
theorem process_cases (l : Lookup) (x : Expansion) (key : TypeKey) :
    (∃ b, Answers l key b ∧ process l x key = accept l (x.note key (l.resolve key)) b) ∨
    ∃ d : Diagnostics, d.isEmpty = false ∧ d.cap = x.diagnostics.cap ∧
      (∀ b, (l.resolve key).resolution ≠ .found b) ∧
      process l x key = { x.note key (l.resolve key) with diagnostics := d } := by
  cases hr : (l.resolve key).resolution with
  | found b => exact .inl ⟨b, .inl hr, by simp only [process, settle, hr]⟩
  | failed =>
      have he := Lookup.errors_of_failed hr
      refine .inr ⟨x.diagnostics.reportAll (l.resolve key).errors, ?_, Diagnostics.cap_reportAll ..,
        by simp, by simp only [process, settle, hr, note]⟩
      simp [Diagnostics.isEmpty_reportAll, he]
  | missing =>
      by_cases hd : ((x.note key (l.resolve key)).requested.get? key).getD false = true
      · exact .inl ⟨_, .inr ⟨hr, rfl⟩, by simp only [process, settle, hr, hd, if_true]⟩
      · have he : process l x key = reportUnresolved l (x.note key (l.resolve key)) key
            ((x.note key (l.resolve key)).parents.get? key) := by
          simp only [process, settle, hr, hd, Bool.false_eq_true, if_false]
        refine .inr ⟨_, ?_, ?_, by simp, he⟩
        · exact Diagnostics.isEmpty_report ..
        · exact (Diagnostics.cap_report ..).trans (Diagnostics.cap_reportAll ..)

@[simp] theorem order_note (x : Expansion) (key : TypeKey) (f : Finding) :
    (x.note key f).order = x.order := rfl

/-- The keys asked of an ancestor after a look-up: those asked before, and the key if look-up asks
the ancestor to hold it. -/
theorem mem_asked_note {x : Expansion} {key k : TypeKey} {f : Finding} {id : DeclarationId} :
    k ∈ (Requests.toGraph (x.note key f).ancestorRequests id).toList ↔
      f.asked = some id ∧ k = key ∨ k ∈ (Requests.toGraph x.ancestorRequests id).toList := by
  cases ha : f.asked with
  | none => simp [note, ha]
  | some a =>
      simp only [note, ha, Requests.mem_toGraph, SortedMap.get?_alter, Option.some.injEq]
      by_cases he : id = a
      · subst he
        cases x.ancestorRequests.get? id <;> simp
      · simp [he, Ne.symm he]

theorem asked_ne_nil_note {x : Expansion} {key : TypeKey} {f : Finding}
    (hx : ∀ id keys, x.ancestorRequests.get? id = some keys → keys.toList ≠ []) :
    ∀ id keys, (x.note key f).ancestorRequests.get? id = some keys → keys.toList ≠ [] := by
  cases ha : f.asked with
  | none => simpa [note, ha] using hx
  | some a =>
      intro id keys h
      simp only [note, ha, SortedMap.get?_alter] at h
      split at h
      · obtain rfl := Option.some.inj h
        exact List.ne_nil_of_mem (SortedSet.mem_insert.mpr (.inl rfl))
      · exact hx id keys h

/-! ### The invariant -/

/-- What holds in every state of an expansion. -/
structure Coherent (l : Lookup) (x : Expansion) : Prop where
  /-- Some error may be kept. -/
  capped : 0 < x.diagnostics.cap
  /-- No key waits twice. -/
  queue_nodup : x.queue.Nodup
  /-- A key that waits is requested and not bound. -/
  waiting : ∀ k ∈ x.queue, x.requested.contains k = true ∧ k ∉ x.order
  /-- No key is bound twice. -/
  order_nodup : x.order.Nodup
  /-- The bound keys are those of the order. -/
  mem_order : ∀ k, k ∈ x.order ↔ x.bindings.contains k = true
  /-- A bound key was requested. -/
  requested : ∀ k ∈ x.order, x.requested.contains k = true
  /-- A requested key waits, is bound, or has left an error. -/
  settled : ∀ k, x.requested.contains k = true →
    k ∈ x.queue ∨ k ∈ x.order ∨ x.diagnostics.isEmpty = false
  /-- A key is bound to what look-up answers. -/
  answers : ∀ k b, x.bindings.get? k = some b → Answers l k b
  /-- The edges are those of the bindings. -/
  mem_edges : ∀ e, e ∈ x.edges.toList ↔ ∃ k b, x.bindings.get? k = some b ∧ e ∈ b.edges
  /-- Ancestors are asked for what look-up asks. -/
  mem_asked : ∀ id k, k ∈ (Requests.toGraph x.ancestorRequests id).toList ↔
    k ∈ x.order ∧ (l.resolve k).asked = some id
  /-- No ancestor is asked for nothing. -/
  asked_ne_nil : ∀ id keys, x.ancestorRequests.get? id = some keys → keys.toList ≠ []

/-- What the bindings depend on has been requested. -/
def Closed (x : Expansion) : Prop :=
  ∀ k b, x.bindings.get? k = some b → ∀ d ∈ b.dependencies, x.requested.contains d.key = true

theorem coherent_initial {d : Diagnostics} (hd : 0 < d.cap) : Coherent l { diagnostics := d } where
  capped := hd
  queue_nodup := .nil
  waiting := by simp
  order_nodup := .nil
  mem_order := by simp [SortedMap.contains_iff]
  requested := by simp
  settled k hk := by simp [SortedMap.contains_iff] at hk
  answers := by simp
  mem_edges := by simp
  mem_asked := by simp [Requests.mem_toGraph]
  asked_ne_nil := by simp

/-- Requests keep an expansion coherent. -/
theorem Coherent.grows (hx : Coherent l x) (h : Grows keys x y) : Coherent l y := by
  obtain ⟨fresh, hq, hn, -, hf, hr⟩ := h.queue
  have new : ∀ k ∈ fresh, k ∉ x.order := fun k hk ho =>
    absurd (hx.requested k ho) (by simp [hf k hk])
  exact
    { capped := h.cap ▸ hx.capped
      queue_nodup := by
        rw [hq]
        exact List.nodup_append.mpr ⟨hx.queue_nodup, hn, fun k hk j hj he =>
          absurd (hx.waiting k hk).1 (by simp [he ▸ hf j hj])⟩
      waiting := fun k hk => by
        rw [h.order]
        rcases List.mem_append.mp (hq ▸ hk) with hk | hk
        · exact ⟨h.requested_mono (hx.waiting k hk).1, (hx.waiting k hk).2⟩
        · exact ⟨(hr k).mpr (.inr hk), new k hk⟩
      order_nodup := h.order ▸ hx.order_nodup
      mem_order := h.order ▸ h.bindings ▸ hx.mem_order
      requested := fun k hk => h.requested_mono (hx.requested k (h.order ▸ hk))
      settled := fun k hk => by
        rw [hq, h.order, List.mem_append]
        rcases (hr k).mp hk with hk | hk
        · rcases hx.settled k hk with hk | hk | hk
          · exact .inl (.inl hk)
          · exact .inr (.inl hk)
          · exact .inr (.inr (h.failed hk))
        · exact .inl (.inr hk)
      answers := h.bindings ▸ hx.answers
      mem_edges := h.edges ▸ h.bindings ▸ hx.mem_edges
      mem_asked := h.order ▸ h.ancestorRequests ▸ hx.mem_asked
      asked_ne_nil := h.ancestorRequests ▸ hx.asked_ne_nil }

/-- Edges that come with the binding of a free key are those of the bindings again. -/
theorem mem_edges_insert {bindings : SortedMap TypeKey Binding} {edges : SortedSet Edge}
    {b : Binding} (free : bindings.contains b.key = false)
    (h : ∀ e, e ∈ edges.toList ↔ ∃ k b, bindings.get? k = some b ∧ e ∈ b.edges) (e : Edge) :
    e ∈ (edges.insertAll b.edges).toList ↔
      ∃ k b', (bindings.insert b.key b).get? k = some b' ∧ e ∈ b'.edges := by
  rw [SortedSet.mem_insertAll, h]
  constructor
  · rintro (he | ⟨k, b', hb', he⟩)
    · exact ⟨b.key, b, SortedMap.get?_insert_self .., he⟩
    · have hne : k ≠ b.key := by
        rintro rfl
        rw [SortedMap.not_contains_iff.mp free] at hb'
        cases hb'
      exact ⟨k, b', (SortedMap.get?_insert_of_ne _ _ hne).trans hb', he⟩
  · rintro ⟨k, b', hb', he⟩
    rcases SortedMap.get?_insert_cases hb' with ⟨-, rfl⟩ | hb'
    · exact .inl he
    · exact .inr ⟨k, b', hb', he⟩

/-- Binding the key at the head of the queue keeps an expansion coherent. -/
theorem Coherent.bound (hk : l.catalog.Keyed) (hx : Coherent l x) {key : TypeKey}
    {rest : List TypeKey} (hq : x.queue = key :: rest) {b : Binding} (hb : Answers l key b) :
    Coherent l ((note { x with queue := rest } key (l.resolve key)).bound b) := by
  obtain ⟨hreq, hnew⟩ := hx.waiting key (hq ▸ List.mem_cons_self)
  obtain ⟨hrest, hnodup⟩ := List.nodup_cons.mp (hq ▸ hx.queue_nodup)
  obtain rfl : b.key = key := hb.key_eq hk
  have free : x.bindings.contains b.key = false :=
    Bool.eq_false_iff.mpr fun h => hnew ((hx.mem_order _).mpr h)
  exact
    { capped := (Diagnostics.cap_reportAll ..).symm ▸ hx.capped
      queue_nodup := hnodup
      waiting := fun k hm => by
        refine ⟨(hx.waiting k (hq ▸ List.mem_cons_of_mem _ hm)).1, fun ho => ?_⟩
        rcases List.mem_append.mp ho with ho | ho
        · exact (hx.waiting k (hq ▸ List.mem_cons_of_mem _ hm)).2 ho
        · exact hrest (List.mem_singleton.mp ho ▸ hm)
      order_nodup := List.nodup_append.mpr ⟨hx.order_nodup, List.nodup_singleton _,
        fun k hk j hj he => hnew (List.mem_singleton.mp hj ▸ he ▸ hk)⟩
      mem_order := fun k => by
        show k ∈ x.order ++ [b.key] ↔ (x.bindings.insert b.key b).contains k = true
        rw [List.mem_append, List.mem_singleton, SortedMap.contains_insert, hx.mem_order, or_comm]
      requested := fun k ho => by
        rcases List.mem_append.mp ho with ho | ho
        · exact hx.requested k ho
        · exact List.mem_singleton.mp ho ▸ hreq
      settled := fun k hr => by
        show k ∈ rest ∨ k ∈ x.order ++ [b.key] ∨ (x.diagnostics.reportAll _).isEmpty = false
        rw [List.mem_append, List.mem_singleton, Diagnostics.isEmpty_reportAll]
        rcases hx.settled k hr with h | h | h
        · rcases List.mem_cons.mp (hq ▸ h) with h | h
          · exact .inr (.inl (.inr h))
          · exact .inl h
        · exact .inr (.inl (.inl h))
        · exact .inr (.inr (by rw [h, Bool.false_and]))
      answers := fun k b' hb' => by
        replace hb' : (x.bindings.insert b.key b).get? k = some b' := hb'
        rcases SortedMap.get?_insert_cases hb' with ⟨rfl, rfl⟩ | hb'
        · exact hb
        · exact hx.answers k b' hb'
      mem_edges := mem_edges_insert free hx.mem_edges
      mem_asked := fun id k => by
        refine mem_asked_note.trans ?_
        show _ ↔ k ∈ x.order ++ [b.key] ∧ _
        rw [List.mem_append, List.mem_singleton, or_and_right, or_comm]
        refine or_congr (hx.mem_asked id k) ⟨?_, ?_⟩
        · rintro ⟨ha, rfl⟩
          exact ⟨rfl, ha⟩
        · rintro ⟨rfl, ha⟩
          exact ⟨ha, rfl⟩
      asked_ne_nil := asked_ne_nil_note hx.asked_ne_nil }

/-- Dropping the key at the head of the queue with an error keeps an expansion coherent. -/
theorem Coherent.dropped (hx : Coherent l x) {key : TypeKey} {rest : List TypeKey}
    (hq : x.queue = key :: rest) {d : Diagnostics} (hd : d.isEmpty = false)
    (hc : d.cap = x.diagnostics.cap) (hn : ∀ b, (l.resolve key).resolution ≠ .found b) :
    Coherent l { note { x with queue := rest } key (l.resolve key) with diagnostics := d } := by
  -- an ancestor is asked only together with an accessor that is found
  have unasked : (l.resolve key).asked = none := by
    refine Option.eq_none_iff_forall_not_mem.mpr fun id h => ?_
    obtain ⟨a, -, -, -, hf, -⟩ := Lookup.scoped_of_asked h
    exact hn _ hf
  exact
    { capped := hc ▸ hx.capped
      queue_nodup := (List.nodup_cons.mp (hq ▸ hx.queue_nodup)).2
      waiting := fun k hk => hx.waiting k (hq ▸ List.mem_cons_of_mem key hk)
      order_nodup := hx.order_nodup
      mem_order := hx.mem_order
      requested := hx.requested
      settled := fun _ _ => .inr (.inr hd)
      answers := hx.answers
      mem_edges := hx.mem_edges
      mem_asked := fun id k => mem_asked_note.trans (by simpa [unasked] using hx.mem_asked id k)
      asked_ne_nil := asked_ne_nil_note hx.asked_ne_nil }

theorem contains_of_isAbsent {k : TypeKey} (h : x.isAbsent k = true) :
    x.bindings.contains k = true := by
  rw [isAbsent] at h
  cases hb : x.bindings.get? k with
  | none => simp [hb] at h
  | some b => exact SortedMap.contains_iff.mpr ⟨b, hb⟩

/-- What a new binding depends on is requested with it. -/
theorem Closed.accept (hx : Closed x)
    (hr : ∀ k, x.bindings.contains k = true → x.requested.contains k = true) {b : Binding}
    (hb : x.requested.contains b.key = true) : Closed (accept l x b) := by
  have hg := grows_accept l x b
  intro k b' hb' d hd
  rw [hg.bindings] at hb'
  replace hb' : (x.bindings.insert b.key b).get? k = some b' := hb'
  rcases SortedMap.get?_insert_cases hb' with ⟨-, rfl⟩ | hb'
  · rcases hg.met d.key (List.mem_map.mpr ⟨d, hd, rfl⟩) with h | h
    · exact h
    · refine hg.requested_mono ?_
      rcases SortedMap.contains_insert.mp (contains_of_isAbsent h) with h | h
      · exact h ▸ hb
      · exact hr _ h
  · exact hg.requested_mono (hx k b' hb' d hd)

/-! ### No key twice -/

/-- The keys taken and those that wait were requested, and are all different. -/
structure Accounted (taken : List TypeKey) (x : Expansion) : Prop where
  nodup : (taken ++ x.queue).Nodup
  requested : ∀ k ∈ taken ++ x.queue, x.requested.contains k = true

/-- **A key that is taken does not come back to the queue.** -/
theorem Accounted.process (h : Accounted taken x) {rest : List TypeKey}
    (hq : x.queue = key :: rest) :
    Accounted (taken ++ [key]) (process l { x with queue := rest } key) := by
  have same : (taken ++ [key]) ++ rest = taken ++ x.queue := by
    rw [hq, List.append_assoc, List.singleton_append]
  rcases process_cases l { x with queue := rest } key with ⟨b, hb, he⟩ | ⟨d, -, -, -, he⟩
  · -- the fresh keys were never requested, as those that are taken or wait were
    obtain ⟨fresh, queue, nodup, -, new, requested⟩ :=
      (grows_accept l (note { x with queue := rest } key (l.resolve key)) b).queue
    have split : (taken ++ [key]) ++ (Expansion.process l { x with queue := rest } key).queue =
        (taken ++ x.queue) ++ fresh := by
      rw [he, queue, ← List.append_assoc, ← same]
      rfl
    refine ⟨?_, ?_⟩
    · rw [split]
      refine List.nodup_append.mpr ⟨h.nodup, nodup, fun k hk j hj hkj => ?_⟩
      have old := h.requested k hk
      rw [hkj] at old
      exact absurd old (Bool.eq_false_iff.mp (new j hj))
    · intro k hk
      rw [split, List.mem_append] at hk
      rw [he]
      exact (requested k).mpr (hk.imp_left (h.requested k))
  · rw [he]
    exact ⟨same ▸ h.nodup, same ▸ h.requested⟩

theorem Coherent.accounted (hx : Coherent l x) : Accounted [] x :=
  ⟨hx.queue_nodup, fun k hk => (hx.waiting k hk).1⟩

/-! ### A run -/

/-- How many keys may still be looked up: those that wait, and those of the vocabulary that were
never requested. -/
def pending (l : Lookup) (x : Expansion) : Nat :=
  x.queue.length + (l.vocabulary.filter (!x.requested.contains ·)).length

/-- A fresh key is paid for out of the vocabulary. -/
theorem Grows.pending_le (h : Grows keys x y) (hk : ∀ k ∈ keys, k ∈ l.vocabulary) :
    pending l y ≤ pending l x := by
  obtain ⟨fresh, hq, hn, hs, hf, hr⟩ := h.queue
  -- the keys not requested before are the fresh ones and those not requested after
  have split : ∀ vocabulary : List TypeKey,
      (vocabulary.filter (!x.requested.contains ·)).length =
        ((vocabulary.filter (!x.requested.contains ·)).filter (· ∈ fresh)).length +
          (vocabulary.filter (!y.requested.contains ·)).length := by
    intro vocabulary
    rw [List.length_eq_length_filter_add (· ∈ fresh), List.filter_filter, List.filter_filter]
    congr 3
    funext k
    rw [Bool.eq_iff_iff, Bool.and_eq_true, Bool.not_eq_true', Bool.not_eq_true', Bool.not_eq_true',
      ← Bool.not_eq_true, ← Bool.not_eq_true, ← Bool.not_eq_true, hr, not_or, decide_eq_true_iff,
      and_comm]
  have : fresh.length ≤
      ((l.vocabulary.filter (!x.requested.contains ·)).filter (· ∈ fresh)).length := by
    refine (List.subperm_of_subset hn fun k hm => ?_).length_le
    simp [hm, hf k hm, hk k (hs hm)]
  unfold pending
  rw [split, hq, List.length_append]
  omega

/-- What a step does to a coherent expansion whose queue starts with a key. -/
theorem process_spec (hk : l.catalog.Keyed) (hx : Coherent l x) (hc : Closed x) {key : TypeKey}
    {rest : List TypeKey} (hq : x.queue = key :: rest) :
    let y := process l { x with queue := rest } key
    Coherent l y ∧ Closed y ∧ pending l y < pending l x ∧
      ∀ k, x.requested.contains k = true → y.requested.contains k = true := by
  have hreq := (hx.waiting key (hq ▸ List.mem_cons_self)).1
  have paid : ∀ y : Expansion, y.queue = rest → y.requested = x.requested →
      pending l y < pending l x := by
    intro y hy hr
    simp only [pending, hy, hr, hq, List.length_cons]
    omega
  rcases process_cases l { x with queue := rest } key with ⟨b, hb, he⟩ | ⟨d, hd, hcap, hn, he⟩
  · have hg := grows_accept l (note { x with queue := rest } key (l.resolve key)) b
    have hc' : Closed (note { x with queue := rest } key (l.resolve key)) := hc
    simp only [he]
    refine ⟨(hx.bound hk hq hb).grows hg, hc'.accept (fun k h => ?_) ?_, ?_,
      fun k h => hg.requested_mono h⟩
    · exact hx.requested k ((hx.mem_order k).mpr h)
    · exact (hb.key_eq hk).symm ▸ hreq
    · refine Nat.lt_of_le_of_lt (hg.pending_le fun k hm => ?_) (paid _ rfl rfl)
      obtain ⟨d, hd, rfl⟩ := List.mem_map.mp hm
      exact hb.vocabulary hd
  · simp only [he]
    exact ⟨hx.dropped hq hd hcap hn, hc, paid _ rfl rfl, fun _ h => h⟩

/-- An expansion that has not ended has a key to look up. -/
theorem exists_next_of_isDone (h : x.isDone = false) :
    ∃ key rest, x.queue = key :: rest ∧ x.diagnostics.limitReached = false := by
  cases hq : x.queue with
  | nil => simp [isDone, hq] at h
  | cons key rest => exact ⟨key, rest, rfl, by simpa [isDone, hq] using h⟩

theorem step_of_isDone (h : x.isDone = true) : step l x = x := by
  rw [isDone] at h
  rw [step]
  split
  · rfl
  · rename_i hq
    rw [hq] at h
    exact if_pos (by simpa using h)

theorem step_of_queue {key : TypeKey} {rest : List TypeKey} (hq : x.queue = key :: rest)
    (hl : x.diagnostics.limitReached = false) :
    step l x = process l { x with queue := rest } key := by
  rw [step]
  rw [hq]
  exact if_neg (by simp [hl])

/-- A step keeps an expansion coherent and closed, forgets no request, and uses up a key unless the
expansion has ended. -/
theorem step_spec (hk : l.catalog.Keyed) (hx : Coherent l x) (hc : Closed x) :
    Coherent l (step l x) ∧ Closed (step l x) ∧
      (x.isDone = true ∨ pending l (step l x) < pending l x) ∧
      ∀ k, x.requested.contains k = true → (step l x).requested.contains k = true := by
  cases hd : x.isDone with
  | true =>
      rw [step_of_isDone hd]
      exact ⟨hx, hc, .inl rfl, fun _ h => h⟩
  | false =>
      obtain ⟨key, rest, hq, hl⟩ := exists_next_of_isDone hd
      obtain ⟨hx', hc', hp, hr⟩ := process_spec hk hx hc hq
      exact step_of_queue hq hl ▸ ⟨hx', hc', .inr hp, hr⟩

/-- Any number of steps keeps an expansion coherent and closed, forgets no request, and ends it or
uses up as many keys. -/
theorem repeat_spec (hk : l.catalog.Keyed) (hx : Coherent l x) (hc : Closed x) : ∀ n : Nat,
    Coherent l (n.repeat (step l) x) ∧ Closed (n.repeat (step l) x) ∧
      ((n.repeat (step l) x).isDone = true ∨ pending l (n.repeat (step l) x) + n ≤ pending l x) ∧
      ∀ k, x.requested.contains k = true → (n.repeat (step l) x).requested.contains k = true
  | 0 => ⟨hx, hc, .inr (Nat.le_refl _), fun _ h => h⟩
  | n + 1 => by
      obtain ⟨hx', hc', hp, hr⟩ := repeat_spec hk hx hc n
      obtain ⟨hx'', hc'', hp', hr'⟩ := step_spec hk hx' hc'
      refine ⟨hx'', hc'', ?_, fun k h => hr' k (hr k h)⟩
      rcases hp with hp | hp
      · exact .inl ((congrArg isDone (step_of_isDone hp)).trans hp)
      · rcases hp' with hd | hp'
        · exact .inl ((congrArg isDone (step_of_isDone hd)).trans hd)
        · right
          show pending l (step l (n.repeat (step l) x)) + (n + 1) ≤ pending l x
          omega

/-- **An expansion ends.**  A run takes enough steps to end, and its last state is coherent, closed,
and forgets no request. -/
theorem run_spec (hk : l.catalog.Keyed) (hx : Coherent l x) (hc : Closed x) :
    Coherent l (x.run l) ∧ Closed (x.run l) ∧ (x.run l).isDone = true ∧
      ∀ k, x.requested.contains k = true → (x.run l).requested.contains k = true := by
  obtain ⟨hx', hc', hp, hr⟩ := repeat_spec hk hx hc (x.queue.length + l.vocabulary.length)
  refine ⟨hx', hc', hp.elim id fun hp => ?_, hr⟩
  have hv : (l.vocabulary.filter (!x.requested.contains ·)).length ≤ l.vocabulary.length :=
    List.length_filter_le ..
  unfold pending at hp
  have hq : (x.run l).queue = [] := List.eq_nil_of_length_eq_zero (by rw [run]; omega)
  simp [isDone, hq]

/-- An expansion that ends without an error has bound every key it requested. -/
theorem Coherent.bound_of_requested (hx : Coherent l x) (hd : x.isDone = true)
    (he : x.diagnostics.isEmpty = true) {k : TypeKey} (hr : x.requested.contains k = true) :
    x.bindings.contains k = true := by
  have hl : x.diagnostics.limitReached = false := Bool.eq_false_iff.mpr fun h => by
    rw [Diagnostics.isEmpty_eq_false_of_limitReached hx.capped h] at he
    cases he
  have hq : x.queue = [] := by simpa [isDone, hl] using hd
  rcases hx.settled k hr with h | h | h
  · rw [hq] at h
    cases h
  · exact (hx.mem_order k).mp h
  · rw [he] at h
    cases h

end Expansion

end Wiring
