import Wiring.Proofs.Capping

/-!
# Requests with and without a default

An expansion remembers of each requested key whether some request for it has no default
(`Demanded`).  A request without a default is never forgotten, and a key that was left without a
value stays as it is.  So as long as no error is met, the keys left without a value are not demanded
by anything, and what is found brings no errors (`Candid`, `candid_of_build`).
-/

namespace Wiring

namespace Expansion

variable {l : Lookup} {x : Expansion} {k : TypeKey}

/-- Some request for the key has no default. -/
def Demanded (x : Expansion) (k : TypeKey) : Prop := x.requested.get? k = some false

/-! ### What a request remembers -/

/-- A request counts unless the key was left without a value. -/
theorem get?_requested_request (l : Lookup) (x : Expansion) (key : TypeKey)
    (parent : Option TypeKey) (hasDefault : Bool) (k : TypeKey) :
    (request l x key parent hasDefault).requested.get? k =
      if k = key ∧ x.isAbsent key = false then
        some (hasDefault && (x.requested.get? key).getD true)
      else x.requested.get? k := by
  unfold request
  cases x.isAbsent key with
  | true =>
      have absent : ¬ (k = key ∧ true = false) := fun h => absurd h.2 (by decide)
      rw [if_pos rfl, if_neg absent]
      split <;> rfl
  | false =>
      simp only [Bool.false_eq_true, if_false, and_true]
      cases hr : x.requested.get? key with
      | none =>
          show (x.requested.insert key hasDefault).get? k = _
          rw [SortedMap.get?_insert, Option.getD_none, Bool.and_true]
      | some optional =>
          cases optional <;> cases hasDefault
          case true.false =>
            show (x.requested.insert key false).get? k = _
            rw [SortedMap.get?_insert]
            rfl
          all_goals
            show x.requested.get? k = _
            split
            · rename_i h
              rw [h, hr]
              rfl
            · rfl

theorem isAbsent_request (l : Lookup) (x : Expansion) (key : TypeKey) (parent : Option TypeKey)
    (hasDefault : Bool) (k : TypeKey) :
    (request l x key parent hasDefault).isAbsent k = x.isAbsent k := by
  rw [isAbsent, isAbsent, (grows_request l x key parent hasDefault).bindings]

/-- A request without a default counts unless the key was left without a value. -/
theorem demanded_request {key : TypeKey} {parent : Option TypeKey} (h : x.isAbsent key = false) :
    (request l x key parent false).Demanded key := by
  rw [Demanded, get?_requested_request, if_pos ⟨rfl, h⟩, Bool.false_and]

/-! ### Requests one after the other -/

section Requests

variable {α : Type} {key : α → TypeKey} {parent : Option TypeKey} {hasDefault : α → Bool}
  {requests : List α}

/-- A request without a default is not forgotten. -/
theorem Demanded.foldl (h : x.Demanded k) :
    (requests.foldl (fun x r => request l x (key r) parent (hasDefault r)) x).Demanded k := by
  induction requests generalizing x with
  | nil => exact h
  | cons r rest ih =>
      refine ih ?_
      rw [Demanded, get?_requested_request]
      split
      · rename_i hk
        rw [← hk.1, h]
        simp
      · exact h

theorem demanded_of_foldl
    (h : (requests.foldl (fun x r => request l x (key r) parent (hasDefault r)) x).Demanded k) :
    x.Demanded k ∨ ∃ r ∈ requests, key r = k ∧ hasDefault r = false := by
  induction requests generalizing x with
  | nil => exact .inl h
  | cons r rest ih =>
      rcases ih h with h | ⟨r', hr, h⟩
      · rw [Demanded, get?_requested_request] at h
        split at h
        · rename_i hk
          rcases Bool.and_eq_false_iff.mp (Option.some.inj h) with h | h
          · exact .inr ⟨r, .head _, hk.1.symm, h⟩
          · refine .inl ?_
            rw [Demanded, hk.1]
            cases hr : x.requested.get? (key r) with
            | none => simp [hr] at h
            | some optional => simpa [hr] using h
        · exact .inl h
      · exact .inr ⟨r', .tail _ hr, h⟩

theorem isAbsent_foldl :
    (requests.foldl (fun x r => request l x (key r) parent (hasDefault r)) x).isAbsent k =
      x.isAbsent k := by
  induction requests generalizing x with
  | nil => rfl
  | cons r rest ih => exact ih.trans (isAbsent_request ..)

/-- Requests for a key that was left without a value change nothing of it. -/
theorem requested_foldl_of_isAbsent (h : x.isAbsent k = true) :
    (requests.foldl (fun x r => request l x (key r) parent (hasDefault r)) x).requested.get? k =
      x.requested.get? k := by
  induction requests generalizing x with
  | nil => rfl
  | cons r rest ih =>
      refine (ih ((isAbsent_request ..).trans h)).trans ?_
      rw [get?_requested_request, if_neg]
      rintro ⟨rfl, ha⟩
      rw [h] at ha
      cases ha

/-- Requests without a default count, as long as no key is left without a value. -/
theorem demanded_foldl (ha : ∀ k, x.isAbsent k = false) {r : α} (hr : r ∈ requests)
    (hd : hasDefault r = false) :
    (requests.foldl (fun x r => request l x (key r) parent (hasDefault r)) x).Demanded (key r) := by
  induction requests generalizing x with
  | nil => cases hr
  | cons r' rest ih =>
      rcases List.mem_cons.mp hr with rfl | hr
      · rw [List.foldl_cons, hd]
        exact .foldl (demanded_request (ha _))
      · exact ih (fun k => (isAbsent_request ..).trans (ha k)) hr

end Requests

/-- A dependency without a default counts, if no error is met. -/
theorem demanded_dependencies {parent : TypeKey} : ∀ {dependencies : List Dependency}
    {x : Expansion}, dependencyErrors l parent x dependencies = [] →
      ∀ d ∈ dependencies, d.hasDefault = false →
        (dependencies.foldl (fun x d => request l x d.key (some parent) d.hasDefault) x).Demanded
          d.key
  | [], _, _, _, hd, _ => by cases hd
  | e :: rest, x, silent, d, hd, hn => by
      obtain ⟨first, others⟩ := List.append_eq_nil_iff.mp silent
      rcases List.mem_cons.mp hd with rfl | hd
      · rw [hn] at first
        rw [List.foldl_cons, hn]
        refine .foldl (demanded_request (Bool.eq_false_iff.mpr fun ha => ?_))
        simp [requestErrors, ha] at first
      · exact demanded_dependencies others d hd hn

/-! ### A run that meets no error -/

/-- What holds of an expansion that has met no error. -/
structure Candid (l : Lookup) (x : Expansion) : Prop where
  /-- What was found brought no errors. -/
  errorless : ∀ k ∈ x.order, (l.resolve k).errors = []
  /-- A key that was left without a value is not demanded. -/
  waived : ∀ k ∈ x.order, (l.resolve k).resolution = .missing → ¬ x.Demanded k
  /-- What a binding depends on without a default is demanded. -/
  demanded : ∀ k b, x.bindings.get? k = some b → ∀ d ∈ b.dependencies, d.hasDefault = false →
    x.Demanded d.key

/-- A key that nothing yields was left without a value. -/
theorem Coherent.isAbsent_of_missing (hx : Coherent l x) (hk : k ∈ x.order)
    (hm : (l.resolve k).resolution = .missing) : x.isAbsent k = true := by
  obtain ⟨b, hb⟩ := SortedMap.contains_iff.mp ((hx.mem_order k).mp hk)
  rcases hx.answers k b hb with hf | ⟨-, rfl⟩
  · rw [hm] at hf
    cases hf
  · rw [isAbsent, hb]
    rfl

/-- Binding a key keeps an expansion candid, if no error is met. -/
theorem Candid.accept (hx : Coherent l x) (h : Candid l x) {key : TypeKey} {rest : List TypeKey}
    (hq : x.queue = key :: rest) {b : Binding} (hb : b.key = key)
    (found : (l.resolve key).errors = [])
    (waived : (l.resolve key).resolution = .missing → b.dependencies = [] ∧ ¬ x.Demanded key)
    (silent : dependencyErrors l b.key
      ((note { x with queue := rest } key (l.resolve key)).bound b) b.dependencies = []) :
    Candid l (accept l (note { x with queue := rest } key (l.resolve key)) b) := by
  obtain rfl := hb
  have free : b.key ∉ x.order := (hx.waiting b.key (hq ▸ List.mem_cons_self)).2
  have hg := grows_accept l (note { x with queue := rest } b.key (l.resolve b.key)) b
  have ordered : ∀ k ∈ (Expansion.accept l (note { x with queue := rest } b.key
      (l.resolve b.key)) b).order, k ∈ x.order ∨ k = b.key := fun k hk => by
    rw [hg.order] at hk
    exact (List.mem_append.mp hk).imp_right List.mem_singleton.mp
  constructor
  case errorless =>
    intro k hk
    rcases ordered k hk with hk | rfl
    · exact h.errorless k hk
    · exact found
  case waived =>
    intro k hk hm
    rcases ordered k hk with hk | rfl
    · -- a key left without a value stays as it is
      have absent : ((note { x with queue := rest } b.key (l.resolve b.key)).bound b).isAbsent k =
          true := by
        have bound : (x.bindings.insert b.key b).get? k = x.bindings.get? k :=
          SortedMap.get?_insert_of_ne _ _ fun he => free (he ▸ hk)
        show (((x.bindings.insert b.key b).get? k).map (·.isAbsent)).getD false = true
        rw [bound]
        exact hx.isAbsent_of_missing hk hm
      rw [Demanded, Expansion.accept]
      exact (requested_foldl_of_isAbsent absent).symm ▸ h.waived k hk hm
    · obtain ⟨hd, hn⟩ := waived hm
      rw [Expansion.accept, hd]
      exact hn
  case demanded =>
    intro k b' hb' d hd hn
    rw [hg.bindings] at hb'
    replace hb' : (x.bindings.insert b.key b).get? k = some b' := hb'
    rcases SortedMap.get?_insert_cases hb' with ⟨-, rfl⟩ | hb'
    · exact demanded_dependencies silent d hd hn
    · exact Demanded.foldl (h.demanded k b' hb' d hd hn)

/-- A step keeps an expansion candid, if no error is met. -/
theorem Candid.process (hk : l.catalog.Keyed) (hx : Coherent l x) (h : Candid l x) {key : TypeKey}
    {rest : List TypeKey} (hq : x.queue = key :: rest)
    (silent : processErrors l { x with queue := rest } key = []) :
    Candid l (process l { x with queue := rest } key) := by
  obtain ⟨found, silent⟩ := List.append_eq_nil_iff.mp silent
  rw [Expansion.process, settle]
  cases hr : (l.resolve key).resolution with
  | found b =>
      simp only [hr] at silent ⊢
      exact h.accept hx hq (Lookup.key_of_found hk hr) found
        (fun hm => by rw [hr] at hm; cases hm) silent
  | failed => exact absurd found (Lookup.errors_of_failed hr)
  | missing =>
      simp only [hr] at silent ⊢
      have optional : (x.requested.get? key).getD false = true := by
        by_contra hn
        exact absurd silent (by simp [hn])
      refine (if_pos optional).symm ▸ h.accept hx hq rfl found (fun _ => ⟨rfl, fun hn => ?_⟩) rfl
      rw [hn] at optional
      cases optional

/-- A step forgets no request without a default. -/
theorem Demanded.process (h : x.Demanded k) (key : TypeKey) (rest : List TypeKey) :
    (process l { x with queue := rest } key).Demanded k := by
  rcases process_cases l { x with queue := rest } key with ⟨b, -, he⟩ | ⟨d, -, -, -, he⟩
  · rw [he, Expansion.accept]
    exact Demanded.foldl h
  · rw [he]
    exact h

theorem Demanded.reporting (h : x.Demanded k) (d : Diagnostics) : (x.reporting d).Demanded k := h

theorem Candid.reporting (h : Candid l x) (d : Diagnostics) : Candid l (x.reporting d) :=
  ⟨h.errorless, h.waived, h.demanded⟩

/-- What steps keep that meet no error, a run keeps that meets none. -/
theorem repeat_advance_of_silent {P : Expansion → Prop}
    (step : ∀ x key rest, P x → x.queue = key :: rest →
      processErrors l { x with queue := rest } key = [] →
        P (process l { x with queue := rest } key))
    (h : P x) : ∀ n : Nat, errorsWithin l x n = [] → P (n.repeat (advance l) x)
  | 0, _ => h
  | n + 1, silent => by
      obtain ⟨before, last⟩ := List.append_eq_nil_iff.mp silent
      have ih := repeat_advance_of_silent step h n before
      show P (advance l (n.repeat (advance l) x))
      rw [advance]
      rw [stepErrors] at last
      split
      · exact ih
      · rename_i key rest hq
        rw [hq] at last
        exact step _ key rest ih hq last

end Expansion

namespace BuildRequest

variable {r : BuildRequest} {k : TypeKey}

/-- Before its first step an expansion demands what entry points request without a default, what is
retained and what is checked. -/
theorem demanded_entered_iff : r.entered.Demanded k ↔
    (∃ e ∈ r.declaration.entryPoints, e.dependency.key = k ∧ e.dependency.hasDefault = false) ∨
      k ∈ r.retained.toList ++ r.checked r.looked := by
  have listed : ∀ e, e ∈ r.entryPoints ↔ e ∈ r.declaration.entryPoints := fun e => mem_sortBy
  have unbound : ∀ k, (r.entryPoints.foldl (fun x e => Expansion.request r.looked x
      e.dependency.key none e.dependency.hasDefault) { diagnostics := .ofCap 0 }).isAbsent k =
        false := fun k => Expansion.isAbsent_foldl
  constructor
  · intro h
    rcases Expansion.demanded_of_foldl h with h | h
    · rcases Expansion.demanded_of_foldl h with h | ⟨e, he, hk, hd⟩
      · cases h
      · exact .inl ⟨e, (listed e).mp he, hk, hd⟩
    · obtain ⟨_, hk, rfl, -⟩ := h
      exact .inr hk
  · rintro (⟨e, he, rfl, hd⟩ | hk)
    · exact Expansion.Demanded.foldl
        (Expansion.demanded_foldl (fun _ => rfl) ((listed e).mpr he) hd)
    · exact Expansion.demanded_foldl unbound hk rfl

/-- Before its first step an expansion has requested nothing but entry points and what is retained
or checked. -/
theorem mem_of_requested_entered (hk : r.entered.requested.contains k = true) :
    k ∈ r.entryPoints.map (·.dependency.key) ++ (r.retained.toList ++ r.checked r.looked) := by
  obtain ⟨fresh, -, -, hsub, -, hr⟩ := (r.grows_start r.looked (.ofCap 0)).queue
  exact hsub (((hr k).mp hk).resolve_left (by simp [SortedMap.contains]))

theorem coherent_entered (r : BuildRequest) :
    Expansion.Coherent r.looked r.entered ∧ r.entered.Closed ∧
      Expansion.Candid r.looked r.entered := by
  have hg := r.grows_start r.looked (.ofCap 0)
  have unbound : ∀ k b, r.entered.bindings.get? k ≠ some b := fun k b hb => by
    rw [entered, hg.bindings] at hb
    cases hb
  have unordered : ∀ k, k ∉ r.entered.order := fun k hk => by
    rw [entered, hg.order] at hk
    cases hk
  exact ⟨(Expansion.coherent_initial (Diagnostics.cap_ofCap_pos 0)).grows hg,
    fun k b hb => absurd hb (unbound k b),
    ⟨fun k hk => absurd hk (unordered k), fun k hk => absurd hk (unordered k),
      fun k b hb => absurd hb (unbound k b)⟩⟩

/-- **What its steps keep, a build that yields a graph has kept to the end**, as no step met an
error. -/
theorem expansion_of_build {g : Graph} (h : r.build = .ok g) (P : Expansion → Prop)
    (start : P r.entered)
    (step : ∀ x key rest, Expansion.Coherent r.looked x → P x → x.queue = key :: rest →
      Expansion.processErrors r.looked { x with queue := rest } key = [] →
        P (Expansion.process r.looked { x with queue := rest } key))
    (reporting : ∀ x d, P x → P (x.reporting d)) : P r.expansion := by
  have heard := silent_of_errorsMet (errorsMet_of_build h)
  have silent : Expansion.errorsWithin r.looked r.entered r.steps = [] :=
    (List.append_eq_nil_iff.mp heard).2
  obtain ⟨hx, hc, -⟩ := r.coherent_entered
  have run : (Expansion.Coherent r.looked (r.state r.steps) ∧ (r.state r.steps).Closed) ∧
      P (r.state r.steps) := by
    refine Expansion.repeat_advance_of_silent
      (P := fun x => (Expansion.Coherent r.looked x ∧ x.Closed) ∧ P x)
      ?_ ⟨⟨hx, hc⟩, start⟩ r.steps silent
    rintro x key rest ⟨⟨hx, hc⟩, hp⟩ hq silent
    obtain ⟨hx', hc', -⟩ := Expansion.process_spec r.keyed_looked hx hc hq
    exact ⟨⟨hx', hc'⟩, step x key rest hx hp hq silent⟩
  rw [expansion_of_silent heard]
  exact reporting _ _ run.2

/-- **A build that yields a graph was candid**, and what it demanded at first it demands at last. -/
theorem candid_of_build {g : Graph} (h : r.build = .ok g) :
    Expansion.Candid r.looked r.expansion ∧
      ∀ k, r.entered.Demanded k → r.expansion.Demanded k := by
  obtain ⟨-, -, hcandid⟩ := r.coherent_entered
  refine expansion_of_build h
    (fun x => Expansion.Candid r.looked x ∧ ∀ k, r.entered.Demanded k → x.Demanded k)
    ⟨hcandid, fun _ hk => hk⟩ ?_ ?_
  · rintro x key rest hx ⟨hcandid, hd⟩ hq silent
    exact ⟨hcandid.process r.keyed_looked hx hq silent,
      fun k hk => (hd k hk).process key rest⟩
  · rintro x d ⟨hcandid, hd⟩
    exact ⟨hcandid.reporting d, fun k hk => (hd k hk).reporting d⟩

end BuildRequest

end Wiring
