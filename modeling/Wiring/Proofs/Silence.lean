import Wiring.Proofs.Closure
import Wiring.Proofs.Defaults

/-!
# Expansions that meet no error

An expansion meets no error as long as it stays within keys of a kind whose look-up tells none, which
depend on such keys only, and do not depend without a default on a key that nothing yields or that
is declared to have no value (`Untroubled`).  It then demands no key that nothing yields (`Within`),
and goes on so from step to step (`Untroubled.process`, `Untroubled.silent`).
-/

namespace Wiring

/-- A binding without a value depends on nothing. -/
theorem Binding.isAbsent_of_mem_dependencies {b : Binding} {d : Dependency}
    (hd : d ∈ b.dependencies) : b.isAbsent = false := by
  cases b with
  | absent => cases hd
  | _ => rfl

namespace Expansion

variable {l : Lookup} {x : Expansion} {kept : TypeKey → Prop}

theorem requested_reporting (x : Expansion) (d : Diagnostics) :
    (x.reporting d).requested = x.requested := rfl

/-- Dependencies tell no error if those on keys without a value have a default. -/
theorem dependencyErrors_eq_nil {parent : TypeKey} : ∀ {dependencies : List Dependency}
    {x : Expansion}, (∀ d ∈ dependencies, x.isAbsent d.key = true → d.hasDefault = true) →
      dependencyErrors l parent x dependencies = []
  | [], _, _ => rfl
  | d :: rest, x, h => by
      obtain ⟨first, others⟩ := List.forall_mem_cons.mp h
      have silent : requestErrors l x d.key (some parent) d.hasDefault = [] := by
        rw [requestErrors]
        cases ha : x.isAbsent d.key with
        | false => rfl
        | true => simp [first ha]
      rw [dependencyErrors, silent, List.nil_append]
      exact dependencyErrors_eq_nil fun e he ha => others e he ((isAbsent_request ..).symm.trans ha)

/-- A run of steps that keep an invariant and tell no errors tells none. -/
theorem silent_of_invariant {P : Expansion → Prop}
    (step : ∀ x key rest, P x → x.queue = key :: rest →
      processErrors l { x with queue := rest } key = [] ∧
        P (process l { x with queue := rest } key))
    (h : P x) : ∀ n : Nat, errorsWithin l x n = [] ∧ P (n.repeat (advance l) x)
  | 0 => ⟨rfl, h⟩
  | n + 1 => by
      obtain ⟨before, ih⟩ := silent_of_invariant step h n
      rw [errorsWithin, before, List.nil_append]
      show _ ∧ P (advance l (n.repeat (advance l) x))
      rw [advance, stepErrors]
      split
      · exact ⟨rfl, ih⟩
      · exact step _ _ _ ih ‹_›

/-- A step requests nothing but keys that are kept, if those depend on such keys only. -/
theorem known_process (closed : ∀ k b, kept k → Answers l k b → ∀ d ∈ b.dependencies, kept d.key)
    (known : ∀ k, x.requested.contains k = true → kept k) {key : TypeKey} (hk : kept key)
    (rest : List TypeKey) :
    ∀ k, (process l { x with queue := rest } key).requested.contains k = true → kept k := by
  intro k hr
  rcases process_cases l { x with queue := rest } key with ⟨b, hb, he⟩ | ⟨d, -, -, -, he⟩
  · obtain ⟨fresh, -, -, hsub, -, requested⟩ :=
      (grows_accept l (note { x with queue := rest } key (l.resolve key)) b).queue
    rcases (requested k).mp (he ▸ hr) with hr | hf
    · exact known k hr
    · obtain ⟨d, hd, rfl⟩ := List.mem_map.mp (hsub hf)
      exact closed key b hk hb d hd
  · rw [he] at hr
    exact known k hr

/-- An expansion stays within the keys that are kept, and demands none that nothing yields. -/
structure Within (l : Lookup) (kept : TypeKey → Prop) (x : Expansion) : Prop where
  known : ∀ k, x.requested.contains k = true → kept k
  waived : ∀ k, (l.resolve k).resolution = .missing → ¬ x.Demanded k

/-- Neither looking up the keys that are kept nor what their bindings request tells an error. -/
structure Untroubled (l : Lookup) (kept : TypeKey → Prop) : Prop where
  errorless : ∀ k, kept k → (l.resolve k).errors = []
  closed : ∀ k b, kept k → Answers l k b → ∀ d ∈ b.dependencies, kept d.key
  /-- What is requested without a default is found, and not declared to have no value. -/
  required : ∀ k b, kept k → Answers l k b → ∀ d ∈ b.dependencies, d.hasDefault = false →
    (l.resolve d.key).resolution ≠ .missing ∧
      ∀ b', l.catalog.explicit.get? d.key = some b' → b'.isAbsent = false

namespace Untroubled

/-- What is bound to no value is requested with a default. -/
theorem hasDefault_of_isAbsent (h : Untroubled l kept) (hx : Coherent l x) {k : TypeKey}
    (hk : kept k) {b : Binding} (hb : Answers l k b) {d : Dependency} (hd : d ∈ b.dependencies)
    (ha : x.isAbsent d.key = true) : d.hasDefault = true := by
  by_contra hn
  obtain ⟨found, valued⟩ := h.required k b hk hb d hd (Bool.eq_false_iff.mpr hn)
  obtain ⟨b', hb', ha⟩ : ∃ b', x.bindings.get? d.key = some b' ∧ b'.isAbsent = true := by
    rw [isAbsent] at ha
    cases hb' : x.bindings.get? d.key with
    | none => simp [hb'] at ha
    | some b' => exact ⟨b', rfl, by simpa [hb'] using ha⟩
  rcases hx.answers d.key b' hb' with hf | ⟨hm, -⟩
  · rw [valued b' (Lookup.registered_of_isAbsent hf ha)] at ha
    cases ha
  · exact found hm

/-- **A step meets no error** and stays within what is kept. -/
theorem process (h : Untroubled l kept) (hx : Coherent l x) (hw : Within l kept x) {key : TypeKey}
    {rest : List TypeKey} (hq : x.queue = key :: rest) :
    processErrors l { x with queue := rest } key = [] ∧
      Within l kept (Expansion.process l { x with queue := rest } key) := by
  have requested := (hx.waiting key (hq ▸ List.mem_cons_self)).1
  have hk := hw.known key requested
  have errorless := h.errorless key hk
  suffices hs : processErrors l { x with queue := rest } key = [] ∧
      ∀ k, (l.resolve k).resolution = .missing →
        ¬ (Expansion.process l { x with queue := rest } key).Demanded k from
    ⟨hs.1, known_process h.closed hw.known hk rest, hs.2⟩
  rw [processErrors, Expansion.process, settle, errorless, List.nil_append]
  cases hr : (l.resolve key).resolution with
  | failed => exact absurd errorless (Lookup.errors_of_failed hr)
  | found b =>
      have hb : Answers l key b := .inl hr
      refine ⟨dependencyErrors_eq_nil fun d hd ha => ?_, fun k hm hk' => ?_⟩
      · -- the key just bound is no key without a value, as it has a dependency
        refine h.hasDefault_of_isAbsent hx hk hb hd ?_
        rw [isAbsent] at ha ⊢
        replace ha : (((x.bindings.insert b.key b).get? d.key).map (·.isAbsent)).getD false =
          true := ha
        rw [SortedMap.get?_insert] at ha
        split at ha
        · rw [Option.map_some, Option.getD_some, Binding.isAbsent_of_mem_dependencies hd] at ha
          cases ha
        · exact ha
      · rcases demanded_of_foldl hk' with hk' | ⟨d, hd, rfl, hn⟩
        · exact hw.waived k hm hk'
        · exact (h.required key b hk hb d hd hn).1 hm
  | missing =>
      obtain ⟨optional, ho⟩ := SortedMap.contains_iff.mp requested
      have hopt : optional = true := by
        by_contra hn
        exact hw.waived key hr (ho.trans (congrArg some (Bool.eq_false_iff.mpr hn)))
      have flag : (x.requested.get? key).getD false = true := by rw [ho, hopt, Option.getD_some]
      exact ⟨if_pos flag, (if_pos flag).symm ▸ hw.waived⟩

end Untroubled

end Expansion

namespace BuildRequest

variable {r : BuildRequest} {g : Graph} {kept : TypeKey → Prop} {k : TypeKey}

/-- What a build that succeeds demands is found. -/
theorem not_missing_of_demanded (h : r.build = .ok g) (hd : r.expansion.Demanded k) :
    (r.looked.resolve k).resolution ≠ .missing := fun hm => by
  have bound := (built_of_build h).bound_of_requested (SortedMap.contains_iff.mpr ⟨_, hd⟩)
  exact (candid_of_build h).1.waived k ((r.expansion_spec.1.mem_order k).mpr bound) hm hd

/-- A dependency without a default, of a binding of the graph, is on a key that is found. -/
theorem not_missing_of_dependency (h : r.build = .ok g) {b : Binding}
    (hb : g.binding? k = some b) {d : Dependency} (hd : d ∈ b.dependencies)
    (hn : d.hasDefault = false) : (r.looked.resolve d.key).resolution ≠ .missing :=
  not_missing_of_demanded h ((candid_of_build h).1.demanded k b
    (((built_of_build h).bindings k b).mp hb).1 d hd hn)

/-- **An expansion that starts within what is kept meets no error** and stays within it. -/
theorem silent_of_untroubled (h : Expansion.Untroubled r.looked kept) (hw : Expansion.Within r.looked kept r.entered)
    (n : Nat) : Expansion.errorsWithin r.looked r.entered n = [] ∧
      Expansion.Within r.looked kept (r.state n) := by
  obtain ⟨hx, hc, -⟩ := r.coherent_entered
  have run := Expansion.silent_of_invariant (l := r.looked)
    (P := fun x => (Expansion.Coherent r.looked x ∧ x.Closed) ∧ Expansion.Within r.looked kept x)
    ?_ ⟨⟨hx, hc⟩, hw⟩ n
  · exact ⟨run.1, run.2.2⟩
  · rintro x key rest ⟨⟨hx, hc⟩, hw⟩ hq
    obtain ⟨hx', hc', -⟩ := Expansion.process_spec r.keyed_looked hx hc hq
    obtain ⟨silent, hw'⟩ := h.process hx hw hq
    exact ⟨silent, ⟨hx', hc'⟩, hw'⟩

/-- What an expansion binds that stays within what is kept is kept. -/
theorem kept_of_within (silent : r.heard r.steps = [])
    (hw : Expansion.Within r.looked kept (r.state r.steps))
    (hk : r.expansion.bindings.contains k = true) : kept k := by
  obtain ⟨hx, -⟩ := r.expansion_spec
  have requested := hx.requested k ((hx.mem_order k).mpr hk)
  rw [expansion_of_silent silent, Expansion.requested_reporting] at requested
  exact hw.known k requested

end BuildRequest

end Wiring
