import Wiring.Facts.Parse
import Wiring.Proofs.Facts.Respelling

/-!
# A limit on nesting

A reader with a limit on how deep values are nested reads what a reader without one does, as long
as the limit is not reached (`Facts.read_atMost`).  What a JSON text holds is read with such a limit
(`Facts.parse?_json`), so a text of a written document holds the facts it was written for, unless
they are nested too deep (`Facts.parse?_json_write`).

The proof is by induction on the limit: the values inside an object or a list are less deep, and a
body of members has nothing but them to tell the readers apart.
-/

namespace Wiring

open Reader

namespace Value

theorem depth_le_depthOfList {v : Value} {values : List Value} (h : v ∈ values) :
    v.depth ≤ depthOfList values := by
  induction h with
  | head rest => exact Nat.le_max_left ..
  | tail w _ ih => exact Nat.le_trans ih (Nat.le_max_right ..)

theorem depth_le_depthOfMembers {name : String} {v : Value} {ms : List (String × Value)}
    (h : (name, v) ∈ ms) : v.depth ≤ depthOfMembers ms := by
  induction h with
  | head rest => exact Nat.le_max_left ..
  | tail m _ ih => exact Nat.le_trans ih (Nat.le_max_right ..)

end Value

/-- The members of what is read as an object are less deep. -/
theorem depth_lt_of_members? {form : Form} {known : List String} {v w : Value}
    {ms : List (String × Value)} {name : String} (hv : members? form known v = some ms)
    (h : (name, w) ∈ ms) : w.depth < v.depth := by
  cases v with
  | object members =>
      rw [members?] at hv
      split at hv
      · obtain rfl := Option.some.inj hv
        exact Nat.lt_succ_of_le (Value.depth_le_depthOfMembers h)
      · cases hv
  | list values =>
      obtain rfl := eq_zip_of_positioned hv
      exact Nat.lt_succ_of_le (Value.depth_le_depthOfList (List.of_mem_zip h).2)
  | moment s =>
      obtain rfl := Option.some.inj hv
      cases h
  | _ => cases hv

/-- What has a shape is no deeper than what also tells it. -/
theorem depth_le_of_untag? {tag : String} {v told rest : Value}
    (h : untag? tag v = some (told, rest)) : rest.depth ≤ v.depth := by
  cases v with
  | object members =>
      rw [untag?] at h
      split at h
      · obtain ⟨_, _, h⟩ := Option.map_eq_some_iff.mp h
        obtain ⟨-, rfl⟩ := Prod.mk.inj h
        exact Nat.le_refl _
      · cases h
  | list values =>
      cases values with
      | nil => cases h
      | cons first others =>
          obtain ⟨-, rfl⟩ := Prod.mk.inj (Option.some.inj h)
          exact Nat.succ_le_succ (Nat.le_max_right ..)
  | _ => cases h

theorem mem_of_mem_given {name : String} {v : Value} {ms : List (String × Value)}
    (h : v ∈ given name ms) : (name, v) ∈ ms := by
  obtain ⟨⟨n, v⟩, hm, rfl⟩ := List.mem_map.mp h
  obtain ⟨hm, hn⟩ := List.mem_filter.mp hm
  rwa [← of_decide_eq_true hn]

/-- The reader does not notice a limit that is not reached. -/
def Unnoticed {α : Type} (levels : Nat) (read : Reader α) : Prop :=
  ∀ (form : Form) (v : Value), v.depth < levels →
    read ⟨.atMost levels, form⟩ v = read ⟨.unlimited, form⟩ v

namespace Unnoticed

variable {α : Type} {levels : Nat} {read : Reader α}

theorem nullable (h : Unnoticed levels read) : Unnoticed levels (Reader.nullable read) := by
  intro form v hv
  by_cases null : v = .null
  · rw [null]
    rfl
  · rw [nullable_of_ne_null null, nullable_of_ne_null null, h form v hv]

theorem list (h : Unnoticed levels read) : Unnoticed (levels + 1) (Reader.list read) := by
  intro form v hv
  cases v with
  | list values =>
      have less : ∀ w ∈ values, w.depth < levels := fun w hw =>
        Nat.lt_of_le_of_lt (Value.depth_le_depthOfList hw) (Nat.lt_of_succ_lt_succ hv)
      show values.mapM (read ⟨.atMost levels, form⟩) = values.mapM (read ⟨.unlimited, form⟩)
      clear hv
      induction values with
      | nil => rfl
      | cons w rest ih =>
          rw [List.forall_mem_cons] at less
          rw [List.mapM_cons, List.mapM_cons, h form w less.1, ih less.2]
  | _ => rfl

theorem named (value? : String → Option α) : Unnoticed (levels + 1) (named value?) := by
  intro form v _
  unfold Reader.named
  split <;> rfl

/-- What a body reads of an object rests on values that are less deep than the object. -/
theorem members_eq (ih : ∀ c : Content, Unnoticed levels c.read) {members : List Member}
    {body : Members → Option α} (rests : RestsOn members body) {form : Form}
    {known : List String} {v : Value} (hv : v.depth < levels + 1) :
    ((members? form known v).bind fun ms => body ⟨⟨.atMost levels, form⟩, ms⟩) =
      (members? form known v).bind fun ms => body ⟨⟨.unlimited, form⟩, ms⟩ := by
  refine Option.bind_congr fun ms hms => rests _ _ fun m _ => ?_
  rw [Member.read_eq, Member.read_eq]
  cases hw : (given m.name ms).head? with
  | none => rfl
  | some w =>
      have less := depth_lt_of_members? hms (mem_of_mem_given (List.mem_of_head? hw))
      exact ih m.content form w (by omega)

theorem of_follows (ih : ∀ c : Content, Unnoticed levels c.read) {l : Layout}
    (h : Follows read l) : Unnoticed (levels + 1) read := by
  intro form v hv
  cases h with
  | plain _ _ rests => exact members_eq ih rests hv
  | @tagged tag shapes choices h =>
      have admits : (Nesting.atMost (levels + 1)).admits v = true :=
        decide_eq_true (Nat.le_of_lt hv)
      rw [Reader.tagged, Reader.tagged, admits, Nesting.admits]
      refine ite_congr rfl (fun _ => ?_) fun _ => rfl
      show (untag? tag v).bind _ = (untag? tag v).bind _
      refine Option.bind_congr fun answer untagged => ?_
      obtain ⟨told, rest⟩ := answer
      -- The shape is told by its form only.
      show (shape shapes ⟨.unlimited, form⟩ told).bind _ =
        (shape shapes ⟨.unlimited, form⟩ told).bind _
      have rel := rel_shape h form told
      generalize shape shapes ⟨.unlimited, form⟩ told = s? at rel ⊢
      generalize Layout.choice? form choices told = c? at rel
      cases rel with
      | none => rfl
      | some hs =>
          exact members_eq ih hs.rests (Nat.lt_of_le_of_lt (depth_le_of_untag? untagged) hv)

end Unnoticed

theorem Content.unnoticed (levels : Nat) (c : Content) : Unnoticed levels c.read := by
  induction levels generalizing c with
  | zero => exact fun _ _ h => absurd h (Nat.not_lt_zero _)
  | succ levels ih =>
      induction c with
      | record n => exact .of_follows ih n.follows
      | nullable c hc => exact hc.nullable
      | list c _ => exact (ih c).list
      | access | contributionKind => exact .named _
      | _ => exact fun _ _ _ => rfl

namespace Facts

/-- A limit on nesting that is not reached changes nothing. -/
theorem read_atMost {levels : Nat} {form : Form} {v : Value} (h : v.depth < levels) :
    Facts.read ⟨.atMost levels, form⟩ v = Facts.read ⟨.unlimited, form⟩ v :=
  Content.unnoticed levels (.record .facts) form v h

/-- What a text holds is what the value that it denotes holds, if that is not nested too deep. -/
theorem parse?_json {text : String} {v : Value} (hv : Json.parse? text = some v)
    (h : v.depth < 127) : Facts.parse? .json text = Facts.read ⟨.unlimited, .json⟩ v := by
  rw [Facts.parse?, DocumentFormat.parse?, hv, Option.bind_some, DocumentFormat.reading,
    Json.reading, read_atMost h]

/-- A text of the document written for given facts holds these facts. -/
theorem parse?_json_write {text : String} {f : Facts} (hv : Json.parse? text = some f.write)
    (h : f.write.depth < 127) : Facts.parse? .json text = some f := by
  rw [parse?_json hv h, Facts.inverts.read_write (Reading.unlimited .json)]

end Facts

end Wiring
