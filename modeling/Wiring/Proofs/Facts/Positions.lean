import Wiring.Proofs.Facts.Objects

/-!
# Lists read as objects

A list may stand for an object: its elements are the members in the order of the layout, behind the
value of the tag if there is one (`Layout.positioned`).  A reader that keeps to a layout reads a list
as the object that it stands for (`Follows.read_list`), so what is known of objects carries over to
lists.
-/

namespace Wiring

open Reader

/-! ### Elements by their positions -/

section

variable {form : Form} {known : List String} {values : List Value} {ms : List (String × Value)}

theorem map_fst_zip_sublist : ∀ (known : List String) (values : List Value),
    ((known.zip values).map (·.1)).Sublist known
  | [], _ => List.nil_sublist _
  | _ :: _, [] => List.nil_sublist _
  | name :: known, _ :: values => (map_fst_zip_sublist known values).cons_cons name

theorem eq_zip_of_positioned (h : positioned form known values = some ms) :
    ms = known.zip values := by
  rw [positioned] at h
  split at h
  · exact (Option.some.inj h).symm
  · cases h

/-- Elements are members of different names. -/
theorem nodup_of_positioned (distinct : known.Nodup) (h : positioned form known values = some ms) :
    (ms.map (·.1)).Nodup :=
  eq_zip_of_positioned h ▸ (map_fst_zip_sublist known values).nodup distinct

/-- Where lists are not open, each element is a member. -/
theorem length_of_positioned (closed : form.isOpen = false)
    (h : positioned form known values = some ms) : ms.length = values.length := by
  rw [eq_zip_of_positioned h, List.length_zip, Nat.min_eq_right]
  rw [positioned, closed, Bool.false_or] at h
  split at h
  · exact of_decide_eq_true ‹_›
  · cases h

/-- If each element is a member, all of them are readable together. -/
theorem allReadable_of_positioned (h : positioned form known values = some ms)
    (all : ms.length = values.length) :
    Value.allReadable values = Value.allMembersReadable ms := by
  obtain rfl := eq_zip_of_positioned h
  have short : values.length ≤ known.length := by
    rw [List.length_zip] at all
    omega
  rw [Value.allReadable_eq_all, Value.allMembersReadable_eq_all]
  conv_lhs => rw [← List.map_snd_zip short]
  rw [List.all_map]
  rfl

/-- An element is the value of one member, or of none. -/
theorem zip_element : ∀ (known : List String) (before after : List Value),
    (∃ ms, ∀ v, known.zip (before ++ v :: after) = ms) ∨
      ∃ name front back, ∀ v, known.zip (before ++ v :: after) = front ++ (name, v) :: back
  | [], _, _ => .inl ⟨[], fun _ => List.zip_nil_left⟩
  | name :: known, [], after => .inr ⟨name, [], known.zip after, fun _ => rfl⟩
  | name :: known, first :: before, after => by
      rcases zip_element known before after with ⟨ms, h⟩ | ⟨other, front, back, h⟩
      · exact .inl ⟨(name, first) :: ms, fun v => by
          rw [List.cons_append, List.zip_cons_cons, h]⟩
      · exact .inr ⟨other, (name, first) :: front, back, fun v => by
          rw [List.cons_append, List.zip_cons_cons, h, List.cons_append]⟩

theorem positioned_element (form : Form) (known : List String) (before after : List Value) :
    (∃ ms?, ∀ v, positioned form known (before ++ v :: after) = ms?) ∨
      ∃ name front back, ∀ v,
        positioned form known (before ++ v :: after) = some (front ++ (name, v) :: back) := by
  simp only [positioned, List.length_append, List.length_cons]
  split
  · rcases zip_element known before after with ⟨ms, h⟩ | ⟨name, front, back, h⟩
    · exact .inl ⟨some ms, fun v => congrArg some (h v)⟩
    · exact .inr ⟨name, front, back, fun v => congrArg some (h v)⟩
  · exact .inl ⟨none, fun _ => rfl⟩

end

theorem Form.isOpen_keep (form : Form) : form.keep.isOpen = false := by
  cases form <;> rfl

/-! ### Lists of a layout -/

namespace Layout

/-- The members of the object that a list stands for. -/
def positioned (form : Form) (values : List Value) : Layout → Option (List (String × Value))
  | plain members => Reader.positioned form (members.map (·.name)) values
  | tagged tag choices =>
      match values with
      | [] => none
      | told :: rest => (choice? form choices told).bind fun choice =>
          (Reader.positioned form.keep (choice.2.map (·.name)) rest).map ((tag, told) :: ·)

theorem choice?_of_sign {form : Form} {choices : List (String × List Member)} {v w : Value}
    (h : v.sign? = w.sign?) : choice? form choices v = choice? form choices w := by
  have told (u : Value) : choice? form choices u = u.sign?.bind (choice? form choices) := by
    cases u <;> rfl
  rw [told v, told w, h]

/-- An element is the value of one member, or of none, whatever stands in its place; it may only
tell a choice that is the same. -/
theorem positioned_replace {form : Form} {v w : Value} (l : Layout) (h : v.sign? = w.sign?)
    (before after : List Value) :
    l.positioned form (before ++ v :: after) = l.positioned form (before ++ w :: after) ∨
      ∃ name front back,
        l.positioned form (before ++ v :: after) = some (front ++ (name, v) :: back) ∧
          l.positioned form (before ++ w :: after) = some (front ++ (name, w) :: back) := by
  cases l with
  | plain members =>
      rcases positioned_element form (members.map (·.name)) before after with
        ⟨ms?, same⟩ | ⟨name, front, back, at_name⟩
      · exact .inl ((same v).trans (same w).symm)
      · exact .inr ⟨name, front, back, at_name v, at_name w⟩
  | tagged tag choices =>
      cases before with
      | nil =>
          simp only [List.nil_append, positioned, choice?_of_sign h]
          cases choice? form choices w with
          | none => exact .inl rfl
          | some choice =>
              simp only [Option.bind_some]
              cases Reader.positioned form.keep (choice.2.map (·.name)) after with
              | none => exact .inl rfl
              | some ms => exact .inr ⟨tag, [], ms, rfl, rfl⟩
      | cons told before =>
          simp only [List.cons_append, positioned]
          cases choice? form choices told with
          | none => exact .inl rfl
          | some choice =>
              rcases positioned_element form.keep (choice.2.map (·.name)) before after with
                ⟨ms?, same⟩ | ⟨name, front, back, at_name⟩
              · exact .inl (by rw [Option.bind_some, Option.bind_some, same v, same w])
              · exact .inr ⟨name, (tag, told) :: front, back, by
                  rw [Option.bind_some, at_name v]; rfl, by
                  rw [Option.bind_some, at_name w]; rfl⟩

/-- If each element is a member, list and object are readable together. -/
theorem allReadable_of_positioned {form : Form} {values : List Value} {ms : List (String × Value)}
    (l : Layout) (h : l.positioned form values = some ms) (all : ms.length = values.length) :
    Value.allReadable values = Value.allMembersReadable ms := by
  cases l with
  | plain members => exact Wiring.allReadable_of_positioned h all
  | tagged tag choices =>
      cases values with
      | nil => cases h
      | cons told rest =>
          obtain ⟨choice, -, h⟩ := Option.bind_eq_some_iff.mp h
          obtain ⟨ms, hms, rfl⟩ := Option.map_eq_some_iff.mp h
          rw [Value.allReadable, Value.allMembersReadable,
            Wiring.allReadable_of_positioned hms (Nat.succ.inj all)]

end Layout

section

variable {α : Type} {form : Form} {values : List Value}

theorem object_list {known : List String} {body : Members → Option α} :
    object known body ⟨.unlimited, form⟩ (.list values) =
      (positioned form known values).bind fun ms => body ⟨⟨.unlimited, form⟩, ms⟩ := rfl

variable {tag : String} {shapes : List (Shape α)} {choices : List (String × List Member)}

theorem tagged_list {told : Value} : tagged tag shapes ⟨.unlimited, form⟩ (.list (told :: values)) =
    if Value.allReadable (told :: values) then
      (shape shapes ⟨.unlimited, form⟩ told).bind fun s =>
        (positioned form.keep s.known values).bind fun ms =>
          s.body ⟨⟨.unlimited, form.keep⟩, ms⟩
    else none := by
  have unlimited := Reading.unlimited form
  rw [tagged, unlimited.admits, Value.isReadable, Bool.true_and, unlimited.enter]
  rfl

/-- A shape reads an object without regard to its tag. -/
theorem Shape.Follows.body_cons {s : Shape α} {choice : String × List Member}
    (hs : s.Follows tag choice) (r : Reading) (told : Value) (ms : List (String × Value)) :
    s.body ⟨r, (tag, told) :: ms⟩ = s.body ⟨r, ms⟩ := by
  refine hs.rests _ _ fun m hm => ?_
  have ne : tag ≠ m.name := fun h =>
    (List.nodup_cons.mp hs.distinct).1 (h ▸ List.mem_map_of_mem hm)
  rw [Member.read_eq, Member.read_eq, given_cons_of_ne ne]

end

namespace Follows

variable {α : Type} {read : Reader α} {l : Layout} {form : Form}

/-- **A list is read as the object that it stands for.** -/
theorem read_list (h : Follows read l) (values : List Value) :
    read ⟨.unlimited, form⟩ (.list values) =
      (l.positioned form values).bind fun ms => read ⟨.unlimited, form⟩ (.object ms) := by
  cases h with
  | @plain known body members known_eq distinct rests =>
      subst known_eq
      rw [object_list]
      refine Option.bind_congr fun ms hms => ?_
      rw [object_object, if_pos (noneRepeated_of_nodup (nodup_of_positioned distinct hms))]
  | @tagged tag shapes choices h =>
      cases values with
      | nil => exact ite_self none
      | cons told rest =>
          have rel := rel_shape h form told
          rw [tagged_list, Layout.positioned]
          generalize hs? : shape shapes ⟨.unlimited, form⟩ told = s? at rel
          generalize Layout.choice? form choices told = c? at rel
          cases rel with
          | none => exact ite_self none
          | @some s choice hs =>
              rw [Option.bind_some, Option.bind_some, ← hs.known, Option.bind_map]
              cases hms : Reader.positioned form.keep s.known rest with
              | none => exact ite_self none
              | some ms =>
                  have names : (((tag, told) :: ms).map (·.1)).Nodup := by
                    rw [eq_zip_of_positioned hms]
                    refine ((map_fst_zip_sublist s.known rest).cons_cons tag).nodup ?_
                    rw [hs.known]
                    exact hs.distinct
                  have readable : Value.allMembersReadable ((tag, told) :: ms) =
                      Value.allReadable (told :: rest) := by
                    rw [Value.allReadable, Value.allMembersReadable, allReadable_of_positioned hms
                      (length_of_positioned form.isOpen_keep hms)]
                  show _ = Reader.tagged tag shapes ⟨.unlimited, form⟩ (.object ((tag, told) :: ms))
                  rw [tagged_object, readable, List.lookup_cons_self]
                  simp only [noneRepeated_of_nodup names, and_true, Option.bind_some, if_true, hs?,
                    hs.body_cons]

-- All members of a document of facts may be left out.
example : Facts.read ⟨.unlimited, .json⟩ (.list []) = some {} := rfl

/-- Elements stand for each other that are read alike, whatever they are to stand for. -/
theorem read_element (h : Follows read l) {v w : Value} (readable : v.isReadable = w.isReadable)
    (sign : v.sign? = w.sign?)
    (same : ∀ c : Content, c.read ⟨.unlimited, l.inside form⟩ v =
      c.read ⟨.unlimited, l.inside form⟩ w)
    (before after : List Value) :
    read ⟨.unlimited, form⟩ (.list (before ++ v :: after)) =
      read ⟨.unlimited, form⟩ (.list (before ++ w :: after)) := by
  rw [h.read_list, h.read_list]
  rcases l.positioned_replace sign before after with same_members | ⟨name, front, back, hv, hw⟩
  · rw [same_members]
  · rw [hv, hw, Option.bind_some, Option.bind_some]
    exact h.read_congr (.of_replace readable (fun _ => sign) fun m _ _ => same m.content)

end Follows

end Wiring
