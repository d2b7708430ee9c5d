import Mathlib.Data.List.Forall2
import Wiring.Proofs.Facts.Layout

/-!
# Objects that a reader cannot tell apart

Two objects are alike (`Layout.Alike`) if the values given under each name that they know agree.  A
reader that keeps to a layout reads alike objects alike (`Follows.read_congr`).  An object is like
itself with its members in another order, with a member that it does not know, with one that has
what it stands for when it is left out, and with a value for which the same is read.
-/

namespace Wiring

open Reader

/-! ### Values given under a name -/

/-- The values given under a name. -/
def given (name : String) (ms : List (String × Value)) : List Value :=
  (ms.filter (·.1 = name)).map (·.2)

section

variable {name other : String} {v w : Value} {ms ms' : List (String × Value)}

theorem given_cons_self : given name ((name, v) :: ms) = v :: given name ms := by
  rw [given, List.filter_cons_of_pos (by simp), List.map_cons, given]

theorem given_cons_of_ne (h : other ≠ name) : given name ((other, v) :: ms) = given name ms := by
  rw [given, List.filter_cons_of_neg (by simpa using h), given]

theorem given_append : given name (ms ++ ms') = given name ms ++ given name ms' := by
  rw [given, List.filter_append, List.map_append, given, given]

theorem given_eq_nil (h : name ∉ ms.map (·.1)) : given name ms = [] := by
  rw [given, List.map_eq_nil_iff, List.filter_eq_nil_iff]
  exact fun m hm hn => h (List.mem_map.mpr ⟨m, hm, of_decide_eq_true hn⟩)

theorem given_perm (h : ms.Perm ms') : (given name ms).Perm (given name ms') :=
  (h.filter _).map _

theorem allMembersReadable_perm (h : ms.Perm ms') :
    Value.allMembersReadable ms = Value.allMembersReadable ms' := by
  rw [Value.allMembersReadable_eq_all, Value.allMembersReadable_eq_all, h.all_eq]

theorem allMembersReadable_cons (h : v.isReadable = true) :
    Value.allMembersReadable ((name, v) :: ms) = Value.allMembersReadable ms := by
  rw [Value.allMembersReadable, h, Bool.true_and]

theorem lookup_eq_head?_given : ms.lookup name = (given name ms).head? := by
  induction ms with
  | nil => rfl
  | cons m rest ih =>
      obtain ⟨n, v⟩ := m
      by_cases h : n = name
      · rw [h, List.lookup_cons_self, given_cons_self, List.head?_cons]
      · rw [given_cons_of_ne h, ← ih, List.lookup_cons, beq_eq_false_iff_ne.mpr (Ne.symm h)]

theorem noneRepeated_iff {known : List String} :
    noneRepeated known ms = true ↔ ∀ name ∈ known, (given name ms).length ≤ 1 := by
  simp only [noneRepeated, given, List.all_eq_true, decide_eq_true_eq, List.length_map]

end

/-- Both lists have a value too many, or neither has and what is read from them is the same. -/
structure Agree {β : Type} (f : Option Value → β) (vs vs' : List Value) : Prop where
  length_le : vs.length ≤ 1 ↔ vs'.length ≤ 1
  read_eq : vs.length ≤ 1 → f vs.head? = f vs'.head?

namespace Agree

variable {β : Type} {f : Option Value → β} {v w : Value} {vs vs' : List Value}

theorem rfl : Agree f vs vs := ⟨Iff.rfl, fun _ => Eq.refl _⟩

theorem of_perm (h : vs.Perm vs') : Agree f vs vs' := by
  refine ⟨by rw [h.length_eq], fun short => ?_⟩
  match vs, short with
  | [], _ => rw [h.nil_eq]
  | [v], _ => rw [List.singleton_perm.mp h]

theorem absent (h : f none = f (some v)) : Agree f [] [v] := ⟨by simp, fun _ => h⟩

theorem replace {before after : List Value} (h : f (some v) = f (some w)) :
    Agree f (before ++ v :: after) (before ++ w :: after) := by
  refine ⟨by simp, fun short => ?_⟩
  cases before with
  | nil => exact h
  | cons b rest => rfl

end Agree

/-! ### Objects of a layout -/

/-- The value, if it may tell a choice: only texts and numbers may. -/
def Value.sign? : Value → Option Value
  | .text s => some (.text s)
  | .int i => some (.int i)
  | _ => none

/-- What is read as the member from its value, if there is one. -/
def Member.readFrom (m : Member) (r : Reading) : Option Value → Option m.content.Carrier
  | some v => m.content.read r v
  | none => m.absent

theorem Member.read_eq (m : Member) (r : Reading) (ms : List (String × Value)) :
    m.read ⟨r, ms⟩ = m.readFrom r (given m.name ms).head? := by
  obtain ⟨name, content, _ | a⟩ := m
  all_goals
    simp only [Member.read, Members.required, Members.optional, Members.get?,
      lookup_eq_head?_given]
    cases (given name ms).head? <;> rfl

namespace Layout

/-- The names whose values tell the choice. -/
def tags : Layout → List String
  | plain _ => []
  | tagged tag _ => [tag]

/-- The choice that the value of a tag tells, by its name, or by its number where choices are
counted. -/
def choice? (form : Form) (choices : List (String × List Member)) :
    Value → Option (String × List Member)
  | .text s => choices.find? (·.1 = s)
  | .int i => if form.isCounted && 0 ≤ i then choices[i.toNat]? else none
  | _ => none

/-- The members that an object has beside its tag. -/
def members (form : Form) (ms : List (String × Value)) : Layout → List Member
  | plain members => members
  | tagged tag choices => ((ms.lookup tag).bind (choice? form choices)).elim [] (·.2)

/-- The names that an object knows. -/
def known (l : Layout) (form : Form) (ms : List (String × Value)) : List String :=
  l.tags ++ (l.members form ms).map (·.name)

/-- The form in which the values of the members are read. -/
def inside (form : Form) : Layout → Form
  | plain _ => form
  | tagged _ _ => form.keep

/-- The values given under each name that an object of the layout knows agree. -/
structure Alike (l : Layout) (form : Form) (ms ms' : List (String × Value)) : Prop where
  readable : Value.allMembersReadable ms = Value.allMembersReadable ms'
  tags : ∀ tag ∈ l.tags, Agree (·.bind Value.sign?) (given tag ms) (given tag ms')
  members : ∀ m ∈ l.members form ms,
    Agree (m.readFrom ⟨.unlimited, l.inside form⟩) (given m.name ms) (given m.name ms')

end Layout

section

variable {α : Type} {form : Form} {ms ms' : List (String × Value)}

theorem RestsOn.body_eq {members : List Member} {body : Members → Option α} {r : Reading}
    (h : RestsOn members body)
    (agree : ∀ m ∈ members, Agree (m.readFrom r) (given m.name ms) (given m.name ms'))
    (once : ∀ m ∈ members, (given m.name ms).length ≤ 1) :
    body ⟨r, ms⟩ = body ⟨r, ms'⟩ :=
  h ⟨r, ms⟩ ⟨r, ms'⟩ fun m hm => by
    rw [Member.read_eq, Member.read_eq, (agree m hm).read_eq (once m hm)]

/-- What a body reads where no known name is written twice. -/
theorem RestsOn.guarded_eq {members : List Member} {body : Members → Option α} {r : Reading}
    (h : RestsOn members body)
    (agree : ∀ m ∈ members, Agree (m.readFrom r) (given m.name ms) (given m.name ms')) :
    (if noneRepeated (members.map (·.name)) ms then body ⟨r, ms⟩ else none) =
      if noneRepeated (members.map (·.name)) ms' then body ⟨r, ms'⟩ else none := by
  have once_eq : noneRepeated (members.map (·.name)) ms =
      noneRepeated (members.map (·.name)) ms' := by
    rw [Bool.eq_iff_iff]
    simp only [noneRepeated_iff, List.forall_mem_map]
    exact forall₂_congr fun m hm => (agree m hm).length_le
  rw [← once_eq]
  refine ite_congr rfl (fun once => ?_) fun _ => rfl
  refine h.body_eq agree ?_
  simpa only [noneRepeated_iff, List.forall_mem_map] using once

section

variable {tag : String} {shapes : List (Shape α)} {choices : List (String × List Member)}

theorem rel_find? (h : List.Forall₂ (Shape.Follows tag) shapes choices) (s : String) :
    Option.Rel (Shape.Follows tag) (shapes.find? (·.name = s)) (choices.find? (·.1 = s)) := by
  induction h with
  | nil => exact .none
  | cons hs _ ih =>
      rw [List.find?_cons, List.find?_cons, hs.name]
      split
      · exact .some hs
      · exact ih

theorem rel_getElem? (h : List.Forall₂ (Shape.Follows tag) shapes choices) (n : Nat) :
    Option.Rel (Shape.Follows tag) shapes[n]? choices[n]? := by
  induction h generalizing n with
  | nil => exact .none
  | cons hs _ ih =>
      cases n with
      | zero => exact .some hs
      | succ n => exact ih n

/-- A value tells a shape and the choice that it is the shape of, or neither. -/
theorem rel_shape (h : List.Forall₂ (Shape.Follows tag) shapes choices) (form : Form)
    (told : Value) : Option.Rel (Shape.Follows tag) (shape shapes ⟨.unlimited, form⟩ told)
      (Layout.choice? form choices told) := by
  cases told with
  | text s => exact rel_find? h s
  | int i =>
      rw [shape, Layout.choice?]
      split
      · exact rel_getElem? h i.toNat
      · exact .none
  | _ => exact .none

theorem rel_told (h : List.Forall₂ (Shape.Follows tag) shapes choices) (form : Form)
    (ms : List (String × Value)) :
    Option.Rel (Shape.Follows tag) ((ms.lookup tag).bind (shape shapes ⟨.unlimited, form⟩))
      ((ms.lookup tag).bind (Layout.choice? form choices)) := by
  cases ms.lookup tag with
  | none => exact .none
  | some told => exact rel_shape h form told

theorem bind_shape (o : Option Value) (r : Reading) :
    o.bind (shape shapes r) = (o.bind Value.sign?).bind (shape shapes r) := by
  cases o with
  | none => rfl
  | some v => cases v <;> rfl

theorem object_object {known : List String} {body : Members → Option α} :
    object known body ⟨.unlimited, form⟩ (.object ms) =
      if noneRepeated known ms then body ⟨⟨.unlimited, form⟩, ms⟩ else none := by
  show (members? form known (.object ms)).bind (fun members => body ⟨_, members⟩) = _
  rw [members?]
  split <;> rfl

theorem tagged_object : tagged tag shapes ⟨.unlimited, form⟩ (.object ms) =
    if Value.allMembersReadable ms ∧ noneRepeated [tag] ms then
      ((ms.lookup tag).bind (shape shapes ⟨.unlimited, form⟩)).bind fun s =>
        if noneRepeated s.known ms then s.body ⟨⟨.unlimited, form.keep⟩, ms⟩ else none
    else none := by
  have unlimited := Reading.unlimited form
  rw [tagged, unlimited.admits, Value.isReadable, Bool.true_and, unlimited.enter, Option.bind_some,
    untag?, ite_and]
  refine ite_congr rfl (fun _ => ?_) fun _ => rfl
  split
  case isFalse => rfl
  case isTrue =>
    rw [Option.bind_map, Option.bind_assoc]
    refine Option.bind_congr fun told _ => Option.bind_congr fun s _ => ?_
    rw [Reader.members?]
    split <;> rfl

end

/-- A reader that keeps to a layout reads alike objects alike. -/
theorem Follows.read_congr {read : Reader α} {l : Layout} (h : Follows read l)
    (alike : l.Alike form ms ms') :
    read ⟨.unlimited, form⟩ (.object ms) = read ⟨.unlimited, form⟩ (.object ms') := by
  cases h with
  | plain known_eq distinct rests =>
      subst known_eq
      rw [object_object, object_object]
      exact rests.guarded_eq alike.members
  | @tagged tag shapes choices h =>
      have tags := alike.tags tag (List.mem_singleton_self tag)
      have once_eq : noneRepeated [tag] ms = noneRepeated [tag] ms' := by
        rw [Bool.eq_iff_iff]
        simpa only [noneRepeated_iff, List.forall_mem_singleton] using tags.length_le
      rw [tagged_object, tagged_object, ← alike.readable, ← once_eq]
      refine ite_congr rfl (fun ⟨_, once⟩ => ?_) fun _ => rfl
      have told : (ms.lookup tag).bind (shape shapes ⟨.unlimited, form⟩) =
          (ms'.lookup tag).bind (shape shapes ⟨.unlimited, form⟩) := by
        have short := noneRepeated_iff.mp once tag (List.mem_singleton_self tag)
        rw [bind_shape, bind_shape (ms'.lookup tag), lookup_eq_head?_given, lookup_eq_head?_given]
        exact congrArg (Option.bind · _) (tags.read_eq short)
      -- The tag tells a shape and its choice, or neither.
      have rel := rel_told h form ms
      have members := alike.members
      rw [Layout.members] at members
      rw [← told]
      generalize (ms.lookup tag).bind (shape shapes ⟨.unlimited, form⟩) = s? at rel ⊢
      generalize (ms.lookup tag).bind (Layout.choice? form choices) = c? at rel members
      cases rel with
      | none => rfl
      | some hs =>
          rw [Option.bind_some, Option.bind_some, hs.known]
          exact hs.rests.guarded_eq members

end

/-! ### Alike objects -/

namespace Follows

variable {α : Type} {read : Reader α} {l : Layout} {form : Form} {ms ms' : List (String × Value)}

/-- The members that an object has are of different names, and none is the tag. -/
theorem nodup_known (h : Follows read l) : (l.known form ms).Nodup := by
  cases h with
  | plain known_eq distinct _ =>
      rw [known_eq] at distinct
      exact distinct
  | @tagged tag shapes choices h =>
      have rel := rel_told h form ms
      rw [Layout.known, Layout.members]
      generalize (ms.lookup tag).bind (shape shapes ⟨.unlimited, form⟩) = s? at rel
      generalize (ms.lookup tag).bind (Layout.choice? form choices) = c? at rel ⊢
      cases rel with
      | none => exact List.nodup_singleton tag
      | some hs => exact hs.distinct

/-- Members of one name are one member. -/
theorem member_eq (h : Follows read l) {m m' : Member} (hm : m ∈ l.members form ms)
    (hm' : m' ∈ l.members form ms) (name : m'.name = m.name) : m' = m :=
  List.inj_on_of_nodup_map (List.Nodup.of_append_right h.nodup_known) hm' hm name

theorem ne_tag (h : Follows read l) {m : Member} (hm : m ∈ l.members form ms) {tag : String}
    (ht : tag ∈ l.tags) : m.name ≠ tag := by
  rintro rfl
  exact List.disjoint_of_nodup_append h.nodup_known ht (List.mem_map_of_mem hm)

end Follows

namespace Layout.Alike

variable {l : Layout} {form : Form} {ms ms' : List (String × Value)}

theorem of_perm (h : ms.Perm ms') : l.Alike form ms ms' where
  readable := allMembersReadable_perm h
  tags _ _ := .of_perm (given_perm h)
  members _ _ := .of_perm (given_perm h)

theorem of_unknown {name : String} {v : Value} (hv : v.isReadable = true)
    (unknown : name ∉ l.known form ms) : l.Alike form ms ((name, v) :: ms) where
  readable := (allMembersReadable_cons hv).symm
  tags tag ht := by
    have : name ≠ tag := fun h => unknown (h ▸ List.mem_append_left _ ht)
    rw [given_cons_of_ne this]
    exact .rfl
  members m hm := by
    have : name ≠ m.name := fun h =>
      unknown (h ▸ List.mem_append_right _ (List.mem_map_of_mem hm))
    rw [given_cons_of_ne this]
    exact .rfl

theorem of_absent {α : Type} {read : Reader α} (h : Follows read l) {m : Member}
    (hm : m ∈ l.members form ms) {v : Value} (hv : v.isReadable = true)
    (absent : m.content.read ⟨.unlimited, l.inside form⟩ v = m.absent)
    (fresh : m.name ∉ ms.map (·.1)) : l.Alike form ms ((m.name, v) :: ms) where
  readable := (allMembersReadable_cons hv).symm
  tags tag ht := by
    rw [given_cons_of_ne (h.ne_tag hm ht)]
    exact .rfl
  members m' hm' := by
    by_cases name : m'.name = m.name
    · obtain rfl := h.member_eq hm hm' name
      rw [given_cons_self, given_eq_nil fresh]
      exact .absent absent.symm
    · rw [given_cons_of_ne (Ne.symm name)]
      exact .rfl

theorem of_replace {name : String} {v w : Value} {before after : List (String × Value)}
    (readable : v.isReadable = w.isReadable) (sign : name ∈ l.tags → v.sign? = w.sign?)
    (same : ∀ m ∈ l.members form (before ++ (name, v) :: after), m.name = name →
      m.content.read ⟨.unlimited, l.inside form⟩ v = m.content.read ⟨.unlimited, l.inside form⟩ w) :
    l.Alike form (before ++ (name, v) :: after) (before ++ (name, w) :: after) where
  readable := by simp [Value.allMembersReadable_eq_all, readable]
  tags tag ht := by
    rw [given_append, given_append]
    by_cases h : name = tag
    · subst h
      rw [given_cons_self, given_cons_self]
      exact .replace (sign ht)
    · rw [given_cons_of_ne h, given_cons_of_ne h]
      exact .rfl
  members m hm := by
    rw [given_append, given_append]
    by_cases h : m.name = name
    · subst h
      rw [given_cons_self, given_cons_self]
      exact .replace (same m hm rfl)
    · rw [given_cons_of_ne (Ne.symm h), given_cons_of_ne (Ne.symm h)]
      exact .rfl

theorem of_inside {α : Type} {read : Reader α} (h : Follows read l) {m : Member} {v w : Value}
    {before after : List (String × Value)}
    (hm : m ∈ l.members form (before ++ (m.name, v) :: after))
    (readable : v.isReadable = w.isReadable)
    (same : m.content.read ⟨.unlimited, l.inside form⟩ v =
      m.content.read ⟨.unlimited, l.inside form⟩ w) :
    l.Alike form (before ++ (m.name, v) :: after) (before ++ (m.name, w) :: after) := by
  refine .of_replace readable (fun ht => absurd rfl (h.ne_tag hm ht)) fun m' hm' name => ?_
  obtain rfl := h.member_eq hm hm' name
  exact same

end Layout.Alike

end Wiring
