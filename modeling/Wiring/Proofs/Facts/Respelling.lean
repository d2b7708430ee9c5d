import Wiring.Proofs.Facts.Positions
import Wiring.Proofs.Facts.RoundTrip

/-!
# Respelled documents

A document is `Respelled` by putting the members of its objects in another order, by adding members
that nobody knows, by leaving out members that have what they stand for when they are left out, by
writing an object for a list that stands for it, and by taking back any of this, at every depth.  A
respelled document holds the same facts (`Respelled.readAlike`).

The order of members means nothing wherever the objects stand, in what is read and in what is not
(`Shuffled`).  Which members nobody knows, and what those that are left out stand for, depends on
what the object is to stand for (`Content`).
-/

namespace Wiring

open Reader

/-! ### The order of members -/

/-- The same value, but for the order of the members of its objects. -/
inductive Shuffled : Value → Value → Prop
  | refl (v : Value) : Shuffled v v
  | trans {u v w : Value} : Shuffled u v → Shuffled v w → Shuffled u w
  | object {ms ms' : List (String × Value)} (h : ms.Perm ms') : Shuffled (.object ms) (.object ms')
  | member {before after : List (String × Value)} {name : String} {v w : Value} :
      Shuffled v w →
      Shuffled (.object (before ++ (name, v) :: after)) (.object (before ++ (name, w) :: after))
  | element {before after : List Value} {v w : Value} :
      Shuffled v w → Shuffled (.list (before ++ v :: after)) (.list (before ++ w :: after))

/-- What the order of members leaves as it is, whatever the value is to stand for. -/
structure OfAKind (v w : Value) : Prop where
  readable : v.isReadable = w.isReadable
  null : v = .null ↔ w = .null
  sign : v.sign? = w.sign?
  isNothing : ∀ form : Form, form.isNothing v = form.isNothing w

theorem Shuffled.ofAKind {v w : Value} (h : Shuffled v w) : OfAKind v w := by
  induction h with
  | refl v => exact ⟨rfl, Iff.rfl, rfl, fun _ => rfl⟩
  | trans _ _ ih ih' =>
      exact ⟨ih.readable.trans ih'.readable, ih.null.trans ih'.null, ih.sign.trans ih'.sign,
        fun form => (ih.isNothing form).trans (ih'.isNothing form)⟩
  | @object ms ms' h =>
      refine ⟨allMembersReadable_perm h, by simp, rfl, fun form => ?_⟩
      match ms, ms', h.length_eq with
      | [], [], _ => rfl
      | _ :: _, _ :: _, _ => cases form <;> rfl
  | @member before after name v w _ ih =>
      refine ⟨?_, by simp, rfl, fun form => ?_⟩
      · simp [Value.isReadable, Value.allMembersReadable_eq_all, ih.readable]
      · cases before <;> cases form <;> rfl
  | @element before after v w _ ih =>
      refine ⟨?_, by simp, rfl, fun form => ?_⟩
      · simp [Value.isReadable, Value.allReadable_eq_all, ih.readable]
      · cases before <;> cases form <;> rfl

/-- A name in an object is its only member. -/
theorem Reader.named_perm {α : Type} {value? : String → Option α} {r : Reading}
    {ms ms' : List (String × Value)} (h : ms.Perm ms') :
    named value? r (.object ms) = named value? r (.object ms') := by
  match ms, ms', h, h.length_eq with
  | [], _, h, _ => rw [h.nil_eq]
  | [m], _, h, _ => rw [List.singleton_perm.mp h]
  | _ :: _ :: _, _ :: _ :: _, _, _ => rfl

theorem Reader.named_replace {α : Type} {value? : String → Option α} {form : Form} {v w : Value}
    (h : OfAKind v w) (before after : List (String × Value)) (name : String) :
    named value? ⟨.unlimited, form⟩ (.object (before ++ (name, v) :: after)) =
      named value? ⟨.unlimited, form⟩ (.object (before ++ (name, w) :: after)) := by
  match before, after with
  | [], [] =>
      show (if form.isNothing v then _ else none) = if form.isNothing w then _ else none
      rw [h.isNothing]
  | [], _ :: _ | [_], _ | _ :: _ :: _, _ => rfl

theorem Reader.list_replace {α : Type} {read : Reader α} {form : Form} {v w : Value}
    (h : read ⟨.unlimited, form⟩ v = read ⟨.unlimited, form⟩ w) (before after : List Value) :
    list read ⟨.unlimited, form⟩ (.list (before ++ v :: after)) =
      list read ⟨.unlimited, form⟩ (.list (before ++ w :: after)) := by
  show (before ++ v :: after).mapM (read ⟨.unlimited, form⟩) =
    (before ++ w :: after).mapM (read ⟨.unlimited, form⟩)
  simp only [List.mapM_append, List.mapM_cons, h]

/-- The order of members means nothing: by induction on how they are put in another order, and at
each step on what the value is to stand for. -/
theorem Shuffled.read_eq {v w : Value} (h : Shuffled v w) (form : Form) (c : Content) :
    c.read ⟨.unlimited, form⟩ v = c.read ⟨.unlimited, form⟩ w := by
  induction h generalizing form c with
  | refl v => rfl
  | trans _ _ ih ih' => exact (ih form c).trans (ih' form c)
  | object h =>
      induction c with
      | record n => exact n.follows.read_congr (.of_perm h)
      | nullable c ih => exact congrArg (Option.map some) ih
      | access | contributionKind => exact named_perm h
      | _ => rfl
  | member h ih =>
      induction c with
      | record n =>
          exact n.follows.read_congr (.of_replace h.ofAKind.readable (fun _ => h.ofAKind.sign)
            fun m _ _ => ih _ m.content)
      | nullable c hc => exact congrArg (Option.map some) hc
      | access | contributionKind => exact named_replace h.ofAKind _ _ _
      | _ => rfl
  | element h ih =>
      induction c with
      | record n =>
          exact n.follows.read_element h.ofAKind.readable h.ofAKind.sign (fun c => ih _ c) _ _
      | nullable c hc => exact congrArg (Option.map some) hc
      | list c _ => exact list_replace (ih form c) _ _
      | _ => rfl

/-! ### Respellings -/

namespace Content

/-- Whether an object that stands as such a value knows a name.  The name of an access or of a kind
of contributions may be the only member of an object, which then may have no other. -/
def Knows (form : Form) (ms : List (String × Value)) (name : String) : Content → Prop
  | record n => name ∈ n.layout.known form ms
  | access | contributionKind => True
  | nullable c => c.Knows form ms name
  | text | bool | uint32 | int32 | declaration | scope | list _ => False

end Content

/-- Documents that differ only in the order of members, in members that nobody knows, in members that
have what they stand for when they are left out, and in how members are told. -/
inductive Respelled : Form → Content → Value → Value → Prop
  | refl {form : Form} {c : Content} (v : Value) : Respelled form c v v
  | symm {form : Form} {c : Content} {v w : Value} :
      Respelled form c v w → Respelled form c w v
  | trans {form : Form} {c : Content} {u v w : Value} :
      Respelled form c u v → Respelled form c v w → Respelled form c u w
  /-- The members of objects are put in another order. -/
  | reorder {form : Form} {c : Content} {v w : Value} (h : Shuffled v w) : Respelled form c v w
  /-- A member is added to an object that does not know it. -/
  | unknown {form : Form} {c : Content} {ms : List (String × Value)} {name : String} {v : Value}
      (hv : v.isReadable = true) (h : ¬ c.Knows form ms name) :
      Respelled form c (.object ms) (.object ((name, v) :: ms))
  /-- A member is added that has what it stands for when it is left out. -/
  | absent {form : Form} {n : Record} {ms : List (String × Value)} {m : Member}
      {a : m.content.Carrier} {v : Value} (hm : m ∈ n.layout.members form ms)
      (ha : m.absent = some a) (hv : v.isReadable = true)
      (read : m.content.read ⟨.unlimited, n.layout.inside form⟩ v = some a)
      (fresh : m.name ∉ ms.map (·.1)) :
      Respelled form (.record n) (.object ms) (.object ((m.name, v) :: ms))
  /-- The value of a member is respelled. -/
  | inside {form : Form} {n : Record} {before after : List (String × Value)} {m : Member}
      {v w : Value} (hm : m ∈ n.layout.members form (before ++ (m.name, v) :: after)) :
      Respelled (n.layout.inside form) m.content v w →
      Respelled form (.record n) (.object (before ++ (m.name, v) :: after))
        (.object (before ++ (m.name, w) :: after))
  /-- The elements of a list are told by their names. -/
  | name {form : Form} {n : Record} {vs : List Value} {ms : List (String × Value)}
      (h : n.layout.positioned form vs = some ms) (all : ms.length = vs.length) :
      Respelled form (.record n) (.list vs) (.object ms)
  /-- An element is added to a list that has all members before it. -/
  | beyond {form : Form} {n : Record} {vs : List Value} {v : Value} (hv : v.isReadable = true)
      (h : n.layout.positioned form (vs ++ [v]) = n.layout.positioned form vs) :
      Respelled form (.record n) (.list vs) (.list (vs ++ [v]))
  /-- A value that might be null is respelled. -/
  | nullable {form : Form} {c : Content} {v w : Value} :
      Respelled form c v w → Respelled form (.nullable c) v w
  /-- An element of a list is respelled. -/
  | element {form : Form} {c : Content} {before after : List Value} {v w : Value} :
      Respelled form c v w →
      Respelled form (.list c) (.list (before ++ v :: after)) (.list (before ++ w :: after))

theorem Content.read_unknown {form : Form} {ms : List (String × Value)} {name : String} {v : Value}
    (hv : v.isReadable = true) {c : Content} (unknown : ¬ c.Knows form ms name) :
    c.read ⟨.unlimited, form⟩ (.object ms) =
      c.read ⟨.unlimited, form⟩ (.object ((name, v) :: ms)) := by
  induction c with
  | record n => exact n.follows.read_congr (.of_unknown hv unknown)
  | nullable c ih => exact congrArg (Option.map some) (ih unknown)
  | access | contributionKind => exact absurd trivial unknown
  | _ => rfl

/-- Both values are read alike, and are alike null and readable. -/
structure ReadAlike (form : Form) (c : Content) (v w : Value) : Prop where
  read : c.read ⟨.unlimited, form⟩ v = c.read ⟨.unlimited, form⟩ w
  readable : v.isReadable = w.isReadable
  null : v = .null ↔ w = .null

namespace ReadAlike

variable {form : Form} {c : Content} {v w : Value}

theorem object {ms ms' : List (String × Value)}
    (read : c.read ⟨.unlimited, form⟩ (.object ms) = c.read ⟨.unlimited, form⟩ (.object ms'))
    (readable : Value.allMembersReadable ms = Value.allMembersReadable ms') :
    ReadAlike form c (.object ms) (.object ms') :=
  ⟨read, readable, by simp⟩

theorem record {n : Record} {ms ms' : List (String × Value)} (h : n.layout.Alike form ms ms') :
    ReadAlike form (.record n) (.object ms) (.object ms') :=
  .object (n.follows.read_congr h) h.readable

theorem name {n : Record} {vs : List Value} {ms : List (String × Value)}
    (h : n.layout.positioned form vs = some ms) (all : ms.length = vs.length) :
    ReadAlike form (.record n) (.list vs) (.object ms) where
  read := by
    show n.read ⟨.unlimited, form⟩ (.list vs) = _
    rw [n.follows.read_list, h, Option.bind_some]
    rfl
  readable := n.layout.allReadable_of_positioned h all
  null := by simp

theorem beyond {n : Record} {vs : List Value} {v : Value} (hv : v.isReadable = true)
    (h : n.layout.positioned form (vs ++ [v]) = n.layout.positioned form vs) :
    ReadAlike form (.record n) (.list vs) (.list (vs ++ [v])) where
  read := by
    show n.read ⟨.unlimited, form⟩ (.list vs) = n.read ⟨.unlimited, form⟩ (.list (vs ++ [v]))
    rw [n.follows.read_list, n.follows.read_list, h]
  readable := by
    rw [Value.isReadable, Value.isReadable, Value.allReadable_eq_all, Value.allReadable_eq_all,
      List.all_append, List.all_cons, hv, List.all_nil, Bool.and_self, Bool.and_true]
  null := by simp

theorem nullable (h : ReadAlike form c v w) : ReadAlike form (.nullable c) v w := by
  refine ⟨?_, h.readable, h.null⟩
  by_cases hv : v = .null
  · rw [hv, h.null.mp hv]
  · show Reader.nullable c.read _ v = Reader.nullable c.read _ w
    rw [nullable_of_ne_null hv, nullable_of_ne_null (h.null.not.mp hv), h.read]

theorem element (h : ReadAlike form c v w) (before after : List Value) :
    ReadAlike form (.list c) (.list (before ++ v :: after)) (.list (before ++ w :: after)) where
  read := list_replace h.read before after
  readable := by
    rw [Value.isReadable, Value.isReadable, Value.allReadable_eq_all, Value.allReadable_eq_all,
      List.all_append, List.all_append, List.all_cons, List.all_cons, h.readable]
  null := by simp

end ReadAlike

/-- By induction on the respelling. -/
theorem Respelled.readAlike {form : Form} {c : Content} {v w : Value}
    (h : Respelled form c v w) : ReadAlike form c v w := by
  induction h with
  | refl v => exact ⟨rfl, rfl, Iff.rfl⟩
  | symm _ ih => exact ⟨ih.read.symm, ih.readable.symm, ih.null.symm⟩
  | trans _ _ ih ih' =>
      exact ⟨ih.read.trans ih'.read, ih.readable.trans ih'.readable, ih.null.trans ih'.null⟩
  | @reorder form c _ _ h => exact ⟨h.read_eq form c, h.ofAKind.readable, h.ofAKind.null⟩
  | unknown hv h => exact .object (Content.read_unknown hv h) (allMembersReadable_cons hv).symm
  | @absent _ n _ _ _ _ hm ha hv read fresh =>
      exact .record (.of_absent n.follows hm hv (read.trans ha.symm) fresh)
  | @inside _ n _ _ _ _ _ hm _ ih =>
      exact .record (.of_inside n.follows hm ih.readable ih.read)
  | name h all => exact .name h all
  | beyond hv h => exact .beyond hv h
  | nullable _ ih => exact ih.nullable
  | element _ ih => exact ih.element _ _

namespace Facts

/-- Documents hold their facts faithfully: the facts written into a document are read from it, a
respelled document holds the same facts, and facts that are read are not changed by writing and
reading them again. -/
theorem read_faithful (form : Form) :
    (∀ f : Facts, Facts.read ⟨.unlimited, form⟩ f.write = some f) ∧
      (∀ v w : Value, Respelled form (.record .facts) v w →
        Facts.read ⟨.unlimited, form⟩ v = Facts.read ⟨.unlimited, form⟩ w) ∧
      ∀ (r : Reading) (v : Value) (f : Facts), Facts.read r v = some f →
        Facts.read ⟨.unlimited, form⟩ f.write = some f := by
  have read_write (f : Facts) : Facts.read ⟨.unlimited, form⟩ f.write = some f :=
    Facts.inverts.read_write (Reading.unlimited form) f
  exact ⟨read_write, fun v w h => h.readAlike.read, fun _ _ f _ => read_write f⟩

/-- A document that says only what it must, one with the members of its graph the other way round,
a member with its default and one that nobody knows, and one that tells the members of the graph and
of its key by their positions. -/
theorem read_faithful_app :
    let document (graph : Value) : Value := .object [("graphs", .list [graph])]
    let origin : Value := .object [("declaration", .text "App")]
    let key : Value := .object [("type", .text "App")]
    let plain := document (.object [("origin", origin), ("key", key)])
    let noted := document (.object
      [("note", .int 1), ("scopes", .list []), ("key", key), ("origin", origin)])
    let listed := document (.list [origin, .list [.text "App"]])
    let app : Facts := { graphs := [.ofKey ⟨"App", none⟩] }
    Respelled .json (.record .facts) plain noted ∧ Respelled .json (.record .facts) plain listed ∧
      Facts.read ⟨.unlimited, .json⟩ plain = some app ∧
      Facts.read ⟨.unlimited, .json⟩ noted = some app ∧
      Facts.read ⟨.unlimited, .json⟩ listed = some app ∧
      Facts.read ⟨.unlimited, .json⟩ app.write = some app := by
  intro document origin key plain noted listed app
  have inDocument {v w : Value} (h : Respelled .json (.record .graphDeclaration) v w) :
      Respelled .json (.record .facts) (document v) (document w) := by
    refine @Respelled.inside .json .facts [] []
      ⟨"graphs", .list (.record .graphDeclaration), some []⟩ _ _ ?_
      (@Respelled.element .json (.record .graphDeclaration) [] [] _ _ h)
    simp [Record.layout, Layout.members]
  have toNoted : Respelled .json (.record .facts) plain noted := by
    refine inDocument (.trans (.reorder (.object (.swap ("key", key) ("origin", origin) [])))
      (.trans (.absent (m := ⟨"scopes", .list .scope, some []⟩) ?_ rfl rfl rfl ?_)
        (.unknown rfl ?_)))
    · simp [Record.layout, Layout.members]
    · decide
    · simp [Content.Knows, Layout.known, Layout.tags, Record.layout, Layout.members]
  have toListed : Respelled .json (.record .facts) plain listed := by
    -- from the list by its names to the object, and there from the key's list to the key
    refine inDocument (.symm (.trans (.name rfl rfl)
      (@Respelled.inside .json .graphDeclaration [("origin", origin)] []
        ⟨"key", .record .typeKey, none⟩ _ _ ?_ (.name rfl rfl))))
    simp [Record.layout, Layout.members]
  have read : Facts.read ⟨.unlimited, .json⟩ plain = some app := rfl
  refine ⟨toNoted, toListed, read, ?_, ?_, (read_faithful .json).2.2 _ _ _ read⟩
  · rw [← (read_faithful .json).2.1 _ _ toNoted, read]
  · rw [← (read_faithful .json).2.1 _ _ toListed, read]

/-- The object that names an access may have no other member, known or not. -/
theorem read_wrapper_noted :
    let wrapped (access : List (String × Value)) : Value :=
      .object [("classes", .list [.object [("origin", .object [("declaration", .text "Mailer")]),
        ("key", .object [("type", .text "Mailer")]),
        ("members", .list [.object [("key", .object [("type", .text "Clock")]),
          ("wrapper", .object access)]])]])]
    (Facts.read ⟨.unlimited, .json⟩ (wrapped [("Provider", .null)])).isSome = true ∧
      Facts.read ⟨.unlimited, .json⟩ (wrapped [("Provider", .null), ("note", .int 1)]) = none := by
  exact ⟨rfl, rfl⟩

end Facts

end Wiring
