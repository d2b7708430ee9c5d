import Wiring.Proofs.Facts.Reading

/-!
# The layout of documents of facts

The members that each kind of object has (`Record.layout`): their names, what stands as their
values, and what they stand for where they are left out.  An object of several shapes has a tag that
tells which members it has.

The readers keep to the layout (`Record.follows`): each knows the names of its members and no
others, and what it reads rests on what is read as the members.
-/

namespace Wiring

open Reader

/-! ### Kinds of objects and of values -/

/-- The kinds of objects in a document of facts. -/
inductive Record where
  | typeKey
  | location
  | origin
  | dependency
  | mapKey
  | collection
  | elementKind
  | supply
  | element
  | collectionDeclaration
  | source
  | assistedParameter
  | binding
  | parameter
  | constructor
  | injectableClass
  | assistedFactory
  | contribution
  | entryPoint
  | exposedAccessor
  | includedGraph
  | boundInstance
  | graphDeclaration
  | facts

namespace Record

/-- What an object stands for. -/
abbrev Carrier : Record → Type
  | typeKey => TypeKey
  | location => Location
  | origin => Origin
  | dependency => Dependency
  | mapKey => MapKey
  | collection => Collection
  | elementKind => ElementKind
  | supply => Supply
  | element => Element
  | collectionDeclaration => CollectionDeclaration
  | source => Source
  | assistedParameter => AssistedParameter
  | binding => Binding
  | parameter => Parameter
  | constructor => Constructor
  | injectableClass => InjectableClass
  | assistedFactory => AssistedFactory
  | contribution => Contribution
  | entryPoint => EntryPoint
  | exposedAccessor => ExposedAccessor
  | includedGraph => IncludedGraph
  | boundInstance => BoundInstance
  | graphDeclaration => GraphDeclaration
  | facts => Facts

def read : (n : Record) → Reader n.Carrier
  | typeKey => TypeKey.read
  | location => Location.read
  | origin => Origin.read
  | dependency => Dependency.read
  | mapKey => MapKey.read
  | collection => Collection.read
  | elementKind => ElementKind.read
  | supply => Supply.read
  | element => Element.read
  | collectionDeclaration => CollectionDeclaration.read
  | source => Source.read
  | assistedParameter => AssistedParameter.read
  | binding => Binding.read
  | parameter => Parameter.read
  | constructor => Constructor.read
  | injectableClass => InjectableClass.read
  | assistedFactory => AssistedFactory.read
  | contribution => Contribution.read
  | entryPoint => EntryPoint.read
  | exposedAccessor => ExposedAccessor.read
  | includedGraph => IncludedGraph.read
  | boundInstance => BoundInstance.read
  | graphDeclaration => GraphDeclaration.read
  | facts => Facts.read

end Record

/-- What stands as a value. -/
inductive Content where
  | text
  | bool
  | uint32
  | int32
  | declaration
  | scope
  | access
  | contributionKind
  | record (n : Record)
  /-- Such a value, or null for none. -/
  | nullable (c : Content)
  /-- A list of such values. -/
  | list (c : Content)

namespace Content

/-- What a value stands for. -/
abbrev Carrier : Content → Type
  | text => String
  | bool => Bool
  | uint32 => UInt32
  | int32 => Int32
  | declaration => DeclarationId
  | scope => Scope
  | access => Access
  | contributionKind => ContributionKind
  | record n => n.Carrier
  | nullable c => Option c.Carrier
  | list c => List c.Carrier

def read : (c : Content) → Reader c.Carrier
  | text => Reader.text
  | bool => Reader.bool
  | uint32 => Reader.uint32
  | int32 => Reader.int32
  | declaration => DeclarationId.read
  | scope => Scope.read
  | access => named Access.ofName?
  | contributionKind => named ContributionKind.ofName?
  | record n => n.read
  | nullable c => Reader.nullable c.read
  | list c => Reader.list c.read

end Content

/-! ### Members -/

/-- A member of an object. -/
structure Member where
  name : String
  content : Content
  /-- What it stands for where it is left out; a member without this must be there. -/
  absent : Option content.Carrier := none

/-- What is read as the member. -/
def Member.read (m : Member) (ms : Members) : Option m.content.Carrier :=
  match m.absent with
  | none => ms.required m.name m.content.read
  | some a => ms.optional m.name a m.content.read

/-- The members of an object. -/
inductive Layout where
  /-- All objects of the kind have these. -/
  | plain (members : List Member)
  /-- The value of the tag names the choice whose members the object has. -/
  | tagged (tag : String) (choices : List (String × List Member))

namespace Member

def dependencies : Member := ⟨"dependencies", .list (.record .dependency), some []⟩

/-- The members that every binding has. -/
def ofBinding : List Member := [⟨"key", .record .typeKey, none⟩, ⟨"origin", .record .origin, none⟩]

/-- The members of a binding that is made and perhaps kept. -/
def ofMade : List Member := ofBinding ++ [⟨"scope", .nullable .scope, some none⟩, dependencies]

end Member

namespace Record

/-- The members of the objects of each kind. -/
def layout : Record → Layout
  | typeKey => .plain [⟨"type", .text, none⟩, ⟨"qualifier", .nullable .text, some none⟩]
  | location => .plain
      [⟨"file", .text, none⟩, ⟨"line", .uint32, none⟩, ⟨"column", .uint32, some 0⟩]
  | origin => .plain
      [⟨"declaration", .declaration, none⟩,
        ⟨"location", .nullable (.record .location), some none⟩,
        ⟨"synthetic", .bool, some false⟩]
  | dependency => .plain
      [⟨"key", .record .typeKey, none⟩, ⟨"wrapper", .access, some .canonical⟩,
        ⟨"has_default", .bool, some false⟩]
  | mapKey => .plain [⟨"type", .text, none⟩, ⟨"value", .text, none⟩]
  | collection => .tagged "type"
      [("SET", [⟨"element", .record .typeKey, none⟩]),
        ("MAP", [⟨"key_type", .text, none⟩, ⟨"value", .record .typeKey, none⟩])]
  | elementKind => .tagged "type"
      [("IntoSet", []), ("ElementsIntoSet", []),
        ("IntoMap", [⟨"map_key", .record .mapKey, none⟩])]
  | supply => .tagged "type"
      [("Provided", [.dependencies, ⟨"scope", .nullable .scope, some none⟩]),
        ("Binds", [⟨"target", .record .typeKey, none⟩])]
  | element => .plain
      [⟨"origin", .record .origin, none⟩, ⟨"collection", .record .collection, none⟩,
        ⟨"kind", .record .elementKind, none⟩, ⟨"source", .record .supply, none⟩]
  | collectionDeclaration => .plain
      [⟨"origin", .record .origin, none⟩, ⟨"collection", .record .collection, none⟩,
        ⟨"allow_empty", .bool, some false⟩]
  | source => .plain
      [⟨"origin", .record .origin, none⟩, ⟨"element_key", .record .typeKey, none⟩,
        ⟨"map_key", .nullable (.record .mapKey), some none⟩]
  | assistedParameter => .plain [⟨"name", .text, none⟩, ⟨"key", .record .typeKey, none⟩]
  | binding => .tagged "kind"
      [("Injected", Member.ofMade),
        ("Provided", Member.ofMade),
        ("Alias", Member.ofBinding ++ [⟨"target", .record .dependency, none⟩]),
        ("Multibinding", Member.ofBinding ++
          [⟨"collection", .record .collection, none⟩, ⟨"allow_empty", .bool, none⟩,
            ⟨"sources", .list (.record .source), none⟩,
            ⟨"dependencies", .list (.record .dependency), none⟩]),
        ("BoundInstance", Member.ofBinding),
        ("GraphAccessor", Member.ofBinding ++
          [⟨"graph", .declaration, none⟩, ⟨"accessor", .nullable .text, some none⟩,
            ⟨"from_parent", .bool, some false⟩]),
        ("MembersInjector", Member.ofBinding ++
          [⟨"target", .record .typeKey, none⟩, .dependencies]),
        ("Assisted", Member.ofBinding ++
          [⟨"target", .record .typeKey, none⟩,
            ⟨"assisted", .list (.record .assistedParameter), some []⟩, .dependencies]),
        ("Absent", Member.ofBinding)]
  | parameter => .plain
      [⟨"name", .text, none⟩, ⟨"dependency", .record .dependency, none⟩,
        ⟨"assisted", .bool, some false⟩]
  | constructor => .plain
      [⟨"injectable", .bool, some false⟩, ⟨"parameters", .list (.record .parameter), some []⟩]
  | injectableClass => .plain
      [⟨"origin", .record .origin, none⟩, ⟨"key", .record .typeKey, none⟩,
        ⟨"scope", .nullable .scope, some none⟩,
        ⟨"constructors", .list (.record .constructor), some []⟩,
        ⟨"members", .list (.record .dependency), some []⟩]
  | assistedFactory => .plain
      [⟨"origin", .record .origin, none⟩, ⟨"key", .record .typeKey, none⟩,
        ⟨"target", .record .typeKey, none⟩]
  | contribution => .plain
      [⟨"origin", .record .origin, none⟩, ⟨"scope", .scope, none⟩,
        ⟨"kind", .contributionKind, none⟩, ⟨"contributed_type", .record .typeKey, none⟩,
        ⟨"bound_type", .nullable (.record .typeKey), some none⟩,
        ⟨"qualifier", .nullable .text, some none⟩,
        ⟨"supertypes", .list (.record .typeKey), some []⟩,
        ⟨"rank", .nullable .int32, some none⟩,
        ⟨"replaces", .list .declaration, some []⟩,
        ⟨"map_key", .nullable (.record .mapKey), some none⟩,
        ⟨"bindings", .list (.record .binding), some []⟩,
        ⟨"multibinds", .list (.record .collectionDeclaration), some []⟩,
        ⟨"elements", .list (.record .element), some []⟩]
  | entryPoint => .tagged "type"
      [("Accessor", [⟨"name", .text, none⟩, ⟨"dependency", .record .dependency, none⟩]),
        ("Injector", [⟨"name", .text, none⟩, ⟨"target", .record .typeKey, none⟩])]
  | exposedAccessor => .plain [⟨"name", .text, none⟩, ⟨"key", .record .typeKey, none⟩]
  | includedGraph => .plain
      [⟨"origin", .record .origin, none⟩, ⟨"key", .record .typeKey, none⟩,
        ⟨"accessors", .list (.record .exposedAccessor), some []⟩]
  | boundInstance => .plain [⟨"origin", .record .origin, none⟩, ⟨"key", .record .typeKey, none⟩]
  | graphDeclaration => .plain
      [⟨"origin", .record .origin, none⟩, ⟨"key", .record .typeKey, none⟩,
        ⟨"scopes", .list .scope, some []⟩, ⟨"aggregation_scopes", .list .scope, some []⟩,
        ⟨"excludes", .list .declaration, some []⟩,
        ⟨"entry_points", .list (.record .entryPoint), some []⟩,
        ⟨"bound_instances", .list (.record .boundInstance), some []⟩,
        ⟨"includes", .list (.record .includedGraph), some []⟩,
        ⟨"bindings", .list (.record .binding), some []⟩,
        ⟨"multibinds", .list (.record .collectionDeclaration), some []⟩,
        ⟨"elements", .list (.record .element), some []⟩,
        ⟨"extensions", .list (.record .graphDeclaration), some []⟩]
  | facts => .plain
      [⟨"classes", .list (.record .injectableClass), some []⟩,
        ⟨"assisted_factories", .list (.record .assistedFactory), some []⟩,
        ⟨"contributions", .list (.record .contribution), some []⟩,
        ⟨"graphs", .list (.record .graphDeclaration), some []⟩]

end Record

/-! ### Readers that keep to a layout -/

section

variable {α : Type}

/-- What the body reads rests on what is read as the members, and on nothing else. -/
def RestsOn (members : List Member) (body : Members → Option α) : Prop :=
  ∀ ms ms' : Members, (∀ m ∈ members, m.read ms = m.read ms') → body ms = body ms'

/-- The shape is that of a choice: it knows the members of the choice, and reads them. -/
structure Shape.Follows (tag : String) (s : Shape α) (choice : String × List Member) : Prop where
  name : s.name = choice.1
  known : s.known = choice.2.map (·.name)
  distinct : (tag :: choice.2.map (·.name)).Nodup
  rests : RestsOn choice.2 s.body

/-- The reader reads objects of the layout. -/
inductive Follows : Reader α → Layout → Prop
  | plain {known : List String} {body : Members → Option α} {members : List Member}
      (known_eq : known = members.map (·.name)) (distinct : known.Nodup)
      (rests : RestsOn members body) : Follows (object known body) (.plain members)
  | tagged {tag : String} {shapes : List (Shape α)} {choices : List (String × List Member)}
      (h : List.Forall₂ (Shape.Follows tag) shapes choices) :
      Follows (tagged tag shapes) (.tagged tag choices)

end

theorem Binding.follows_madeShape (name : String)
    (make : TypeKey → Origin → Option Scope → List Dependency → Binding) :
    (madeShape name make).Follows "kind" (name, Member.ofMade) := by
  refine ⟨rfl, rfl, ?_, fun ms ms' h => ?_⟩
  · show ("kind" :: Member.ofMade.map (·.name)).Nodup
    decide
  · simp only [Member.ofMade, Member.ofBinding, Member.dependencies, List.cons_append,
      List.nil_append, List.forall_mem_cons, Member.read, Content.read, Record.read] at h
    simp only [madeShape, Members.dependencies, h]

theorem Binding.follows_bareShape (name : String) (make : TypeKey → Origin → Binding) :
    (bareShape name make).Follows "kind" (name, Member.ofBinding) := by
  refine ⟨rfl, rfl, ?_, fun ms ms' h => ?_⟩
  · show ("kind" :: Member.ofBinding.map (·.name)).Nodup
    decide
  · simp only [Member.ofBinding, List.forall_mem_cons, Member.read, Content.read, Record.read] at h
    simp only [bareShape, h]

/-- The reader of each kind of object keeps to the layout of the kind. -/
theorem Record.follows (n : Record) : Follows n.read n.layout := by
  cases n with
  | collection | entryPoint =>
      refine .tagged (.cons ⟨rfl, rfl, by decide, fun ms ms' h => ?_⟩
        (.cons ⟨rfl, rfl, by decide, fun ms ms' h => ?_⟩ .nil))
      all_goals
        simp only [List.forall_mem_cons, Member.read, Content.read, Record.read] at h
        simp only [h]
  | elementKind =>
      refine .tagged (.cons ⟨rfl, rfl, by decide, fun _ _ _ => rfl⟩
        (.cons ⟨rfl, rfl, by decide, fun _ _ _ => rfl⟩
          (.cons ⟨rfl, rfl, by decide, fun ms ms' h => ?_⟩ .nil)))
      simp only [List.forall_mem_cons, Member.read, Content.read, Record.read] at h
      simp only [h]
  | supply =>
      refine .tagged (.cons ⟨rfl, rfl, by decide, fun ms ms' h => ?_⟩
        (.cons ⟨rfl, rfl, by decide, fun ms ms' h => ?_⟩ .nil))
      all_goals
        simp only [Member.dependencies, List.forall_mem_cons, Member.read, Content.read,
          Record.read] at h
        simp only [Members.dependencies, h]
  | binding =>
      refine .tagged (.cons (Binding.follows_madeShape ..) (.cons (Binding.follows_madeShape ..)
        (.cons ?aliased (.cons ?multibinding (.cons (Binding.follows_bareShape ..)
        (.cons ?graphAccessor (.cons ?membersInjector (.cons ?assisted
        (.cons (Binding.follows_bareShape ..) .nil)))))))))
      all_goals
        refine ⟨rfl, rfl, by decide, fun ms ms' h => ?_⟩
        simp only [Member.ofBinding, Member.dependencies, List.cons_append, List.nil_append,
          List.forall_mem_cons, Member.read, Content.read, Record.read] at h
        simp only [Members.dependencies, h]
  | graphDeclaration =>
      show Follows GraphDeclaration.read _
      rw [GraphDeclaration.read_eq]
      refine .plain ?_ ?_ fun ms ms' h => ?_
      · rfl
      · decide
      · simp only [List.forall_mem_cons, Member.read, Content.read, Record.read] at h
        simp only [GraphDeclaration.readBody, h]
  | _ =>
      simp only [Record.read]
      refine .plain ?_ ?_ fun ms ms' h => ?_
      · rfl
      · decide
      · simp only [List.forall_mem_cons, Member.read, Content.read, Record.read] at h
        simp only [h]

end Wiring
