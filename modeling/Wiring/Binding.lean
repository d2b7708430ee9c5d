import Wiring.Collection
import Wiring.Text.LowerCase

/-!
# Bindings

A binding says how the value of a key comes about.  The kinds are closed, and a binding refers to
others by key only.
-/

namespace Wiring

/-- A parameter that the caller of a factory supplies. -/
structure AssistedParameter where
  name : String
  key : TypeKey
deriving DecidableEq, Repr

/-- How the value of a key comes about. -/
inductive Binding where
  /-- A constructor makes the value. -/
  | injected (key : TypeKey) (origin : Origin) (scope : Option Scope)
      (dependencies : List Dependency)
  /-- A function makes the value. -/
  | provided (key : TypeKey) (origin : Origin) (scope : Option Scope)
      (dependencies : List Dependency)
  /-- The value is that of another key. -/
  | aliased (key : TypeKey) (origin : Origin) (target : Dependency)
  /-- The value collects elements. -/
  | multibinding (key : TypeKey) (origin : Origin) (collection : Collection) (allowEmpty : Bool)
      (sources : List Source) (dependencies : List Dependency)
  /-- The value is handed in when the graph is made. -/
  | boundInstance (key : TypeKey) (origin : Origin)
  /-- Another graph holds the value. -/
  | graphAccessor (key : TypeKey) (origin : Origin) (graph : DeclarationId)
      (accessor : Option String) (fromParent : Bool)
  /-- The value fills the members of an existing object. -/
  | membersInjector (key : TypeKey) (origin : Origin) (target : TypeKey)
      (dependencies : List Dependency)
  /-- The value is a factory whose caller supplies some parameters. -/
  | assisted (key : TypeKey) (origin : Origin) (target : TypeKey)
      (parameters : List AssistedParameter) (dependencies : List Dependency)
  /-- There is no value, and every requester has a default. -/
  | absent (key : TypeKey) (origin : Origin)
deriving DecidableEq, Repr

/-- The kinds of bindings. -/
inductive BindingKind where
  | injected
  | provided
  | aliased
  | multibinding
  | boundInstance
  | graphAccessor
  | membersInjector
  | assisted
  | absent
deriving DecidableEq, Repr

/-- The name of a kind. -/
def BindingKind.name : BindingKind → String
  | injected => "Injected"
  | provided => "Provided"
  | aliased => "Alias"
  | multibinding => "Multibinding"
  | boundInstance => "BoundInstance"
  | graphAccessor => "GraphAccessor"
  | membersInjector => "MembersInjector"
  | assisted => "Assisted"
  | absent => "Absent"

namespace Binding

def key : Binding → TypeKey
  | injected k .. | provided k .. | aliased k .. | multibinding k .. | boundInstance k _
  | graphAccessor k .. | membersInjector k .. | assisted k .. | absent k _ => k

/-- The declaration behind the binding. -/
def origin : Binding → Origin
  | injected _ o .. | provided _ o .. | aliased _ o _ | multibinding _ o .. | boundInstance _ o
  | graphAccessor _ o .. | membersInjector _ o .. | assisted _ o .. | absent _ o => o

/-- The scope that keeps the value, for a value that is made and kept. -/
def scope? : Binding → Option Scope
  | injected _ _ s _ | provided _ _ s _ => s
  | _ => none

/-- Whether a scope keeps the value. -/
def isScoped (b : Binding) : Bool := b.scope?.isSome

/-- The binding kept by a scope; only a value that is made can be kept. -/
def keptBy (b : Binding) (scope : Scope) : Binding :=
  match b with
  | injected k o _ ds => injected k o (some scope) ds
  | provided k o _ ds => provided k o (some scope) ds
  | other => other

/-- What the graph has to resolve for the binding. -/
def dependencies : Binding → List Dependency
  | injected _ _ _ ds | provided _ _ _ ds | multibinding _ _ _ _ _ ds | membersInjector _ _ _ ds
  | assisted _ _ _ _ ds => ds
  | aliased _ _ target => [target]
  | boundInstance .. | graphAccessor .. | absent .. => []

/-- The kind of the binding. -/
def kind : Binding → BindingKind
  | injected .. => .injected
  | provided .. => .provided
  | aliased .. => .aliased
  | multibinding .. => .multibinding
  | boundInstance .. => .boundInstance
  | graphAccessor .. => .graphAccessor
  | membersInjector .. => .membersInjector
  | assisted .. => .assisted
  | absent .. => .absent

/-- The key an alias stands for. -/
def aliasTarget? : Binding → Option TypeKey
  | aliased _ _ target => some target.key
  | _ => none

/-- Whether the binding is an alias. -/
def isAlias : Binding → Bool
  | aliased .. => true
  | _ => false

/-- Whether the binding stands for a missing value. -/
def isAbsent : Binding → Bool
  | absent .. => true
  | _ => false

/-- A name for the value in generated code. -/
def nameHint : Binding → String
  | multibinding _ _ (.set element) .. => "setOf" ++ element.shortName
  | multibinding _ _ (.map _ value) .. => "mapOf" ++ value.shortName
  | membersInjector _ _ target _ => lowerFirst target.shortName ++ "MembersInjector"
  | assisted _ _ target .. => lowerFirst target.shortName ++ "Factory"
  | b => lowerFirst b.key.shortName

/-- The kind and the key, with scope or target. -/
def render (b : Binding) : String :=
  let scope := match b.scope? with
    | some s => " " ++ s.render
    | none => ""
  let target := match b.aliasTarget? with
    | some k => " -> " ++ k.render
    | none => ""
  b.kind.name ++ " " ++ b.key.render ++ scope ++ target

end Binding

/-- The binding that fills an element's slot. -/
def Element.toBinding (e : Element) : Binding :=
  match e.supply with
  | .provided dependencies scope => .provided e.elementKey e.origin scope dependencies
  | .binds target => .aliased e.elementKey e.origin { key := target }

end Wiring
