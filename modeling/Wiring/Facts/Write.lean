import Wiring.Document
import Wiring.Facts

/-!
# Writing facts

The document of given facts.  Every member is written, defaults included, except a qualifier, a
location, a map key of a source and the mark of a made-up origin where there are none.
-/

namespace Wiring

open Value

def TypeKey.write (k : TypeKey) : Value :=
  .object (("type", .text k.typeName) :: memberOf "qualifier" .text k.qualifier)

/-- The name of a declaration. -/
def DeclarationId.write (d : DeclarationId) : Value := .text d.name

def Scope.write (s : Scope) : Value := .text s.name

/-- A place in a source file. -/
def Location.write (l : Location) : Value :=
  .object [("file", .text l.file), ("line", .ofNat l.line.toNat), ("column", .ofNat l.column.toNat)]

def Origin.write (o : Origin) : Value :=
  .object (("declaration", o.declaration.write) :: memberOf "location" Location.write o.location ++
    if o.synthetic then [("synthetic", .bool true)] else [])

/-- The name of an access. -/
def Access.name : Access → String
  | canonical => "Canonical"
  | provider => "Provider"
  | lazy => "Lazy"
  | providerOfLazy => "ProviderOfLazy"

def Dependency.write (d : Dependency) : Value :=
  .object [("key", d.key.write), ("wrapper", .text d.access.name),
    ("has_default", .bool d.hasDefault)]

/-- The key of an entry of a map. -/
def MapKey.write (k : MapKey) : Value :=
  .object [("type", .text k.typeName), ("value", .text k.value)]

/-- The shape of a collection. -/
def Collection.write : Collection → Value
  | set element => .object [("type", .text "SET"), ("element", element.write)]
  | map keyType value =>
      .object [("type", .text "MAP"), ("key_type", .text keyType), ("value", value.write)]

/-- What an element adds. -/
def ElementKind.write : ElementKind → Value
  | intoSet => .object [("type", .text "IntoSet")]
  | elementsIntoSet => .object [("type", .text "ElementsIntoSet")]
  | intoMap mapKey => .object [("type", .text "IntoMap"), ("map_key", mapKey.write)]

/-- Where the value of an element comes from. -/
def Supply.write : Supply → Value
  | provided dependencies scope =>
      .object [("type", .text "Provided"), ("dependencies", .ofList Dependency.write dependencies),
        ("scope", .ofOption Scope.write scope)]
  | binds target => .object [("type", .text "Binds"), ("target", target.write)]

def Element.write (e : Element) : Value :=
  .object [("origin", e.origin.write), ("collection", e.collection.write), ("kind", e.kind.write),
    ("source", e.supply.write)]

/-- A declaration of a collection. -/
def CollectionDeclaration.write (c : CollectionDeclaration) : Value :=
  .object [("origin", c.origin.write), ("collection", c.collection.write),
    ("allow_empty", .bool c.allowEmpty)]

/-- A source of a collection. -/
def Source.write (s : Source) : Value :=
  .object ([("origin", s.origin.write), ("element_key", s.elementKey.write)] ++
    memberOf "map_key" MapKey.write s.mapKey)

/-- A parameter that a caller supplies. -/
def AssistedParameter.write (p : AssistedParameter) : Value :=
  .object [("name", .text p.name), ("key", p.key.write)]

/-- The members that every binding has. -/
def Binding.head (b : Binding) : List (String × Value) :=
  [("kind", .text b.kind.name), ("key", b.key.write), ("origin", b.origin.write)]

/-- The members that a binding has beside those that every binding has. -/
def Binding.tail : Binding → List (String × Value)
  | injected _ _ scope dependencies | provided _ _ scope dependencies =>
      [("scope", .ofOption Scope.write scope),
        ("dependencies", .ofList Dependency.write dependencies)]
  | aliased _ _ target => [("target", target.write)]
  | multibinding _ _ collection allowEmpty sources dependencies =>
      [("collection", collection.write), ("allow_empty", .bool allowEmpty),
        ("sources", .ofList Source.write sources),
        ("dependencies", .ofList Dependency.write dependencies)]
  | boundInstance _ _ | absent _ _ => []
  | graphAccessor _ _ graph accessor fromParent =>
      [("graph", graph.write), ("accessor", .ofOption .text accessor),
        ("from_parent", .bool fromParent)]
  | membersInjector _ _ target dependencies =>
      [("target", target.write), ("dependencies", .ofList Dependency.write dependencies)]
  | assisted _ _ target parameters dependencies =>
      [("target", target.write), ("assisted", .ofList AssistedParameter.write parameters),
        ("dependencies", .ofList Dependency.write dependencies)]

def Binding.write (b : Binding) : Value := .object (b.head ++ b.tail)

/-- A parameter of a constructor. -/
def Parameter.write (p : Parameter) : Value :=
  .object [("name", .text p.name), ("dependency", p.dependency.write),
    ("assisted", .bool p.assisted)]

def Constructor.write (c : Constructor) : Value :=
  .object [("injectable", .bool c.injectable), ("parameters", .ofList Parameter.write c.parameters)]

def InjectableClass.write (c : InjectableClass) : Value :=
  .object [("origin", c.origin.write), ("key", c.key.write),
    ("scope", .ofOption Scope.write c.scope),
    ("constructors", .ofList Constructor.write c.constructors),
    ("members", .ofList Dependency.write c.members)]

def AssistedFactory.write (f : AssistedFactory) : Value :=
  .object [("origin", f.origin.write), ("key", f.key.write), ("target", f.target.write)]

/-- The name of a kind of contributions. -/
def ContributionKind.name : ContributionKind → String
  | container => "ContributesTo"
  | binding => "ContributesBinding"
  | intoSet => "ContributesIntoSet"
  | intoMap => "ContributesIntoMap"

def Contribution.write (c : Contribution) : Value :=
  .object [("origin", c.origin.write), ("scope", c.scope.write), ("kind", .text c.kind.name),
    ("contributed_type", c.contributedType.write),
    ("bound_type", .ofOption TypeKey.write c.boundType),
    ("qualifier", .ofOption .text c.qualifier),
    ("supertypes", .ofList TypeKey.write c.supertypes),
    ("rank", .ofOption (fun r => .int r.toInt) c.rank),
    ("replaces", .ofList DeclarationId.write c.replaces),
    ("map_key", .ofOption MapKey.write c.mapKey),
    ("bindings", .ofList Binding.write c.bindings),
    ("multibinds", .ofList CollectionDeclaration.write c.collections),
    ("elements", .ofList Element.write c.elements)]

def EntryPoint.write : EntryPoint → Value
  | accessor name dependency =>
      .object [("type", .text "Accessor"), ("name", .text name), ("dependency", dependency.write)]
  | injector name target =>
      .object [("type", .text "Injector"), ("name", .text name), ("target", target.write)]

/-- An accessor of an included graph. -/
def ExposedAccessor.write (a : ExposedAccessor) : Value :=
  .object [("name", .text a.name), ("key", a.key.write)]

def IncludedGraph.write (i : IncludedGraph) : Value :=
  .object [("origin", i.origin.write), ("key", i.key.write),
    ("accessors", .ofList ExposedAccessor.write i.accessors)]

/-- An instance handed in. -/
def BoundInstance.write (i : BoundInstance) : Value :=
  .object [("origin", i.origin.write), ("key", i.key.write)]

namespace GraphDeclaration

mutual

def write : GraphDeclaration → Value
  | ⟨origin, key, scopes, aggregationScopes, excludes, entryPoints, boundInstances, includes,
      bindings, collections, elements, extensions⟩ =>
      .object [("origin", origin.write), ("key", key.write), ("scopes", .ofList Scope.write scopes),
        ("aggregation_scopes", .ofList Scope.write aggregationScopes),
        ("excludes", .ofList DeclarationId.write excludes),
        ("entry_points", .ofList EntryPoint.write entryPoints),
        ("bound_instances", .ofList BoundInstance.write boundInstances),
        ("includes", .ofList IncludedGraph.write includes),
        ("bindings", .ofList Binding.write bindings),
        ("multibinds", .ofList CollectionDeclaration.write collections),
        ("elements", .ofList Element.write elements), ("extensions", .list (writeEach extensions))]

/-- Each of several graph declarations. -/
def writeEach : List GraphDeclaration → List Value
  | [] => []
  | d :: rest => d.write :: writeEach rest

end

end GraphDeclaration

/-- The document of given facts. -/
def Facts.write (f : Facts) : Value :=
  .object [("classes", .ofList InjectableClass.write f.classes),
    ("assisted_factories", .ofList AssistedFactory.write f.assistedFactories),
    ("contributions", .ofList Contribution.write f.contributions),
    ("graphs", .list (GraphDeclaration.writeEach f.graphs))]

end Wiring
