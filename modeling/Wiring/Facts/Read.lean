import Wiring.Document
import Wiring.Facts

/-!
# Reading facts

The facts that a document holds.  Members may stand in any order, unknown ones are passed over, and
those with a default may be left out; a document that leaves a required member out, writes one
twice, or gives one a value of the wrong kind holds no facts.  A list may stand for an object: its
elements are then the members, in the order in which the readers name them.
-/

namespace Wiring

open Reader

def TypeKey.read : Reader TypeKey := object ["type", "qualifier"] fun m => do
  let typeName ← m.required "type" text
  let qualifier ← m.optional "qualifier" none (nullable text)
  return { typeName, qualifier }

/-- The name of a declaration. -/
def DeclarationId.read : Reader DeclarationId := text.map .mk

def Scope.read : Reader Scope := text.map .mk

/-- A place in a source file. -/
def Location.read : Reader Location := object ["file", "line", "column"] fun m => do
  let file ← m.required "file" text
  let line ← m.required "line" uint32
  let column ← m.optional "column" 0 uint32
  return { file, line, column }

def Origin.read : Reader Origin := object ["declaration", "location", "synthetic"] fun m => do
  let declaration ← m.required "declaration" DeclarationId.read
  let location ← m.optional "location" none (nullable Location.read)
  let synthetic ← m.optional "synthetic" false bool
  return { declaration, location, synthetic }

/-- The access of a name. -/
def Access.ofName? : String → Option Access
  | "Canonical" => some .canonical
  | "Provider" => some .provider
  | "Lazy" => some .lazy
  | "ProviderOfLazy" => some .providerOfLazy
  | _ => none

def Dependency.read : Reader Dependency := object ["key", "wrapper", "has_default"] fun m => do
  let key ← m.required "key" TypeKey.read
  let access ← m.optional "wrapper" .canonical (named Access.ofName?)
  let hasDefault ← m.optional "has_default" false bool
  return { key, access, hasDefault }

/-- A list of dependencies that may be left out. -/
def Members.dependencies (m : Members) : Option (List Dependency) :=
  m.optional "dependencies" [] (list Dependency.read)

/-- The key of an entry of a map. -/
def MapKey.read : Reader MapKey := object ["type", "value"] fun m => do
  let typeName ← m.required "type" text
  let value ← m.required "value" text
  return { typeName, value }

/-- The shape of a collection. -/
def Collection.read : Reader Collection := tagged "type"
  [⟨"SET", ["element"], fun m => do
      let element ← m.required "element" TypeKey.read
      return .set element⟩,
    ⟨"MAP", ["key_type", "value"], fun m => do
      let keyType ← m.required "key_type" text
      let value ← m.required "value" TypeKey.read
      return .map keyType value⟩]

/-- What an element adds. -/
def ElementKind.read : Reader ElementKind := tagged "type"
  [⟨"IntoSet", [], fun _ => some .intoSet⟩,
    ⟨"ElementsIntoSet", [], fun _ => some .elementsIntoSet⟩,
    ⟨"IntoMap", ["map_key"], fun m => do
      let mapKey ← m.required "map_key" MapKey.read
      return .intoMap mapKey⟩]

/-- Where the value of an element comes from. -/
def Supply.read : Reader Supply := tagged "type"
  [⟨"Provided", ["dependencies", "scope"], fun m => do
      let dependencies ← m.dependencies
      let scope ← m.optional "scope" none (nullable Scope.read)
      return .provided dependencies scope⟩,
    ⟨"Binds", ["target"], fun m => do
      let target ← m.required "target" TypeKey.read
      return .binds target⟩]

def Element.read : Reader Element := object ["origin", "collection", "kind", "source"] fun m => do
  let origin ← m.required "origin" Origin.read
  let collection ← m.required "collection" Collection.read
  let kind ← m.required "kind" ElementKind.read
  let supply ← m.required "source" Supply.read
  return { origin, collection, kind, supply }

/-- A declaration of a collection. -/
def CollectionDeclaration.read : Reader CollectionDeclaration :=
  object ["origin", "collection", "allow_empty"] fun m => do
    let origin ← m.required "origin" Origin.read
    let collection ← m.required "collection" Collection.read
    let allowEmpty ← m.optional "allow_empty" false bool
    return { origin, collection, allowEmpty }

/-- A source of a collection. -/
def Source.read : Reader Source := object ["origin", "element_key", "map_key"] fun m => do
  let origin ← m.required "origin" Origin.read
  let elementKey ← m.required "element_key" TypeKey.read
  let mapKey ← m.optional "map_key" none (nullable MapKey.read)
  return { origin, elementKey, mapKey }

/-- A parameter that a caller supplies. -/
def AssistedParameter.read : Reader AssistedParameter := object ["name", "key"] fun m => do
  let name ← m.required "name" text
  let key ← m.required "key" TypeKey.read
  return { name, key }

/-- A binding that is made and perhaps kept. -/
def Binding.madeShape (name : String)
    (make : TypeKey → Origin → Option Scope → List Dependency → Binding) : Shape Binding :=
  ⟨name, ["key", "origin", "scope", "dependencies"], fun m => do
    let key ← m.required "key" TypeKey.read
    let origin ← m.required "origin" Origin.read
    let scope ← m.optional "scope" none (nullable Scope.read)
    let dependencies ← m.dependencies
    return make key origin scope dependencies⟩

/-- A binding that has nothing but its key and origin. -/
def Binding.bareShape (name : String) (make : TypeKey → Origin → Binding) : Shape Binding :=
  ⟨name, ["key", "origin"], fun m => do
    let key ← m.required "key" TypeKey.read
    let origin ← m.required "origin" Origin.read
    return make key origin⟩

/-- The shapes of bindings. -/
def Binding.shapes : List (Shape Binding) :=
  [madeShape "Injected" .injected,
    madeShape "Provided" .provided,
    ⟨"Alias", ["key", "origin", "target"], fun m => do
      let key ← m.required "key" TypeKey.read
      let origin ← m.required "origin" Origin.read
      let target ← m.required "target" Dependency.read
      return .aliased key origin target⟩,
    ⟨"Multibinding", ["key", "origin", "collection", "allow_empty", "sources", "dependencies"],
      fun m => do
        let key ← m.required "key" TypeKey.read
        let origin ← m.required "origin" Origin.read
        let collection ← m.required "collection" Collection.read
        let allowEmpty ← m.required "allow_empty" bool
        let sources ← m.required "sources" (list Source.read)
        let dependencies ← m.required "dependencies" (list Dependency.read)
        return .multibinding key origin collection allowEmpty sources dependencies⟩,
    bareShape "BoundInstance" .boundInstance,
    ⟨"GraphAccessor", ["key", "origin", "graph", "accessor", "from_parent"], fun m => do
      let key ← m.required "key" TypeKey.read
      let origin ← m.required "origin" Origin.read
      let graph ← m.required "graph" DeclarationId.read
      let accessor ← m.optional "accessor" none (nullable text)
      let fromParent ← m.optional "from_parent" false bool
      return .graphAccessor key origin graph accessor fromParent⟩,
    ⟨"MembersInjector", ["key", "origin", "target", "dependencies"], fun m => do
      let key ← m.required "key" TypeKey.read
      let origin ← m.required "origin" Origin.read
      let target ← m.required "target" TypeKey.read
      let dependencies ← m.dependencies
      return .membersInjector key origin target dependencies⟩,
    ⟨"Assisted", ["key", "origin", "target", "assisted", "dependencies"], fun m => do
      let key ← m.required "key" TypeKey.read
      let origin ← m.required "origin" Origin.read
      let target ← m.required "target" TypeKey.read
      let parameters ← m.optional "assisted" [] (list AssistedParameter.read)
      let dependencies ← m.dependencies
      return .assisted key origin target parameters dependencies⟩,
    bareShape "Absent" .absent]

def Binding.read : Reader Binding := tagged "kind" shapes

/-- A parameter of a constructor. -/
def Parameter.read : Reader Parameter := object ["name", "dependency", "assisted"] fun m => do
  let name ← m.required "name" text
  let dependency ← m.required "dependency" Dependency.read
  let assisted ← m.optional "assisted" false bool
  return { name, dependency, assisted }

def Constructor.read : Reader Constructor := object ["injectable", "parameters"] fun m => do
  let injectable ← m.optional "injectable" false bool
  let parameters ← m.optional "parameters" [] (list Parameter.read)
  return { injectable, parameters }

def InjectableClass.read : Reader InjectableClass :=
  object ["origin", "key", "scope", "constructors", "members"] fun m => do
    let origin ← m.required "origin" Origin.read
    let key ← m.required "key" TypeKey.read
    let scope ← m.optional "scope" none (nullable Scope.read)
    let constructors ← m.optional "constructors" [] (list Constructor.read)
    let members ← m.optional "members" [] (list Dependency.read)
    return { origin, key, scope, constructors, members }

def AssistedFactory.read : Reader AssistedFactory := object ["origin", "key", "target"] fun m => do
  let origin ← m.required "origin" Origin.read
  let key ← m.required "key" TypeKey.read
  let target ← m.required "target" TypeKey.read
  return { origin, key, target }

/-- The kind of contributions of a name. -/
def ContributionKind.ofName? : String → Option ContributionKind
  | "ContributesTo" => some .container
  | "ContributesBinding" => some .binding
  | "ContributesIntoSet" => some .intoSet
  | "ContributesIntoMap" => some .intoMap
  | _ => none

def Contribution.read : Reader Contribution :=
  object ["origin", "scope", "kind", "contributed_type", "bound_type", "qualifier", "supertypes",
      "rank", "replaces", "map_key", "bindings", "multibinds", "elements"] fun m => do
    let origin ← m.required "origin" Origin.read
    let scope ← m.required "scope" Scope.read
    let kind ← m.required "kind" (named ContributionKind.ofName?)
    let contributedType ← m.required "contributed_type" TypeKey.read
    let boundType ← m.optional "bound_type" none (nullable TypeKey.read)
    let qualifier ← m.optional "qualifier" none (nullable text)
    let supertypes ← m.optional "supertypes" [] (list TypeKey.read)
    let rank ← m.optional "rank" none (nullable int32)
    let replaces ← m.optional "replaces" [] (list DeclarationId.read)
    let mapKey ← m.optional "map_key" none (nullable MapKey.read)
    let bindings ← m.optional "bindings" [] (list Binding.read)
    let collections ← m.optional "multibinds" [] (list CollectionDeclaration.read)
    let elements ← m.optional "elements" [] (list Element.read)
    return { origin, scope, kind, contributedType, boundType, qualifier, supertypes, rank, replaces,
             mapKey, bindings, collections, elements }

def EntryPoint.read : Reader EntryPoint := tagged "type"
  [⟨"Accessor", ["name", "dependency"], fun m => do
      let name ← m.required "name" text
      let dependency ← m.required "dependency" Dependency.read
      return .accessor name dependency⟩,
    ⟨"Injector", ["name", "target"], fun m => do
      let name ← m.required "name" text
      let target ← m.required "target" TypeKey.read
      return .injector name target⟩]

/-- An accessor of an included graph. -/
def ExposedAccessor.read : Reader ExposedAccessor := object ["name", "key"] fun m => do
  let name ← m.required "name" text
  let key ← m.required "key" TypeKey.read
  return { name, key }

def IncludedGraph.read : Reader IncludedGraph := object ["origin", "key", "accessors"] fun m => do
  let origin ← m.required "origin" Origin.read
  let key ← m.required "key" TypeKey.read
  let accessors ← m.optional "accessors" [] (list ExposedAccessor.read)
  return { origin, key, accessors }

/-- An instance handed in. -/
def BoundInstance.read : Reader BoundInstance := object ["origin", "key"] fun m => do
  let origin ← m.required "origin" Origin.read
  let key ← m.required "key" TypeKey.read
  return { origin, key }

namespace GraphDeclaration

/-- The members of a graph declaration. -/
def memberNames : List String :=
  ["origin", "key", "scopes", "aggregation_scopes", "excludes", "entry_points", "bound_instances",
    "includes", "bindings", "multibinds", "elements", "extensions"]

/-- A graph declaration without the graphs that extend it. -/
def readBody (m : Members) : Option GraphDeclaration := do
  let origin ← m.required "origin" Origin.read
  let key ← m.required "key" TypeKey.read
  let scopes ← m.optional "scopes" [] (list Scope.read)
  let aggregationScopes ← m.optional "aggregation_scopes" [] (list Scope.read)
  let excludes ← m.optional "excludes" [] (list DeclarationId.read)
  let entryPoints ← m.optional "entry_points" [] (list EntryPoint.read)
  let boundInstances ← m.optional "bound_instances" [] (list BoundInstance.read)
  let includes ← m.optional "includes" [] (list IncludedGraph.read)
  let bindings ← m.optional "bindings" [] (list Binding.read)
  let collections ← m.optional "multibinds" [] (list CollectionDeclaration.read)
  let elements ← m.optional "elements" [] (list Element.read)
  return { origin, key, scopes, aggregationScopes, excludes, entryPoints, boundInstances, includes,
           bindings, collections, elements }

mutual

def read (r : Reading) : Value → Option GraphDeclaration
  | .object members => r.enter.bind fun inside =>
      if noneRepeated memberNames members then
        (readBody ⟨inside, members⟩).bind fun body =>
          (readExtensions inside members).map fun extensions => { body with extensions }
      else none
  | .list values => r.enter.bind fun inside =>
      (positioned inside.form memberNames values).bind fun members =>
        (readBody ⟨inside, members⟩).bind fun body =>
          (readExtensionsAt inside memberNames values).map fun extensions =>
            { body with extensions }
  | _ => none

/-- The graphs that extend a graph, from its members. -/
def readExtensions (r : Reading) : List (String × Value) → Option (List GraphDeclaration)
  | [] => some []
  | (name, v) :: rest => if name = "extensions" then readList r v else readExtensions r rest

/-- The graphs that extend a graph, from its members by their positions. -/
def readExtensionsAt (r : Reading) : List String → List Value → Option (List GraphDeclaration)
  | name :: names, v :: rest =>
      if name = "extensions" then readList r v else readExtensionsAt r names rest
  | _, _ => some []

/-- A list of graph declarations. -/
def readList (r : Reading) : Value → Option (List GraphDeclaration)
  | .list values => r.enter.bind fun inside => readEach inside values
  | _ => none

/-- Each of several graph declarations. -/
def readEach (r : Reading) : List Value → Option (List GraphDeclaration)
  | [] => some []
  | v :: rest => (read r v).bind fun d => (readEach r rest).map (d :: ·)

end

end GraphDeclaration

/-- The facts of a document. -/
def Facts.read : Reader Facts :=
  object ["classes", "assisted_factories", "contributions", "graphs"] fun m => do
    let classes ← m.optional "classes" [] (list InjectableClass.read)
    let assistedFactories ← m.optional "assisted_factories" [] (list AssistedFactory.read)
    let contributions ← m.optional "contributions" [] (list Contribution.read)
    let graphs ← m.optional "graphs" [] (list GraphDeclaration.read)
    return { classes, assistedFactories, contributions, graphs }

end Wiring
