import Wiring.Proofs.Declarations
import Wiring.Proofs.Facts.Reading

/-!
# Facts read back what they were written from

The reader of each kind of facts inverts its writer, so the facts written into a document are those
read from it.
-/

namespace Wiring

open Reader Value

/-! ### Keys, origins, dependencies -/

theorem TypeKey.inverts : Inverts TypeKey.read TypeKey.write := by
  refine .object (fun k => ?_) (fun hr k => ?_) fun k => ?_
  all_goals
    obtain ⟨typeName, _ | qualifier⟩ := k
    all_goals simp [memberOf, Value.allMembersReadable, nullable]

theorem DeclarationId.inverts : Inverts DeclarationId.read DeclarationId.write :=
  inverts_text.map fun _ => rfl

theorem Scope.inverts : Inverts Scope.read Scope.write := inverts_text.map fun _ => rfl

theorem Location.inverts : Inverts Location.read Location.write := by
  refine .object (fun l => ?_) (fun hr l => ?_) fun l => ?_
  · simp
  · simp [inverts_uint32.read_write hr]
  · simp [Value.allMembersReadable, inverts_uint32.isReadable]

theorem Origin.inverts : Inverts Origin.read Origin.write := by
  refine .object (fun o => ?_) (fun hr o => ?_) fun o => ?_
  case _ => obtain ⟨_, _ | _, _ | _⟩ := o <;> simp [memberOf]
  case _ =>
    obtain ⟨_, _ | _, _ | _⟩ := o <;>
      simp [memberOf, DeclarationId.inverts.read_write hr, Location.inverts.nullable_write hr]
  case _ =>
    obtain ⟨_, _ | _, _ | _⟩ := o <;>
      simp [memberOf, Value.allMembersReadable, DeclarationId.inverts.isReadable,
        Location.inverts.isReadable]

theorem Access.inverts : Inverts (named Access.ofName?) fun a => .text a.name :=
  inverts_named fun a => by cases a <;> rfl

theorem Dependency.inverts : Inverts Dependency.read Dependency.write := by
  refine .object (fun d => ?_) (fun hr d => ?_) fun d => ?_
  · simp
  · simp [TypeKey.inverts.read_write hr, Access.inverts.read_write hr]
  · simp [Value.allMembersReadable, TypeKey.inverts.isReadable]

/-! ### Collections -/

theorem MapKey.inverts : Inverts MapKey.read MapKey.write :=
  .object (fun _ => by simp) (fun _ _ => by simp) fun _ => by simp [Value.allMembersReadable]

theorem Collection.inverts : Inverts Collection.read Collection.write := .tagged fun c => by
  cases c with
  | set element =>
      refine .intro (by simp) ?_ rfl rfl fun hr => ?_
      · simp [Value.allMembersReadable, TypeKey.inverts.isReadable]
      · simp [TypeKey.inverts.read_write hr]
  | map keyType value =>
      refine .intro (by simp) ?_ rfl rfl fun hr => ?_
      · simp [Value.allMembersReadable, TypeKey.inverts.isReadable]
      · simp [TypeKey.inverts.read_write hr]

theorem ElementKind.inverts : Inverts ElementKind.read ElementKind.write := .tagged fun k => by
  cases k with
  | intoSet | elementsIntoSet => exact .intro (by simp) rfl rfl rfl fun _ => rfl
  | intoMap mapKey =>
      refine .intro (by simp) ?_ rfl rfl fun hr => ?_
      · simp [Value.allMembersReadable, MapKey.inverts.isReadable]
      · simp [MapKey.inverts.read_write hr]

theorem Supply.inverts : Inverts Supply.read Supply.write := .tagged fun s => by
  cases s with
  | provided dependencies scope =>
      refine .intro (by simp) ?_ rfl rfl fun hr => ?_
      · simp [Value.allMembersReadable, Dependency.inverts.list.isReadable,
          Scope.inverts.isReadable_ofOption]
      · simp [Members.dependencies, Dependency.inverts.list.read_write hr,
          Scope.inverts.nullable hr]
  | binds target =>
      refine .intro (by simp) ?_ rfl rfl fun hr => ?_
      · simp [Value.allMembersReadable, TypeKey.inverts.isReadable]
      · simp [TypeKey.inverts.read_write hr]

theorem Element.inverts : Inverts Element.read Element.write := by
  refine .object (fun e => ?_) (fun hr e => ?_) fun e => ?_
  · simp
  · simp [Origin.inverts.read_write hr, Collection.inverts.read_write hr,
      ElementKind.inverts.read_write hr, Supply.inverts.read_write hr]
  · simp [Value.allMembersReadable, Origin.inverts.isReadable, Collection.inverts.isReadable,
      ElementKind.inverts.isReadable, Supply.inverts.isReadable]

theorem CollectionDeclaration.inverts :
    Inverts CollectionDeclaration.read CollectionDeclaration.write := by
  refine .object (fun c => ?_) (fun hr c => ?_) fun c => ?_
  · simp
  · simp [Origin.inverts.read_write hr, Collection.inverts.read_write hr]
  · simp [Value.allMembersReadable, Origin.inverts.isReadable, Collection.inverts.isReadable]

theorem Source.inverts : Inverts Source.read Source.write := by
  refine .object (fun s => ?_) (fun hr s => ?_) fun s => ?_
  case _ => obtain ⟨_, _, _ | _⟩ := s <;> simp [memberOf]
  case _ =>
    obtain ⟨_, _, _ | _⟩ := s <;>
      simp [memberOf, Origin.inverts.read_write hr, TypeKey.inverts.read_write hr,
        MapKey.inverts.nullable_write hr]
  case _ =>
    obtain ⟨_, _, _ | _⟩ := s <;>
      simp [memberOf, Value.allMembersReadable, Origin.inverts.isReadable,
        TypeKey.inverts.isReadable, MapKey.inverts.isReadable]

/-! ### Bindings -/

theorem AssistedParameter.inverts : Inverts AssistedParameter.read AssistedParameter.write := by
  refine .object (fun p => ?_) (fun hr p => ?_) fun p => ?_
  · simp
  · simp [TypeKey.inverts.read_write hr]
  · simp [Value.allMembersReadable, TypeKey.inverts.isReadable]

theorem Binding.nodup_names (b : Binding) : ((b.head ++ b.tail).map (·.1)).Nodup := by
  cases b <;> simp [head, tail]

theorem Binding.allMembersReadable (b : Binding) :
    Value.allMembersReadable (b.head ++ b.tail) = true := by
  cases b <;>
    simp [head, tail, Value.allMembersReadable, TypeKey.inverts.isReadable,
      Origin.inverts.isReadable, Dependency.inverts.isReadable, DeclarationId.inverts.isReadable,
      Collection.inverts.isReadable, Scope.inverts.isReadable_ofOption,
      inverts_text.isReadable_ofOption, Dependency.inverts.list.isReadable,
      Source.inverts.list.isReadable, AssistedParameter.inverts.list.isReadable]

theorem Binding.inverts : Inverts Binding.read Binding.write := .tagged fun b => by
  have names := b.nodup_names
  have readable := b.allMembersReadable
  cases b with
  | injected key origin scope dependencies | provided key origin scope dependencies =>
      refine .intro names readable rfl rfl fun hr => ?_
      simp [madeShape, head, tail, Binding.key, Binding.origin, Members.dependencies,
        TypeKey.inverts.read_write hr, Origin.inverts.read_write hr, Scope.inverts.nullable hr,
        Dependency.inverts.list.read_write hr]
  | aliased key origin target =>
      refine .intro names readable rfl rfl fun hr => ?_
      simp [head, tail, Binding.key, Binding.origin, TypeKey.inverts.read_write hr,
        Origin.inverts.read_write hr, Dependency.inverts.read_write hr]
  | multibinding key origin collection allowEmpty sources dependencies =>
      refine .intro names readable rfl rfl fun hr => ?_
      simp [head, tail, Binding.key, Binding.origin, TypeKey.inverts.read_write hr,
        Origin.inverts.read_write hr, Collection.inverts.read_write hr,
        Source.inverts.list.read_write hr, Dependency.inverts.list.read_write hr]
  | boundInstance key origin | absent key origin =>
      refine .intro names readable rfl rfl fun hr => ?_
      simp [bareShape, head, tail, Binding.key, Binding.origin, TypeKey.inverts.read_write hr,
        Origin.inverts.read_write hr]
  | graphAccessor key origin graph accessor fromParent =>
      refine .intro names readable rfl rfl fun hr => ?_
      simp [head, tail, Binding.key, Binding.origin, TypeKey.inverts.read_write hr,
        Origin.inverts.read_write hr, DeclarationId.inverts.read_write hr,
        inverts_text.nullable hr]
  | membersInjector key origin target dependencies =>
      refine .intro names readable rfl rfl fun hr => ?_
      simp [head, tail, Binding.key, Binding.origin, Members.dependencies,
        TypeKey.inverts.read_write hr, Origin.inverts.read_write hr,
        Dependency.inverts.list.read_write hr]
  | assisted key origin target parameters dependencies =>
      refine .intro names readable rfl rfl fun hr => ?_
      simp [head, tail, Binding.key, Binding.origin, Members.dependencies,
        TypeKey.inverts.read_write hr, Origin.inverts.read_write hr,
        AssistedParameter.inverts.list.read_write hr, Dependency.inverts.list.read_write hr]

/-! ### Classes and factories -/

theorem Parameter.inverts : Inverts Parameter.read Parameter.write := by
  refine .object (fun p => ?_) (fun hr p => ?_) fun p => ?_
  · simp
  · simp [Dependency.inverts.read_write hr]
  · simp [Value.allMembersReadable, Dependency.inverts.isReadable]

theorem Constructor.inverts : Inverts Constructor.read Constructor.write := by
  refine .object (fun c => ?_) (fun hr c => ?_) fun c => ?_
  · simp
  · simp [Parameter.inverts.list.read_write hr]
  · simp [Value.allMembersReadable, Parameter.inverts.list.isReadable]

theorem InjectableClass.inverts : Inverts InjectableClass.read InjectableClass.write := by
  refine .object (fun c => ?_) (fun hr c => ?_) fun c => ?_
  · simp
  · simp [Origin.inverts.read_write hr, TypeKey.inverts.read_write hr, Scope.inverts.nullable hr,
      Constructor.inverts.list.read_write hr, Dependency.inverts.list.read_write hr]
  · simp [Value.allMembersReadable, Origin.inverts.isReadable, TypeKey.inverts.isReadable,
      Scope.inverts.isReadable_ofOption, Constructor.inverts.list.isReadable,
      Dependency.inverts.list.isReadable]

theorem AssistedFactory.inverts : Inverts AssistedFactory.read AssistedFactory.write := by
  refine .object (fun f => ?_) (fun hr f => ?_) fun f => ?_
  · simp
  · simp [Origin.inverts.read_write hr, TypeKey.inverts.read_write hr]
  · simp [Value.allMembersReadable, Origin.inverts.isReadable, TypeKey.inverts.isReadable]

/-! ### Contributions -/

theorem ContributionKind.inverts :
    Inverts (named ContributionKind.ofName?) fun k => .text k.name :=
  inverts_named fun k => by cases k <;> rfl

theorem Contribution.inverts : Inverts Contribution.read Contribution.write := by
  refine .object (fun c => ?_) (fun hr c => ?_) fun c => ?_
  · simp
  · simp [Origin.inverts.read_write hr, Scope.inverts.read_write hr,
      ContributionKind.inverts.read_write hr, TypeKey.inverts.read_write hr,
      TypeKey.inverts.nullable hr, inverts_text.nullable hr, TypeKey.inverts.list.read_write hr,
      inverts_int32.nullable hr, DeclarationId.inverts.list.read_write hr,
      MapKey.inverts.nullable hr, Binding.inverts.list.read_write hr,
      CollectionDeclaration.inverts.list.read_write hr, Element.inverts.list.read_write hr]
  · simp [Value.allMembersReadable, Origin.inverts.isReadable, Scope.inverts.isReadable,
      TypeKey.inverts.isReadable, TypeKey.inverts.isReadable_ofOption,
      inverts_text.isReadable_ofOption, TypeKey.inverts.list.isReadable,
      inverts_int32.isReadable_ofOption, DeclarationId.inverts.list.isReadable,
      MapKey.inverts.isReadable_ofOption, Binding.inverts.list.isReadable,
      CollectionDeclaration.inverts.list.isReadable, Element.inverts.list.isReadable]

/-! ### Graphs -/

theorem EntryPoint.inverts : Inverts EntryPoint.read EntryPoint.write := .tagged fun e => by
  cases e with
  | accessor name dependency =>
      refine .intro (by simp) ?_ rfl rfl fun hr => ?_
      · simp [Value.allMembersReadable, Dependency.inverts.isReadable]
      · simp [Dependency.inverts.read_write hr]
  | injector name target =>
      refine .intro (by simp) ?_ rfl rfl fun hr => ?_
      · simp [Value.allMembersReadable, TypeKey.inverts.isReadable]
      · simp [TypeKey.inverts.read_write hr]

theorem ExposedAccessor.inverts : Inverts ExposedAccessor.read ExposedAccessor.write := by
  refine .object (fun a => ?_) (fun hr a => ?_) fun a => ?_
  · simp
  · simp [TypeKey.inverts.read_write hr]
  · simp [Value.allMembersReadable, TypeKey.inverts.isReadable]

theorem IncludedGraph.inverts : Inverts IncludedGraph.read IncludedGraph.write := by
  refine .object (fun i => ?_) (fun hr i => ?_) fun i => ?_
  · simp
  · simp [Origin.inverts.read_write hr, TypeKey.inverts.read_write hr,
      ExposedAccessor.inverts.list.read_write hr]
  · simp [Value.allMembersReadable, Origin.inverts.isReadable, TypeKey.inverts.isReadable,
      ExposedAccessor.inverts.list.isReadable]

theorem BoundInstance.inverts : Inverts BoundInstance.read BoundInstance.write := by
  refine .object (fun i => ?_) (fun hr i => ?_) fun i => ?_
  · simp
  · simp [Origin.inverts.read_write hr, TypeKey.inverts.read_write hr]
  · simp [Value.allMembersReadable, Origin.inverts.isReadable, TypeKey.inverts.isReadable]

namespace GraphDeclaration

theorem writeEach_eq : ∀ ds : List GraphDeclaration, writeEach ds = ds.map write
  | [] => by rw [writeEach, List.map_nil]
  | d :: rest => by rw [writeEach, writeEach_eq rest, List.map_cons]

/-- The members of what is written for a graph declaration. -/
def members (d : GraphDeclaration) : List (String × Value) :=
  [("origin", d.origin.write), ("key", d.key.write), ("scopes", .ofList Scope.write d.scopes),
    ("aggregation_scopes", .ofList Scope.write d.aggregationScopes),
    ("excludes", .ofList DeclarationId.write d.excludes),
    ("entry_points", .ofList EntryPoint.write d.entryPoints),
    ("bound_instances", .ofList BoundInstance.write d.boundInstances),
    ("includes", .ofList IncludedGraph.write d.includes),
    ("bindings", .ofList Binding.write d.bindings),
    ("multibinds", .ofList CollectionDeclaration.write d.collections),
    ("elements", .ofList Element.write d.elements), ("extensions", .ofList write d.extensions)]

theorem write_eq (d : GraphDeclaration) : d.write = .object d.members := by
  cases d
  simp only [write, members, writeEach_eq, ofList]

theorem readBody_members {r : Reading} (hr : r.Unlimited) (d : GraphDeclaration) :
    readBody ⟨r, d.members⟩ = some { d with extensions := [] } := by
  simp [readBody, members, Origin.inverts.read_write hr, TypeKey.inverts.read_write hr,
    Scope.inverts.list.read_write hr, DeclarationId.inverts.list.read_write hr,
    EntryPoint.inverts.list.read_write hr, BoundInstance.inverts.list.read_write hr,
    IncludedGraph.inverts.list.read_write hr, Binding.inverts.list.read_write hr,
    CollectionDeclaration.inverts.list.read_write hr, Element.inverts.list.read_write hr]

/-- By induction on the declaration: its extensions are read back. -/
theorem read_write {r : Reading} (hr : r.Unlimited) (d : GraphDeclaration) :
    read r d.write = some d := by
  induction d using GraphDeclaration.induction with
  | step d ih =>
      have names : (d.members.map (·.1)).Nodup := by simp [members]
      have extensions : Members.optional ⟨r, d.members⟩ "extensions" [] (Reader.list read) =
          some d.extensions := by
        simp [members, list_ofList hr ih]
      rw [write_eq, read_eq, object_eq hr names, readBody_members hr, Option.bind_some, extensions]
      cases d
      rfl

theorem isReadable_write (d : GraphDeclaration) : d.write.isReadable = true := by
  induction d using GraphDeclaration.induction with
  | step d ih =>
      rw [write_eq, isReadable]
      simp [members, Value.allMembersReadable, Origin.inverts.isReadable,
        TypeKey.inverts.isReadable, Scope.inverts.list.isReadable,
        DeclarationId.inverts.list.isReadable, EntryPoint.inverts.list.isReadable,
        BoundInstance.inverts.list.isReadable, IncludedGraph.inverts.list.isReadable,
        Binding.inverts.list.isReadable, CollectionDeclaration.inverts.list.isReadable,
        Element.inverts.list.isReadable, isReadable_ofList ih]

theorem inverts : Inverts read write :=
  ⟨read_write, isReadable_write, fun d h => by rw [write_eq] at h; cases h⟩

end GraphDeclaration

/-! ### Facts -/

/-- The facts read from the document that is written for them are the same facts. -/
theorem Facts.inverts : Inverts Facts.read Facts.write := by
  have write_eq (f : Facts) : f.write = .object
      [("classes", .ofList InjectableClass.write f.classes),
      ("assisted_factories", .ofList AssistedFactory.write f.assistedFactories),
      ("contributions", .ofList Contribution.write f.contributions),
      ("graphs", .ofList GraphDeclaration.write f.graphs)] := by
    rw [Facts.write, GraphDeclaration.writeEach_eq]
    rfl
  rw [funext write_eq]
  refine .object (fun f => ?_) (fun hr f => ?_) fun f => ?_
  · simp
  · simp [InjectableClass.inverts.list.read_write hr, AssistedFactory.inverts.list.read_write hr,
      Contribution.inverts.list.read_write hr, GraphDeclaration.inverts.list.read_write hr]
  · simp [Value.allMembersReadable, InjectableClass.inverts.list.isReadable,
      AssistedFactory.inverts.list.isReadable, Contribution.inverts.list.isReadable,
      GraphDeclaration.inverts.list.isReadable]

end Wiring
