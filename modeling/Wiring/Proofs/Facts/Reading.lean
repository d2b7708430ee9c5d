import Mathlib.Data.List.Nodup
import Wiring.Facts.Read
import Wiring.Facts.Write

/-!
# Readers and writers

A reader inverts a writer if it reads back all that is written, however deep that is nested
(`Inverts`).  Each way of building readers keeps this: lists, names, objects, and objects whose
shape is told by a tag.

The reader of graph declarations is written out, since their extensions are graph declarations
again; it is an object reader like the others (`GraphDeclaration.read_eq`).
-/

namespace Wiring

/-- Values may be nested as deep as they like. -/
def Reading.Unlimited (r : Reading) : Prop := r.nesting = .unlimited

@[simp] theorem Value.isReadable_text (s : String) : (Value.text s).isReadable = true := rfl

@[simp] theorem Value.isReadable_bool (b : Bool) : (Value.bool b).isReadable = true := rfl

theorem Value.allReadable_eq_all (values : List Value) :
    allReadable values = values.all isReadable := by
  induction values with
  | nil => rfl
  | cons v rest ih => rw [allReadable, ih, List.all_cons]

theorem Value.allMembersReadable_eq_all (members : List (String × Value)) :
    allMembersReadable members = members.all (·.2.isReadable) := by
  induction members with
  | nil => rfl
  | cons m rest ih => rw [allMembersReadable, ih, List.all_cons]

namespace Reading

variable {r : Reading}

theorem unlimited (form : Form) : Unlimited ⟨.unlimited, form⟩ := rfl

theorem Unlimited.enter (h : r.Unlimited) : r.enter = some r := by
  rw [Reading.enter, h, Nesting.enter, Option.map_some, ← h]

theorem Unlimited.keep (h : r.Unlimited) : r.keep.Unlimited := h

theorem Unlimited.admits (h : r.Unlimited) (v : Value) : r.nesting.admits v = true := by
  rw [h, Nesting.admits]

end Reading

/-! ### Members -/

namespace Members

variable {α : Type} {r : Reading} {name other : String} {v : Value}
  {members : List (String × Value)} {read : Reader α} {absent : α}

@[simp] theorem required_self :
    Members.required ⟨r, (name, v) :: members⟩ name read = read r v := by
  rw [required, get?, List.lookup_cons_self, Option.bind_some]

@[simp] theorem required_of_ne (h : name ≠ other) :
    Members.required ⟨r, (other, v) :: members⟩ name read =
      Members.required ⟨r, members⟩ name read := by
  rw [required, required, get?, get?, List.lookup_cons, beq_eq_false_iff_ne.mpr h]

@[simp] theorem optional_self :
    Members.optional ⟨r, (name, v) :: members⟩ name absent read = read r v := by
  rw [optional, get?, List.lookup_cons_self]

@[simp] theorem optional_of_ne (h : name ≠ other) :
    Members.optional ⟨r, (other, v) :: members⟩ name absent read =
      Members.optional ⟨r, members⟩ name absent read := by
  rw [optional, optional, get?, get?, List.lookup_cons, beq_eq_false_iff_ne.mpr h]

@[simp] theorem optional_nil : Members.optional ⟨r, []⟩ name absent read = some absent := rfl

end Members

namespace Reader

variable {α β : Type}

/-- Members of different names repeat no name. -/
theorem noneRepeated_of_nodup {known : List String} {members : List (String × Value)}
    (h : (members.map (·.1)).Nodup) : noneRepeated known members = true := by
  refine List.all_eq_true.mpr fun name _ => decide_eq_true ?_
  have := List.nodup_iff_count_le_one.mp h name
  rwa [List.count, List.countP_map, List.countP_eq_length_filter] at this

/-! ### Inverse readers -/

@[simp] theorem text_text (r : Reading) (s : String) : text r (.text s) = some s := rfl

@[simp] theorem bool_bool (r : Reading) (b : Bool) : bool r (.bool b) = some b := rfl

/-- The reader reads back what the writer writes, and that is something that denotes. -/
structure Inverts (read : Reader α) (write : α → Value) : Prop where
  read_write : ∀ {r : Reading}, r.Unlimited → ∀ a, read r (write a) = some a
  isReadable : ∀ a, (write a).isReadable = true
  ne_null : ∀ a, write a ≠ .null

theorem inverts_text : Inverts text .text := ⟨fun _ _ => rfl, fun _ => rfl, fun _ h => by cases h⟩

theorem inverts_uint32 : Inverts uint32 fun n => .ofNat n.toNat := by
  refine ⟨fun _ n => ?_, fun _ => rfl, fun _ h => by cases h⟩
  have fits : Width.uint32.holds n.toNat = true := by
    have := n.toNat_lt
    have low : (0 : Int) ≤ n.toNat := by omega
    have high : (n.toNat : Int) ≤ 0xFFFFFFFF := by omega
    exact Bool.and_eq_true_iff.mpr ⟨decide_eq_true low, decide_eq_true high⟩
  show (Width.uint32.fit? n.toNat).map (fun i => UInt32.ofNat i.toNat) = some n
  rw [Width.fit?, if_pos fits, Option.map_some, Int.toNat_natCast, UInt32.ofNat_toNat]

theorem inverts_int32 : Inverts int32 fun n => .int n.toInt := by
  refine ⟨fun _ n => ?_, fun _ => rfl, fun _ h => by cases h⟩
  have fits : Width.int32.holds n.toInt = true := by
    have low : (-0x80000000 : Int) ≤ n.toInt := n.le_toInt
    have high : n.toInt ≤ 0x7FFFFFFF := by
      have := n.toInt_lt
      omega
    exact Bool.and_eq_true_iff.mpr ⟨decide_eq_true low, decide_eq_true high⟩
  show (Width.int32.fit? n.toInt).map Int32.ofInt = some n
  rw [Width.fit?, if_pos fits, Option.map_some, Int32.ofInt_toInt]

theorem inverts_named {value? : String → Option α} {name : α → String}
    (h : ∀ a, value? (name a) = some a) : Inverts (named value?) fun a => .text (name a) :=
  ⟨fun _ a => h a, fun _ => rfl, fun _ h => by cases h⟩

theorem Inverts.map {read : Reader α} {write : α → Value} (h : Inverts read write) {f : α → β}
    {g : β → α} (hf : ∀ b, f (g b) = b) : Inverts (read.map f) fun b => write (g b) where
  read_write hr b := by rw [Reader.map, h.read_write hr, Option.map_some, hf]
  isReadable b := h.isReadable (g b)
  ne_null b := h.ne_null (g b)

/-- A list is read back if each of its elements is. -/
theorem list_ofList {read : Reader α} {write : α → Value} {r : Reading} (hr : r.Unlimited)
    {as : List α} (h : ∀ a ∈ as, read r (write a) = some a) :
    list read r (Value.ofList write as) = some as := by
  show (r.enter.bind fun inside => (as.map write).mapM (read inside)) = some as
  rw [hr.enter, Option.bind_some]
  induction as with
  | nil => rfl
  | cons a rest ih =>
      rw [List.forall_mem_cons] at h
      simp [h.1, ih h.2]

theorem isReadable_ofList {write : α → Value} {as : List α}
    (h : ∀ a ∈ as, (write a).isReadable = true) : (Value.ofList write as).isReadable = true := by
  rw [Value.ofList, Value.isReadable, Value.allReadable_eq_all, List.all_map]
  exact List.all_eq_true.mpr h

theorem Inverts.list {read : Reader α} {write : α → Value} (h : Inverts read write) :
    Inverts (list read) (Value.ofList write) where
  read_write hr _ := list_ofList hr fun a _ => h.read_write hr a
  isReadable _ := isReadable_ofList fun a _ => h.isReadable a
  ne_null _ h := by cases h

theorem Inverts.isReadable_ofOption {read : Reader α} {write : α → Value} (h : Inverts read write)
    (o : Option α) : (Value.ofOption write o).isReadable = true := by
  cases o with
  | none => rfl
  | some a => exact h.isReadable a

theorem nullable_of_ne_null {read : Reader α} {r : Reading} {v : Value} (h : v ≠ .null) :
    Reader.nullable read r v = (read r v).map some := by
  rw [Reader.nullable]
  exact h

theorem Inverts.nullable_write {read : Reader α} {write : α → Value} (h : Inverts read write)
    {r : Reading} (hr : r.Unlimited) (a : α) :
    Reader.nullable read r (write a) = some (some a) := by
  rw [nullable_of_ne_null (h.ne_null a), h.read_write hr, Option.map_some]

theorem Inverts.nullable {read : Reader α} {write : α → Value} (h : Inverts read write)
    {r : Reading} (hr : r.Unlimited) (o : Option α) :
    Reader.nullable read r (Value.ofOption write o) = some o := by
  cases o with
  | none => rfl
  | some a => exact h.nullable_write hr a

/-- The members of an object of different members are these. -/
theorem members?_object {form : Form} {known : List String} {members : List (String × Value)}
    (names : (members.map (·.1)).Nodup) :
    members? form known (.object members) = some members :=
  if_pos (noneRepeated_of_nodup names)

/-- An object of different members is what its body reads. -/
theorem object_eq {known : List String} {body : Members → Option α} {r : Reading}
    (hr : r.Unlimited) {members : List (String × Value)} (names : (members.map (·.1)).Nodup) :
    object known body r (.object members) = body ⟨r, members⟩ := by
  rw [Reader.object, hr.enter, Option.bind_some, members?_object names, Option.bind_some]

/-- An object is read back if its members are. -/
theorem Inverts.object {known : List String} {body : Members → Option α}
    {members : α → List (String × Value)}
    (names : ∀ a, ((members a).map (·.1)).Nodup)
    (back : ∀ {r : Reading}, r.Unlimited → ∀ a, body ⟨r, members a⟩ = some a)
    (readable : ∀ a, Value.allMembersReadable (members a) = true) :
    Inverts (object known body) fun a => .object (members a) where
  read_write hr a := by rw [object_eq hr (names a), back hr]
  isReadable a := by rw [Value.isReadable, readable]
  ne_null _ h := by cases h

/-- What is read once it is known what tells the shape, and what has it. -/
theorem tagged_eq {tag : String} {shapes : List (Shape α)} {r : Reading} (hr : r.Unlimited)
    {v told rest : Value} (hv : v.isReadable = true) (h : untag? tag v = some (told, rest)) :
    tagged tag shapes r v = (shape shapes r told).bind fun s =>
      (members? r.keep.form s.known rest).bind fun members => s.body ⟨r.keep, members⟩ := by
  rw [tagged, hr.admits, hv, Bool.and_self, if_pos rfl, hr.enter, Option.bind_some, h]
  rfl

/-- The value is an object whose tag tells a shape by which `a` is read back. -/
inductive Tells (tag : String) (shapes : List (Shape α)) : Value → α → Prop
  | intro {members : List (String × Value)} {name : String} {s : Shape α} {a : α}
      (names : (members.map (·.1)).Nodup) (readable : Value.allMembersReadable members = true)
      (told : members.lookup tag = some (.text name)) (hs : shapes.find? (·.name = name) = some s)
      (back : ∀ {r : Reading}, r.Unlimited → s.body ⟨r, members⟩ = some a) :
      Tells tag shapes (.object members) a

theorem Tells.read_eq {tag : String} {shapes : List (Shape α)} {v : Value} {a : α}
    (h : Tells tag shapes v a) {r : Reading} (hr : r.Unlimited) :
    tagged tag shapes r v = some a := by
  obtain @⟨members, name, s, _, names, readable, told, hs, back⟩ := h
  have untagged : untag? tag (.object members) = some (.text name, .object members) := by
    rw [untag?, if_pos (noneRepeated_of_nodup names), told, Option.map_some]
  have shaped : shape shapes r (.text name) = some s := hs
  rw [tagged_eq hr (by rw [Value.isReadable, readable]) untagged, shaped, Option.bind_some,
    members?_object names, Option.bind_some, back hr.keep]

theorem Tells.isReadable {tag : String} {shapes : List (Shape α)} {v : Value} {a : α} :
    Tells tag shapes v a → v.isReadable = true
  | .intro _ readable _ _ _ => by rw [Value.isReadable, readable]

theorem Tells.ne_null {tag : String} {shapes : List (Shape α)} {v : Value} {a : α} :
    Tells tag shapes v a → v ≠ .null
  | .intro .., h => by cases h

/-- An object of one of several shapes is read back if its tag tells which. -/
theorem Inverts.tagged {tag : String} {shapes : List (Shape α)} {write : α → Value}
    (h : ∀ a, Tells tag shapes (write a) a) : Inverts (tagged tag shapes) write :=
  ⟨fun hr a => (h a).read_eq hr, fun a => (h a).isReadable, fun a => (h a).ne_null⟩

end Reader

namespace GraphDeclaration

theorem readEach_eq (r : Reading) : ∀ vs : List Value, readEach r vs = vs.mapM (read r)
  | [] => by rw [readEach, List.mapM_nil]; rfl
  | v :: rest => by
      rw [readEach, List.mapM_cons, readEach_eq r rest]
      simp only [Option.map_eq_bind]
      rfl

theorem readList_eq : readList = Reader.list read := by
  funext r v
  cases v with
  | list values => simp only [readList, Reader.list, readEach_eq]
  | _ => rw [readList, Reader.list] <;> simp

theorem readExtensions_eq (r : Reading) (members : List (String × Value)) :
    readExtensions r members =
      Members.optional ⟨r, members⟩ "extensions" [] (Reader.list read) := by
  induction members with
  | nil => rw [readExtensions, Members.optional_nil]
  | cons m rest ih =>
      obtain ⟨name, v⟩ := m
      rw [readExtensions]
      split
      case isTrue h => rw [← h, Members.optional_self, readList_eq]
      case isFalse h => rw [Members.optional_of_ne (Ne.symm h), ih]

theorem readExtensionsAt_eq (r : Reading) : ∀ (names : List String) (values : List Value),
    readExtensionsAt r names values = readExtensions r (names.zip values)
  | [], _ => by rw [readExtensionsAt, List.zip_nil_left, readExtensions]; simp
  | _ :: _, [] => by rw [readExtensionsAt, List.zip_nil_right, readExtensions]; simp
  | name :: names, v :: rest => by
      rw [readExtensionsAt, List.zip_cons_cons, readExtensions, readExtensionsAt_eq r names rest]

/-- A graph declaration is an object whose extensions are graph declarations. -/
theorem read_eq : read = Reader.object memberNames fun m =>
    (readBody m).bind fun body =>
      (m.optional "extensions" [] (Reader.list read)).map fun extensions =>
        { body with extensions } := by
  funext r v
  cases v with
  | object members =>
      rw [read, Reader.object]
      refine Option.bind_congr fun inside _ => ?_
      rw [Reader.members?, readExtensions_eq]
      split <;> rfl
  | list values =>
      rw [read, Reader.object]
      refine Option.bind_congr fun inside _ => ?_
      rw [Reader.members?, readExtensionsAt_eq, readExtensions_eq, Reader.positioned]
      split <;> rfl
  | moment s =>
      -- A moment has no members, and a graph declaration needs some.
      rw [read, Reader.object]
      · cases r.enter <;> rfl
      · simp
      · simp
  | _ =>
      rw [read, Reader.object]
      · cases r.enter <;> rfl
      · simp
      · simp

end GraphDeclaration

end Wiring
