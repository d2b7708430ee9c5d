import Wiring.Number.Binary64
import Wiring.Number.Width

/-!
# Documents

The values that a document holds, whatever its notation.  Members of an object keep the order in
which they are written, repeated names included: what a repetition means is up to the reader.
-/

namespace Wiring

/-- A value of a document. -/
inductive Value where
  /-- No value. -/
  | null
  /-- A truth value. -/
  | bool (b : Bool)
  /-- An integer. -/
  | int (i : Int)
  /-- A number that is not written as an integer. -/
  | float (x : Binary64)
  /-- A text. -/
  | text (s : String)
  /-- A date, a time of day, or both, as written out. -/
  | moment (s : String)
  /-- A list. -/
  | list (values : List Value)
  /-- Named members. -/
  | object (members : List (String × Value))
  /-- Something well formed that denotes nothing: a text with half a character, a number beyond
  every number.  It may stand where nobody reads it. -/
  | unreadable
deriving Repr, Inhabited

namespace Value

mutual

/-- How deep lists and objects are nested. -/
def depth : Value → Nat
  | list values => depthOfList values + 1
  | object members => depthOfMembers members + 1
  | _ => 0

/-- The greatest depth of a list of values. -/
def depthOfList : List Value → Nat
  | [] => 0
  | v :: rest => max v.depth (depthOfList rest)

/-- The greatest depth of the members of an object. -/
def depthOfMembers : List (String × Value) → Nat
  | [] => 0
  | (_, v) :: rest => max v.depth (depthOfMembers rest)

end

mutual

/-- Whether every part of the value denotes something. -/
def isReadable : Value → Bool
  | unreadable => false
  | list values => allReadable values
  | object members => allMembersReadable members
  | _ => true

/-- Whether every part of a list of values denotes something. -/
def allReadable : List Value → Bool
  | [] => true
  | v :: rest => v.isReadable && allReadable rest

/-- Whether every part of the members of an object denotes something. -/
def allMembersReadable : List (String × Value) → Bool
  | [] => true
  | (_, v) :: rest => v.isReadable && allMembersReadable rest

end

def ofNat (n : Nat) : Value := int n

/-- A value, or null for none. -/
def ofOption {α : Type} (write : α → Value) : Option α → Value
  | some a => write a
  | none => null

/-- A list of values. -/
def ofList {α : Type} (write : α → Value) (as : List α) : Value := list (as.map write)

/-- A member that is left out when there is no value. -/
def memberOf {α : Type} (name : String) (write : α → Value) : Option α → List (String × Value)
  | some a => [(name, write a)]
  | none => []

end Value

/-- How deep the values read may still be nested. -/
inductive Nesting where
  /-- As deep as they like. -/
  | unlimited
  /-- Only so many lists and objects, one in the other. -/
  | atMost (levels : Nat)
deriving DecidableEq, Repr

namespace Nesting

/-- What remains inside a list or an object. -/
def enter : Nesting → Option Nesting
  | unlimited => some unlimited
  | atMost 0 => none
  | atMost (levels + 1) => some (atMost levels)

/-- Whether a value is not nested too deep. -/
def admits (n : Nesting) (v : Value) : Bool :=
  match n with
  | unlimited => true
  | atMost levels => v.depth ≤ levels

end Nesting

/-- The form in which values are at hand to a reader.  It decides what may stand for nothing next to
the name of a choice, whether a choice may be told by its number, and whether a list may go on
beyond what is read of it. -/
inductive Form where
  /-- As JSON has them. -/
  | json
  /-- As TOML has them. -/
  | toml
  /-- Taken in whole before they are read.  They are `counted` where a natural number is known apart
  from other integers, as in JSON, but not in TOML. -/
  | kept (counted : Bool)
deriving DecidableEq, Repr

namespace Form

/-- The form of values that are taken in before they are read. -/
def keep : Form → Form
  | json => kept true
  | toml => kept false
  | kept counted => kept counted

/-- Whether a value stands for nothing. -/
def isNothing : Form → Value → Bool
  | json, .null => true
  | toml, .list [] | toml, .object [] => true
  | kept _, .null | kept _, .object [] => true
  | _, _ => false

/-- Whether a choice may be told by its number. -/
def isCounted : Form → Bool
  | kept counted => counted
  | _ => false

/-- Whether a list may go on beyond what is read of it. -/
def isOpen : Form → Bool
  | toml => true
  | _ => false

end Form

/-- What a reader knows of the values it reads. -/
structure Reading where
  /-- How deep they may still be nested. -/
  nesting : Nesting
  form : Form
deriving DecidableEq, Repr

namespace Reading

/-- What is known inside a list or an object. -/
def enter (r : Reading) : Option Reading := r.nesting.enter.map fun nesting => { r with nesting }

/-- What is known of values that are taken in before they are read. -/
def keep (r : Reading) : Reading := { r with form := r.form.keep }

end Reading

/-- A way of reading values; none is a value that does not fit. -/
abbrev Reader (α : Type) := Reading → Value → Option α

/-- The members of an object that is being read. -/
structure Members where
  /-- What is known of the values inside. -/
  reading : Reading
  members : List (String × Value)

namespace Members

/-- The value of a member. -/
def get? (m : Members) (name : String) : Option Value := m.members.lookup name

/-- A member that must be there. -/
def required {α : Type} (m : Members) (name : String) (read : Reader α) : Option α :=
  (m.get? name).bind (read m.reading)

/-- A member that may be left out; left out it stands for `absent`. -/
def optional {α : Type} (m : Members) (name : String) (absent : α) (read : Reader α) : Option α :=
  match m.get? name with
  | some v => read m.reading v
  | none => some absent

end Members

/-- A shape that an object may have. -/
structure Shape (α : Type) where
  name : String
  /-- The names of the members it knows, in the order in which a list has them. -/
  known : List String
  body : Members → Option α

namespace Reader

variable {α : Type}

def text : Reader String := fun _ v =>
  match v with
  | .text s => some s
  | _ => none

def bool : Reader Bool := fun _ v =>
  match v with
  | .bool b => some b
  | _ => none

/-- An integer of a width. -/
def intOf (w : Width) : Reader Int := fun _ v =>
  match v with
  | .int i => w.fit? i
  | _ => none

/-- A natural number of 32 bits. -/
def uint32 : Reader UInt32 := fun r v => (intOf .uint32 r v).map fun i => .ofNat i.toNat

/-- A natural number of 64 bits. -/
def uint64 : Reader UInt64 := fun r v => (intOf .uint64 r v).map fun i => .ofNat i.toNat

/-- An integer of 32 bits. -/
def int32 : Reader Int32 := fun r v => (intOf .int32 r v).map .ofInt

/-- A value, or null for none. -/
def nullable (read : Reader α) : Reader (Option α) := fun r v =>
  match v with
  | .null => some none
  | v => (read r v).map some

/-- A list of values. -/
def list (read : Reader α) : Reader (List α) := fun r v =>
  match v with
  | .list values => r.enter.bind fun inside => values.mapM (read inside)
  | _ => none

/-- What another reader reads, changed by `f`. -/
def map {β : Type} (read : Reader α) (f : α → β) : Reader β := fun r v => (read r v).map f

/-- One of several names.  A name may also be the only member of an object, with nothing as its
value. -/
def named (value? : String → Option α) : Reader α := fun r v =>
  match v with
  | .text s => value? s
  | .object [(s, v)] => r.enter.bind fun inside =>
      if inside.form.isNothing v then value? s else none
  | _ => none

/-- Whether no known name is written twice. -/
def noneRepeated (known : List String) (members : List (String × Value)) : Bool :=
  known.all fun name => (members.filter (·.1 = name)).length ≤ 1

/-- The members that the elements of a list are by their positions.  The last ones may be left out,
and where lists are open, others may follow. -/
def positioned (form : Form) (known : List String) (values : List Value) :
    Option (List (String × Value)) :=
  if form.isOpen || values.length ≤ known.length then some (known.zip values) else none

/-- The members of what is read as an object: those of an object, the known ones written at most
once each, those of a list, and none of a moment, which has no member of a name. -/
def members? (form : Form) (known : List String) : Value → Option (List (String × Value))
  | .object members => if noneRepeated known members then some members else none
  | .list values => positioned form known values
  | .moment _ => some []
  | _ => none

/-- An object, or a list that has the known members in order.  Members that are not known are passed
over. -/
def object (known : List String) (body : Members → Option α) : Reader α := fun r v =>
  r.enter.bind fun inside => (members? inside.form known v).bind fun members =>
    body ⟨inside, members⟩

/-- One of several shapes, by its name, or by its number where choices are counted. -/
def shape (shapes : List (Shape α)) : Reader (Shape α) := fun r v =>
  match v with
  | .text s => shapes.find? (·.name = s)
  | .int i => if r.form.isCounted && 0 ≤ i then shapes[i.toNat]? else none
  | _ => none

/-- The value that tells the shape, and the value that has the shape: the value of the tag and the
object, or the first element and the rest of a list. -/
def untag? (tag : String) : Value → Option (Value × Value)
  | .object members =>
      if noneRepeated [tag] members then (members.lookup tag).map fun told => (told, .object members)
      else none
  | .list (told :: rest) => some (told, .list rest)
  | _ => none

/-- An object whose shape is told by one member, wherever that stands, or a list whose first element
tells the shape of the rest.  All the rest is taken in before the shape is known, so it must be
readable and within the nesting. -/
def tagged (tag : String) (shapes : List (Shape α)) : Reader α := fun r v =>
  if r.nesting.admits v && v.isReadable then
    r.enter.bind fun inside => (untag? tag v).bind fun (told, rest) =>
      (shape shapes inside told).bind fun s =>
        (members? inside.keep.form s.known rest).bind fun members => s.body ⟨inside.keep, members⟩
  else none

end Reader

end Wiring
