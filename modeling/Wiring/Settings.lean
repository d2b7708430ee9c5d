import Wiring.Document
import Wiring.Text.Digits
import Wiring.Text.LowerCase

/-!
# Settings

A tree of settings that several sources fill one after the other, later ones over earlier ones.
Names are taken in lower case.  Tables are merged member by member; every other value takes the
place of what stood there.  A name may lead into the tree: `a.b` is member `b` of `a`, `a[0]` its
first element, `a[-1]` its last.
-/

namespace Wiring

/-- Settings by name; the names are in lower case and differ. -/
structure Settings where
  members : List (String × Value) := []

namespace Settings

/-- The setting of a name. -/
def get? (s : Settings) (name : String) : Option Value := s.members.lookup name

/-- The members of a table; what is no table has none. -/
def tableOf : Option Value → List (String × Value)
  | some (.object members) => members
  | _ => []

/-- The elements of a list; what is no list has none. -/
def elementsOf : Option Value → List Value
  | some (.list values) => values
  | _ => []

/-- The members with a value at a name. -/
def setMember (name : String) (v : Value) : List (String × Value) → List (String × Value)
  | [] => [(name, v)]
  | (n, w) :: rest => if n = name then (n, v) :: rest else (n, w) :: setMember name v rest

mutual

/-- What stands in a place after a value is put there.  An empty table changes nothing. -/
def merge (old : Option Value) : Value → Value
  | .object [] => old.getD (.object [])
  | .object members => .object (mergeMembers (tableOf old) members)
  | v => v

/-- The members of a table after others are merged into it; of two with one name the later counts.
-/
def mergeMembers (table : List (String × Value)) : List (String × Value) → List (String × Value)
  | [] => table
  | (name, v) :: rest =>
      if (rest.lookup name).isSome then mergeMembers table rest
      else
        let name := lowerText name
        mergeMembers (setMember name (merge (table.lookup name) v) table) rest

end

/-! ### Names that lead into the tree -/

/-- A step into the tree. -/
inductive Step where
  /-- To the member of a table. -/
  | member (name : String)
  /-- To the element of a list; below zero from its end. -/
  | element (index : Int)
deriving DecidableEq, Repr

/-- Whether a character may stand in the name of a member. -/
def isNameChar (c : Char) : Bool := c.isAlphanum || c == '_' || c == '-' || c == ' '

/-- The rest of a text after spaces and tabs. -/
def skipSpaces (cs : List Char) : List Char := cs.dropWhile fun c => c == ' ' || c == '\t'

/-- The name at the front of a text, and the rest. -/
def memberName? (cs : List Char) : Option (String × List Char) :=
  match cs.takeWhile isNameChar with
  | [] => none
  | name => some (String.ofList name, cs.drop name.length)

/-- The index of 64 bits at the front of a text, perhaps behind a minus sign, and the rest. -/
def index? (cs : List Char) : Option (Int × List Char) :=
  let (negative, cs) := match cs with
    | '-' :: rest => (true, rest)
    | cs => (false, cs)
  match spanDigits cs with
  | ([], _) => none
  | (digits, rest) =>
      (Width.int64.fit? (signedInt negative (natOfDigits 10 digits))).map fun i => (i, rest)

/-- The steps behind the first name; at most so many are read. -/
def furtherSteps? : Nat → List Char → Option (List Step)
  | _, [] => some []
  | 0, _ => none
  | left + 1, '.' :: rest =>
      (memberName? rest).bind fun (name, rest) =>
        (furtherSteps? left rest).map (.member name :: ·)
  | left + 1, '[' :: rest =>
      (index? (skipSpaces rest)).bind fun (i, rest) =>
        match skipSpaces rest with
        | ']' :: rest => (furtherSteps? left rest).map (.element i :: ·)
        | _ => none
  | _, _ => none

/-- The steps that a name stands for; a name that does not lead anywhere is that of a member. -/
def stepsOf (name : String) : List Step :=
  let steps := (memberName? name.toList).bind fun (first, rest) =>
    (furtherSteps? rest.length rest).map (.member first :: ·)
  steps.getD [.member name]

/-- The place of an index in a list of a length; one before the first place is the first. -/
def placeOf (length : Nat) (i : Int) : Nat := (if i < 0 then length + i else i).toNat

/-- What stands in a place after a value is put some steps further in. -/
def place (v : Value) : List Step → Option Value → Value
  | [], old => merge old v
  | .member name :: rest, old =>
      let table := tableOf old
      let name := lowerText name
      .object (setMember name (place v rest (table.lookup name)) table)
  | .element i :: rest, old =>
      let elements := elementsOf old
      let i := placeOf elements.length i
      let padded := elements ++ List.replicate (i + 1 - elements.length) .null
      .list (padded.set i (place v rest elements[i]?))

/-- The settings with a value at a name. -/
def set (s : Settings) (name : String) (v : Value) : Settings :=
  match place v (stepsOf name) (some (.object s.members)) with
  | .object members => ⟨members⟩
  | _ => s

/-- The settings with those of a further source; of two with one name the later counts. -/
def layer (s : Settings) : List (String × Value) → Settings
  | [] => s
  | (name, v) :: rest =>
      if (rest.lookup name).isSome then s.layer rest else (s.set name v).layer rest

end Settings

end Wiring
