import Wiring.Document.Toml.Moment
import Wiring.Document

/-!
# Tables that stand for moments

A table may stand for a moment: its first member has a name set aside for that, and a text that
tells the moment.  Members behind the first do not count.
-/

namespace Wiring.Toml

/-- The name set aside for a member that tells a moment. -/
def momentMember : String := "$__toml_private_datetime"

/-- The value that is to tell a moment, if the first of the members has the name for it. -/
def momentTeller? : List (String × Value) → Option Value
  | (name, v) :: _ => if name = momentMember then some v else none
  | [] => none

/-- The moment that a value tells; only a text tells one. -/
def valueTold? : Value → Option Value
  | .text s => (momentTold? s).map fun m => .moment m.render
  | _ => none

mutual

/-- A value with moments for the tables that stand for one, unless such a table tells none. -/
def withMoments? : Value → Option Value
  | .list values => (allWithMoments? values).map .list
  | .object members =>
      match momentTeller? members with
      | some v => valueTold? v
      | none => (membersWithMoments? members).map .object
  | v => some v

/-- Values with moments for the tables in them that stand for one. -/
def allWithMoments? : List Value → Option (List Value)
  | [] => some []
  | v :: rest =>
      match withMoments? v, allWithMoments? rest with
      | some v, some rest => some (v :: rest)
      | _, _ => none

/-- Members with moments for the tables in them that stand for one. -/
def membersWithMoments? : List (String × Value) → Option (List (String × Value))
  | [] => some []
  | (name, v) :: rest =>
      match withMoments? v, membersWithMoments? rest with
      | some v, some rest => some ((name, v) :: rest)
      | _, _ => none

end

end Wiring.Toml
