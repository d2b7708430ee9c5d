import Wiring.TypeKey

/-!
# Dependencies

A dependency requests a key.  It may ask for the value itself or for a handle that yields the value
later, and it may have a default to fall back on.
-/

namespace Wiring

open Std

/-- How a requester reaches a value. -/
inductive Access where
  /-- The value itself. -/
  | canonical
  /-- A provider of values. -/
  | provider
  /-- A value made on first use. -/
  | lazy
  /-- A provider of values made on first use. -/
  | providerOfLazy
deriving DecidableEq, Repr, Inhabited

namespace Access

/-- The place of an access in the order of the declaration. -/
def rank : Access → Nat
  | canonical => 0
  | provider => 1
  | lazy => 2
  | providerOfLazy => 3

instance : Ord Access := ⟨compareOn rank⟩

instance : TransOrd Access := inferInstanceAs (TransCmp (compareOn _))

instance : LawfulEqOrd Access where
  compare_self := ReflCmp.compare_self
  eq_of_compare {a b} h := by
    have := eq_of_compareOn (f := rank) h
    cases a <;> cases b <;> simp [rank] at this ⊢

/-- Whether the value is reached later, through a handle. -/
def isDeferred : Access → Bool
  | canonical => false
  | _ => true

/-- The name of the handle. -/
def handleName : Access → Option String
  | canonical => none
  | provider => some "Provider"
  | lazy => some "Lazy"
  | providerOfLazy => some "Provider<Lazy>"

/-- The access of a factory's parameter: every value is reached through a provider, and what was
made on first use still is. -/
def throughProvider : Access → Access
  | canonical | provider => provider
  | lazy | providerOfLazy => providerOfLazy

end Access

/-- A request for a key. -/
@[ext]
structure Dependency where
  key : TypeKey
  access : Access := .canonical
  /-- Whether the requester can do without. -/
  hasDefault : Bool := false
deriving DecidableEq, Repr

namespace Dependency

/-- By key, access, required before optional. -/
instance : Ord Dependency :=
  ⟨compareLex (compareOn key) (compareLex (compareOn access) (compareOn hasDefault))⟩

/-- Whether the value is reached later. -/
def isDeferred (d : Dependency) : Bool := d.access.isDeferred

/-- The key inside its handle, with a mark for a default. -/
def render (d : Dependency) : String :=
  let key := d.key.render
  let wrapped := match d.access with
    | .canonical => key
    | .provider => "Provider<" ++ key ++ ">"
    | .lazy => "Lazy<" ++ key ++ ">"
    | .providerOfLazy => "Provider<Lazy<" ++ key ++ ">>"
  if d.hasDefault then wrapped ++ " = ..." else wrapped

end Dependency

end Wiring
