import Wiring.Binding
import Wiring.SortedMap

/-!
# Remembered implicit bindings

What was made for a key, or that nothing could be made, is remembered, so a key is made once.
-/

namespace Wiring

/-- The answers given so far. -/
structure ImplicitCache where
  /-- The answer per key; none is an answer. -/
  answers : SortedMap TypeKey (Option Binding)

namespace ImplicitCache

/-- The cache without answers. -/
def empty : ImplicitCache := ⟨.empty⟩

/-- The answer for a key: the remembered one, else the one given, which is then remembered. -/
def getOrMake (c : ImplicitCache) (key : TypeKey) (make : Unit → Option Binding) :
    Option Binding × ImplicitCache :=
  match c.answers.get? key with
  | some answer => (answer, c)
  | none =>
      let made := make ()
      (made, ⟨c.answers.insert key made⟩)

/-- Whether a key was asked for before. -/
def knows (c : ImplicitCache) (key : TypeKey) : Bool := c.answers.contains key

/-- The number of keys asked for. -/
def size (c : ImplicitCache) : Nat := c.answers.size

end ImplicitCache

end Wiring
