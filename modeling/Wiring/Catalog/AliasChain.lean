import Wiring.TypeKey

/-!
# Alias chains

Aliases are followed from key to key.  The walk ends at a key that is no alias, or at a key whose
chain is known, or when it comes back to a key it has passed.
-/

namespace Wiring

/-- How a walk along aliases ends. -/
inductive AliasWalk where
  /-- It ends at the last key passed. -/
  | chain (keys : List TypeKey)
  /-- From the keys passed it comes back to one of them. -/
  | loop (keys : List TypeKey) (back : TypeKey)
deriving DecidableEq, Repr

namespace AliasWalk

/-- Goes on from `current`, the last of the keys passed, for at most the given number of steps. -/
def follow (target? : TypeKey → Option TypeKey) (known : TypeKey → Option (List TypeKey)) :
    Nat → List TypeKey → TypeKey → AliasWalk
  | 0, passed, _ => .chain passed
  | steps + 1, passed, current =>
      match target? current with
      | none => .chain passed
      | some target =>
          if target ∈ passed then .loop passed target
          else
            match known target with
            | some rest => .chain (passed ++ rest)
            | none => follow target? known steps (passed ++ [target]) target

/-- The keys of a loop: from the key come back to, around and to it again. -/
def loopKeys (passed : List TypeKey) (back : TypeKey) : List TypeKey :=
  passed.dropWhile (· ≠ back) ++ [back]

end AliasWalk

end Wiring
