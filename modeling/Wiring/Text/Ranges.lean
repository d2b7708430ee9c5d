/-!
# Ranges of code points

The characters that share a property, as the ranges in which their code points lie.
-/

namespace Wiring

/-- Whether the code point of a character lies in one of several ranges, ends included. -/
def inRanges (ranges : List (Nat × Nat)) (c : Char) : Bool :=
  ranges.any fun r => r.1 ≤ c.toNat && c.toNat ≤ r.2

end Wiring
