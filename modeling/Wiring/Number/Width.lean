/-!
# Widths of integers

Which integers fit a number of bits, with or without a sign.
-/

namespace Wiring

/-- The least and the greatest integer of a width. -/
structure Width where
  low : Int
  high : Int
deriving DecidableEq, Repr

namespace Width

/-- 32 bits with a sign. -/
def int32 : Width := ⟨-0x80000000, 0x7FFFFFFF⟩

/-- 32 bits without a sign. -/
def uint32 : Width := ⟨0, 0xFFFFFFFF⟩

/-- 64 bits with a sign. -/
def int64 : Width := ⟨-0x8000000000000000, 0x7FFFFFFFFFFFFFFF⟩

/-- 64 bits without a sign. -/
def uint64 : Width := ⟨0, 0xFFFFFFFFFFFFFFFF⟩

/-- Whether an integer fits. -/
def holds (w : Width) (i : Int) : Bool := w.low ≤ i && i ≤ w.high

/-- An integer that fits. -/
def fit? (w : Width) (i : Int) : Option Int := if w.holds i then some i else none

end Width

end Wiring
