import Wiring.Number.Binary64
import Wiring.Number.Width
import Wiring.Text.Digits
import Wiring.Text.LowerCase

/-!
# Numbers as text

Numbers as people type them: no blanks, no marks between digits, any number of leading zeros.
-/

namespace Wiring

/-- The number of a text that is nothing but digits. -/
def digitsOnly? (cs : List Char) : Option Nat :=
  if cs ≠ [] ∧ cs.all Char.isDigit then some (natOfDigits 10 cs) else none

/-- A natural number of 64 bits, perhaps behind a plus sign. -/
def word? (s : String) : Option UInt64 :=
  let digits := match s.toList with
    | '+' :: rest => rest
    | cs => cs
  (digitsOnly? digits).bind fun n => if Width.uint64.holds n then some (.ofNat n) else none

/-- An integer of 64 bits, perhaps behind a sign. -/
def integer? (s : String) : Option Int :=
  let (negative, digits) := spanSign s.toList
  (digitsOnly? digits).bind fun n => Width.int64.fit? (signedInt negative n)

/-- The exponent that a text is, if it is not empty. -/
def exponentOnly? : List Char → Option Int
  | [] => some 0
  | e :: rest =>
      if e == 'e' || e == 'E' then
        let (negative, digits) := spanSign rest
        (digitsOnly? digits).map (signedInt negative)
      else none

/-- The number that digits, perhaps a point among or around them, and perhaps an exponent stand
for. -/
def decimal? (negative : Bool) (cs : List Char) : Option Binary64 :=
  let (whole, rest) := spanDigits cs
  let (places, rest) := match rest with
    | '.' :: rest => spanDigits rest
    | rest => ([], rest)
  if whole.isEmpty && places.isEmpty then none
  else
    (exponentOnly? rest).map fun exponent =>
      .ofDecimal negative (natOfDigits 10 (whole ++ places)) (exponent - places.length)

def Binary64.ofText? (s : String) : Option Binary64 :=
  let (negative, rest) := spanSign s.toList
  let word := rest.map Char.toLower
  if word = "inf".toList ∨ word = "infinity".toList then some (.infinite negative)
  else if word = "nan".toList then some .nan
  else decimal? negative rest

end Wiring
