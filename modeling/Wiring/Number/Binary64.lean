/-!
# Binary floating point

The numbers of the 64-bit binary format: a sign with a mantissa below `2^53` times a power of two
from `2^-1074` to `2^971`, the infinities and not-a-number.  Everything is exact arithmetic on
natural numbers: a quotient is rounded to the nearest number of the format, ties to an even
mantissa, and a number is written with the fewest decimal digits that lead back to it.  Where two
decimal numbers with so few digits are equally near, the writer says which of them it takes.
-/

namespace Wiring

/-- A number of the 64-bit binary format. -/
inductive Binary64 where
  /-- Not a number. -/
  | nan
  /-- Beyond every number. -/
  | infinite (negative : Bool)
  /-- The mantissa times two to the exponent. -/
  | finite (negative : Bool) (mantissa : Nat) (exponent : Int)
deriving DecidableEq, Repr

namespace Binary64

/-- A power of two. -/
def pow2 (exponent : Nat) : Nat := Nat.pow 2 exponent

/-- A power of ten. -/
def pow10 (exponent : Nat) : Nat := Nat.pow 10 exponent

/-- The least mantissa of a number that is not among the smallest ones. -/
def leastMantissa : Nat := pow2 52

/-- The quotient rounded to the nearest integer, ties to the even one. -/
def roundHalfEven (n d : Nat) : Nat :=
  let q := n / d
  let r := n % d
  if 2 * r < d ∨ (2 * r = d ∧ q % 2 = 0) then q else q + 1

/-- Numerator and denominator of a quotient divided by two to the exponent. -/
def scaled (num den : Nat) (exponent : Int) : Nat × Nat :=
  if 0 ≤ exponent then (num, den * pow2 exponent.toNat) else (num * pow2 (-exponent).toNat, den)

def zero (negative : Bool) : Binary64 := .finite negative 0 (-1074)

/-- The number nearest to a quotient. -/
def ofRatio (negative : Bool) (num den : Nat) : Binary64 :=
  if num = 0 then zero negative
  else
    let guess : Int := max ((num.log2 : Int) - den.log2 - 53) (-1074)
    let (n, d) := scaled num den guess
    let exponent := if 2 * leastMantissa ≤ n / d then guess + 1 else guess
    let (n, d) := scaled num den exponent
    let mantissa := roundHalfEven n d
    let (mantissa, exponent) :=
      if mantissa = 2 * leastMantissa then (leastMantissa, exponent + 1) else (mantissa, exponent)
    if 971 < exponent then .infinite negative else .finite negative mantissa exponent

/-- The size of a finite number as numerator and denominator. -/
def ratio (mantissa : Nat) (exponent : Int) : Nat × Nat :=
  if 0 ≤ exponent then (mantissa * pow2 exponent.toNat, 1) else (mantissa, pow2 (-exponent).toNat)

/-- The number nearest to an integer. -/
def ofInt (i : Int) : Binary64 := ofRatio (i < 0) i.natAbs 1

/-- The number nearest to digits times a power of ten. -/
def ofDecimal (negative : Bool) (digits : Nat) (exponent : Int) : Binary64 :=
  let size := exponent + (Nat.toDigits 10 digits).length
  if digits = 0 || size < -400 then zero negative
  else if 400 < size then .infinite negative
  else if 0 ≤ exponent then ofRatio negative (digits * pow10 exponent.toNat) 1
  else ofRatio negative digits (pow10 (-exponent).toNat)

/-- The number with its sign changed. -/
def neg : Binary64 → Binary64
  | nan => nan
  | infinite s => infinite !s
  | finite s m e => finite (!s) m e

/-- The product of two finite numbers that are not negative, rounded. -/
def timesPositive : Binary64 → Binary64 → Binary64
  | finite _ m e, finite _ m' e' =>
      let (n, d) := ratio m e
      let (n', d') := ratio m' e'
      ofRatio false (n * n') (d * d')
  | _, _ => nan

/-- The quotient of two finite numbers that are not negative, rounded. -/
def overPositive : Binary64 → Binary64 → Binary64
  | finite _ m e, finite _ m' e' =>
      let (n, d) := ratio m e
      let (n', d') := ratio m' e'
      ofRatio false (n * d') (d * n')
  | _, _ => nan

/-- Whether a number is zero, of either sign. -/
def isZero : Binary64 → Bool
  | finite _ m _ => m == 0
  | _ => false

/-- The 64 bits of a number: sign, exponent and fraction. -/
def bits : Binary64 → Nat
  | nan => 0x7FF8000000000000
  | infinite s => (if s then pow2 63 else 0) + 0x7FF0000000000000
  | finite s m e =>
      (if s then pow2 63 else 0) +
        if m < leastMantissa then m
        else (e + 1075).toNat * leastMantissa + (m - leastMantissa)

/-- The nearest natural number, halves away from zero: nothing below zero, and `limit` for what is
beyond it. -/
def toNatUpTo (limit : Nat) : Binary64 → Nat
  | nan => 0
  | infinite s => if s then 0 else limit
  | finite s m e =>
      if s then 0
      else
        let (n, d) := ratio m e
        min ((2 * n + d) / (2 * d)) limit

/-! ### Decimal text -/

/-- Whether a multiple of a power of ten lies among the reals that round to a number: the reals up
to the middle towards its neighbours, the middle included for an even mantissa. -/
def roundsTo (mantissa : Nat) (exponent : Int) (multiple : Nat) (power : Int) : Bool :=
  -- All three numbers as multiples of one unit, two to `exponent - 2` over ten to `-power`.
  let (unitNum, unitDen) := ratio 1 (exponent - 2)
  let ten := if 0 ≤ power then (pow10 power.toNat, 1) else (1, pow10 (-power).toNat)
  let candidate := multiple * ten.1 * unitDen
  let scale := unitNum * ten.2
  let below :=
    if mantissa = leastMantissa ∧ -1074 < exponent then 4 * mantissa - 1 else 4 * mantissa - 2
  let above := 4 * mantissa + 2
  if mantissa % 2 = 0 then decide (below * scale ≤ candidate ∧ candidate ≤ above * scale)
  else decide (below * scale < candidate ∧ candidate < above * scale)

/-- Which of two neighbours on a decimal grid stands for a number half-way between them. -/
inductive Tie where
  /-- The even multiple. -/
  | toEven
  /-- The one farther from zero. -/
  | away
deriving DecidableEq, Repr

/-- Whether a number half-way above a multiple goes to the next one. -/
def Tie.goesUp : Tie → Nat → Bool
  | toEven, below => below % 2 = 1
  | away, _ => true

/-- The multiple of a power of ten next to a number that rounds to it, if there is one; of two the
nearer. -/
def onGrid? (tie : Tie) (mantissa : Nat) (exponent power : Int) : Option (Nat × Int) :=
  let (num, den) := ratio mantissa exponent
  let (n, d) :=
    if 0 ≤ power then (num, den * pow10 power.toNat) else (num * pow10 (-power).toNat, den)
  let below := n / d
  let up := d < 2 * (n % d) || 2 * (n % d) == d && tie.goesUp below
  let nearer := if up then below + 1 else below
  let farther := if up then below else below + 1
  if 0 < nearer && roundsTo mantissa exponent nearer power then some (nearer, power)
  else if 0 < farther && roundsTo mantissa exponent farther power then some (farther, power)
  else none

/-- The fewest digits that lead back to a number that is not zero, with their power of ten. -/
def shortest (tie : Tie) (mantissa : Nat) (exponent : Int) : Nat × Int :=
  let powers : List Int := (List.range 720).map fun (i : Nat) => 310 - (i : Int)
  (powers.findSome? (onGrid? tie mantissa exponent)).getD (0, 0)

/-- Digits with a point before the last of them, or behind them filled up with zeros. -/
def positional (digits : Nat) (power : Int) : String :=
  let ds := Nat.toDigits 10 digits
  if 0 ≤ power then String.ofList (ds ++ List.replicate power.toNat '0')
  else
    let places := (-power).toNat
    let padded := List.replicate (places + 1 - ds.length) '0' ++ ds
    let whole := padded.length - places
    String.ofList (padded.take whole ++ '.' :: padded.drop whole)

/-- A number as decimal text without an exponent. -/
def render (tie : Tie) : Binary64 → String
  | nan => "NaN"
  | infinite s => if s then "-inf" else "inf"
  | finite s m e =>
      let (digits, power) := if m = 0 then (0, 0) else shortest tie m e
      let size := positional digits power
      if s then "-" ++ size else size

end Binary64

end Wiring
