import Wiring.Text.Digits

/-!
# Moments in TOML

Dates, times of day, and dates with a time.  A moment is read in the spellings that TOML allows and
written out in one.
-/

namespace Wiring.Toml

/-- A day of the calendar. -/
structure Date where
  year : Nat
  month : Nat
  /-- The day of the month, from 1. -/
  day : Nat
deriving DecidableEq, Repr

/-- A time of day. -/
structure TimeOfDay where
  hour : Nat
  minute : Nat
  /-- The second; 60 is a leap second. -/
  second : Nat
  /-- The digits of the fraction of the second, at most nine, without zeros at the end. -/
  fraction : List Char
deriving DecidableEq, Repr

/-- How far a time is from universal time. -/
inductive Offset where
  /-- It is universal time. -/
  | universal
  /-- So many hours and minutes ahead, or behind. -/
  | apart (behind : Bool) (hours minutes : Nat)
deriving DecidableEq, Repr

/-- A moment. -/
inductive Moment where
  /-- A day. -/
  | date (d : Date)
  /-- A time of any day. -/
  | time (t : TimeOfDay)
  /-- A time on a day, and how far it is from universal time, if that is told. -/
  | both (d : Date) (t : TimeOfDay) (offset : Option Offset)
deriving DecidableEq, Repr

/-! ### Reading -/

/-- The number between two bounds that so many digits at the front of a text stand for, and the
rest. -/
def field? (width low high : Nat) (cs : List Char) : Option (Nat × List Char) :=
  let ds := cs.take width
  let n := natOfDigits 10 ds
  if ds.length = width ∧ ds.all Char.isDigit ∧ low ≤ n ∧ n ≤ high then some (n, cs.drop width)
  else none

/-- What follows a mark. -/
def behind? (mark : Char) : List Char → Option (List Char)
  | c :: rest => if c = mark then some rest else none
  | [] => none

/-- How many days a month has. -/
def daysOf (year month : Nat) : Nat :=
  if month = 2 then
    if year % 4 = 0 ∧ (year % 100 ≠ 0 ∨ year % 400 = 0) then 29 else 28
  else if month = 4 ∨ month = 6 ∨ month = 9 ∨ month = 11 then 30
  else 31

/-- The date at the front of a text, and the rest. -/
def date? (cs : List Char) : Option (Date × List Char) := do
  let (year, cs) ← field? 4 0 9999 cs
  let (month, cs) ← field? 2 1 12 (← behind? '-' cs)
  let (day, cs) ← field? 2 1 (daysOf year month) (← behind? '-' cs)
  return (⟨year, month, day⟩, cs)

/-- The digits of a fraction of a second, if there are any, and the rest.  Those behind the ninth
are dropped. -/
def secondFraction (cs : List Char) : List Char × List Char :=
  match cs with
  | '.' :: rest =>
      match spanDigits rest with
      | ([], _) => ([], cs)
      | (ds, rest) => (((ds.take 9).reverse.dropWhile (· == '0')).reverse, rest)
  | cs => ([], cs)

/-- The time of day at the front of a text, and the rest. -/
def time? (cs : List Char) : Option (TimeOfDay × List Char) := do
  let (hour, cs) ← field? 2 0 23 cs
  let (minute, cs) ← field? 2 0 59 (← behind? ':' cs)
  let (second, cs) ← field? 2 0 60 (← behind? ':' cs)
  let (fraction, cs) := secondFraction cs
  return (⟨hour, minute, second, fraction⟩, cs)

/-- The distance from universal time at the front of a text, and the rest. -/
def offset? : List Char → Option (Offset × List Char)
  | [] => none
  | c :: cs =>
      if c == 'Z' || c == 'z' then some (.universal, cs)
      else if c == '+' || c == '-' then do
        let (hours, cs) ← field? 2 0 23 cs
        let (minutes, cs) ← field? 2 0 59 (← behind? ':' cs)
        return (.apart (c == '-' && hours + minutes ≠ 0) hours minutes, cs)
      else none

/-- The time of day behind a date, and the rest; a letter or a blank stands between them. -/
def timeBehindDate? : List Char → Option (TimeOfDay × List Char)
  | c :: cs => if c == 'T' || c == 't' || c == ' ' then time? cs else none
  | [] => none

/-- The moment at the front of a text, and the rest. -/
def moment? (cs : List Char) : Option (Moment × List Char) :=
  match date? cs with
  | none => (time? cs).map fun (t, cs) => (.time t, cs)
  | some (d, cs) =>
      match timeBehindDate? cs with
      | none => some (.date d, cs)
      | some (t, cs) =>
          match offset? cs with
          | none => some (.both d t none, cs)
          | some (offset, cs) => some (.both d t (some offset), cs)

/-- The moment that the whole of a text tells. -/
def momentTold? (s : String) : Option Moment :=
  match moment? s.toList with
  | some (m, []) => some m
  | _ => none

/-! ### Writing -/

/-- A number of at least so many digits. -/
def padded (width n : Nat) : String :=
  let ds := Nat.toDigits 10 n
  String.ofList (List.replicate (width - ds.length) '0' ++ ds)

/-- A date: year, month and day with strokes between them. -/
def Date.render (d : Date) : String :=
  padded 4 d.year ++ "-" ++ padded 2 d.month ++ "-" ++ padded 2 d.day

/-- A time of day: hour, minute and second with colons between them, and the fraction if it is not
zero. -/
def TimeOfDay.render (t : TimeOfDay) : String :=
  let fraction := if t.fraction.isEmpty then "" else "." ++ String.ofList t.fraction
  padded 2 t.hour ++ ":" ++ padded 2 t.minute ++ ":" ++ padded 2 t.second ++ fraction

/-- A distance from universal time. -/
def Offset.render : Offset → String
  | universal => "Z"
  | apart behind hours minutes =>
      (if behind then "-" else "+") ++ padded 2 hours ++ ":" ++ padded 2 minutes

def Moment.render : Moment → String
  | date d => d.render
  | time t => t.render
  | both d t offset => d.render ++ "T" ++ t.render ++ (offset.map Offset.render).getD ""

end Wiring.Toml
