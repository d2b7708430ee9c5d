import Wiring.Document
import Wiring.Text.Digits

/-!
# JSON

Reading and writing documents in JSON notation.  Reading is strict: no comments, no commas at the
end, no leading zeros, nothing but white space around the document.  An integer that 64 bits cannot
hold is read as a floating-point number.
-/

namespace Wiring.Json

/-! ### Reading -/

/-- The white space of JSON. -/
def isSpace (c : Char) : Bool := c == ' ' || c == '\n' || c == '\t' || c == '\r'

/-- The rest of a text after white space. -/
def skipSpace (cs : List Char) : List Char := cs.dropWhile isSpace

/-- The character behind a backslash, unless it is given by its number. -/
def shortEscape? : Char → Option Char
  | '"' => some '"'
  | '\\' => some '\\'
  | '/' => some '/'
  | 'b' => some (Char.ofNat 8)
  | 'f' => some (Char.ofNat 12)
  | 'n' => some '\n'
  | 'r' => some '\r'
  | 't' => some '\t'
  | _ => none

/-- Whether a number is the first half of a pair that gives one character. -/
def isHighHalf (n : Nat) : Bool := 0xD800 ≤ n && n ≤ 0xDBFF

/-- Whether a number is the second half of a pair that gives one character. -/
def isLowHalf (n : Nat) : Bool := 0xDC00 ≤ n && n ≤ 0xDFFF

/-- The character of a pair of halves. -/
def joinHalves (high low : Nat) : Char :=
  Char.ofNat (0x10000 + (high - 0xD800) * 0x400 + (low - 0xDC00))

/-- A text that is being read. -/
structure TextScan where
  done : List Char := []
  /-- The first half of a character whose second half should follow. -/
  half : Option Nat := none
  /-- Whether no half of a character stood alone so far. -/
  whole : Bool := true

namespace TextScan

def push (t : TextScan) (c : Char) : TextScan :=
  { done := c :: t.done, half := none, whole := t.whole && t.half.isNone }

/-- Adds the character of a number, or the half of one. -/
def pushCode (t : TextScan) (n : Nat) : TextScan :=
  match t.half with
  | some high =>
      if isLowHalf n then { t with done := joinHalves high n :: t.done, half := none }
      else { t with half := none, whole := false }
  | none =>
      if isHighHalf n then { t with half := some n }
      else if isLowHalf n then { t with whole := false }
      else t.push (Char.ofNat n)

/-- The text, unless half a character stood alone. -/
def text? (t : TextScan) : Option String :=
  if t.whole && t.half.isNone then some (String.ofList t.done.reverse) else none

end TextScan

/-- Where in a text reading stands. -/
inductive TextMode where
  /-- Between characters. -/
  | plain
  /-- Behind a backslash. -/
  | escaped
  /-- Before so many hexadecimal digits, behind those of a number. -/
  | numbered (left value : Nat)

/-- The text up to the closing quote, none if it has half a character, and what follows the quote.
-/
def scanText (t : TextScan) : TextMode → List Char → Option (Option String × List Char)
  | _, [] => none
  | .plain, c :: rest =>
      if c == '"' then some (t.text?, rest)
      else if c == '\\' then scanText t .escaped rest
      else if c.toNat < 0x20 then none
      else scanText (t.push c) .plain rest
  | .escaped, c :: rest =>
      if c == 'u' then scanText t (.numbered 4 0) rest
      else
        match shortEscape? c with
        | some c => scanText (t.push c) .plain rest
        | none => none
  | .numbered left value, c :: rest =>
      match hexDigit? c with
      | none => none
      | some d =>
          if left ≤ 1 then scanText (t.pushCode (value * 16 + d)) .plain rest
          else scanText t (.numbered (left - 1) (value * 16 + d)) rest

/-- The text behind an opening quote. -/
def text? (cs : List Char) : Option (Option String × List Char) := scanText {} .plain cs

/-- A number as written: sign, whole digits, digits behind the point and the exponent. -/
structure Numeral where
  /-- Whether a minus sign stands in front. -/
  negative : Bool
  whole : List Char
  /-- The digits behind the point, if there is one. -/
  fraction : Option (List Char)
  /-- The exponent, if there is one. -/
  exponent : Option Int

/-- The exponent at the front of a text, if there is one, and the rest. -/
def exponent? : List Char → Option (Option Int × List Char)
  | e :: rest =>
      if e == 'e' || e == 'E' then
        let (negative, rest) := spanSign rest
        let (ds, rest) := spanDigits rest
        if ds.isEmpty then none else some (some (signedInt negative (natOfDigits 10 ds)), rest)
      else some (none, e :: rest)
  | [] => some (none, [])

/-- The digits behind a point at the front of a text, if there is one, and the rest. -/
def fraction? : List Char → Option (Option (List Char) × List Char)
  | '.' :: rest =>
      let (ds, rest) := spanDigits rest
      if ds.isEmpty then none else some (some ds, rest)
  | rest => some (none, rest)

/-- The number at the front of a text, and the rest. -/
def numeral? (cs : List Char) : Option (Numeral × List Char) := do
  let (negative, cs) := match cs with
    | '-' :: rest => (true, rest)
    | rest => (false, rest)
  let (whole, cs) := spanDigits cs
  if whole.isEmpty || (whole.head? == some '0' && 1 < whole.length) then none
  else
    let (fraction, cs) ← fraction? cs
    let (exponent, cs) ← exponent? cs
    return ({ negative, whole, fraction, exponent }, cs)

/-- Takes digits up as long as 64 bits hold the number, with the number of those taken. -/
def takeDigits : Nat → Nat → List Char → Nat × Nat
  | n, taken, [] => (n, taken)
  | n, taken, d :: rest =>
      let next := n * 10 + (d.toNat - '0'.toNat)
      if Width.uint64.holds next then takeDigits next (taken + 1) rest else (n, taken)

/-- The floating-point number of leading digits, scaled once by a power of ten; none if it is beyond
every number. -/
def scale? (negative : Bool) (leading : Nat) (power : Int) : Option Binary64 :=
  let significand := Binary64.ofInt leading
  let signed (x : Binary64) := if negative then x.neg else x
  if 0 ≤ power then
    if leading = 0 then some (Binary64.zero negative)
    else if 308 < power then none
    else
      match significand.timesPositive (Binary64.ofDecimal false 1 power) with
      | .finite s m e => some (signed (.finite s m e))
      | _ => none
  else
    let size := (-power).toNat
    -- Powers beyond the range are divided out step by step.
    let steps := min ((size - 1) / 308) 3
    let reduced := steps.repeat
      (fun x => x.overPositive (Binary64.ofDecimal false 1 308)) significand
    let remaining := size - steps * 308
    if 308 < remaining then some (Binary64.zero negative)
    else some (signed (reduced.overPositive (Binary64.ofDecimal false 1 remaining)))

/-- The value of a number as written. -/
def Numeral.value (n : Numeral) : Value :=
  let whole := natOfDigits 10 n.whole
  let isInteger := n.fraction.isNone && n.exponent.isNone
  if isInteger && !n.negative && Width.uint64.holds whole then .int whole
  else if isInteger && n.negative && 0 < whole && Width.int64.holds (-whole) then .int (-whole)
  else
    let (leading, taken) := takeDigits 0 0 n.whole
    let dropped := n.whole.length - taken
    let (leading, places) := takeDigits leading 0 (n.fraction.getD [])
    match scale? n.negative leading (n.exponent.getD 0 + dropped - places) with
    | some x => .float x
    | none => .unreadable

mutual

/-- The value at the front of a text, and the rest; at most so many values and members are begun. -/
def value? : Nat → List Char → Option (Value × List Char)
  | 0, _ => none
  | steps + 1, cs =>
      match skipSpace cs with
      | 'n' :: 'u' :: 'l' :: 'l' :: rest => some (.null, rest)
      | 't' :: 'r' :: 'u' :: 'e' :: rest => some (.bool true, rest)
      | 'f' :: 'a' :: 'l' :: 's' :: 'e' :: rest => some (.bool false, rest)
      | '"' :: rest => (text? rest).map fun (s, rest) =>
          match s with
          | some s => (.text s, rest)
          | none => (.unreadable, rest)
      | '[' :: rest =>
          match skipSpace rest with
          | ']' :: rest => some (.list [], rest)
          | rest => elements? steps rest []
      | '\x7b' :: rest =>
          match skipSpace rest with
          | '\x7d' :: rest => some (.object [], rest)
          | rest => members? steps rest [] true
      | cs => (numeral? cs).map fun (n, rest) => (n.value, rest)

/-- The elements of a list up to its end, behind those read. -/
def elements? : Nat → List Char → List Value → Option (Value × List Char)
  | 0, _, _ => none
  | steps + 1, cs, done =>
      match value? steps cs with
      | none => none
      | some (v, rest) =>
          match skipSpace rest with
          | ',' :: rest => elements? steps rest (v :: done)
          | ']' :: rest => some (.list (v :: done).reverse, rest)
          | _ => none

/-- The members of an object up to its end, behind those read.  An object with a name that has half
a character cannot be read. -/
def members? : Nat → List Char → List (String × Value) → Bool → Option (Value × List Char)
  | 0, _, _, _ => none
  | steps + 1, cs, done, whole =>
      match skipSpace cs with
      | '"' :: rest =>
          match text? rest with
          | none => none
          | some (name, rest) =>
              match skipSpace rest with
              | ':' :: rest =>
                  match value? steps rest with
                  | none => none
                  | some (v, rest) =>
                      let whole := whole && name.isSome
                      let done := (name.getD "", v) :: done
                      match skipSpace rest with
                      | ',' :: rest => members? steps rest done whole
                      | '\x7d' :: rest =>
                          some (if whole then .object done.reverse else .unreadable, rest)
                      | _ => none
              | _ => none
      | _ => none

end

/-- The document that a text holds. -/
def parse? (s : String) : Option Value :=
  let cs := s.toList
  match value? (2 * cs.length + 2) cs with
  | some (v, rest) => if (skipSpace rest).isEmpty then some v else none
  | none => none

/-- Documents are nested at most 127 deep. -/
def reading : Reading := ⟨.atMost 127, .json⟩

/-! ### Writing -/

def hexDigit (n : Nat) : Char := (Nat.toDigits 16 n).headD '0'

/-- A character inside quotes. -/
def escape (c : Char) : List Char :=
  if c == '"' then ['\\', '"']
  else if c == '\\' then ['\\', '\\']
  else if c == '\n' then ['\\', 'n']
  else if c == '\r' then ['\\', 'r']
  else if c == '\t' then ['\\', 't']
  else if c.toNat = 8 then ['\\', 'b']
  else if c.toNat = 12 then ['\\', 'f']
  else if c.toNat < 0x20 then
    ['\\', 'u', '0', '0', hexDigit (c.toNat / 16), hexDigit (c.toNat % 16)]
  else [c]

/-- A text in quotes. -/
def quote (s : String) : String := "\"" ++ String.ofList (s.toList.flatMap escape) ++ "\""

/-- A number that is not an integer; what is no number has no form. -/
def number : Binary64 → String
  | .nan | .infinite _ => "null"
  | x =>
      let digits := x.render .toEven
      if digits.contains '.' then digits else digits ++ ".0"

mutual

/-- A value on one line. -/
def compact : Value → String
  | .null | .unreadable => "null"
  | .bool b => if b then "true" else "false"
  | .int i => toString i
  | .float x => number x
  | .text s | .moment s => quote s
  | .list values => "[" ++ ",".intercalate (compactElements values) ++ "]"
  | .object members => "\x7b" ++ ",".intercalate (compactMembers members) ++ "\x7d"

/-- Each value of a list on one line. -/
def compactElements : List Value → List String
  | [] => []
  | v :: rest => compact v :: compactElements rest

/-- Each member of an object on one line. -/
def compactMembers : List (String × Value) → List String
  | [] => []
  | (name, v) :: rest => (quote name ++ ":" ++ compact v) :: compactMembers rest

end

/-- A new line, two blanks in for each level. -/
def newLine (level : Nat) : String := "\n" ++ String.ofList (List.replicate (2 * level) ' ')

/-- Parts between brackets, each on a line of its own. -/
def block (opening closing : String) (level : Nat) (parts : List String) : String :=
  if parts.isEmpty then opening ++ closing
  else
    opening ++ newLine (level + 1) ++ ("," ++ newLine (level + 1)).intercalate parts ++
      newLine level ++ closing

mutual

/-- A value over several lines, inside so many lists and objects. -/
def prettyAt (level : Nat) : Value → String
  | .list values => block "[" "]" level (prettyElements (level + 1) values)
  | .object members => block "\x7b" "\x7d" level (prettyMembers (level + 1) members)
  | v => compact v

/-- Each value of a list over several lines. -/
def prettyElements (level : Nat) : List Value → List String
  | [] => []
  | v :: rest => prettyAt level v :: prettyElements level rest

/-- Each member of an object over several lines. -/
def prettyMembers (level : Nat) : List (String × Value) → List String
  | [] => []
  | (name, v) :: rest => (quote name ++ ": " ++ prettyAt level v) :: prettyMembers level rest

end

/-- A document over several lines. -/
def pretty (v : Value) : String := prettyAt 0 v

end Wiring.Json
