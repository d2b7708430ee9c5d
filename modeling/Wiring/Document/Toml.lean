import Wiring.Document.Toml.Moment
import Wiring.Document.Toml.Table

/-!
# TOML

Reading documents in TOML notation: comments, bare, quoted and dotted keys, texts on one line or
several, integers, floating-point numbers, truth values, moments, arrays, inline tables and headers.
-/

namespace Wiring.Toml

/-! ### Blanks, comments and ends of lines -/

/-- The blanks of TOML. -/
def isBlank (c : Char) : Bool := c == ' ' || c == '\t'

/-- The rest of a text after blanks. -/
def skipBlanks (cs : List Char) : List Char := cs.dropWhile isBlank

/-- Whether a character may stand in a comment or, unless it ends the text, between quotes. -/
def isPrintable (c : Char) : Bool := c == '\t' || (0x20 ≤ c.toNat && c.toNat != 0x7F)

/-- The rest of a text after a comment, if one begins here. -/
def skipComment : List Char → List Char
  | '#' :: rest => rest.dropWhile isPrintable
  | cs => cs

/-- What follows the end of a line. -/
def newLine? : List Char → Option (List Char)
  | '\n' :: rest => some rest
  | '\r' :: '\n' :: rest => some rest
  | _ => none

/-- What follows the end of a line or the document, after blanks and a comment. -/
def lineEnd? (cs : List Char) : Option (List Char) :=
  match skipComment (skipBlanks cs) with
  | [] => some []
  | cs => newLine? cs

/-- The rest of a text after at most so many blanks, comments and ends of lines. -/
def skipLines : Nat → List Char → List Char
  | 0, cs => cs
  | steps + 1, cs =>
      let cs := skipBlanks cs
      match newLine? (skipComment cs) with
      | some rest => skipLines steps rest
      | none => cs

/-! ### Texts -/

/-- The character behind a backslash, unless it is given by its number. -/
def shortEscape? : Char → Option Char
  | '"' => some '"'
  | '\\' => some '\\'
  | 'b' => some (Char.ofNat 8)
  | 'f' => some (Char.ofNat 12)
  | 'n' => some '\n'
  | 'r' => some '\r'
  | 't' => some '\t'
  | _ => none

/-- The character of a number, unless the number is half of a pair or too great. -/
def charOfNat? (n : Nat) : Option Char := if h : n.isValidChar then some (.ofNatAux n h) else none

/-- The number that exactly so many hexadecimal digits stand for, and the rest. -/
def hexNumber? : Nat → Nat → List Char → Option (Nat × List Char)
  | 0, n, cs => some (n, cs)
  | _ + 1, _, [] => none
  | left + 1, n, c :: rest => (hexDigit? c).bind fun d => hexNumber? left (n * 16 + d) rest

/-- The character that is written with a backslash, from what stands behind it, and the rest. -/
def escaped? : List Char → Option (Char × List Char)
  | [] => none
  | e :: rest =>
      if e == 'u' || e == 'U' then
        (hexNumber? (if e == 'u' then 4 else 8) 0 rest).bind fun (n, rest) =>
          (charOfNat? n).map fun c => (c, rest)
      else (shortEscape? e).map fun c => (c, rest)

/-- The characters up to the closing quotation mark, behind those read, and what follows it; at most
so many characters are read. -/
def basicText? : Nat → List Char → List Char → Option (String × List Char)
  | 0, _, _ => none
  | _, _, [] => none
  | steps + 1, done, c :: rest =>
      if c == '"' then some (String.ofList done.reverse, rest)
      else if c == '\\' then
        (escaped? rest).bind fun (c, rest) => basicText? steps (c :: done) rest
      else if isPrintable c then basicText? steps (c :: done) rest
      else none

/-- The characters up to the closing apostrophe, and what follows it. -/
def literalText? (cs : List Char) : Option (String × List Char) :=
  let text := cs.takeWhile fun c => isPrintable c && c != '\''
  match cs.drop text.length with
  | '\'' :: rest => some (String.ofList text, rest)
  | _ => none

/-- The text in quotes on one line at the front, and the rest. -/
def quoted? : List Char → Option (String × List Char)
  | '"' :: rest => basicText? (rest.length + 1) [] rest
  | '\'' :: rest => literalText? rest
  | _ => none

/-- The rest of a text after blanks and ends of lines. -/
def skipGap : List Char → List Char
  | ' ' :: rest | '\t' :: rest | '\n' :: rest | '\r' :: '\n' :: rest => skipGap rest
  | cs => cs

/-- The characters up to three closing marks, behind those read, and what follows them; at most so
many characters are read.  One or two marks more in front of the closing ones belong to the text.
Between quotation marks a backslash escapes, and at the end of a line it takes away the gap up to
the next character. -/
def blockText? (mark : Char) : Nat → List Char → List Char → Option (String × List Char)
  | 0, _, _ => none
  | _, _, [] => none
  | steps + 1, done, c :: rest =>
      if c == mark then
        let further := (rest.takeWhile (· == mark)).length
        if further < 2 then blockText? mark steps (c :: done) rest
        else
          let kept := min (further - 2) 2
          some (String.ofList (List.replicate kept mark ++ done).reverse, rest.drop (kept + 2))
      else if c == '\\' && mark == '"' then
        match newLine? (skipBlanks rest) with
        | some rest => blockText? mark steps done (skipGap rest)
        | none => (escaped? rest).bind fun (c, rest) => blockText? mark steps (c :: done) rest
      else
        match newLine? (c :: rest) with
        | some rest => blockText? mark steps ('\n' :: done) rest
        | none => if isPrintable c then blockText? mark steps (c :: done) rest else none

/-- The text behind three opening marks, and the rest.  The end of a line behind them is no part of
it. -/
def block? (mark : Char) (cs : List Char) : Option (String × List Char) :=
  blockText? mark (cs.length + 1) [] ((newLine? cs).getD cs)

/-- The text in quotes at the front, and the rest. -/
def text? : List Char → Option (String × List Char)
  | '"' :: '"' :: '"' :: rest => block? '"' rest
  | '\'' :: '\'' :: '\'' :: rest => block? '\'' rest
  | cs => quoted? cs

/-! ### Keys -/

/-- Whether a character may stand in a key without quotes. -/
def isBare (c : Char) : Bool := c.isAlphanum || c == '_' || c == '-'

/-- One part of a key, and the rest. -/
def keyPart? (cs : List Char) : Option (String × List Char) :=
  match cs.takeWhile isBare with
  | [] => quoted? cs
  | bare => some (String.ofList bare, cs.drop bare.length)

/-- The parts of a key with points between them, and the rest; blanks may stand around each part. At
most so many parts are read. -/
def keyParts? : Nat → List Char → Option (List String × List Char)
  | 0, _ => none
  | left + 1, cs =>
      match keyPart? (skipBlanks cs) with
      | none => none
      | some (part, rest) =>
          match skipBlanks rest with
          | '.' :: rest => (keyParts? left rest).map fun (parts, rest) => (part :: parts, rest)
          | rest => some ([part], rest)

/-- How many parts a key may have, and how deep arrays and inline tables may be nested. -/
def depthLimit : Nat := 79

/-- A key: the tables that lead to it, and its last part. -/
structure Key where
  /-- The tables that lead to it. -/
  path : List String
  last : String
deriving DecidableEq, Repr

/-- The key at the front of a text, and the rest. -/
def key? (cs : List Char) : Option (Key × List Char) :=
  (keyParts? depthLimit cs).bind fun (parts, rest) =>
    parts.getLast?.map fun last => (⟨parts.dropLast, last⟩, rest)

/-! ### Numbers -/

/-- The digits at the front of a text, and the rest; an underline may stand between two digits. -/
def underlinedDigits? (isDigit : Char → Bool) : List Char → Option (List Char × List Char)
  | c :: '_' :: rest =>
      if isDigit c then (underlinedDigits? isDigit rest).map fun (ds, rest) => (c :: ds, rest)
      else none
  | c :: rest =>
      if isDigit c then
        match underlinedDigits? isDigit rest with
        | some (ds, rest) => some (c :: ds, rest)
        | none => if rest.head?.any isDigit then none else some ([c], rest)
      else none
  | [] => none

/-- An integer, if 64 bits hold it. -/
def integer? (i : Int) : Option Value := (Width.int64.fit? i).map .int

/-- The integer in a base behind its mark, and the rest. -/
def inBase? (base : Nat) (isDigit : Char → Bool) (cs : List Char) : Option (Value × List Char) :=
  (underlinedDigits? isDigit cs).bind fun (ds, rest) =>
    (integer? (natOfDigits base ds)).map fun v => (v, rest)

/-- The digits behind a point, if there is one, and the rest. -/
def fraction? : List Char → Option (Option (List Char) × List Char)
  | '.' :: rest => (underlinedDigits? Char.isDigit rest).map fun (ds, rest) => (some ds, rest)
  | rest => some (none, rest)

/-- The exponent, if there is one, and the rest. -/
def exponent? : List Char → Option (Option Int × List Char)
  | e :: rest =>
      if e == 'e' || e == 'E' then
        let (negative, rest) := spanSign rest
        (underlinedDigits? Char.isDigit rest).map fun (ds, rest) =>
          (some (signedInt negative (natOfDigits 10 ds)), rest)
      else some (none, e :: rest)
  | [] => some (none, [])

/-- The digits of a number before the point: no zero stands before other digits. -/
def wholeDigits? : List Char → Option (List Char × List Char)
  | '0' :: rest => some (['0'], rest)
  | cs => underlinedDigits? Char.isDigit cs

/-- The decimal number at the front of a text, and the rest. -/
def decimal? (cs : List Char) : Option (Value × List Char) := do
  let (negative, cs) := spanSign cs
  let (whole, cs) ← wholeDigits? cs
  let (fraction, cs) ← fraction? cs
  let (exponent, cs) ← exponent? cs
  if fraction.isNone && exponent.isNone then
    let v ← integer? (signedInt negative (natOfDigits 10 whole))
    return (v, cs)
  else
    let places := fraction.getD []
    let x := Binary64.ofDecimal negative (natOfDigits 10 (whole ++ places))
      (exponent.getD 0 - places.length)
    if x = .infinite false then none else return (.float x, cs)

/-- The number at the front of a text, and the rest. -/
def number? (cs : List Char) : Option (Value × List Char) :=
  match cs with
  | '0' :: 'x' :: rest => inBase? 16 (fun c => (hexDigit? c).isSome) rest
  | '0' :: 'o' :: rest => inBase? 8 (fun c => '0' ≤ c && c ≤ '7') rest
  | '0' :: 'b' :: rest => inBase? 2 (fun c => c == '0' || c == '1') rest
  | _ =>
      let (negative, digits) := spanSign cs
      match digits with
      | 'i' :: 'n' :: 'f' :: rest => some (.float (.infinite negative), rest)
      | 'n' :: 'a' :: 'n' :: rest => some (.float .nan, rest)
      | _ => decimal? cs

/-! ### Values -/

mutual

/-- The value at the front of a text, and the rest: at most so many values are begun, and arrays and
inline tables are nested at most so deep. -/
def value? : Nat → Nat → List Char → Option (Value × List Char)
  | 0, _, _ => none
  | steps + 1, levels, cs =>
      match cs with
      | 't' :: 'r' :: 'u' :: 'e' :: rest => some (.bool true, rest)
      | 'f' :: 'a' :: 'l' :: 's' :: 'e' :: rest => some (.bool false, rest)
      | '"' :: _ | '\'' :: _ => (text? cs).map fun (s, rest) => (.text s, rest)
      | '[' :: rest => if levels = 0 then none else elements? steps (levels - 1) rest []
      | '\x7b' :: rest =>
          if levels = 0 then none
          else
            match skipBlanks rest with
            | '\x7d' :: rest => some (.object [], rest)
            | rest => pairs? steps (levels - 1) rest []
      | _ =>
          match moment? cs with
          | some (m, rest) => some (.moment m.render, rest)
          | none => number? cs

/-- The elements of an array up to its end, behind those read. -/
def elements? : Nat → Nat → List Char → List Value → Option (Value × List Char)
  | 0, _, _, _ => none
  | steps + 1, levels, cs, done =>
      match skipLines steps cs with
      | ']' :: rest => some (.list done.reverse, rest)
      | cs =>
          match value? steps levels cs with
          | none => none
          | some (v, rest) =>
              match skipLines steps rest with
              | ',' :: rest => elements? steps levels rest (v :: done)
              | ']' :: rest => some (.list (v :: done).reverse, rest)
              | _ => none

/-- The members of an inline table up to its end, behind those read. -/
def pairs? : Nat → Nat → List Char → Entries → Option (Value × List Char)
  | 0, _, _, _ => none
  | steps + 1, levels, cs, done =>
      match key? cs with
      | some (key, '=' :: rest) =>
          match value? steps levels (skipBlanks rest) with
          | none => none
          | some (v, rest) =>
              match done.putValue key.path key.last v with
              | none => none
              | some done =>
                  match skipBlanks rest with
                  | ',' :: rest => pairs? steps levels rest done
                  | '\x7d' :: rest => some (.object (membersOf done), rest)
                  | _ => none
      | _ => none

end

/-! ### Lines -/

/-- A line of a document. -/
inductive Line where
  /-- Nothing but blanks and a comment. -/
  | empty
  /-- A header that declares a table. -/
  | table (key : Key)
  /-- A header that declares a further table in a row. -/
  | series (key : Key)
  /-- A value at a key. -/
  | pair (key : Key) (v : Value)

/-- The line at the front of a text, and the lines that follow. -/
def line? (cs : List Char) : Option (Line × List Char) := do
  match skipBlanks cs with
  | [] => return (.empty, [])
  | '#' :: _ | '\n' :: _ | '\r' :: _ => return (.empty, ← lineEnd? cs)
  | '[' :: '[' :: rest =>
      match ← key? rest with
      | (key, ']' :: ']' :: rest) => return (.series key, ← lineEnd? rest)
      | _ => none
  | '[' :: rest =>
      match ← key? rest with
      | (key, ']' :: rest) => return (.table key, ← lineEnd? rest)
      | _ => none
  | cs =>
      match ← key? cs with
      | (key, '=' :: rest) =>
          let (v, rest) ← value? (2 * rest.length + 2) depthLimit (skipBlanks rest)
          return (.pair key v, ← lineEnd? rest)
      | _ => none

/-- The lines of a text; at most so many are read. -/
def lines? : Nat → List Char → Option (List Line)
  | _, [] => some []
  | 0, _ => none
  | steps + 1, cs => (line? cs).bind fun (line, rest) => (lines? steps rest).map (line :: ·)

/-- Fills the table that the last header declared, and those of further headers, with lines. -/
def fill : List String → List Line → Entries → Option Entries
  | _, [], es => some es
  | open_, .empty :: rest, es => fill open_ rest es
  | _, .table key :: rest, es =>
      (es.declareTable key.path key.last).bind (fill (key.path ++ [key.last]) rest)
  | _, .series key :: rest, es =>
      (es.declareSeries key.path key.last).bind (fill (key.path ++ [key.last]) rest)
  | open_, .pair key v :: rest, es =>
      (es.within false (fun _ es => es.putValue key.path key.last v) open_ .declared).bind
        (fill open_ rest)

/-- A text without a byte order mark in front. -/
def dropByteOrderMark : List Char → List Char
  | '\uFEFF' :: rest => rest
  | cs => cs

/-- The document that a text holds, behind a byte order mark if there is one. -/
def parse? (s : String) : Option Value :=
  let cs := dropByteOrderMark s.toList
  (lines? (cs.length + 1) cs).bind fun lines =>
    (fill [] lines []).map fun es => .object (membersOf es)

/-- Documents are nested as deep as they like. -/
def reading : Reading := ⟨.unlimited, .toml⟩

end Wiring.Toml
