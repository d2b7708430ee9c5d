import Wiring.Document

/-!
# Tables of a TOML document

The lines of a document fill tables one after the other.  A table is declared once, and only from
where it is declared: what a header declares cannot be extended by dotted keys, and what dotted keys
make up cannot be declared by a header.
-/

namespace Wiring.Toml

/-- How a table has come about. -/
inductive Standing where
  /-- Below it a header declares another table. -/
  | implied
  /-- A dotted key leads through it. -/
  | dotted
  /-- A header declares it. -/
  | declared
deriving DecidableEq, Repr

/-- What stands at a key. -/
inductive Entry where
  /-- A value. -/
  | value (v : Value)
  /-- A table. -/
  | table (standing : Standing) (entries : List (String × Entry))
  /-- Tables in a row; lines go to the last of them. -/
  | series (tables : List (List (String × Entry)))

/-- The entries of a table by key. -/
abbrev Entries := List (String × Entry)

namespace Entries

/-- The entries with what stands at a key changed by `f`, which may refuse. -/
def alter (f : Option Entry → Option Entry) (key : String) : Entries → Option Entries
  | [] => (f none).map fun e => [(key, e)]
  | (k, e) :: rest =>
      if k = key then (f (some e)).map fun e => (k, e) :: rest
      else (alter f key rest).map ((k, e) :: ·)

/-- The last of the tables in a row changed by `f`. -/
def alterLast (f : Entries → Option Entries) : List Entries → Option (List Entries)
  | [] => none
  | [last] => (f last).map ([·])
  | first :: rest => (alterLast f rest).map (first :: ·)

/-- The entries with the table at the end of a path changed by `f`.  Tables that are missing on the
way are made up; dotted keys do not lead through tables that a header declares. -/
def within (dotted : Bool) (f : Standing → Entries → Option Entries) :
    List String → Standing → Entries → Option Entries
  | [], standing, es => f standing es
  | key :: path, _, es => es.alter (fun
      | none =>
          let standing := if dotted then .dotted else .implied
          (within dotted f path standing []).map (.table standing)
      | some (.value _) => none
      | some (.series tables) => (alterLast (within dotted f path .declared) tables).map .series
      | some (.table standing inner) =>
          if dotted && standing == .declared then none
          else (within dotted f path standing inner).map (.table standing)) key

/-- The entries with a value at a dotted key of the table they belong to. -/
def putValue (path : List String) (key : String) (v : Value) (es : Entries) : Option Entries :=
  es.within true (fun standing es =>
    if path.isEmpty || standing == .dotted then
      es.alter (fun
        | none => some (.value v)
        | some _ => none) key
    else none) path .declared

/-- The entries with a table declared by a header, behind the others.  A table that was implied is
moved there. -/
def declareTable (path : List String) (key : String) (es : Entries) : Option Entries :=
  es.within false (fun _ es =>
    match es.lookup key with
    | none => some (es ++ [(key, .table .declared [])])
    | some (.table .implied inner) =>
        some (es.eraseP (·.1 == key) ++ [(key, .table .declared inner)])
    | some _ => none) path .declared

/-- The entries with a further table in a row, declared by a header. -/
def declareSeries (path : List String) (key : String) (es : Entries) : Option Entries :=
  es.within false (fun _ es =>
    es.alter (fun
      | none => some (.series [[]])
      | some (.series tables) => some (.series (tables ++ [[]]))
      | some _ => none) key) path .declared

end Entries

mutual

/-- The value that an entry stands for. -/
def Entry.toValue : Entry → Value
  | .value v => v
  | .table _ es => .object (membersOf es)
  | .series tables => .list (valuesOf tables)

/-- The members that entries stand for. -/
def membersOf : List (String × Entry) → List (String × Value)
  | [] => []
  | (key, e) :: rest => (key, e.toValue) :: membersOf rest

/-- The values that tables in a row stand for. -/
def valuesOf : List (List (String × Entry)) → List Value
  | [] => []
  | es :: rest => .object (membersOf es) :: valuesOf rest

end

end Wiring.Toml
