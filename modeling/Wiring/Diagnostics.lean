import Wiring.GraphError

/-!
# Diagnostics

Errors are collected while a graph is built.  An error that is stored already is not stored again,
and once as many are stored as the cap allows, further errors are only counted.
-/

namespace Wiring

/-- Errors in the order they were reported, and how many were not kept. -/
structure ErrorReport where
  errors : List GraphError
  suppressed : Nat := 0
deriving DecidableEq, Repr

namespace ErrorReport

/-- The number of errors, kept or not. -/
def total (r : ErrorReport) : Nat := r.errors.length + r.suppressed

/-- The first error of a kind. -/
def find? (r : ErrorReport) (kind : GraphError.Kind) : Option GraphError :=
  r.errors.find? fun e => e.kind = kind

/-- One error with its number and its declaration. -/
def renderError (number : Nat) (e : GraphError) : String :=
  let origin := match e.origin? with
    | some o => "\n  位于 " ++ o.render
    | none => ""
  "错误[" ++ toString number ++ "]: " ++ e.message ++ origin

/-- The errors one below the other, and the number of those not kept. -/
def render (r : ErrorReport) : String :=
  let errors := "\n".intercalate (r.errors.zipIdx.map fun (e, i) => renderError (i + 1) e)
  if r.suppressed > 0 then errors ++ "\n另有 " ++ toString r.suppressed ++ " 个错误未显示" else errors

end ErrorReport

/-- A collector of errors. -/
structure Diagnostics where
  /-- The errors kept, in the order they were reported. -/
  stored : List GraphError
  /-- How many errors may be kept. -/
  cap : Nat
  /-- How many errors were not kept. -/
  suppressed : Nat
deriving DecidableEq, Repr

namespace Diagnostics

/-- The cap where none is asked for. -/
def defaultCap : Nat := 20

/-- A collector without errors; it keeps at least one. -/
def ofCap (cap : Nat) : Diagnostics := ⟨[], max cap 1, 0⟩

/-- Whether the collector keeps no further error. -/
def limitReached (d : Diagnostics) : Bool := d.cap ≤ d.stored.length

/-- Whether an error would be kept. -/
def accepts (d : Diagnostics) (e : GraphError) : Bool := !d.stored.contains e && !d.limitReached

/-- The collector after an error: known ones change nothing, those beyond the cap are counted. -/
def report (d : Diagnostics) (e : GraphError) : Diagnostics :=
  if d.stored.contains e then d
  else if d.limitReached then { d with suppressed := d.suppressed + 1 }
  else { d with stored := d.stored ++ [e] }

/-- The collector after a list of errors. -/
def reportAll (d : Diagnostics) (errors : List GraphError) : Diagnostics := errors.foldl report d

/-- The collector after all that another one holds. -/
def absorb (d other : Diagnostics) : Diagnostics :=
  { d with suppressed := d.suppressed + other.suppressed }.reportAll other.stored

/-- Whether no error was reported. -/
def isEmpty (d : Diagnostics) : Bool := d.stored.isEmpty && d.suppressed == 0

/-- The number of errors, kept or not. -/
def total (d : Diagnostics) : Nat := d.stored.length + d.suppressed

/-- Whether an error of a kind is kept. -/
def hasKind (d : Diagnostics) (kind : GraphError.Kind) : Bool :=
  d.stored.any fun e => e.kind = kind

/-- What the collector holds. -/
def toReport (d : Diagnostics) : ErrorReport := ⟨d.stored, d.suppressed⟩

/-- A value, unless an error was reported. -/
def result {α : Type} (d : Diagnostics) (value : α) : Except ErrorReport α :=
  if d.isEmpty then .ok value else .error d.toReport

end Diagnostics

end Wiring
