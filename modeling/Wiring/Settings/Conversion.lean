import Wiring.Number.Numeral
import Wiring.Options.Document
import Wiring.Settings

/-!
# Settings as options

Sources differ in the types of their values, so a setting is converted to the type of its option
where that makes sense: a truth value counts as 1 or 0, a number as true unless it is zero, and
words such as `on` and `no` as truth values.
-/

namespace Wiring

namespace Settings

/-- A value with integers beyond 63 bits as floating-point numbers. -/
def settle : Value → Value
  | .int i => if i ≤ Width.int64.high then .int i else .float (.ofInt i)
  | v => v

/-- The truth value of a word in any case. -/
def truth? (s : String) : Option Bool :=
  let word := lowerText s
  if word = "true" ∨ word = "on" ∨ word = "yes" then some true
  else if word = "false" ∨ word = "off" ∨ word = "no" then some false
  else none

def toBool? (v : Value) : Option Bool :=
  match settle v with
  | .bool b => some b
  | .int i => some (i ≠ 0)
  | .float x => some !x.isZero
  | .text s => if s = "1" then some true else if s = "0" then some false else truth? s
  | _ => none

/-- A natural number of 64 bits; a floating-point number goes to the nearest. -/
def toWord? (v : Value) : Option UInt64 :=
  match settle v with
  | .bool b => some (if b then 1 else 0)
  | .int i => if 0 ≤ i then some (.ofNat i.toNat) else none
  | .float x => some (.ofNat (x.toNatUpTo Width.uint64.high.toNat))
  | .text s =>
      match truth? s with
      | some b => some (if b then 1 else 0)
      | none => word? s
  | _ => none

/-- The severity of a name in any case of letters. -/
def severityOfName? (name : String) : Option Severity :=
  Severity.all.find? fun s => lowerText s.name = lowerText name

/-- A severity: its name, or a table whose only member has that name. -/
def toSeverity? : Value → Option Severity
  | .text name => severityOfName? name
  | .object [(name, _)] => severityOfName? name
  | _ => none

/-- A text; numbers, truth values and moments count as written out. -/
def toText? (v : Value) : Option String :=
  match settle v with
  | .text s | .moment s => some s
  | .bool b => some (if b then "true" else "false")
  | .int i => some (toString i)
  | .float x => some (x.render .away)
  | _ => none

/-- A text or none. -/
def toOptionalText? : Value → Option (Option String)
  | .null => some none
  | v => (toText? v).map some

/-- What a setting is converted to; left out it stands for `absent`. -/
def convert {α : Type} (s : Settings) (name : String) (absent : α) (to? : Value → Option α) :
    Option α :=
  match s.get? name with
  | some v => to? v
  | none => some absent

/-- The options that settings stand for. -/
def options? (s : Settings) : Option Options := do
  let base : Options := {}
  let shrinkUnusedBindings ← s.convert "shrink_unused_bindings" base.shrinkUnusedBindings toBool?
  let fullGraphValidation ← s.convert "full_graph_validation" base.fullGraphValidation toBool?
  let maxErrorsCount ← s.convert "max_errors_count" base.maxErrorsCount toWord?
  let unusedBindingSeverity ←
    s.convert "unused_binding_severity" base.unusedBindingSeverity toSeverity?
  let reportsDestination ← s.convert "reports_destination" base.reportsDestination toOptionalText?
  return { shrinkUnusedBindings, fullGraphValidation, maxErrorsCount, unusedBindingSeverity,
           reportsDestination }

end Settings

end Wiring
