/-!
# Options

What a user may choose about a resolution.
-/

namespace Wiring

/-- What becomes of bindings that nothing uses. -/
inductive Severity where
  /-- Nothing is said. -/
  | none
  /-- They are mentioned. -/
  | warn
  /-- They are errors. -/
  | error
deriving DecidableEq, Repr

def Severity.name : Severity → String
  | none => "NONE"
  | warn => "WARN"
  | error => "ERROR"

def Severity.all : List Severity := [none, warn, error]

/-- What a user may choose. -/
structure Options where
  /-- Whether bindings that no root reaches are left out of the graph. -/
  shrinkUnusedBindings : Bool := true
  /-- Whether every declared binding is checked, reached or not. -/
  fullGraphValidation : Bool := false
  /-- How many errors are kept for one graph. -/
  maxErrorsCount : UInt64 := 20
  /-- What becomes of declared bindings that no root reaches. -/
  unusedBindingSeverity : Severity := .none
  /-- The directory that metadata documents are written to. -/
  reportsDestination : Option String := none
deriving DecidableEq, Repr

/-- Why options are refused. -/
inductive OptionsError where
  /-- A number is out of range. -/
  | valueOutOfRange (field value range : String)
  /-- A value is not allowed. -/
  | invalidFieldValue (field value reason : String)
deriving DecidableEq, Repr

/-- The text of the refusal. -/
def OptionsError.message : OptionsError → String
  | valueOutOfRange field value range =>
      "验证错误: 字段值超出范围: " ++ field ++ ", 值: " ++ value ++ ", 范围: " ++ range
  | invalidFieldValue field value reason =>
      "验证错误: 字段值无效: " ++ field ++ ", 值: " ++ value ++ ", 原因: " ++ reason

namespace Options

/-- Whether declared bindings are roots beside the entry points: they are, unless they may be left
out unchecked. -/
def validatesAllDeclarations (o : Options) : Bool :=
  o.fullGraphValidation || !o.shrinkUnusedBindings

/-- The options, if they make sense: some error is kept, and the destination is a path. -/
def validate (o : Options) : Except OptionsError Options :=
  if o.maxErrorsCount = 0 then .error (.valueOutOfRange "max_errors_count" "0" "> 0")
  else if o.reportsDestination = some "" then
    .error (.invalidFieldValue "reports_destination" "" "路径不能为空")
  else .ok o

end Options

end Wiring
