import Wiring.Document.Toml.MomentTable
import Wiring.Facts.Parse
import Wiring.Settings.Conversion

/-!
# Loading options

Options are gathered from a base, from files in their order, and from variables of the environment.
Each of these layers may say something about each option, and the last to do so counts.
-/

namespace Wiring

/-- A file with settings. -/
inductive SettingsFile where
  /-- There is no file at a path. -/
  | missing (path : String)
  /-- A file with a text. -/
  | present (format : DocumentFormat) (text : String)
deriving DecidableEq, Repr

/-- Variables of the environment. -/
structure Environment where
  /-- The word in front of the names of those that count. -/
  word : String
  entries : List (String × String)
deriving DecidableEq, Repr

/-- Where options come from. -/
structure OptionSources where
  base : Options := {}
  files : List SettingsFile := []
  environment : Option Environment := none
  /-- Whether the options have to make sense. -/
  validated : Bool := true

/-- Why options cannot be loaded. -/
inductive LoadError where
  /-- There is no file at a path. -/
  | fileNotFound (path : String)
  /-- A source cannot be read, or a setting cannot be converted to its option. -/
  | unreadable
  /-- The options make no sense. -/
  | refused (error : OptionsError)
deriving DecidableEq, Repr

/-- The text of an error, where there is one. -/
def LoadError.message? : LoadError → Option String
  | fileNotFound path => some ("配置错误: 配置文件不存在: " ++ path)
  | unreadable => none
  | refused error => some error.message

namespace SettingsFile

/-- The path of a file that is missing. -/
def missing? : SettingsFile → Option String
  | missing path => some path
  | present .. => none

/-- Whether a document may be nested as deep as it is, and denotes something in every part. -/
def isSound (format : DocumentFormat) (v : Value) : Bool :=
  format.reading.nesting.admits v && v.isReadable

/-- The document of a file.  In TOML, tables may stand for moments. -/
def document? : DocumentFormat → String → Option Value
  | .json, text => Json.parse? text
  | .toml, text => (Toml.parse? text).bind Toml.withMoments?

/-- The settings in a file. -/
def settings? : SettingsFile → Option (List (String × Value))
  | missing _ => none
  | present format text =>
      match document? format text with
      | some (.object members) => if isSound format (.object members) then some members else none
      | _ => none

end SettingsFile

namespace Environment

/-- The value of a variable: a truth value, an integer, a floating-point number, or else a text. -/
def valueOf (text : String) : Value :=
  if lowerText text = "true" then .bool true
  else if lowerText text = "false" then .bool false
  else
    match integer? text with
    | some i => .int i
    | none =>
        match Binary64.ofText? text with
        | some x => .float x
        | none => .text text

/-- What follows the word and an underline in the name of a variable, in lower case. -/
def setting? (e : Environment) (name : String) : Option String :=
  let opening := (lowerText e.word ++ "_").toList
  let name := (lowerText name).toList
  if opening.isPrefixOf name then some (String.ofList (name.drop opening.length)) else none

/-- The settings in variables. -/
def settings (e : Environment) : List (String × Value) :=
  e.entries.filterMap fun (name, text) => (e.setting? name).map fun name => (name, valueOf text)

end Environment

namespace OptionSources

/-- The settings in the base; its numbers are signed ones of 64 bits. -/
def baseSettings? (base : Options) : Option Settings :=
  if Width.int64.holds base.maxErrorsCount.toNat then
    match base.write with
    | .object members => some ⟨members⟩
    | _ => none
  else none

/-- The settings of all layers. -/
def settings? (s : OptionSources) : Option Settings := do
  let base ← baseSettings? s.base
  let files ← s.files.mapM SettingsFile.settings?
  let overrides := (s.environment.map Environment.settings).toList
  return (files ++ overrides).foldl Settings.layer base

/-- The options, if every file is there, everything can be read, and they make sense. -/
def load (s : OptionSources) : Except LoadError Options :=
  match s.files.findSome? SettingsFile.missing? with
  | some path => .error (.fileNotFound path)
  | none =>
      match s.settings?.bind Settings.options? with
      | none => .error .unreadable
      | some o => if s.validated then o.validate.mapError .refused else .ok o

end OptionSources

end Wiring
