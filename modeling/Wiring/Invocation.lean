import Wiring.Options.Loading

/-!
# Invocations

What a user asks for on the command line: a file with facts, and options in any order around it.  An
option has at most one value and is given at most once.
-/

namespace Wiring

/-- What a user asks for. -/
structure Invocation where
  facts : String
  config : Option String := none
  /-- Where metadata goes, whatever the options say. -/
  output : Option String := none
  /-- Whether every declared binding is checked, whatever the options say. -/
  fullValidation : Bool := false
  /-- Whether a summary of each graph is printed. -/
  stats : Bool := false
  /-- How many keys of the greatest fan-in and fan-out a summary holds. -/
  top : Nat := 5
deriving DecidableEq, Repr

namespace Invocation

/-- How an invocation is written. -/
def usage : String :=
  "graph-report FACTS [-c|--config FILE] [-o|--output DIRECTORY] [--full-validation] [--stats]" ++
    " [--top NUMBER]"

/-- The options with a value, by their spellings. -/
def valuedOptions : List (String × String) :=
  [("-c", "config"), ("--config", "config"), ("-o", "output"), ("--output", "output"),
    ("--top", "top")]

/-- The options without a value, by their spellings. -/
def flags : List (String × String) :=
  [("--full-validation", "full-validation"), ("--stats", "stats")]

/-- The spelling and the value of an option in one word. -/
def assignment? (word : String) : Option (String × String) :=
  match word.toList.span (· != '=') with
  | ('-' :: '-' :: name, '=' :: value) =>
      some (String.ofList ('-' :: '-' :: name), String.ofList value)
  | _ => none

/-- An option that takes no further word. -/
def oneWord? (word : String) : Option (String × String) :=
  match assignment? word with
  | some (spelling, value) => (valuedOptions.lookup spelling).map (·, value)
  | none => (flags.lookup word).map (·, "")

/-- Whether a word looks like an option. -/
def isOption (word : String) : Bool :=
  match word.toList with
  | '-' :: _ :: _ => true
  | _ => false

/-- The options with their values; a word that is none of them is the file with the facts. -/
def arguments? : List String → Option (List (String × String))
  | [] => some []
  | [word] =>
      match oneWord? word with
      | some argument => some [argument]
      | none => if isOption word then none else some [("facts", word)]
  | word :: value :: rest =>
      match oneWord? word, valuedOptions.lookup word with
      | some argument, _ => (arguments? (value :: rest)).map (argument :: ·)
      | none, some name =>
          if isOption value then none else (arguments? rest).map ((name, value) :: ·)
      | none, none =>
          if isOption word then none
          else (arguments? (value :: rest)).map (("facts", word) :: ·)

/-- The value of an option given at most once, if it is given. -/
def single? (arguments : List (String × String)) (name : String) : Option (Option String) :=
  match arguments.filter (·.1 = name) with
  | [] => some none
  | [(_, value)] => some (some value)
  | _ => none

/-- What the words of a command line ask for. -/
def parse? (words : List String) : Option Invocation := do
  let arguments ← arguments? words
  let facts ← (← single? arguments "facts")
  let config ← single? arguments "config"
  let output ← single? arguments "output"
  let fullValidation ← single? arguments "full-validation"
  let stats ← single? arguments "stats"
  let top ← match ← single? arguments "top" with
    | some number => (word? number).map UInt64.toNat
    | none => some 5
  return { facts, config, output, top,
           fullValidation := fullValidation.isSome, stats := stats.isSome }

/-- The word in front of the names of variables. -/
def environmentWord : String := "RESOLVER"

/-- The names of the variables that count. -/
def variableNames : List String :=
  Options.memberNames.map fun name => environmentWord ++ "_" ++ name.toUpper

/-- Where the options come from: the file with options, then the variables. -/
def sources (config : Option SettingsFile) (entries : List (String × String)) : OptionSources :=
  { files := config.toList, environment := some ⟨environmentWord, entries⟩ }

/-- Options with what the command line says put over them. -/
def refine (i : Invocation) (o : Options) : Options :=
  { o with
    reportsDestination := i.output <|> o.reportsDestination
    fullGraphValidation := i.fullValidation || o.fullGraphValidation }

end Invocation

end Wiring
