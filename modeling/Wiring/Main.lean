import Wiring.Invocation
import Wiring.Publication
import Wiring.Statistics.Summary

/-!
# The command

Resolves the graphs declared in a file, writes their metadata, and prints summaries of them.
-/

namespace Wiring

/-- How the command ends: with success, with a failure, or with words that ask for nothing. -/
inductive ExitStatus where
  | success
  | failure
  | misuse

/-- The number of a status. -/
def ExitStatus.code : ExitStatus → UInt32
  | success => 0
  | failure => 1
  | misuse => 2

/-- The text of a file, if it can be read. -/
def textOfFile (path : String) : IO (Option String) := do
  try return some (← IO.FS.readFile path) catch _ => return none

/-- A file with options. -/
def settingsFile (path : String) : IO SettingsFile := do
  match ← textOfFile path with
  | some text => return .present (.ofPath path) text
  | none => return .missing path

/-- The variables of the environment that count. -/
def environmentEntries : IO (List (String × String)) :=
  Invocation.variableNames.filterMapM fun name => do
    return (← IO.getEnv name).map (name, ·)

/-- Ends with a failure, for a reason. -/
def fail (reason : String) : IO ExitStatus := do
  IO.eprintln reason
  return .failure

/-- Writes the metadata of graphs below a destination, and tells whether that was possible. -/
def publishFiles (destination : String) (graphs : List Graph) : IO Bool := do
  let directory := destination ++ "/" ++ Publication.directoryName
  try
    IO.FS.createDirAll directory
    for file in graphs.map Graph.metadataFile do
      IO.FS.writeFile (directory ++ "/" ++ file.name) file.content
    return true
  catch _ => return false

/-- Writes and prints what is asked for about graphs. -/
def deliver (i : Invocation) (options : Options) (graphs : List Graph) : IO ExitStatus := do
  if let some destination := options.reportsDestination then
    if !(← publishFiles destination graphs) then
      return ← fail ("报告写入失败: " ++ destination)
  if i.stats then
    for g in graphs do
      IO.println (Json.pretty (g.summary i.top))
  return .success

/-- Does what is asked for. -/
def perform (i : Invocation) : IO ExitStatus := do
  let config ← i.config.mapM settingsFile
  match (Invocation.sources config (← environmentEntries)).load with
  | .error e => fail ("加载解析器选项失败: " ++ e.message?.getD "配置解析失败")
  | .ok loaded =>
      let options := i.refine loaded
      match (← textOfFile i.facts).bind (Facts.ofFile? i.facts) with
      | none => fail ("声明事实加载失败: " ++ i.facts)
      | some facts =>
          let outcome := facts.resolve options
          if outcome.isSuccess then deliver i options outcome.graphs
          else
            for f in outcome.failures do
              IO.eprintln f.message
            fail (toString outcome.failures.length ++ " 个图解析失败")

end Wiring

def main (words : List String) : IO UInt32 := do
  match Wiring.Invocation.parse? words with
  | some i => return (← Wiring.perform i).code
  | none =>
      IO.eprintln Wiring.Invocation.usage
      return Wiring.ExitStatus.misuse.code
