import Wiring.Disk
import Wiring.Metadata
import Wiring.Pass

/-!
# Publishing metadata

Once every graph is resolved, the metadata of each is written to a file below the destination that
the user chose.  If some graph cannot be built, nothing is written.
-/

namespace Wiring

/-- Why graphs were not published. -/
inductive PublicationError where
  /-- A graph cannot be built. -/
  | unresolved (failure : Failure)
  /-- A file or directory cannot be written. -/
  | unwritable (path : Path)
deriving DecidableEq, Repr

/-- The text about a graph that cannot be built. -/
def Failure.message (f : Failure) : String := "图 " ++ f.graph.name ++ " 解析失败:\n" ++ f.report.render

/-- A file with metadata. -/
structure MetadataFile where
  name : String
  content : String
deriving DecidableEq, Repr

/-- The file with the metadata of a graph. -/
def Graph.metadataFile (g : Graph) : MetadataFile := ⟨g.metadataFileName, g.metadataText⟩

namespace Outcome

/-- The graphs, or the first that cannot be built. -/
def result (o : Outcome) : Except Failure (List Graph) :=
  match o.failures with
  | [] => .ok o.graphs
  | f :: _ => .error f

end Outcome

namespace Publication

/-- The directory for metadata, below the destination. -/
def directoryName : String := "graph-metadata"

/-- The names on a path given as text. -/
def pathOf (destination : String) : Path := (DocumentFormat.pathParts destination).map String.ofList

/-- Writes files into a directory, one after the other, up to the first that cannot be written. -/
def writeFiles (directory : Path) : Disk → List MetadataFile → Disk × Except PublicationError Unit
  | d, [] => (d, .ok ())
  | d, f :: rest =>
      match d.write? directory f.name f.content with
      | some d => writeFiles directory d rest
      | none => (d, .error (.unwritable (directory ++ [f.name])))

/-- Writes the metadata of graphs below a destination. -/
def publish (d : Disk) (destination : Path) (graphs : List Graph) :
    Disk × Except PublicationError Unit :=
  let directory := destination ++ [directoryName]
  match d.makeDirectory? directory with
  | some d => writeFiles directory d (graphs.map Graph.metadataFile)
  | none => (d, .error (.unwritable directory))

end Publication

/-- Resolves all declared graphs, and publishes their metadata if there is a destination. -/
def Facts.run (f : Facts) (options : Options) (d : Disk) :
    Disk × Except PublicationError (List Graph) :=
  match (f.resolve options).result with
  | .error failure => (d, .error (.unresolved failure))
  | .ok graphs =>
      match options.reportsDestination with
      | none => (d, .ok graphs)
      | some destination =>
          let (d, written) := Publication.publish d (Publication.pathOf destination) graphs
          (d, written.map fun _ => graphs)

end Wiring
