import Wiring.SortedMap

/-!
# Disks

What is stored on a disk: directories, and files with their contents, by path.
-/

namespace Wiring

/-- A path: the names that lead to it. -/
abbrev Path := List String

/-- What stands at a path. -/
inductive Node where
  /-- A directory. -/
  | directory
  /-- A file. -/
  | file (content : String)
deriving DecidableEq, Repr

/-- What is stored, by path.  The empty path is a directory and not listed. -/
structure Disk where
  nodes : SortedMap Path Node

namespace Disk

/-- The disk with nothing on it. -/
def blank : Disk := ⟨.empty⟩

/-- The greatest number of bytes in a name. -/
def maxNameBytes : Nat := 255

/-- Whether a name may be given to a file or directory. -/
def admitsName (name : String) : Bool := name.utf8ByteSize ≤ maxNameBytes

/-- What stands at a path. -/
def node? (d : Disk) (path : Path) : Option Node :=
  if path.isEmpty then some .directory else d.nodes.get? path

/-- The content of a file. -/
def content? (d : Disk) (path : Path) : Option String :=
  match d.node? path with
  | some (.file content) => some content
  | _ => none

/-- The files with their contents, in the order of their paths. -/
def files (d : Disk) : List (Path × String) :=
  d.nodes.entries.filterMap fun
    | (path, .file content) => some (path, content)
    | (_, .directory) => none

/-- The paths that lead to a path, the path itself last. -/
def trail (path : Path) : List Path := (List.range path.length).map fun n => path.take (n + 1)

/-- The disk with a path made up of directories only, if no file stands in the way. -/
def makeDirectory? (d : Disk) (path : Path) : Option Disk :=
  (trail path).foldlM (fun d prior =>
    match d.node? prior with
    | some .directory => some d
    | some (.file _) => none
    | none =>
        if prior.getLast?.all admitsName then some ⟨d.nodes.insert prior .directory⟩ else none) d

/-- The disk with a file in a directory, whatever file had the name before. -/
def write? (d : Disk) (directory : Path) (name content : String) : Option Disk :=
  let path := directory ++ [name]
  if d.node? directory = some .directory ∧ admitsName name ∧ d.node? path ≠ some .directory then
    some ⟨d.nodes.insert path (.file content)⟩
  else none

end Disk

end Wiring
