import Wiring.Document.Json
import Wiring.Document.Toml
import Wiring.Facts.Read

/-!
# Parsing facts

The facts of a document given as text.
-/

namespace Wiring

/-- The document of a text. -/
def DocumentFormat.parse? : DocumentFormat → String → Option Value
  | json, text => Json.parse? text
  | toml, text => Toml.parse? text

/-- What a reader knows of the values of a document. -/
def DocumentFormat.reading : DocumentFormat → Reading
  | json => Json.reading
  | toml => Toml.reading

/-- The facts of a text. -/
def Facts.parse? (format : DocumentFormat) (text : String) : Option Facts :=
  (format.parse? text).bind (Facts.read format.reading)

/-- The facts of a file, in the notation that its name tells. -/
def Facts.ofFile? (path text : String) : Option Facts := Facts.parse? (.ofPath path) text

end Wiring
