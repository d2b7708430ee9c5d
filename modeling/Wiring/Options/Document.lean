import Wiring.Document
import Wiring.Options

/-!
# Options in documents

Reading and writing options as a document with one member for each.
-/

namespace Wiring

open Reader

/-- The severity of a name. -/
def Severity.ofName? (name : String) : Option Severity := all.find? (·.name = name)

namespace Options

/-- The names of the members. -/
def memberNames : List String :=
  ["shrink_unused_bindings", "full_graph_validation", "max_errors_count",
    "unused_binding_severity", "reports_destination"]

/-- Options; members left out are as by default. -/
def read : Reader Options := object memberNames fun m => do
  let base : Options := {}
  let shrinkUnusedBindings ← m.optional "shrink_unused_bindings" base.shrinkUnusedBindings bool
  let fullGraphValidation ← m.optional "full_graph_validation" base.fullGraphValidation bool
  let maxErrorsCount ← m.optional "max_errors_count" base.maxErrorsCount uint64
  let unusedBindingSeverity ← m.optional "unused_binding_severity" base.unusedBindingSeverity
    (named Severity.ofName?)
  let reportsDestination ← m.optional "reports_destination" base.reportsDestination (nullable text)
  return { shrinkUnusedBindings, fullGraphValidation, maxErrorsCount, unusedBindingSeverity,
           reportsDestination }

/-- The document of options. -/
def write (o : Options) : Value :=
  .object
    [("shrink_unused_bindings", .bool o.shrinkUnusedBindings),
      ("full_graph_validation", .bool o.fullGraphValidation),
      ("max_errors_count", .ofNat o.maxErrorsCount.toNat),
      ("unused_binding_severity", .text o.unusedBindingSeverity.name),
      ("reports_destination", .ofOption .text o.reportsDestination)]

end Options

end Wiring
