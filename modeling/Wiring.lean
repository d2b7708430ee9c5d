import Wiring.Binding
import Wiring.Build
import Wiring.Catalog
import Wiring.Catalog.AliasChain
import Wiring.Catalog.ImplicitCache
import Wiring.Collection
import Wiring.CollectionTable
import Wiring.Contribution
import Wiring.Contribution.Aggregation
import Wiring.Cycle
import Wiring.Dependency
import Wiring.Diagnostics
import Wiring.Digraph
import Wiring.Disk
import Wiring.Document
import Wiring.Document.Json
import Wiring.Document.Toml
import Wiring.Document.Toml.Moment
import Wiring.Document.Toml.MomentTable
import Wiring.Document.Toml.Table
import Wiring.Expansion
import Wiring.Facts
import Wiring.Facts.Parse
import Wiring.Facts.Read
import Wiring.Facts.Write
import Wiring.Graph
import Wiring.GraphDeclaration
import Wiring.GraphError
import Wiring.Index
import Wiring.Initialization
import Wiring.InjectableClass
import Wiring.Invocation
import Wiring.Lookup
import Wiring.Main
import Wiring.Metadata
import Wiring.Number.Binary64
import Wiring.Number.Numeral
import Wiring.Number.Width
import Wiring.Options
import Wiring.Options.Document
import Wiring.Options.Loading
import Wiring.Order
import Wiring.Origin
import Wiring.Pass
import Wiring.Property
import Wiring.Publication
import Wiring.Scope
import Wiring.ScopeCheck
import Wiring.Settings
import Wiring.Settings.Conversion
import Wiring.SortedMap
import Wiring.SortedSet
import Wiring.Statistics
import Wiring.Statistics.Summary
import Wiring.Text.Blank
import Wiring.Text.CaseIgnorable
import Wiring.Text.Cased
import Wiring.Text.Digits
import Wiring.Text.LowerCase
import Wiring.Text.Ranges
import Wiring.TypeKey
import Wiring.Proofs.SortedMap
import Wiring.Proofs.Diagnostics
import Wiring.Proofs.Reachability
import Wiring.Proofs.Catalog
import Wiring.Proofs.Accessors
import Wiring.Proofs.Ownership
import Wiring.Proofs.Accounts
import Wiring.Proofs.Indifference
import Wiring.Proofs.Initialization
import Wiring.Proofs.Capping
import Wiring.Proofs.Aggregation
import Wiring.Proofs.Shrinking
import Wiring.Proofs.ErrorKinds
import Wiring.Proofs.Chains
import Wiring.Proofs.Absence
import Wiring.Proofs.Gathering
import Wiring.Proofs.Inheritance
import Wiring.Proofs.Facts.Reading
import Wiring.Proofs.Facts.RoundTrip
import Wiring.Proofs.Facts.Layout
import Wiring.Proofs.Facts.Respelling
import Wiring.Proofs.Facts.Nesting
import Wiring.Proofs.Exclusion
import Wiring.Proofs.Precedence
import Wiring.Proofs.Ranking
import Wiring.Proofs.Restriction
import Wiring.Proofs.Agreement
import Wiring.Proofs.Validation
import Wiring.Proofs.Grouping
import Wiring.Proofs.ShortestLoop
import Wiring.Proofs.FatalCycles
import Wiring.Proofs.AliasChain
import Wiring.Proofs.Terminals
import Wiring.Proofs.Retaining
import Wiring.Proofs.Slots
import Wiring.Proofs.Registration
import Wiring.Proofs.Publication
import Wiring.Proofs.Counting
import Wiring.Proofs.Degrees
import Wiring.Proofs.Ending
import Wiring.Proofs.Conflicts
import Wiring.Proofs.Loading
import Wiring.Proofs.Histories
import Wiring.Proofs.Factories
