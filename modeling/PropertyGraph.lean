import PropertyGraph.Call
import PropertyGraph.Config.Basic
import PropertyGraph.Config.Build
import PropertyGraph.Config.Load
import PropertyGraph.Decimal.Double
import PropertyGraph.Decimal.Power
import PropertyGraph.Decimal.Scaled
import PropertyGraph.Decimal.Shortest
import PropertyGraph.Entity.Basic
import PropertyGraph.Entity.Codec
import PropertyGraph.Entries
import PropertyGraph.Failure
import PropertyGraph.Json.Basic
import PropertyGraph.Json.Decode
import PropertyGraph.Json.Printer
import PropertyGraph.Json.Record
import PropertyGraph.Json.Syntax
import PropertyGraph.Json.Token
import PropertyGraph.Memory.State
import PropertyGraph.Memory.Store
import PropertyGraph.Presentation.Basic
import PropertyGraph.Presentation.Lookup
import PropertyGraph.Proofs.Backend
import PropertyGraph.Proofs.Decimal.Digits
import PropertyGraph.Proofs.Decimal.Literal
import PropertyGraph.Proofs.Decimal.Nearest
import PropertyGraph.Proofs.Decimal.Normalized
import PropertyGraph.Proofs.Decimal.RoundingInterval
import PropertyGraph.Proofs.Decimal.Shortest
import PropertyGraph.Proofs.Entity.Reread
import PropertyGraph.Proofs.Entries
import PropertyGraph.Proofs.Json.Bounded
import PropertyGraph.Proofs.Json.CompactText
import PropertyGraph.Proofs.Json.DoubleText
import PropertyGraph.Proofs.Json.Nesting
import PropertyGraph.Proofs.Json.NumberIdentity
import PropertyGraph.Proofs.Json.NumberText
import PropertyGraph.Proofs.Json.PrintedText
import PropertyGraph.Proofs.Json.PrintedTree
import PropertyGraph.Proofs.Json.Proper
import PropertyGraph.Proofs.Json.Record
import PropertyGraph.Proofs.Json.Reread
import PropertyGraph.Proofs.Json.TextIdentity
import PropertyGraph.Proofs.Json.ValueTree
import PropertyGraph.Proofs.Memory.Bounded
import PropertyGraph.Proofs.Memory.Persistence
import PropertyGraph.Proofs.Memory.Shared
import PropertyGraph.Proofs.Memory.Snapshot
import PropertyGraph.Proofs.Memory.State
import PropertyGraph.Proofs.Presentation.Attaching
import PropertyGraph.Proofs.Presentation.Holdings
import PropertyGraph.Proofs.Presentation.Lookup
import PropertyGraph.Proofs.PropertyPath.Grammar
import PropertyGraph.Proofs.PropertyPath.Reading
import PropertyGraph.Proofs.Routing.Assembly
import PropertyGraph.Proofs.Routing.CompositeIds
import PropertyGraph.Proofs.Routing.Custody
import PropertyGraph.Proofs.Routing.Dispatching
import PropertyGraph.Proofs.Routing.Division
import PropertyGraph.Proofs.Routing.Exactness
import PropertyGraph.Proofs.Routing.Identities
import PropertyGraph.Proofs.Routing.Members
import PropertyGraph.Proofs.Routing.MissingTargets
import PropertyGraph.Proofs.Routing.OneGraph
import PropertyGraph.Proofs.Routing.Ownership
import PropertyGraph.Proofs.Routing.PathsFirst
import PropertyGraph.Proofs.Routing.Registrations
import PropertyGraph.Proofs.Routing.ReturnedIds
import PropertyGraph.Proofs.Routing.Stores
import PropertyGraph.Proofs.Routing.Succession
import PropertyGraph.Proofs.Searcher.CompiledMeaning
import PropertyGraph.Proofs.Searcher.Extensions
import PropertyGraph.Proofs.Searcher.Failures
import PropertyGraph.Proofs.Searcher.Filtering
import PropertyGraph.Proofs.Searcher.PlanPrecise
import PropertyGraph.Proofs.Searcher.PlanSound
import PropertyGraph.Proofs.Searcher.PropertyEquality
import PropertyGraph.Proofs.Searcher.Roundtrip
import PropertyGraph.Proofs.Sorted
import PropertyGraph.Proofs.Storage.Atomicity
import PropertyGraph.Proofs.Storage.CallerView
import PropertyGraph.Proofs.Storage.Catalog
import PropertyGraph.Proofs.Storage.Changes
import PropertyGraph.Proofs.Storage.Confinement
import PropertyGraph.Proofs.Storage.Contents
import PropertyGraph.Proofs.Storage.Document
import PropertyGraph.Proofs.Storage.DocumentFiles
import PropertyGraph.Proofs.Storage.EditStages
import PropertyGraph.Proofs.Storage.Enclosure
import PropertyGraph.Proofs.Storage.Engine
import PropertyGraph.Proofs.Storage.Entities
import PropertyGraph.Proofs.Storage.Exchanges
import PropertyGraph.Proofs.Storage.FailureCauses
import PropertyGraph.Proofs.Storage.FilePath
import PropertyGraph.Proofs.Storage.FileTask
import PropertyGraph.Proofs.Storage.FileTree
import PropertyGraph.Proofs.Storage.History
import PropertyGraph.Proofs.Storage.Interleaving
import PropertyGraph.Proofs.Storage.Isolation
import PropertyGraph.Proofs.Storage.Layout
import PropertyGraph.Proofs.Storage.Looking
import PropertyGraph.Proofs.Storage.Lookup
import PropertyGraph.Proofs.Storage.Moving
import PropertyGraph.Proofs.Storage.Naming
import PropertyGraph.Proofs.Storage.Neighbours
import PropertyGraph.Proofs.Storage.Overlap
import PropertyGraph.Proofs.Storage.Progress
import PropertyGraph.Proofs.Storage.RawFiles
import PropertyGraph.Proofs.Storage.RawText
import PropertyGraph.Proofs.Storage.Readback
import PropertyGraph.Proofs.Storage.Reading
import PropertyGraph.Proofs.Storage.Refinement
import PropertyGraph.Proofs.Storage.Removal
import PropertyGraph.Proofs.Storage.Representation
import PropertyGraph.Proofs.Storage.Rewriting
import PropertyGraph.Proofs.Storage.Run
import PropertyGraph.Proofs.Storage.SearchFailures
import PropertyGraph.Proofs.Storage.SearchRefusals
import PropertyGraph.Proofs.Storage.Searching
import PropertyGraph.Proofs.Storage.Shelf
import PropertyGraph.Proofs.Storage.Sound
import PropertyGraph.Proofs.Storage.StackedTexts
import PropertyGraph.Proofs.Storage.Tidiness
import PropertyGraph.Proofs.Storage.TypeList
import PropertyGraph.Proofs.Table
import PropertyGraph.Proofs.TextRoundtrip
import PropertyGraph.Proofs.Transport.Hops
import PropertyGraph.Proofs.Transport.PatchWire
import PropertyGraph.Proofs.Transport.Replies
import PropertyGraph.Proofs.Transport.Requests
import PropertyGraph.Proofs.Transport.Transparency
import PropertyGraph.PropertyPath
import PropertyGraph.Routing.Assembly
import PropertyGraph.Routing.CompositeId
import PropertyGraph.Routing.Owners
import PropertyGraph.Searcher.Basic
import PropertyGraph.Searcher.Codec
import PropertyGraph.Searcher.Compiled
import PropertyGraph.Searcher.Meaning
import PropertyGraph.Searcher.Plan
import PropertyGraph.Storage.Catalog
import PropertyGraph.Storage.Document
import PropertyGraph.Storage.Engine
import PropertyGraph.Storage.FilePath
import PropertyGraph.Storage.FileProgram
import PropertyGraph.Storage.FileTree
import PropertyGraph.Storage.Naming
import PropertyGraph.Storage.RawText
import PropertyGraph.Suite.Basic
import PropertyGraph.Suite.Task
import PropertyGraph.Text.Blank
import PropertyGraph.Text.CharacterClass
import PropertyGraph.Text.Quoted
import PropertyGraph.Text.Sorted
import PropertyGraph.Transport.Client
import PropertyGraph.Transport.Http
import PropertyGraph.Transport.Server
import PropertyGraph.Transport.Wire
import PropertyGraph.Yaml.Node
import PropertyGraph.Yaml.Place
import PropertyGraph.Yaml.Scalar
import PropertyGraph.Yaml.Text
