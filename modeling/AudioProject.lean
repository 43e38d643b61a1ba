import AudioProject.Action
import AudioProject.AssetPath
import AudioProject.Batch.Plan
import AudioProject.Batch.Records
import AudioProject.ByKind
import AudioProject.Command.Arguments
import AudioProject.Command.Console
import AudioProject.Command.Failure
import AudioProject.Command.Invocation
import AudioProject.Command.Outline
import AudioProject.Command.Sources
import AudioProject.Command.Tasks
import AudioProject.Config
import AudioProject.Decimal.Binary
import AudioProject.Decimal.Positional
import AudioProject.Decimal.Shortest
import AudioProject.Document
import AudioProject.Document.Printing
import AudioProject.Document.Reading
import AudioProject.EventGraph
import AudioProject.EventGraph.Copy
import AudioProject.EventGraph.Graft
import AudioProject.Files.Changes
import AudioProject.Files.Error
import AudioProject.Files.Tree
import AudioProject.Hierarchy
import AudioProject.Host
import AudioProject.Instant
import AudioProject.Instantiation
import AudioProject.Instantiation.Execution
import AudioProject.Journal
import AudioProject.Journal.Files
import AudioProject.Journal.Format
import AudioProject.Journal.Logbook
import AudioProject.Json
import AudioProject.Json.Printing
import AudioProject.Json.Reading
import AudioProject.Kind
import AudioProject.KindIndex
import AudioProject.Layout
import AudioProject.Lock
import AudioProject.Main
import AudioProject.Markup.Bytes
import AudioProject.Markup.Event
import AudioProject.Markup.Fault
import AudioProject.Markup.Lexeme
import AudioProject.Markup.Reference
import AudioProject.Markup.Tag
import AudioProject.MediaArgument
import AudioProject.MediaInfo
import AudioProject.Model
import AudioProject.Object
import AudioProject.ObjectClass
import AudioProject.ObjectId
import AudioProject.OrderedMap
import AudioProject.Path
import AudioProject.PendingRecord
import AudioProject.Proofs.Action
import AudioProject.Proofs.AssetPath
import AudioProject.Proofs.AssetPath.Written
import AudioProject.Proofs.Document.Around
import AudioProject.Proofs.Document.Classes
import AudioProject.Proofs.Document.Completeness
import AudioProject.Proofs.Document.Elements
import AudioProject.Proofs.Document.EmptyElements
import AudioProject.Proofs.Document.Independence
import AudioProject.Proofs.Document.Moves
import AudioProject.Proofs.Document.Objects
import AudioProject.Proofs.Document.RoundTrip
import AudioProject.Proofs.Document.Setting
import AudioProject.Proofs.Document.Unknown
import AudioProject.Proofs.Endings
import AudioProject.Proofs.EventGraph.Copies
import AudioProject.Proofs.EventGraph.Grafting
import AudioProject.Proofs.EventGraph.Ids
import AudioProject.Proofs.EventGraph.Playing
import AudioProject.Proofs.EventGraph.Pruning
import AudioProject.Proofs.EventGraph.Reachable
import AudioProject.Proofs.EventGraph.Root
import AudioProject.Proofs.EventGraph.Searching
import AudioProject.Proofs.Files.Descent
import AudioProject.Proofs.Files.Making
import AudioProject.Proofs.Files.Tree
import AudioProject.Proofs.Files.WellFormed
import AudioProject.Proofs.Hierarchy
import AudioProject.Proofs.Hierarchy.Edges
import AudioProject.Proofs.Instantiation.Atomicity
import AudioProject.Proofs.Instantiation.Copying
import AudioProject.Proofs.Instantiation.Documents
import AudioProject.Proofs.Instantiation.Duplicates
import AudioProject.Proofs.Instantiation.Growth
import AudioProject.Proofs.Instantiation.Journaling
import AudioProject.Proofs.Instantiation.Making
import AudioProject.Proofs.Instantiation.Media
import AudioProject.Proofs.Instantiation.Places
import AudioProject.Proofs.Instantiation.Planning
import AudioProject.Proofs.Instantiation.Playback
import AudioProject.Proofs.Instantiation.Running
import AudioProject.Proofs.Instantiation.Sparing
import AudioProject.Proofs.Journal.Ending
import AudioProject.Proofs.Journal.Files
import AudioProject.Proofs.Journal.Format
import AudioProject.Proofs.Journal.Closing
import AudioProject.Proofs.Journal.Listing
import AudioProject.Proofs.Journal.Snapshots
import AudioProject.Proofs.Journal.Writing
import AudioProject.Proofs.Json.RoundTrip
import AudioProject.Proofs.KindIndex
import AudioProject.Proofs.KindIndex.Views
import AudioProject.Proofs.Markup.Balance
import AudioProject.Proofs.Markup.Nesting
import AudioProject.Proofs.Markup.Scanning
import AudioProject.Proofs.OrderedMap
import AudioProject.Proofs.Path
import AudioProject.Proofs.Preservation
import AudioProject.Proofs.Sparing
import AudioProject.Proofs.Staging.Acceptance
import AudioProject.Proofs.Staging.Closure
import AudioProject.Proofs.Staging.Conservation
import AudioProject.Proofs.Staging.Cycles
import AudioProject.Proofs.Staging.Durability
import AudioProject.Proofs.Staging.Journaling
import AudioProject.Proofs.Staging.MasterBus
import AudioProject.Proofs.Staging.Outcomes
import AudioProject.Proofs.Staging.ParentFirst
import AudioProject.Proofs.Staging.Paths
import AudioProject.Proofs.Staging.Readiness
import AudioProject.Proofs.Staging.Recovery
import AudioProject.Proofs.Staging.Representation
import AudioProject.Proofs.Staging.Runs
import AudioProject.Proofs.Staging.Steps
import AudioProject.Proofs.Staging.Tables
import AudioProject.Proofs.Staging.Trail
import AudioProject.Proofs.Staging.Writes
import AudioProject.Proofs.Store.Documents
import AudioProject.Proofs.Store.Loading
import AudioProject.Proofs.Store.OnDisk
import AudioProject.Proofs.Store.Places
import AudioProject.Proofs.Store.Reopening
import AudioProject.Proofs.Store.Roots
import AudioProject.Proofs.Store.Writing
import AudioProject.Proofs.UniqueIds
import AudioProject.Staging
import AudioProject.Staging.Commit
import AudioProject.Store
import AudioProject.Store.Error
import AudioProject.Store.Events
import AudioProject.Store.Writing
import AudioProject.Text.Blank
import AudioProject.Text.Fields
import AudioProject.Text.Quoted
import AudioProject.Text.Unprintable
import AudioProject.Toml
import AudioProject.Toml.Reading
import AudioProject.Toml.Statement
import AudioProject.Toml.Token
import AudioProject.Unseen
import AudioProject.ValueError
import AudioProject.Wave
import AudioProject.Proofs.EventGraph.Extraction
import AudioProject.Proofs.EventGraph.Nodes
import AudioProject.Proofs.Instantiation.ReadingBack
import AudioProject.Proofs.Instantiation.Listing
import AudioProject.Proofs.Command.Outline
import AudioProject.Proofs.Containment
import AudioProject.Proofs.Staging.Failing
import AudioProject.Proofs.Store.AssetFolders
import AudioProject.Proofs.Command.Applying
