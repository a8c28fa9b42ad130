import Zdeceptron.Library.Machine
import Zdeceptron.Library.PartitionPoint
import Zdeceptron.Library.ReplayLog
import Zdeceptron.Library.Overlay
import Zdeceptron.Library.Binary64
import Zdeceptron.Library.Decimal
import Zdeceptron.Library.Numeral
import Zdeceptron.Library.EcmaJson
import Zdeceptron.Library.LongestIncreasing
import Zdeceptron.Library.Relocation
import Zdeceptron.Library.Lines
import Zdeceptron.Library.Triangular
import Zdeceptron.Store.Value
import Zdeceptron.Store.Watch
import Zdeceptron.Store.WatchRuns
import Zdeceptron.Store.Embedded
import Zdeceptron.Store.Concurrency
import Zdeceptron.Wire.Value
import Zdeceptron.Wire.RoundTrip
import Zdeceptron.Live.Router
import Zdeceptron.Live.Client
import Zdeceptron.Live.Delivery
import Zdeceptron.Live.Generations
import Zdeceptron.Runtime.Reconcile
import Zdeceptron.Runtime.Placement
import Zdeceptron.Runtime.Reconciled
import Zdeceptron.Runtime.Collections
import Zdeceptron.Runtime.Sharing
import Zdeceptron.Runtime.Signal
import Zdeceptron.Runtime.SignalInvariant
import Zdeceptron.Runtime.SignalReads
import Zdeceptron.Runtime.SignalRuns
import Zdeceptron.Runtime.OneValue
import Zdeceptron.Serve.Script
import Zdeceptron.Serve.Bundle
import Zdeceptron.Serve.Host
import Zdeceptron.Serve.Deployed
import Zdeceptron.Serve.Carried
import Zdeceptron.Serve.Writes
import Zdeceptron.Serve.Agreement
import Zdeceptron.Serve.Starting
import Zdeceptron.Lexer.Token
import Zdeceptron.Lexer.Raw
import Zdeceptron.Lexer.Layout
import Zdeceptron.Lexer.Pieces
import Zdeceptron.Lexer.Runs
import Zdeceptron.Lexer.Alike
import Zdeceptron.Lexer.LineEndings
import Zdeceptron.Lexer.Continuation
import Zdeceptron.Lexer.Blocks
import Zdeceptron.Lexer.Strays
import Zdeceptron.Types.Ty
import Zdeceptron.Types.Solver
import Zdeceptron.Types.Resolved
import Zdeceptron.Types.Unified
import Zdeceptron.Types.Assigned
import Zdeceptron.Bodies.Syntax
import Zdeceptron.Bodies.Check
import Zdeceptron.Bodies.Emit
import Zdeceptron.Bodies.Execute
import Zdeceptron.Library.Advances
import Zdeceptron.Bodies.Steps
import Zdeceptron.Bodies.Typed
import Zdeceptron.Bodies.Walked
import Zdeceptron.Bodies.Accepted
import Zdeceptron.Bodies.Sound
import Zdeceptron.Bodies.Loads
import Zdeceptron.Bodies.Result
import Zdeceptron.Bodies.Handler
import Zdeceptron.Library.Closure
import Zdeceptron.Library.Chains
import Zdeceptron.Bodies.Functions
import Zdeceptron.Bodies.TailGroups
import Zdeceptron.Bodies.Comparison
import Zdeceptron.Bodies.TailCalls
import Zdeceptron.Bodies.TailSound
import Zdeceptron.Bodies.TailMeaning
import Zdeceptron.Library.Segments
import Zdeceptron.Library.FloatOrder
import Zdeceptron.Routes.Hir
import Zdeceptron.Routes.Check
import Zdeceptron.Routes.Shapes
import Zdeceptron.Routes.Injective
import Zdeceptron.Routes.Slugs
import Zdeceptron.Live.Cells
import Zdeceptron.Live.Resumption
import Zdeceptron.Live.Announced
import Zdeceptron.Live.Polls
import Zdeceptron.Live.Attempts
import Zdeceptron.Live.Stream
import Zdeceptron.Live.Watching
import Zdeceptron.Serve.Batch
import Zdeceptron.Serve.Invocations
import Zdeceptron.Names.Allocate
import Zdeceptron.Names.Hygiene
import Zdeceptron.Component.Placements
import Zdeceptron.Reactive.Soundness
import Zdeceptron.Startup.Initialised
import Zdeceptron.Library.EcmaTokens
import Zdeceptron.Library.EcmaGrammar
import Zdeceptron.Emission.Value
import Zdeceptron.Emission.Parses
import Zdeceptron.Emission.Apart
import Zdeceptron.Calls.Slots
import Zdeceptron.Calls.Uses
import Zdeceptron.Calls.OneEach
import Zdeceptron.View.Masked
import Zdeceptron.View.Shown
import Zdeceptron.View.Hidden
import Zdeceptron.Resolve.Syntax
import Zdeceptron.Resolve.Collect
import Zdeceptron.Resolve.Names
import Zdeceptron.Resolve.Added
import Zdeceptron.Instantiate.Bounded
import Zdeceptron.Template.Clone
import Zdeceptron.Graph.Cycles
import Zdeceptron.Types.Generalised
import Zdeceptron.Graph.Flow
import Zdeceptron.Graph.Related
import Zdeceptron.Graph.SideBySide
import Zdeceptron.Graph.ViewWalks
import Zdeceptron.Graph.LeastSummaries
import Zdeceptron.Graph.Folds
import Zdeceptron.Graph.Traced
import Zdeceptron.Minify.Removes
import Zdeceptron.Minify.Idempotent
import Zdeceptron.Emission.Quoted
import Zdeceptron.Emission.Literal
import Zdeceptron.Lsp.Lines
import Zdeceptron.Lsp.Edits
import Zdeceptron.Library.JsonText
import Zdeceptron.Serve.Scanned
import Zdeceptron.Library.EcmaValues
import Zdeceptron.Emission.Inlined
import Zdeceptron.Library.PosixPaths
import Zdeceptron.Resolve.Sandbox
import Zdeceptron.Library.TomlText
import Zdeceptron.Resolve.Packages
import Zdeceptron.Resolve.Toml
import Zdeceptron.Prelude.Time
import Zdeceptron.Routes.SafeUrls
import Zdeceptron.Prelude.Delimiters
import Zdeceptron.Prelude.Maps
import Zdeceptron.Graph.Composed
import Zdeceptron.Store.JsonNumber
import Zdeceptron.Lexer.Dedent
import Zdeceptron.Emission.Interning
import Zdeceptron.Emission.SourceMap
