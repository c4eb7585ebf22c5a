import Fnprint.Lib.StableSort
import Fnprint.Lib.KeyMap
import Fnprint.Lib.Search
import Fnprint.Lib.GreedyMatching
import Fnprint.Lib.Rounding
import Fnprint.Lib.FloatModel
import Fnprint.Lib.Binary64
import Fnprint.Lib.Banding
import Fnprint.Lib.Sharding
import Fnprint.Lib.Selection
import Fnprint.Lib.Overlap
import Fnprint.Lib.Reorder
import Fnprint.Lib.Scramble
import Fnprint.Lib.LeastImage
import Fnprint.Lib.Windows
import Fnprint.Lib.Runs
import Fnprint.Lib.Intervals
import Fnprint.Lib.Binary32
import Fnprint.Lib.Fallible
import Fnprint.Lib.Checked
import Fnprint.Lib.Machine
import Fnprint.Lib.Resync
import Fnprint.Lib.Stride
import Fnprint.Lib.PartialMatching
import Fnprint.Lib.Journal
import Fnprint.Lib.Delimited
import Fnprint.Lib.Ascii
import Fnprint.Lib.Filters
import Fnprint.Lib.BitFields
import Fnprint.Lib.Frontier
import Fnprint.Lib.Schedule
import Fnprint.Lib.Pipe
import Fnprint.Lib.Paging
import Fnprint.Trace
import Fnprint.Sig
import Fnprint.Db
import Fnprint.Similarity
import Fnprint.Minhash
import Fnprint.Shingles
import Fnprint.Loader
import Fnprint.Layout
import Fnprint.LoaderBounds
import Fnprint.Recorder
import Fnprint.RecorderBounds
import Fnprint.Constants
import Fnprint.Pages
import Fnprint.Setup
import Fnprint.Sweep
import Fnprint.Explore
import Fnprint.Frame
import Fnprint.Coverage
import Fnprint.Decode
import Fnprint.Branches
import Fnprint.Index
import Fnprint.Shards
import Fnprint.SymbolNames
import Fnprint.Strip
import Fnprint.CallSweep
import Fnprint.SweepSafe
import Fnprint.Triage
import Fnprint.TriageExact
import Fnprint.DeadRows
import Fnprint.TriageAlone
import Fnprint.TriageSwap
import Fnprint.Store
import Fnprint.StoreLog
import Fnprint.Memory
import Fnprint.MemorySetup
import Fnprint.MemoryFlat
import Fnprint.MemRefines
import Fnprint.Align
import Fnprint.Candidates
import Fnprint.Assignment
import Fnprint.Pruning
import Fnprint.Neighbours
import Fnprint.Match
import Fnprint.ByName
import Fnprint.ByNameOrder
import Fnprint.SelfScores
import Fnprint.SelfDiff
import Fnprint.NodeGraph
import Fnprint.Stable
import Fnprint.Rounds
import Fnprint.InputOrder
import Fnprint.GraphBound
import Fnprint.GraphOverlap
import Fnprint.EarlyExit
import Fnprint.Query
import Fnprint.Accounting
import Fnprint.Eval
import Fnprint.EvalCounts
import Fnprint.EvalOrder
import Fnprint.LoadIndex
import Fnprint.Exchange
import Fnprint.ExchangeSafe
import Fnprint.ExchangeLive
import Fnprint.ExchangeAnswer
import Fnprint.ShardRuns
import Fnprint.RoundTrip
import Fnprint.Statements
import Fnprint.Texts
import Fnprint.Cells
import Fnprint.Reads
import Fnprint.Tokens
import Fnprint.Script
import Fnprint.Sandbox
import Fnprint.Immediates
import Fnprint.Executed
import Fnprint.InsnStarts
import Fnprint.Restarts
import Fnprint.Detours
import Fnprint.Lib.Procedures
import Fnprint.Boot
import Fnprint.Confined
import Fnprint.Hostile
import Fnprint.Schema
import Fnprint.Sessions
import Fnprint.FileHistory
import Fnprint.LowSignal
import Fnprint.SelfQuery
import Fnprint.Metrics
