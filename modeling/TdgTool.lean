import TdgTool.Lib.OrdMap
import TdgTool.Lib.Doubles
import TdgTool.Graph
import TdgTool.Callbacks
import TdgTool.Runtime
import TdgTool.Roles
import TdgTool.Realize
import TdgTool.Discipline
import TdgTool.Shape
import TdgTool.Skeleton
import TdgTool.Simulation
import TdgTool.Runs
import TdgTool.Lib.Paths
import TdgTool.Lib.Partial
import TdgTool.Structure
import TdgTool.Phases
import TdgTool.Branch
import TdgTool.Ids
import TdgTool.Lib.Intervals
import TdgTool.Times
import TdgTool.Rounding
import TdgTool.Positions
import TdgTool.Accounting
import TdgTool.BarrierWait
import TdgTool.Threads
import TdgTool.Precedence
import TdgTool.Starts
import TdgTool.Labels
import TdgTool.Adjacency
import TdgTool.Metrics
import TdgTool.Lib.Sample
import TdgTool.Stats
import TdgTool.Lib.DepthFirst
import TdgTool.Lib.LongestPath
import TdgTool.TopoSort
import TdgTool.LoopCycle
import TdgTool.LoopCounters
import TdgTool.CriticalPath
import TdgTool.WorkSpan
import TdgTool.Measured
import TdgTool.Span
import TdgTool.Tasks
import TdgTool.Lib.LabelledGraph
import TdgTool.Program
import TdgTool.Strand
import TdgTool.Weave
import TdgTool.Reference
import TdgTool.Histories
import TdgTool.Determinism
import TdgTool.Lib.Text
import TdgTool.Dot
import TdgTool.Finalize
import TdgTool.Tokens
import TdgTool.Embedding
import TdgTool.Selection
import TdgTool.Lib.Threads
import TdgTool.Locking
import TdgTool.Deadlock
import TdgTool.Interleaving
import TdgTool.Arrivals
import TdgTool.Ownership
