/-
TdgTool/Metrics.lean

`Graph::visitNode` and `Graph::topoSort` of `graph.cc`, and the critical path
and total time metrics of `metrics.cc`.

The C++ functions mark the nodes while they run, so they take a graph and
return the graph with the marks.  Reading a node that is not there is `none`.
The recursion of `visitNode` and the marking loop of `computeCriticalPath` are
bounded by the number of nodes; running out of that bound is `none` as well.

Both metrics compute in an `Arith`.  `computeCriticalPathIn .double` and
`totalTimeInitIn .double` round as the code does; the theorems are about
`computeCriticalPath` and `totalTimeInit`, which do not round.  Numbers of nodes
are natural numbers; the code keeps them in an `unsigned int`, which is the same
below `2 ^ 32` nodes.
-/
import TdgTool.Graph
import TdgTool.Lib.Doubles

namespace Tdg

open Doubles

namespace NodeData

/-- `Node::setVisited`. -/
def setVisited (nd : NodeData) (visited : Bool) : NodeData := { nd with visited := visited }

/-- `Node::setLevel`. -/
def setLevel (nd : NodeData) (level : ℤ) : NodeData := { nd with level := level }

/-- `Node::setPathLength`. -/
def setPathLength (nd : NodeData) (pathLength : ℤ) : NodeData :=
  { nd with pathLength := pathLength }

/-- `Node::setPathTime`. -/
def setPathTime (nd : NodeData) (pathTime : ℚ) : NodeData := { nd with pathTime := pathTime }

/-- `Node::setPrevCritical`. -/
def setPrevCritical (nd : NodeData) (prevCritical : NodeRef) : NodeData :=
  { nd with prevCritical := some prevCritical }

/-- `Node::setIsCritical`. -/
def setIsCritical (nd : NodeData) (isCritical : Bool) : NodeData :=
  { nd with isCritical := isCritical }

end NodeData

namespace Graph

/-- Apply a setter to the node at an address. -/
def setNode (g : Graph) (n : NodeRef) (f : NodeData → NodeData) : Option Graph :=
  g.modifyNode n (Node.onData f)

/-! ### Topological sort -/

/-- `Graph::visitNode`: a depth first search that puts a node in front of the
list when all its successors have been visited. -/
def visitNode : ℕ → Graph → NodeRef → List NodeRef → Option (Graph × List NodeRef)
  | 0, _, _, _ => none
  | fuel + 1, g, currNode, topoList => do
      let nd ← g.nodes currNode
      let g ← g.setNode currNode fun nd => nd.setVisited true
      let (g, topoList) ← (nd.exitEdges.map Edge.target).foldlM
        (fun (s : Graph × List NodeRef) adjNode => do
          let adj ← s.1.nodes adjNode
          -- looked up each time: an earlier sibling may have visited it
          if adj.visited then some s else visitNode fuel s.1 adjNode s.2)
        (g, topoList)
      some (g, currNode :: topoList)

/-- The first loop of `Graph::topoSort`. -/
def visitAll (g : Graph) : Option (Graph × List NodeRef) :=
  (g.graphNodes.entries.map Prod.snd).foldlM
    (fun (s : Graph × List NodeRef) currNode => do
      let nd ← s.1.nodes currNode
      if nd.visited then some s
      else visitNode (g.graphNodes.entries.length + 1) s.1 currNode s.2)
    (g, [])

/-- The body of the second loop of `Graph::topoSort`: the level of a node is
one more than the largest level of its predecessors, and the largest level so
far is kept. -/
def levelNode (s : Graph × ℤ) (currNode : NodeRef) : Option (Graph × ℤ) := do
  let nd ← s.1.nodes currNode
  let maxCurrLevel ← (nd.entryEdges.map Edge.source).foldlM
    (fun (m : ℤ) sourceNode => do
      let src ← s.1.nodes sourceNode
      some (max (src.level + 1) m))
    0
  let g ← s.1.setNode currNode fun nd => nd.setLevel maxCurrLevel
  some (g, max s.2 maxCurrLevel)

/-- The level of a node of the list, all of which exist. -/
def levelOf (g : Graph) (n : NodeRef) : ℤ :=
  match g.nodes n with
  | some nd => nd.level
  | none => -1

/-- The third loop of `Graph::topoSort`: for each level but the last, the nodes
of that level are moved in front of `start_iter`.  The list is split there. -/
def orderLevels (level : NodeRef → ℤ) :
    List ℤ → List NodeRef → List NodeRef → List NodeRef
  | [], front, back => front ++ back
  | i :: is, front, back =>
      -- `start_iter` skips the nodes of the level that already stand where they belong
      match back.dropWhile fun n => level n = i with
      | [] => front ++ back
      | start :: rest =>
          orderLevels level is
            (front ++ back.takeWhile (fun n => level n = i) ++ rest.filter fun n => level n = i)
            (start :: rest.filter fun n => level n ≠ i)

/-- `Graph::topoSort` with an empty list. -/
def topoSort (g : Graph) : Option (Graph × List NodeRef) := do
  let (g, topoList) ← g.visitAll
  let (g, maxLevel) ← topoList.foldlM levelNode (g, -1)
  -- the nodes of the last level are behind all others by then
  let levels := (List.range maxLevel.toNat).map Int.ofNat
  some (g, orderLevels g.levelOf levels [] topoList)

/-! ### The critical path -/

/-- `CriticalPathMetric` after `computeCriticalPath`. -/
structure CriticalPath where
  timeLen : ℚ := 0
  len : ℤ := 0
  lastCriticalNode : Option NodeRef := none
  deriving DecidableEq, Repr

/-- One predecessor in the scan of a node: the longest path so far, in time and
in number of edges. -/
def relaxEntry (A : Arith) (currNode : NodeRef) (totalTime : ℚ) (s : Graph × ℚ × ℤ)
    (sourceNode : NodeRef) : Option (Graph × ℚ × ℤ) := do
  let src ← s.1.nodes sourceNode
  let pathInc := src.pathLength + 1
  let maxLen := if s.2.2 < pathInc then pathInc else s.2.2
  let timeInc := A.add src.pathTime totalTime
  -- the back pointer follows the time; the length is compared on its own
  if s.2.1 < timeInc then do
    let g ← s.1.setNode currNode fun nd => nd.setPrevCritical sourceNode
    some (g, timeInc, maxLen)
  else
    some (s.1, s.2.1, maxLen)

/-- The body of the scanning loop. -/
def scanNode (A : Arith) (s : Graph × CriticalPath) (currNode : NodeRef) :
    Option (Graph × CriticalPath) := do
  let nd ← s.1.nodes currNode
  let (g, maxTime, maxLen) ← (nd.entryEdges.map Edge.source).foldlM
    (relaxEntry A currNode nd.totalTime) (s.1, nd.totalTime, 0)
  let g ← g.setNode currNode fun nd => (nd.setPathLength maxLen).setPathTime maxTime
  -- the longest path in edges and in time may end in different nodes
  let cp := if s.2.len < maxLen then { s.2 with len := maxLen } else s.2
  let cp := if cp.timeLen < maxTime then
      { cp with timeLen := maxTime, lastCriticalNode := some currNode } else cp
  some (g, cp)

/-- The marking loop. -/
def markCritical : ℕ → Graph → Option NodeRef → Option Graph
  | _, g, none => some g
  -- a back pointer is left when the bound is used up
  | 0, _, some _ => none
  | fuel + 1, g, some n => do
      let g ← g.setNode n fun nd => nd.setIsCritical true
      let nd ← g.nodes n
      markCritical fuel g nd.prevCritical

/-- `CriticalPathMetric::computeCriticalPath`, with the path times added in
`A`. -/
def computeCriticalPathIn (A : Arith) (g : Graph) : Option (Graph × CriticalPath) := do
  let (g, topoList) ← g.topoSort
  let (g, cp) ← topoList.foldlM (scanNode A) (g, {})
  let g ← markCritical topoList.length g cp.lastCriticalNode
  some (g, cp)

/-- `CriticalPathMetric::computeCriticalPath` without rounding. -/
def computeCriticalPath (g : Graph) : Option (Graph × CriticalPath) :=
  g.computeCriticalPathIn .exact

/-- `CriticalPathMetric::getMetric`, for an object that holds `cp`: compute the
path unless a length is stored. -/
def getMetric (g : Graph) (cp : CriticalPath) : Option (Graph × CriticalPath) :=
  if cp.timeLen < 0 then g.computeCriticalPath else some (g, cp)

/-- `CriticalPathMetric::CriticalPathMetric`.  The constructor leaves
`_critical_path_len` unset; it is read after `computeCriticalPath` only. -/
def CriticalPath.new : CriticalPath := { timeLen := -1 }

end Graph

/-! ### Total time -/

/-- The results of `compute_stats`.  The standard deviation is kept as its
square, and the array is the sorted one that `compute_stats` leaves behind. -/
structure Stats where
  total : ℚ
  avg : ℚ
  variance : ℚ
  median : ℚ
  arr : List ℚ
  deriving DecidableEq, Repr

/-- `compute_stats`, called with a non-empty array, in `A`.  `arrSize` is the
`unsigned int arr_size` of an array below `2 ^ 32` elements. -/
def computeStatsIn (A : Arith) (arr : List ℚ) : Stats :=
  let arrSize := arr.length
  let total := A.sum arr
  let avg := A.div total arrSize
  let variance := A.div (A.sum (arr.map fun x => A.mul (A.sub x avg) (A.sub x avg))) arrSize
  -- sorted in place, after the sums and before the median
  let sorted := arr.mergeSort fun a b => a ≤ b
  let median := sorted.getD (arrSize / 2) 0
  let median := if arrSize % 2 = 0 then A.div (A.add median (sorted.getD (arrSize / 2 - 1) 0)) 2
    else median
  ⟨total, avg, variance, median, sorted⟩

/-- `compute_stats` without rounding. -/
def computeStats (arr : List ℚ) : Stats := computeStatsIn .exact arr

/-- `TotalTimeMetric` after `init`.  The statistics are unset (`none`) when the
graph is empty.  The counts are `unsigned int` in the code; each is at most the
number of entries (`totalTimeInit_counts_le`), so nothing wraps around below
`2 ^ 32` nodes. -/
structure TotalTime where
  nodesTotalTime : ℚ
  nodeTimesArr : List ℚ
  stats : Option Stats
  numChunks : ℕ
  totalChunkTimes : ℚ
  numExplicitTasks : ℕ
  totalExplicitTimes : ℚ
  deriving DecidableEq, Repr

namespace Graph

/-- The nodes of `_graphNodes` in the order of the ids. -/
def nodeList (g : Graph) : Option (List Node) := g.graphNodes.entries.mapM fun a => g.nodes a.2

/-- `TotalTimeMetric::init`, with the sums taken in `A`. -/
def totalTimeInitIn (A : Arith) (g : Graph) : Option TotalTime := do
  let nodes ← g.nodeList
  let arr := nodes.map fun nd => nd.totalTime
  let chunks := nodes.filter fun nd => nd.type = .chunkTask
  let explicit := nodes.filter fun nd => nd.type = .expTask
  let stats := if 0 < arr.length then some (computeStatsIn A arr) else none
  some {
    nodesTotalTime := match stats with
      | some st => st.total
      | none => 0
    nodeTimesArr := match stats with
      | some st => st.arr
      | none => arr
    stats := stats
    numChunks := chunks.length
    totalChunkTimes := A.sum (chunks.map fun nd => nd.totalTime)
    numExplicitTasks := explicit.length
    totalExplicitTimes := A.sum (explicit.map fun nd => nd.totalTime) }

/-- `TotalTimeMetric::init` without rounding. -/
def totalTimeInit (g : Graph) : Option TotalTime := g.totalTimeInitIn .exact

/-! ### What the total time metric says -/

variable {g : Graph} {tt : TotalTime} {nodes : List Node}

theorem exists_totalTimeInit (hnodes : g.nodeList = some nodes) :
    ∃ tt, g.totalTimeInit = some tt := by
  rw [totalTimeInit, totalTimeInitIn, hnodes]
  exact ⟨_, rfl⟩

/-- The counts are those of the nodes by their types. -/
theorem totalTimeInit_counts (hnodes : g.nodeList = some nodes) (h : g.totalTimeInit = some tt) :
    tt.numChunks = (nodes.filter fun nd => nd.type = .chunkTask).length ∧
      tt.numExplicitTasks = (nodes.filter fun nd => nd.type = .expTask).length := by
  rw [totalTimeInit, totalTimeInitIn, hnodes] at h
  obtain rfl := Option.some.inj h
  exact ⟨rfl, rfl⟩

/-- The total is the sum of the times of the nodes. -/
theorem nodesTotalTime_eq (h : g.totalTimeInit = some tt) :
    ∃ nodes, g.nodeList = some nodes ∧
      tt.nodesTotalTime = (nodes.map fun nd => nd.totalTime).sum ∧
      tt.nodeTimesArr.Perm (nodes.map fun nd => nd.totalTime) := by
  obtain ⟨nodes, hnodes, h⟩ := Option.bind_eq_some_iff.mp h
  refine ⟨nodes, hnodes, ?_⟩
  obtain rfl := Option.some.inj h
  -- without nodes `compute_stats` is not called and the total stays 0
  rcases nodes with - | ⟨nd, nodes⟩
  · simp
  · exact ⟨Arith.exact_sum _, List.mergeSort_perm _ _⟩

theorem nodeList_length (h : g.nodeList = some nodes) :
    nodes.length = g.graphNodes.entries.length := by
  unfold nodeList at h
  generalize g.graphNodes.entries = entries at h ⊢
  induction entries generalizing nodes with
  | nil =>
    obtain rfl := Option.some.inj h
    rfl
  | cons a l ih =>
    rw [List.mapM_cons] at h
    obtain ⟨nd, -, h⟩ := Option.bind_eq_some_iff.mp h
    obtain ⟨nodes', h', h⟩ := Option.bind_eq_some_iff.mp h
    obtain rfl := Option.some.inj h
    rw [List.length_cons, List.length_cons, ih h']

/-- No count exceeds the number of entries of `_graphNodes`. -/
theorem totalTimeInit_counts_le (h : g.totalTimeInit = some tt) :
    tt.nodeTimesArr.length = g.graphNodes.entries.length ∧
      tt.numChunks ≤ g.graphNodes.entries.length ∧
      tt.numExplicitTasks ≤ g.graphNodes.entries.length := by
  obtain ⟨nodes, hnodes, -, hperm⟩ := nodesTotalTime_eq h
  have hlen : nodes.length = g.graphNodes.entries.length := nodeList_length hnodes
  obtain ⟨hchunks, hexplicit⟩ := totalTimeInit_counts hnodes h
  refine ⟨by rw [hperm.length_eq, List.length_map, hlen], ?_, ?_⟩
  · exact hchunks.trans_le ((List.length_filter_le _ nodes).trans hlen.le)
  · exact hexplicit.trans_le ((List.length_filter_le _ nodes).trans hlen.le)

/-- The list of nodes exists when every entry leads to a node. -/
theorem nodeList_eq (h : ∀ a ∈ g.graphNodes.entries, ∃ nd, g.nodes a.2 = some nd) :
    ∃ nodes, g.nodeList = some nodes ∧
      g.graphNodes.entries.map (fun a => g.nodes a.2) = nodes.map some := by
  unfold nodeList
  generalize g.graphNodes.entries = entries at h ⊢
  induction entries with
  | nil => exact ⟨[], rfl, rfl⟩
  | cons a l ih =>
    obtain ⟨nodes, h1, h2⟩ := ih fun b hb => h b (List.mem_cons_of_mem a hb)
    obtain ⟨nd, hnd⟩ := h a List.mem_cons_self
    refine ⟨nd :: nodes, ?_, by simp [hnd, h2]⟩
    rw [List.mapM_cons, hnd, h1]
    rfl

end Graph

end Tdg
