/-
TdgTool/Graph.lean

The data model of `graph.h` and the edge operations of `graph.cc`.

A `Node*` is an address `NodeRef` into a heap `nodes`; an address that holds
no node (never allocated, or deleted) is `none`, and every operation that
would dereference it returns `none`.

Where the model is simpler than the code: times are exact rationals, not
doubles, so no sum is rounded (`TdgTool.Rounding` adds them up as doubles);
ids, levels, bounds and path lengths are integers, and counters are natural
numbers, without the range of `int64_t`, `int`, `uint64_t` and `unsigned int`.

The scalar members of `Node` are grouped in `NodeData`; the two edge vectors
are added in `Node`.  `_finishTime` and `maxPredFinishTime` are not modelled:
no function of the program calls them.
-/
import TdgTool.Lib.OrdMap

namespace Tdg

/-! ### Nodes and edges -/

/-- `Node::NodeType`. -/
inductive NodeType
  | rootTask
  | impTask
  | wsTask
  | chunkTask
  | expTask
  | barrier
  | taskwait
  deriving DecidableEq, Repr

/-- The address of a `Node` object. -/
abbrev NodeRef := ℕ

/-- `Edge`: the two ends of an edge object. -/
structure Edge where
  source : NodeRef
  target : NodeRef
  deriving DecidableEq, Repr

/-- The scalar members of `Node`, with the constructor's initial values.
`_loopCounter` and `_threadId` are left unset by the constructor (`none`). -/
structure NodeData where
  id : ℤ
  type : NodeType
  totalTime : ℚ
  visited : Bool := false
  level : ℤ := -1
  lastTime : ℚ := 0
  lower : ℤ := 0
  upper : ℤ := 0
  loopCounter : Option ℕ := none
  threadId : Option ℕ := none
  isCritical : Bool := false
  pathLength : ℤ := 0
  pathTime : ℚ := 0
  prevCritical : Option NodeRef := none
  papiVals : List ℤ := []
  deriving DecidableEq, Repr

/-- A `Node`: its scalar members and its entry and exit edge vectors. -/
structure Node extends NodeData where
  entryEdges : List Edge := []
  exitEdges : List Edge := []
  deriving DecidableEq, Repr

namespace NodeData

/-- `Node::setLastTime`. -/
def setLastTime (nd : NodeData) (lastTime : ℚ) : NodeData :=
  { nd with lastTime := lastTime }

/-- `Node::addTime`, without the rounding of doubles. -/
def addTime (nd : NodeData) (currTime : ℚ) : NodeData :=
  { nd with totalTime := nd.totalTime + (currTime - nd.lastTime), lastTime := currTime }

/-- `Node::setLowerUpper`. -/
def setLowerUpper (nd : NodeData) (lower upper : ℤ) : NodeData :=
  { nd with lower := lower, upper := upper }

/-- `Node::setLoopCounter`. -/
def setLoopCounter (nd : NodeData) (loopCnt : ℕ) : NodeData :=
  { nd with loopCounter := some loopCnt }

/-- `Node::setThreadId`. -/
def setThreadId (nd : NodeData) (threadId : ℕ) : NodeData :=
  { nd with threadId := some threadId }

/-- `Node::initPapiVals`: an array of `numPapiEvents` zeros. -/
def initPapiVals (nd : NodeData) (numPapiEvents : ℕ) : NodeData :=
  { nd with papiVals := List.replicate numPapiEvents 0 }

/-- The values that `PAPI_stop` writes into `_papiValsArr`. -/
def setPapiVals (nd : NodeData) (vals : List ℤ) : NodeData :=
  { nd with papiVals := vals }

end NodeData

namespace Node

/-- `new Node( id, type, total_time )`. -/
def new (id : ℤ) (type : NodeType) (totalTime : ℚ) : Node :=
  { id := id, type := type, totalTime := totalTime }

/-- Apply an operation on the scalar members. -/
def onData (f : NodeData → NodeData) (nd : Node) : Node :=
  { nd with toNodeData := f nd.toNodeData }

/-- `Node::isConnectedWith`. -/
def isConnectedWith (nd : Node) (target : NodeRef) : Bool :=
  nd.exitEdges.any fun e => e.target = target

/-- `getExits().push_back`. -/
def pushExit (e : Edge) (nd : Node) : Node :=
  { nd with exitEdges := nd.exitEdges ++ [e] }

/-- `getEntries().push_back`. -/
def pushEntry (e : Edge) (nd : Node) : Node :=
  { nd with entryEdges := nd.entryEdges ++ [e] }

/-- Erase the first exit edge that leads to `target`. -/
def eraseExit (target : NodeRef) (nd : Node) : Node :=
  { nd with exitEdges := nd.exitEdges.eraseP fun e => e.target = target }

/-- Erase the first entry edge that comes from `source`. -/
def eraseEntry (source : NodeRef) (nd : Node) : Node :=
  { nd with entryEdges := nd.entryEdges.eraseP fun e => e.source = source }

end Node

/-! ### Graphs -/

/-- A `Graph` with the heap its node pointers lead into. -/
structure Graph where
  nodes : NodeRef → Option Node
  graphNodes : OrdMap ℤ NodeRef

namespace Graph

/-- No node at all. -/
def empty : Graph := ⟨fun _ => none, OrdMap.empty⟩

/-- Update the node at an address. -/
def modifyNode (g : Graph) (n : NodeRef) (f : Node → Node) : Option Graph :=
  (g.nodes n).map fun nd => { g with nodes := Function.update g.nodes n (some (f nd)) }

/-- `Graph::addNode`. -/
def addNode (g : Graph) (id : ℤ) (n : NodeRef) : Graph :=
  { g with graphNodes := g.graphNodes.insert id n }

/-- `Graph::removeNode`. -/
def removeNode (g : Graph) (id : ℤ) : Graph :=
  { g with graphNodes := g.graphNodes.erase id }

/-- `Graph::connectNodes`.  A target that is already connected is only
compared, not dereferenced. -/
def connectNodes (g : Graph) (source target : NodeRef) : Option Graph := do
  let src ← g.nodes source
  if src.isConnectedWith target then
    -- a second edge between the same nodes is not stored
    some g
  else
    let newEdge : Edge := ⟨source, target⟩
    let g ← g.modifyNode source (Node.pushExit newEdge)
    g.modifyNode target (Node.pushEntry newEdge)

/-- `Graph::disconnectNodes`. -/
def disconnectNodes (g : Graph) (source target : NodeRef) : Option Graph := do
  let g ← g.modifyNode source (Node.eraseExit target)
  g.modifyNode target (Node.eraseEntry source)

/-! ### What the stored graph says -/

/-- An edge as the traversals of the exit vectors see it. -/
def Adj (g : Graph) (u v : NodeRef) : Prop :=
  ∃ nd, g.nodes u = some nd ∧ ∃ e ∈ nd.exitEdges, e.target = v

/-- The node is a value of `_graphNodes`. -/
def Present (g : Graph) (n : NodeRef) : Prop := ∃ id, (id, n) ∈ g.graphNodes.entries

/-- Every edge stored in a live node's vectors has both ends in
`_graphNodes`. -/
def EdgesPresent (g : Graph) : Prop :=
  ∀ n nd, g.nodes n = some nd → ∀ e ∈ nd.exitEdges ++ nd.entryEdges,
    g.Present e.source ∧ g.Present e.target

end Graph

end Tdg
