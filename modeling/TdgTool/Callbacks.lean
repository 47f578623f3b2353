/-
TdgTool/Callbacks.lean

The OMPT callbacks of `callbacks.cc` as functions on an explicit tool state.

The runtime hands the tool `ompt_data_t*` cells for threads, parallel regions
and tasks; their `ptr` members are the maps `threadData`, `parData` and
`taskData`, with `none` for a null pointer.  A callback that would dereference
a null or dangling pointer returns `none`.

`ftimer_msec` is a stream of readings: the `k`-th call in a run returns
`env.clock k`, whichever thread makes it.  `PAPI_stop` takes its values from
`env.papi` in the same way.

Two fields of the state are observations and are read by no callback:
`charges` lists every interval that an `addTime` adds to a node, with the
thread whose callback does so, and `papiCalls` lists the PAPI calls.

Readings are rationals and are subtracted exactly.  Team sizes, barrier counts
and loop counters are natural numbers; in the code they are `unsigned int` and
`uint64_t`.

`cb_work`, `cb_task_dependences` and `cb_task_dependence` have empty bodies
and are not modelled.  Nor are the arguments that no callback reads (thread
types, frames, loop schedules, steps, code addresses), and the PAPI set-up
calls that terminate the process on failure.
-/
import TdgTool.Graph

namespace Tdg

/-! ### Arguments of the callbacks -/

/-- `ompt_scope_endpoint_t`. -/
inductive Endpoint
  | scopeBegin
  | scopeEnd
  deriving DecidableEq, Repr

/-- `ompt_task_type_t`. -/
inductive TaskType
  | initial
  | implicit
  | explicit
  | target
  deriving DecidableEq, Repr

/-- `ompt_task_status_t`. -/
inductive TaskStatus
  | complete
  | yield
  | cancel
  | others
  deriving DecidableEq, Repr

/-- `ompt_sync_region_kind_t`. -/
inductive SyncKind
  | barrier
  | taskwait
  | taskgroup
  deriving DecidableEq, Repr

abbrev ThreadId := ℕ

abbrev RegionId := ℕ

/-- The task whose `ompt_data_t` cell a callback is given: an initial task,
the implicit task of a team thread, or an explicit task. -/
inductive TaskId
  | initial (i : ℕ)
  | implicit (r : RegionId) (t : ℕ)
  | explicit (n : ℕ)
  deriving DecidableEq, Repr

/-- A callback with its arguments.  `parallelBegin` also carries what the
runtime is going to do with the region and does not tell the callback: the
team size it forms and the number of barriers the team executes. -/
inductive Call
  | threadBegin
  | threadEnd
  | implicitTask (endpoint : Endpoint) (r : RegionId) (task : TaskId)
      (teamSize threadNum : ℕ)
  | parallelBegin (parent : TaskId) (r : RegionId)
      (requestedTeamSize teamSize barriers : ℕ)
  | parallelEnd (r : RegionId) (task : TaskId)
  | taskCreate (parent new : TaskId) (type : TaskType)
  | taskSchedule (first : TaskId) (prior : TaskStatus) (second : TaskId)
  | syncRegion (kind : SyncKind) (endpoint : Endpoint) (r : RegionId) (task : TaskId)
  | extLoop (endpoint : Endpoint) (task : TaskId) (lower upper : ℤ)
  | extChunk (task : TaskId) (lower upper : ℤ) (lastChunk : Bool)
  deriving DecidableEq, Repr

/-- A callback invocation on a thread. -/
structure Event where
  thread : ThreadId
  call : Call
  deriving DecidableEq, Repr

/-- What the tool obtains from outside: clock readings and counter values. -/
structure Env where
  clock : ℕ → ℚ
  papi : ℕ → List ℤ := fun _ => []
  numPapiEvents : ℕ := 0

/-! ### The tool's own records

They are generic in the type `ρ` that stands for `Node*`. -/

/-- `WorksharingData`. -/
structure WorksharingData (ρ : Type) where
  startNode : ρ
  sinkNode : ρ
  lastChunkNode : Option ρ := none
  deriving DecidableEq, Repr

/-- `TaskData`. -/
structure TaskData (ρ : Type) where
  currTaskNode : ρ
  currWsData : Option (WorksharingData ρ) := none
  currBarrierNode : Option ρ := none
  sinkNode : Option ρ := none
  threadNum : ℕ := 0
  deriving DecidableEq, Repr

/-- `ParallelRegionData`; a `TaskData*` is named by its task. -/
structure ParallelRegionData (ρ : Type) where
  parentTaskData : TaskId
  sinkNode : ρ
  teamSize : ℕ
  barrierCnt : ℕ := 0
  currBarrierNode : Option ρ := none
  deriving DecidableEq, Repr

/-- `ThreadData`; the PAPI event set is named by its thread. -/
structure ThreadData where
  loopCounter : ℕ
  deriving DecidableEq, Repr

/-- One `addTime`: `[start, stop]` is added to `node` by a callback that runs
on `thread`. -/
structure Charge (ρ : Type) where
  thread : ThreadId
  node : ρ
  start : ℚ
  stop : ℚ
  deriving DecidableEq, Repr

inductive PapiOp
  | start
  | stop
  deriving DecidableEq, Repr

/-- A `PAPI_start` or `PAPI_stop` call for a node on a thread's event set. -/
structure PapiCall (ρ : Type) where
  thread : ThreadId
  op : PapiOp
  node : ρ
  deriving DecidableEq, Repr

/-- The globals of the tool, its heap, and the observations. -/
@[ext] structure Tool extends Graph where
  nextRef : NodeRef
  nextId : ℤ
  finalNode : Option NodeRef
  taskData : TaskId → Option (TaskData NodeRef)
  parData : RegionId → Option (ParallelRegionData NodeRef)
  threadData : ThreadId → Option ThreadData
  ticks : ℕ
  charges : List (Charge NodeRef)
  papiCalls : List (PapiCall NodeRef)

namespace Tool

/-- After `init_libtdg`: an empty graph, and `Node::_nextId` at 1. -/
def init : Tool where
  nodes := fun _ => none
  graphNodes := OrdMap.empty
  nextRef := 0
  nextId := 1
  finalNode := none
  taskData := fun _ => none
  parData := fun _ => none
  threadData := fun _ => none
  ticks := 0
  charges := []
  papiCalls := []

/-! ### Elementary operations -/

def setTaskData (s : Tool) (task : TaskId) (td : Option (TaskData NodeRef)) : Tool :=
  { s with taskData := Function.update s.taskData task td }

def setParData (s : Tool) (r : RegionId) (pi : Option (ParallelRegionData NodeRef)) : Tool :=
  { s with parData := Function.update s.parData r pi }

def setThreadData (s : Tool) (th : ThreadId) (td : Option ThreadData) : Tool :=
  { s with threadData := Function.update s.threadData th td }

/-- Apply a setter of the scalar members to the node at an address. -/
def onNode (s : Tool) (n : NodeRef) (f : NodeData → NodeData) : Option Tool := do
  let g ← s.toGraph.modifyNode n (Node.onData f)
  some { s with toGraph := g }

/-- `n->addTime( ftimer_msec() )`. -/
def addTime (s : Tool) (env : Env) (th : ThreadId) (n : NodeRef) : Option Tool := do
  let nd ← s.nodes n
  let t := env.clock s.ticks
  let s ← s.onNode n fun nd => nd.addTime t
  some { s with
    ticks := s.ticks + 1
    charges := s.charges ++ [⟨th, n, nd.lastTime, t⟩] }

/-- `n->setLastTime( ftimer_msec() )`. -/
def setLastTime (s : Tool) (env : Env) (n : NodeRef) : Option Tool := do
  let t := env.clock s.ticks
  let s ← s.onNode n fun nd => nd.setLastTime t
  some { s with ticks := s.ticks + 1 }

def connectNodes (s : Tool) (source target : NodeRef) : Option Tool := do
  let g ← s.toGraph.connectNodes source target
  some { s with toGraph := g }

def disconnectNodes (s : Tool) (source target : NodeRef) : Option Tool := do
  let g ← s.toGraph.disconnectNodes source target
  some { s with toGraph := g }

/-- `g_tdg->removeNode( n->getId() ); delete n`. -/
def removeAndDelete (s : Tool) (n : NodeRef) : Option Tool := do
  let nd ← s.nodes n
  let g := s.toGraph.removeNode nd.id
  some { s with toGraph := { g with nodes := Function.update g.nodes n none } }

/-- `n->startPapiCounters( eventset )`. -/
def startPapiCounters (s : Tool) (th : ThreadId) (n : NodeRef) : Tool :=
  { s with papiCalls := s.papiCalls ++ [⟨th, .start, n⟩] }

/-- `n->endPapiCounters( eventset )`. -/
def endPapiCounters (s : Tool) (env : Env) (th : ThreadId) (n : NodeRef) : Option Tool := do
  let vals := env.papi s.papiCalls.length
  let s ← s.onNode n fun nd => nd.setPapiVals vals
  some { s with papiCalls := s.papiCalls ++ [⟨th, .stop, n⟩] }

/-- `create_clean_node`: allocate a node and put it into the graph, under the
next id or under the constant id 0. -/
def createCleanNode (s : Tool) (type : NodeType) (genId : Bool) : NodeRef × Tool :=
  let nid := if genId then s.nextId else 0
  let n := s.nextRef
  let g := { s.toGraph with
    nodes := Function.update s.nodes n (some (Node.new nid type 0)) }
  (n, { s with
    toGraph := g.addNode nid n
    nextRef := n + 1
    nextId := if genId then s.nextId + 1 else s.nextId })

/-- `create_new_node`. -/
def createNewNode (s : Tool) (env : Env) (type : NodeType) (parentNode : Option NodeRef)
    (setTime : Bool := true) : Option (NodeRef × Tool) := do
  -- without a parent the id is the constant 0
  let (n, s) := s.createCleanNode type parentNode.isSome
  let s ← match parentNode with
    | some p => s.connectNodes p n
    | none => some s
  let s ← if setTime then s.setLastTime env n else some s
  some (n, s)

/-! ### The callbacks -/

/-- `cb_thread_begin`. -/
def cbThreadBegin (s : Tool) (th : ThreadId) : Option Tool :=
  some (s.setThreadData th (some ⟨0⟩))

/-- `cb_thread_end`. -/
def cbThreadEnd (s : Tool) (th : ThreadId) : Option Tool := do
  let _ ← s.threadData th
  some (s.setThreadData th none)

/-- `cb_implicit_task` with `ompt_scope_begin`. -/
def cbImplicitTaskBegin (s : Tool) (env : Env) (r : RegionId) (task : TaskId)
    (threadNum : ℕ) : Option Tool := do
  let parInfo ← s.parData r
  let parentTask ← s.taskData parInfo.parentTaskData
  let (n, s) ← s.createNewNode env .impTask (some parentTask.currTaskNode)
  some (s.setTaskData task (some
    { currTaskNode := n
      sinkNode := some parInfo.sinkNode
      threadNum := threadNum }))

/-- `cb_implicit_task` with `ompt_scope_end`.  After a barrier the current node
is the one created for what follows the barrier, and nothing followed. -/
def cbImplicitTaskEnd (s : Tool) (env : Env) (th : ThreadId) (task : TaskId)
    (threadNum : ℕ) : Option Tool := do
  let currTask ← s.taskData task
  let s ← match currTask.currBarrierNode with
    | some barrierNode => do
        -- the current node was created for what follows the barrier, and nothing followed
        let s ← s.disconnectNodes barrierNode currTask.currTaskNode
        let s ← s.removeAndDelete currTask.currTaskNode
        -- the threads share the barrier, so one of them connects it to the sink
        if threadNum = 0 then do
          let sink ← currTask.sinkNode
          s.connectNodes barrierNode sink
        else
          some s
    | none => do
        let s ← s.addTime env th currTask.currTaskNode
        let sink ← currTask.sinkNode
        s.connectNodes currTask.currTaskNode sink
  some (s.setTaskData task none)

/-- `cb_parallel_begin`. -/
def cbParallelBegin (s : Tool) (env : Env) (th : ThreadId) (parent : TaskId)
    (r : RegionId) (requestedTeamSize : ℕ) : Option Tool := do
  let parentTask ← s.taskData parent
  let s ← s.addTime env th parentTask.currTaskNode
  -- nothing leads to the sink yet, and `cb_parallel_end` starts it
  let (sink, s) := s.createCleanNode .impTask true
  some (s.setParData r (some
    { parentTaskData := parent
      sinkNode := sink
      teamSize := requestedTeamSize }))

/-- `cb_parallel_end`. -/
def cbParallelEnd (s : Tool) (env : Env) (r : RegionId) : Option Tool := do
  let parInfo ← s.parData r
  let parentTask ← s.taskData parInfo.parentTaskData
  let s := s.setTaskData parInfo.parentTaskData
    (some { parentTask with currTaskNode := parInfo.sinkNode })
  let s ← s.setLastTime env parInfo.sinkNode
  some ({ s with finalNode := some parInfo.sinkNode }.setParData r none)

/-- `cb_task_create`; the parent's `ptr` may be null. -/
def cbTaskCreate (s : Tool) (env : Env) (parent new : TaskId) (type : TaskType) :
    Option Tool :=
  match type with
  | .initial => do
      let (n, s) ← s.createNewNode env .rootTask none
      some { s.setTaskData new (some { currTaskNode := n }) with finalNode := some n }
  | .explicit => do
      let parentTask := s.taskData parent
      let (n, s) ← s.createNewNode env .expTask (parentTask.map (·.currTaskNode))
      some (s.setTaskData new (some { currTaskNode := n }))
  | .implicit => some s
  | .target => some s

/-- `cb_task_schedule`; the status is not read. -/
def cbTaskSchedule (s : Tool) (env : Env) (th : ThreadId) (first second : TaskId) :
    Option Tool := do
  let s ← match s.taskData first with
    | some firstTask => s.addTime env th firstTask.currTaskNode
    | none => some s
  match s.taskData second with
  | some secondTask => s.setLastTime env secondTask.currTaskNode
  | none => some s

/-- The mutex-protected part of `cb_sync_region` begin: the first thread of a
phase creates the barrier node, the others connect to it, and the counter is
reset when it reaches the requested team size. -/
def reachBarrier (s : Tool) (env : Env) (r : RegionId)
    (parInfo : ParallelRegionData NodeRef) (currNode : NodeRef) :
    Option (NodeRef × Tool) :=
  if parInfo.barrierCnt = 0 then do
    let (barrierNode, s) ← s.createNewNode env .barrier (some currNode)
    some (barrierNode, s.setParData r (some
      { parInfo with barrierCnt := 1, currBarrierNode := some barrierNode }))
  else do
    let barrierNode ← parInfo.currBarrierNode
    let s ← s.connectNodes currNode barrierNode
    -- the team that was requested may be larger than the one that was formed
    let cnt := parInfo.barrierCnt + 1
    some (barrierNode, s.setParData r (some
      { parInfo with barrierCnt := if parInfo.teamSize ≤ cnt then 0 else cnt }))

/-- `cb_sync_region` with `ompt_scope_begin` for a barrier of a team of more
than one thread. -/
def cbBarrierBegin (s : Tool) (env : Env) (th : ThreadId) (r : RegionId)
    (parInfo : ParallelRegionData NodeRef) (task : TaskId) : Option Tool := do
  let currTask ← s.taskData task
  let s ← s.addTime env th currTask.currTaskNode
  let newBarrier := parInfo.barrierCnt = 0
  let (barrierNode, s) ← s.reachBarrier env r parInfo currTask.currTaskNode
  let (n, s) ← s.createNewNode env .impTask (some barrierNode)
  -- the edge of `createNewNode` once more; `connectNodes` finds that it is there
  let s ← if newBarrier then s.connectNodes barrierNode n else some s
  some (s.setTaskData task (some
    { currTask with currTaskNode := n, currBarrierNode := some barrierNode }))

/-- `cb_sync_region`.  Only barriers of a live region whose requested team has
more than one thread have an effect. -/
def cbSyncRegion (s : Tool) (env : Env) (th : ThreadId) (kind : SyncKind)
    (endpoint : Endpoint) (r : RegionId) (task : TaskId) : Option Tool :=
  if kind = .barrier then
    match s.parData r with
    | none => some s
    | some parInfo =>
        if 1 < parInfo.teamSize then
          match endpoint with
          | .scopeBegin => s.cbBarrierBegin env th r parInfo task
          | .scopeEnd => do
              let currTask ← s.taskData task
              s.setLastTime env currTask.currTaskNode
        else
          some s
  else
    some s

/-- `cb_ext_loop` with `ompt_scope_begin`. -/
def cbExtLoopBegin (s : Tool) (env : Env) (th : ThreadId) (task : TaskId)
    (lower upper : ℤ) : Option Tool := do
  let currTask ← s.taskData task
  let s ← s.addTime env th currTask.currTaskNode
  let (start, s) ← s.createNewNode env .wsTask (some currTask.currTaskNode)
  let s ← s.onNode start fun nd => nd.setLowerUpper lower upper
  -- the sink gets no start time here; the end of the loop starts it
  let (sink, s) := s.createCleanNode .impTask true
  some (s.setTaskData task (some
    { currTask with currWsData := some { startNode := start, sinkNode := sink } }))

/-- `cb_ext_loop` with `ompt_scope_end`. -/
def cbExtLoopEnd (s : Tool) (env : Env) (th : ThreadId) (task : TaskId) : Option Tool := do
  let currTask ← s.taskData task
  let ws ← currTask.currWsData
  let thData ← s.threadData th
  let s ← match ws.lastChunkNode with
    | some lastChunkNode => do
        let s ← s.endPapiCounters env th lastChunkNode
        s.addTime env th lastChunkNode
    | none => do
        -- the thread got no chunk: its start node is still open and leads nowhere yet
        let s ← s.addTime env th ws.startNode
        s.connectNodes ws.startNode ws.sinkNode
  let s ← s.setLastTime env ws.sinkNode
  let s := s.setTaskData task (some
    { currTask with currTaskNode := ws.sinkNode, currWsData := none })
  some (s.setThreadData th (some ⟨thData.loopCounter + 1⟩))

/-- The first half of `cb_ext_chunk`: close the open chunk, or the loop's start
node when no chunk is open. -/
def closeChunk (s : Tool) (env : Env) (th : ThreadId) (ws : WorksharingData NodeRef)
    (lastChunk : Bool) : Option Tool :=
  match ws.lastChunkNode with
  | some lastChunkNode =>
      -- the open chunk is the last one of the thread, and `cb_ext_loop` closes it
      if lastChunk then some s
      else do
        let s ← s.endPapiCounters env th lastChunkNode
        s.addTime env th lastChunkNode
  | none => s.addTime env th ws.startNode

/-- The second half of `cb_ext_chunk`: a new chunk node. -/
def openChunk (s : Tool) (env : Env) (th : ThreadId) (task : TaskId)
    (currTask : TaskData NodeRef) (ws : WorksharingData NodeRef) (lower upper : ℤ) :
    Option Tool := do
  let thData ← s.threadData th
  let (chunk, s) ← s.createNewNode env .chunkTask (some ws.startNode)
  let s ← s.onNode chunk fun nd =>
    ((nd.setLowerUpper lower upper).setLoopCounter thData.loopCounter).setThreadId
      currTask.threadNum
  let s := s.setTaskData task (some
    { currTask with currWsData := some { ws with lastChunkNode := some chunk } })
  -- every chunk leads to the sink of the loop, and none to the next chunk
  let s ← s.connectNodes chunk ws.sinkNode
  let s ← s.onNode chunk fun nd => nd.initPapiVals env.numPapiEvents
  some (s.startPapiCounters th chunk)

/-- `cb_ext_chunk`. -/
def cbExtChunk (s : Tool) (env : Env) (th : ThreadId) (task : TaskId)
    (lower upper : ℤ) (lastChunk : Bool) : Option Tool := do
  let currTask ← s.taskData task
  let ws ← currTask.currWsData
  let s ← s.closeChunk env th ws lastChunk
  if lastChunk then some s
  else s.openChunk env th task currTask ws lower upper

/-! ### Runs -/

/-- The callback that an event invokes. -/
def callback (env : Env) (s : Tool) (e : Event) : Option Tool :=
  match e.call with
  | .threadBegin => s.cbThreadBegin e.thread
  | .threadEnd => s.cbThreadEnd e.thread
  | .implicitTask .scopeBegin r task _ threadNum =>
      s.cbImplicitTaskBegin env r task threadNum
  | .implicitTask .scopeEnd _ task _ threadNum =>
      s.cbImplicitTaskEnd env e.thread task threadNum
  | .parallelBegin parent r requested _ _ =>
      s.cbParallelBegin env e.thread parent r requested
  | .parallelEnd r _ => s.cbParallelEnd env r
  | .taskCreate parent new type => s.cbTaskCreate env parent new type
  | .taskSchedule first _ second => s.cbTaskSchedule env e.thread first second
  | .syncRegion kind endpoint r task => s.cbSyncRegion env e.thread kind endpoint r task
  | .extLoop .scopeBegin task lower upper =>
      s.cbExtLoopBegin env e.thread task lower upper
  | .extLoop .scopeEnd task _ _ => s.cbExtLoopEnd env e.thread task
  | .extChunk task lower upper lastChunk =>
      s.cbExtChunk env e.thread task lower upper lastChunk

/-- A sequence of callbacks on a tool state. -/
def runFrom (env : Env) (s : Tool) (es : List Event) : Option Tool :=
  es.foldlM (callback env) s

/-- A sequence of callbacks after `init_libtdg`. -/
def run (env : Env) (es : List Event) : Option Tool := runFrom env init es

/-- The first statement of `finalize_libtdg`: close `g_finalNode`. -/
def closeFinalNode (s : Tool) (env : Env) (th : ThreadId) : Option Tool :=
  match s.finalNode with
  | some n => s.addTime env th n
  | none => some s

end Tool

end Tdg
