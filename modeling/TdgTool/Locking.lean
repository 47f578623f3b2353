/-
TdgTool/Locking.lean

The callbacks with their mutexes.

`Tool.callback` does a callback in one step.  Here each callback is the code of a
thread (`Lib/Threads.lean`): the mutexes are taken and given back where the source
takes and gives them back, and every access to the memory that threads share is an
instruction of its own, so that other threads may come in between.  The memory is
the state of the tool.

A thread that runs its callback without any other in between does what
`Tool.callback` says (`callback_alone`), so the two levels say the same about one
thread.  What they say about several is the subject of the modules that follow.

The two levels differ where the code crashes.  `Tool.callback` is `none` there;
here `deref` ends the callback at a null pointer, and an access to an address
without a node (`Tool.touch`) does nothing.  So a result about all schedules says
of a run that crashes only what holds up to the crash.
-/
import TdgTool.Callbacks
import TdgTool.Lib.Partial
import TdgTool.Lib.Threads

namespace Tdg

/-- `_barrier_mutex` of a region, `_addMutex`, and `_exitsMutex` and
`_entriesMutex` of a node. -/
inductive Mutex
  | barrier (r : RegionId)
  | add
  | exits (n : NodeRef)
  | entries (n : NodeRef)
  deriving DecidableEq, Repr

/-- The order in which the mutexes are taken. -/
def Mutex.rank : Mutex → Fin 4
  | barrier _ => 0
  | add => 1
  | exits _ => 2
  | entries _ => 3

namespace Tool

/-! ### Single accesses to the memory -/

/-- Change a node; an address without a node stays so. -/
def touch (s : Tool) (n : NodeRef) (f : Node → Node) : Tool :=
  { s with nodes := Function.update s.nodes n ((s.nodes n).map f) }

/-- Change members of a `TaskData`. -/
def onTaskData (s : Tool) (task : TaskId) (f : TaskData NodeRef → TaskData NodeRef) : Tool :=
  s.setTaskData task ((s.taskData task).map f)

/-- Change members of a `ParallelRegionData`. -/
def onParData (s : Tool) (r : RegionId)
    (f : ParallelRegionData NodeRef → ParallelRegionData NodeRef) : Tool :=
  s.setParData r ((s.parData r).map f)

/-- Change members of a `ThreadData`. -/
def onThreadData (s : Tool) (th : ThreadId) (f : ThreadData → ThreadData) : Tool :=
  s.setThreadData th ((s.threadData th).map f)

/-- `n->addTime( t )`. -/
def charge (s : Tool) (th : ThreadId) (n : NodeRef) (t : ℚ) : Tool :=
  { s.touch n (Node.onData fun nd => nd.addTime t) with
    charges := s.charges ++ (s.nodes n).toList.map fun nd => ⟨th, n, nd.lastTime, t⟩ }

/-- `new Node( nid, type, 0 )`. -/
def allocate (s : Tool) (nid : ℤ) (type : NodeType) : NodeRef × Tool :=
  (s.nextRef, { s with
    nodes := Function.update s.nodes s.nextRef (some (Node.new nid type 0))
    nextRef := s.nextRef + 1 })

end Tool

namespace Locked

open Threads Threads.Code

/-- The code of a callback, or of a part of it. -/
abbrev Prog (A : Type) := Code Tool Mutex A

/-- Follow a pointer.  At a null pointer the callback ends here, silently; the
code crashes, unless it checks the pointer as `cb_task_schedule` and
`cb_sync_region` do, and `Tool.callback` is `none`. -/
def deref {A : Type} (f : Tool → Option A) (rest : A → Prog Unit) : Prog Unit :=
  read f >>= fun a => a.elim (pure ()) rest

/-! ### `Node` and `Graph` -/

/-- `Node::isConnectedWith`. -/
def isConnectedWith (n target : NodeRef) : Prog Bool := do
  take (.exits n)
  let res ← read fun s => (s.nodes n).elim false fun nd => nd.isConnectedWith target
  release (.exits n)
  return res

/-- The second half of `Graph::connectNodes`. -/
def pushEdge (source target : NodeRef) : Prog Unit := do
  take (.exits source)
  take (.entries target)
  write fun s => s.touch source (Node.pushExit ⟨source, target⟩)
  write fun s => s.touch target (Node.pushEntry ⟨source, target⟩)
  release (.entries target)
  release (.exits source)

/-- `Graph::connectNodes`.  The mutex of the exits is given back between the look
at them and the new edge. -/
def connectNodes (source target : NodeRef) : Prog Unit := do
  let connected ← isConnectedWith source target
  if connected then return () else pushEdge source target

/-- `Graph::disconnectNodes`. -/
def disconnectNodes (source target : NodeRef) : Prog Unit := do
  take (.exits source)
  write fun s => s.touch source (Node.eraseExit target)
  release (.exits source)
  take (.entries target)
  write fun s => s.touch target (Node.eraseEntry source)
  release (.entries target)

/-- `Graph::addNode`. -/
def addNode (id : ℤ) (n : NodeRef) : Prog Unit := do
  take .add
  write fun s => { s with toGraph := s.toGraph.addNode id n }
  release .add

/-- `Graph::removeNode`. -/
def removeNode (id : ℤ) : Prog Unit := do
  take .add
  write fun s => { s with toGraph := s.toGraph.removeNode id }
  release .add

/-- `ftimer_msec`. -/
def ftimerMsec (env : Env) : Prog ℚ :=
  update fun s => (env.clock s.ticks, { s with ticks := s.ticks + 1 })

/-- `n->addTime( ftimer_msec() )`. -/
def addTime (env : Env) (th : ThreadId) (n : NodeRef) : Prog Unit := do
  let t ← ftimerMsec env
  write fun s => s.charge th n t

/-- `n->setLastTime( ftimer_msec() )`. -/
def setLastTime (env : Env) (n : NodeRef) : Prog Unit := do
  let t ← ftimerMsec env
  write fun s => s.touch n (Node.onData fun nd => nd.setLastTime t)

/-- `n->startPapiCounters( eventset )`. -/
def startPapiCounters (th : ThreadId) (n : NodeRef) : Prog Unit :=
  write fun s => s.startPapiCounters th n

/-- `n->endPapiCounters( eventset )`. -/
def endPapiCounters (env : Env) (th : ThreadId) (n : NodeRef) : Prog Unit :=
  write fun s =>
    { s.touch n (Node.onData fun nd => nd.setPapiVals (env.papi s.papiCalls.length)) with
      papiCalls := s.papiCalls ++ [⟨th, .stop, n⟩] }

/-- `g_tdg->removeNode( n->getId() ); delete n`. -/
def removeAndDelete (n : NodeRef) : Prog Unit :=
  deref (fun s => s.nodes n) fun nd => do
    removeNode nd.id
    write fun s => { s with nodes := Function.update s.nodes n none }

/-- `Node::nextId`, one atomic `fetch_add`, or the constant id 0. -/
def newId (genId : Bool) : Prog ℤ :=
  if genId then update fun s => (s.nextId, { s with nextId := s.nextId + 1 }) else pure 0

/-- `create_clean_node`. -/
def createCleanNode (type : NodeType) (genId : Bool) : Prog NodeRef := do
  let nid ← newId genId
  let n ← update fun s => s.allocate nid type
  addNode nid n
  return n

/-- `create_new_node`, with the time set. -/
def createNewNode (env : Env) (type : NodeType) (parentNode : Option NodeRef) : Prog NodeRef := do
  let n ← createCleanNode type parentNode.isSome
  parentNode.elim (pure ()) fun p => connectNodes p n
  setLastTime env n
  return n

/-! ### The callbacks -/

/-- The node that a task is at. -/
def currTaskNode (task : TaskId) (s : Tool) : Option NodeRef :=
  (s.taskData task).map fun td => td.currTaskNode

/-- `cb_implicit_task` with `ompt_scope_begin`. -/
def cbImplicitTaskBegin (env : Env) (r : RegionId) (task : TaskId) (threadNum : ℕ) : Prog Unit :=
  deref (fun s => s.parData r) fun parInfo =>
    deref (currTaskNode parInfo.parentTaskData) fun parentNode => do
      let n ← createNewNode env .impTask (some parentNode)
      write fun s => s.setTaskData task (some
        { currTaskNode := n, sinkNode := some parInfo.sinkNode, threadNum := threadNum })

/-- The two ways into the sink of the region. -/
def joinSink (env : Env) (th : ThreadId) (currTask : TaskData NodeRef) (threadNum : ℕ) :
    Prog Unit :=
  match currTask.currBarrierNode with
  | some barrierNode => do
      disconnectNodes barrierNode currTask.currTaskNode
      removeAndDelete currTask.currTaskNode
      if threadNum = 0 then
        currTask.sinkNode.elim (pure ()) fun sink => connectNodes barrierNode sink
  | none => do
      addTime env th currTask.currTaskNode
      currTask.sinkNode.elim (pure ()) fun sink => connectNodes currTask.currTaskNode sink

/-- `cb_implicit_task` with `ompt_scope_end`. -/
def cbImplicitTaskEnd (env : Env) (th : ThreadId) (task : TaskId) (threadNum : ℕ) : Prog Unit :=
  deref (fun s => s.taskData task) fun currTask => do
    joinSink env th currTask threadNum
    write fun s => s.setTaskData task none

/-- `cb_parallel_begin`. -/
def cbParallelBegin (env : Env) (th : ThreadId) (parent : TaskId) (r : RegionId)
    (requestedTeamSize : ℕ) : Prog Unit :=
  deref (currTaskNode parent) fun parentNode => do
    addTime env th parentNode
    let sink ← createCleanNode .impTask true
    write fun s => s.setParData r (some
      { parentTaskData := parent, sinkNode := sink, teamSize := requestedTeamSize })

/-- `cb_parallel_end`. -/
def cbParallelEnd (env : Env) (r : RegionId) : Prog Unit :=
  deref (fun s => s.parData r) fun parInfo => do
    write fun s => s.onTaskData parInfo.parentTaskData fun td =>
      { td with currTaskNode := parInfo.sinkNode }
    setLastTime env parInfo.sinkNode
    write fun s => { s with finalNode := some parInfo.sinkNode }
    write fun s => s.setParData r none

/-- `cb_task_create`. -/
def cbTaskCreate (env : Env) (parent new : TaskId) (type : TaskType) : Prog Unit :=
  match type with
  | .initial => do
      let n ← createNewNode env .rootTask none
      write fun s => s.setTaskData new (some { currTaskNode := n })
      write fun s => { s with finalNode := some n }
  | .explicit => do
      let parentNode ← read (currTaskNode parent)
      let n ← createNewNode env .expTask parentNode
      write fun s => s.setTaskData new (some { currTaskNode := n })
  | .implicit => pure ()
  | .target => pure ()

/-- `cb_task_schedule`. -/
def cbTaskSchedule (env : Env) (th : ThreadId) (first second : TaskId) : Prog Unit := do
  deref (currTaskNode first) fun n => addTime env th n
  deref (currTaskNode second) fun n => setLastTime env n

/-- The first thread of a phase creates the barrier. -/
def openBarrier (env : Env) (r : RegionId) (currNode : NodeRef) : Prog (Option NodeRef) := do
  let b ← createNewNode env .barrier (some currNode)
  write fun s => s.onParData r fun p => { p with currBarrierNode := some b }
  return some b

/-- All threads of the requested team have reached the barrier. -/
def resetBarrier (r : RegionId) (teamSize cnt : ℕ) : Prog Unit :=
  if teamSize ≤ cnt then write fun s => s.onParData r fun p => { p with barrierCnt := 0 }
  else pure ()

/-- The others connect to it, and the last one resets the counter. -/
def joinBarrier (r : RegionId) (teamSize : ℕ) (currNode : NodeRef) : Prog (Option NodeRef) := do
  let barrierNode ← read fun s => (s.parData r).bind fun p => p.currBarrierNode
  barrierNode.elim (pure ()) fun b => connectNodes currNode b
  let cnt ← read fun s => (s.parData r).elim 0 fun p => p.barrierCnt
  resetBarrier r teamSize cnt
  return barrierNode

/-- The two branches on `_barrier_cnt++ == 0`. -/
def pickBarrier (env : Env) (r : RegionId) (teamSize : ℕ) (currNode : NodeRef) (cnt : ℕ) :
    Prog (Option NodeRef) :=
  if cnt = 0 then openBarrier env r currNode else joinBarrier r teamSize currNode

/-- The part of `cb_sync_region` that `_barrier_mutex` protects: the barrier node,
and whether it is new. -/
def reachBarrier (env : Env) (r : RegionId) (teamSize : ℕ) (task : TaskId) (currNode : NodeRef) :
    Prog (Option NodeRef × Bool) := do
  take (.barrier r)
  let cnt ← update fun s => ((s.parData r).elim 0 fun p => p.barrierCnt,
    s.onParData r fun p => { p with barrierCnt := p.barrierCnt + 1 })
  let barrierNode ← pickBarrier env r teamSize currNode cnt
  write fun s => s.onTaskData task fun td => { td with currBarrierNode := barrierNode }
  release (.barrier r)
  return (barrierNode, decide (cnt = 0))

/-- `cb_sync_region` with `ompt_scope_begin` for a barrier of a team of more than
one thread. -/
def cbBarrierBegin (env : Env) (th : ThreadId) (r : RegionId) (teamSize : ℕ) (task : TaskId) :
    Prog Unit :=
  deref (currTaskNode task) fun currNode => do
    addTime env th currNode
    let (barrierNode, newBarrier) ← reachBarrier env r teamSize task currNode
    barrierNode.elim (pure ()) fun b => do
      let n ← createNewNode env .impTask (some b)
      write fun s => s.onTaskData task fun td => { td with currTaskNode := n }
      if newBarrier then connectNodes b n

/-- `cb_sync_region`. -/
def cbSyncRegion (env : Env) (th : ThreadId) (kind : SyncKind) (endpoint : Endpoint)
    (r : RegionId) (task : TaskId) : Prog Unit :=
  if kind = .barrier then
    deref (fun s => s.parData r) fun parInfo =>
      if 1 < parInfo.teamSize then
        match endpoint with
        | .scopeBegin => cbBarrierBegin env th r parInfo.teamSize task
        | .scopeEnd => deref (currTaskNode task) fun n => setLastTime env n
      else pure ()
  else pure ()

/-- `cb_ext_loop` with `ompt_scope_begin`. -/
def cbExtLoopBegin (env : Env) (th : ThreadId) (task : TaskId) (lower upper : ℤ) : Prog Unit :=
  deref (currTaskNode task) fun currNode => do
    addTime env th currNode
    let start ← createNewNode env .wsTask (some currNode)
    write fun s => s.touch start (Node.onData fun nd => nd.setLowerUpper lower upper)
    let sink ← createCleanNode .impTask true
    write fun s => s.onTaskData task fun td =>
      { td with currWsData := some { startNode := start, sinkNode := sink } }

/-- The open chunk of a loop is closed, or its start node when it has no chunk. -/
def closeLoop (env : Env) (th : ThreadId) (ws : WorksharingData NodeRef) : Prog Unit :=
  match ws.lastChunkNode with
  | some lastChunkNode => do
      endPapiCounters env th lastChunkNode
      addTime env th lastChunkNode
  | none => do
      addTime env th ws.startNode
      connectNodes ws.startNode ws.sinkNode

/-- `cb_ext_loop` with `ompt_scope_end`. -/
def cbExtLoopEnd (env : Env) (th : ThreadId) (task : TaskId) : Prog Unit :=
  deref (fun s => (s.taskData task).bind fun td => td.currWsData) fun ws => do
    closeLoop env th ws
    write fun s => s.onTaskData task fun td => { td with currTaskNode := ws.sinkNode }
    setLastTime env ws.sinkNode
    write fun s => s.onTaskData task fun td => { td with currWsData := none }
    write fun s => s.onThreadData th fun td => ⟨td.loopCounter + 1⟩

/-- The first half of `cb_ext_chunk`. -/
def closeChunk (env : Env) (th : ThreadId) (ws : WorksharingData NodeRef) (lastChunk : Bool) :
    Prog Unit :=
  match ws.lastChunkNode with
  | some lastChunkNode =>
      if lastChunk then pure ()
      else do
        endPapiCounters env th lastChunkNode
        addTime env th lastChunkNode
  | none => addTime env th ws.startNode

/-- The second half of `cb_ext_chunk`. -/
def openChunk (env : Env) (th : ThreadId) (task : TaskId) (ws : WorksharingData NodeRef)
    (lower upper : ℤ) : Prog Unit := do
  let chunk ← createNewNode env .chunkTask (some ws.startNode)
  write fun s => s.touch chunk (Node.onData fun nd => nd.setLowerUpper lower upper)
  deref (fun s => s.threadData th) fun thData =>
    write fun s => s.touch chunk (Node.onData fun nd => nd.setLoopCounter thData.loopCounter)
  deref (fun s => (s.taskData task).map fun td => td.threadNum) fun threadNum =>
    write fun s => s.touch chunk (Node.onData fun nd => nd.setThreadId threadNum)
  write fun s => s.onTaskData task fun td =>
    { td with currWsData := td.currWsData.map fun ws => { ws with lastChunkNode := some chunk } }
  connectNodes chunk ws.sinkNode
  write fun s => s.touch chunk (Node.onData fun nd => nd.initPapiVals env.numPapiEvents)
  startPapiCounters th chunk

/-- `cb_ext_chunk`. -/
def cbExtChunk (env : Env) (th : ThreadId) (task : TaskId) (lower upper : ℤ) (lastChunk : Bool) :
    Prog Unit :=
  deref (fun s => (s.taskData task).bind fun td => td.currWsData) fun ws => do
    closeChunk env th ws lastChunk
    if lastChunk then pure () else openChunk env th task ws lower upper

/-- The code of the callback that an event invokes. -/
def callback (env : Env) (e : Event) : Prog Unit :=
  match e.call with
  | .threadBegin => write fun s => s.setThreadData e.thread (some ⟨0⟩)
  | .threadEnd => write fun s => s.setThreadData e.thread none
  | .implicitTask .scopeBegin r task _ threadNum => cbImplicitTaskBegin env r task threadNum
  | .implicitTask .scopeEnd _ task _ threadNum => cbImplicitTaskEnd env e.thread task threadNum
  | .parallelBegin parent r requested _ _ => cbParallelBegin env e.thread parent r requested
  | .parallelEnd r _ => cbParallelEnd env r
  | .taskCreate parent new type => cbTaskCreate env parent new type
  | .taskSchedule first _ second => cbTaskSchedule env e.thread first second
  | .syncRegion kind endpoint r task => cbSyncRegion env e.thread kind endpoint r task
  | .extLoop .scopeBegin task lower upper => cbExtLoopBegin env e.thread task lower upper
  | .extLoop .scopeEnd task _ _ => cbExtLoopEnd env e.thread task
  | .extChunk task lower upper lastChunk => cbExtChunk env e.thread task lower upper lastChunk

/-- The code of a thread that runs one callback after the other. -/
def callbacks (env : Env) (es : List Event) : Prog Unit := seq (es.map (callback env))

end Locked

/-! ### One thread alone -/

open Threads Threads.Code Partial

variable {env : Env} {s s' : Tool} {g : Graph} {n u v : NodeRef} {f : Node → Node} {th : ThreadId}
  {type : NodeType} {genId : Bool} {parentNode : Option NodeRef} {task : TaskId} {r : RegionId}

namespace Tool

/-- Where there is a node, a single access is `modifyNode`. -/
theorem touch_eq (h : s.toGraph.modifyNode n f = some g) :
    s.touch n f = { s with toGraph := g } := by
  obtain ⟨nd, hnd, rfl⟩ := Option.map_eq_some_iff.mp h
  rw [touch, hnd]
  rfl

/-- A setter that does not fail is a single access. -/
theorem ensures_touch {f : NodeData → NodeData} :
    Ensures (s.onNode n f) fun s' => s' = s.touch n (Node.onData f) := by
  intro s' h
  obtain ⟨g, hg, hs⟩ := Option.bind_eq_some_iff.mp h
  rw [touch_eq hg]
  exact (Option.some.inj hs).symm

/-- Where there is a record, members are changed in place. -/
theorem onTaskData_eq {td : TaskData NodeRef} (h : s.taskData task = some td)
    (f : TaskData NodeRef → TaskData NodeRef) :
    s.onTaskData task f = s.setTaskData task (some (f td)) := by
  rw [onTaskData, h]
  rfl

end Tool

namespace Locked

/-- A pointer that is not null is followed. -/
theorem alone_deref {A : Type} {f : Tool → Option A} {a : A} (h : f s = some a)
    (rest : A → Prog Unit) : (deref f rest).alone s = (rest a).alone s := by
  rw [deref, alone_bind, alone_read]
  show ((f s).elim (pure ()) rest).alone s = _
  rw [h]
  rfl

/-- Alone, nothing happens between the look at the exits and the new edge. -/
theorem alone_connectNodes :
    Ensures (s.connectNodes u v) fun s' => (connectNodes u v).alone s = ((), s') := by
  refine Ensures.bind (P := fun g => (connectNodes u v).alone s = ((), { s with toGraph := g }))
    (Ensures.read fun nd hnd => ?_) fun g hg => Ensures.some hg
  have hlook : (isConnectedWith u v).alone s = (nd.isConnectedWith v, s) := by
    simp [isConnectedWith, hnd]
  rw [connectNodes]
  refine Ensures.ite (fun hc => Ensures.some ?_) fun hc => ?_
  · simp [hlook, hc]
  · refine Ensures.read fun g₁ hg₁ => fun g₂ hg₂ => ?_
    have hpush : ({ s with toGraph := g₁ } : Tool).touch v (Node.pushEntry ⟨u, v⟩) =
      { s with toGraph := g₂ } := Tool.touch_eq hg₂
    simp [hlook, hc, pushEdge, Tool.touch_eq hg₁, hpush]

/-- Alone, the two erasures are `Tool.disconnectNodes`. -/
theorem alone_disconnectNodes :
    Ensures (s.disconnectNodes u v) fun s' => (disconnectNodes u v).alone s = ((), s') := by
  refine Ensures.bind (P := fun g => (disconnectNodes u v).alone s = ((), { s with toGraph := g }))
    (Ensures.read fun g₁ hg₁ => fun g₂ hg₂ => ?_) fun g hg => Ensures.some hg
  have herase : ({ s with toGraph := g₁ } : Tool).touch v (Node.eraseEntry u) =
    { s with toGraph := g₂ } := Tool.touch_eq hg₂
  simp [disconnectNodes, Tool.touch_eq hg₁, herase]

/-- Alone, the reading and the charge are `Tool.addTime`. -/
theorem alone_addTime :
    Ensures (s.addTime env th n) fun s' => (addTime env th n).alone s = ((), s') := by
  refine Ensures.read fun nd hnd => Ensures.bind Tool.ensures_touch fun s₁ h₁ => Ensures.some ?_
  subst h₁
  simp [addTime, ftimerMsec, Tool.charge, Tool.touch, hnd]

theorem alone_setLastTime :
    Ensures (s.setLastTime env n) fun s' => (setLastTime env n).alone s = ((), s') := by
  refine Ensures.bind Tool.ensures_touch fun s₁ h₁ => Ensures.some ?_
  subst h₁
  simp [setLastTime, ftimerMsec, Tool.touch]

theorem alone_endPapiCounters :
    Ensures (s.endPapiCounters env th n) fun s' =>
      (endPapiCounters env th n).alone s = ((), s') := by
  refine Ensures.bind Tool.ensures_touch fun s₁ h₁ => Ensures.some ?_
  subst h₁
  rfl

theorem alone_removeAndDelete :
    Ensures (s.removeAndDelete n) fun s' => (removeAndDelete n).alone s = ((), s') := by
  refine Ensures.read fun nd hnd => Ensures.some ?_
  rw [removeAndDelete, alone_deref hnd]
  simp [removeNode]

/-- Alone, the id, the allocation and the entry in the map are
`Tool.createCleanNode`. -/
theorem alone_createCleanNode (s : Tool) (type : NodeType) (genId : Bool) :
    (createCleanNode type genId).alone s = s.createCleanNode type genId := by
  cases genId <;>
    simp [createCleanNode, newId, addNode, Tool.allocate, Tool.createCleanNode, Graph.addNode]

/-- Alone, a node is created, connected and started as in `Tool.createNewNode`. -/
theorem alone_createNewNode : Ensures (s.createNewNode env type parentNode) fun a =>
    (createNewNode env type parentNode).alone s = a := by
  have hcreate := alone_createCleanNode s type parentNode.isSome
  have heq : s.createNewNode env type parentNode =
      (parentNode.elim (some (s.createCleanNode type parentNode.isSome).2) fun p =>
        (s.createCleanNode type parentNode.isSome).2.connectNodes p
          (s.createCleanNode type parentNode.isSome).1).bind fun s₂ =>
        (s₂.setLastTime env (s.createCleanNode type parentNode.isSome).1).bind fun s₃ =>
          some ((s.createCleanNode type parentNode.isSome).1, s₃) := by
    cases parentNode <;> simp [Tool.createNewNode]
  rw [heq]
  generalize s.createCleanNode type parentNode.isSome = c at hcreate
  have hconnect : Ensures (parentNode.elim (some c.2) fun p => c.2.connectNodes p c.1) fun s₂ =>
      (parentNode.elim (pure ()) fun p => connectNodes p c.1 : Prog Unit).alone c.2 =
        ((), s₂) := by
    cases parentNode with
    | none => exact Ensures.some rfl
    | some p => exact alone_connectNodes
  refine Ensures.bind hconnect fun s₂ h₂ =>
    Ensures.bind alone_setLastTime fun s₃ h₃ => Ensures.some ?_
  simp [createNewNode, hcreate, h₂, h₃]

/-! ### The callbacks alone -/

theorem alone_cbImplicitTaskBegin {threadNum : ℕ} :
    Ensures (s.cbImplicitTaskBegin env r task threadNum) fun s' =>
      (cbImplicitTaskBegin env r task threadNum).alone s = ((), s') := by
  refine Ensures.read fun parInfo hpar => Ensures.read fun parent hparent => ?_
  have hcurr : currTaskNode parInfo.parentTaskData s = some parent.currTaskNode := by
    rw [currTaskNode, hparent]
    rfl
  rw [cbImplicitTaskBegin, alone_deref hpar, alone_deref hcurr]
  refine Ensures.bind alone_createNewNode fun a ha => Ensures.some ?_
  simp [ha]

/-- Both ways into the sink. -/
theorem alone_cbImplicitTaskEnd {threadNum : ℕ} :
    Ensures (s.cbImplicitTaskEnd env th task threadNum) fun s' =>
      (cbImplicitTaskEnd env th task threadNum).alone s = ((), s') := by
  refine Ensures.read fun currTask htask => ?_
  rw [cbImplicitTaskEnd, alone_deref htask]
  rcases hb : currTask.currBarrierNode with - | b
  · refine Ensures.bind alone_addTime fun s₁ h₁ => Ensures.read fun sink hsink =>
      Ensures.bind alone_connectNodes fun s₂ h₂ => Ensures.some ?_
    simp [joinSink, hb, h₁, hsink, h₂]
  · refine Ensures.bind alone_disconnectNodes fun s₁ h₁ =>
      Ensures.bind alone_removeAndDelete fun s₂ h₂ => ?_
    refine Ensures.ite (fun ht => Ensures.read fun sink hsink =>
      Ensures.bind alone_connectNodes fun s₃ h₃ => Ensures.some ?_) fun ht => Ensures.some ?_
    · simp [joinSink, hb, h₁, h₂, ht, hsink, h₃]
    · simp [joinSink, hb, h₁, h₂, ht]

theorem alone_cbParallelBegin {requested : ℕ} :
    Ensures (s.cbParallelBegin env th task r requested) fun s' =>
      (cbParallelBegin env th task r requested).alone s = ((), s') := by
  refine Ensures.read fun parent hparent => ?_
  have hcurr : currTaskNode task s = some parent.currTaskNode := by
    rw [currTaskNode, hparent]
    rfl
  rw [cbParallelBegin, alone_deref hcurr]
  refine Ensures.bind alone_addTime fun s₁ h₁ => Ensures.some ?_
  simp only [alone_bind, alone_write, h₁, alone_createCleanNode]
  rfl

theorem alone_cbParallelEnd :
    Ensures (s.cbParallelEnd env r) fun s' => (cbParallelEnd env r).alone s = ((), s') := by
  refine Ensures.read fun parInfo hpar => Ensures.read fun parent hparent => ?_
  rw [cbParallelEnd, alone_deref hpar]
  refine Ensures.bind alone_setLastTime fun s₁ h₁ => Ensures.some ?_
  simp [Tool.onTaskData_eq hparent, h₁]

theorem alone_cbTaskCreate {parent new : TaskId} {type : TaskType} :
    Ensures (s.cbTaskCreate env parent new type) fun s' =>
      (cbTaskCreate env parent new type).alone s = ((), s') := by
  cases type with
  | initial =>
    refine Ensures.bind alone_createNewNode fun a ha => Ensures.some ?_
    simp [cbTaskCreate, ha]
  | explicit =>
    refine Ensures.bind alone_createNewNode fun a ha => Ensures.some ?_
    have ha' : (createNewNode env .expTask (currTaskNode parent s)).alone s = a := ha
    simp [cbTaskCreate, ha']
  | implicit => exact Ensures.some rfl
  | target => exact Ensures.some rfl

/-- Either task may have no data, and then nothing is done for it. -/
theorem alone_cbTaskSchedule {first second : TaskId} :
    Ensures (s.cbTaskSchedule env th first second) fun s' =>
      (cbTaskSchedule env th first second).alone s = ((), s') := by
  -- the second half, in whatever state the first one leaves
  have hsecond : ∀ s₁ : Tool,
      (deref (currTaskNode first) fun n => addTime env th n).alone s = ((), s₁) →
      Ensures ((s₁.taskData second).elim (some s₁) fun secondTask =>
        s₁.setLastTime env secondTask.currTaskNode) fun s₂ =>
        (cbTaskSchedule env th first second).alone s = ((), s₂) := by
    intro s₁ h₁
    rcases htd : s₁.taskData second with - | td
    · refine Ensures.some ?_
      rw [cbTaskSchedule, alone_bind, h₁]
      simp [deref, currTaskNode, htd]
    · intro s₂ h₂
      rw [cbTaskSchedule, alone_bind, h₁]
      simp [deref, currTaskNode, htd, alone_setLastTime _ h₂]
  unfold Tool.cbTaskSchedule
  split
  · next td htd =>
    refine Ensures.bind alone_addTime fun s₁ h₁ => ?_
    have hrest := hsecond s₁ (by simp [deref, currTaskNode, htd, h₁])
    beta_reduce
    split
    · next td₂ htd₂ => rwa [htd₂] at hrest
    · next htd₂ => rwa [htd₂] at hrest
  · next htd =>
    have hrest := hsecond s (by simp [deref, currTaskNode, htd])
    simp only [Option.bind_eq_bind, Option.bind_some]
    split
    · next td₂ htd₂ => rwa [htd₂] at hrest
    · next htd₂ => rwa [htd₂] at hrest

/-! What the records of the tasks and regions hold is not seen by the functions on
nodes. -/

section Tables

variable (ft : (TaskId → Option (TaskData NodeRef)) → TaskId → Option (TaskData NodeRef))
  (fp : (RegionId → Option (ParallelRegionData NodeRef)) →
    RegionId → Option (ParallelRegionData NodeRef))

/-- Other records of the tasks and regions. -/
def withRecords
    (ft : (TaskId → Option (TaskData NodeRef)) → TaskId → Option (TaskData NodeRef))
    (fp : (RegionId → Option (ParallelRegionData NodeRef)) →
      RegionId → Option (ParallelRegionData NodeRef)) (s : Tool) : Tool :=
  { s with taskData := ft s.taskData, parData := fp s.parData }

/-- `connectNodes` does the same whatever the records say. -/
theorem commutes_connectNodes : (connectNodes u v).Commutes (withRecords ft fp) := by
  refine Each.bind ⟨fun _ => rfl, fun _ => trivial⟩ fun connected => ?_
  cases connected
  · exact ⟨fun _ => rfl, fun _ => ⟨fun _ => rfl, fun _ => trivial⟩⟩
  · trivial

/-- So does `createNewNode`. -/
theorem commutes_createNewNode :
    (createNewNode env type parentNode).Commutes (withRecords ft fp) := by
  refine Each.bind (Each.bind ?_ fun nid => ?_) fun n => Each.bind ?_ fun _ => ?_
  · cases parentNode
    · trivial
    · exact ⟨fun _ => rfl, fun _ => trivial⟩
  · exact ⟨fun _ => rfl, fun _ => ⟨fun _ => rfl, fun _ => trivial⟩⟩
  · cases parentNode
    · trivial
    · exact commutes_connectNodes ft fp
  · exact ⟨fun _ => rfl, fun _ => ⟨fun _ => rfl, fun _ => trivial⟩⟩

/-- The records of the tasks, regions and threads. -/
def records (s : Tool) : (TaskId → Option (TaskData NodeRef)) ×
    (RegionId → Option (ParallelRegionData NodeRef)) × (ThreadId → Option ThreadData) :=
  (s.taskData, s.parData, s.threadData)

/-- `connectNodes` writes no record. -/
theorem avoids_connectNodes : (connectNodes u v).Avoids records := by
  refine Each.bind ⟨fun _ => rfl, fun _ => trivial⟩ fun connected => ?_
  cases connected
  · exact ⟨fun _ => rfl, fun _ => ⟨fun _ => rfl, fun _ => trivial⟩⟩
  · trivial

/-- `createNewNode` writes no record. -/
theorem avoids_createNewNode : (createNewNode env type parentNode).Avoids records := by
  refine Each.bind (Each.bind ?_ fun nid => ?_) fun n => Each.bind ?_ fun _ => ?_
  · cases parentNode
    · trivial
    · exact ⟨fun _ => rfl, fun _ => trivial⟩
  · exact ⟨fun _ => rfl, fun _ => ⟨fun _ => rfl, fun _ => trivial⟩⟩
  · cases parentNode
    · trivial
    · exact avoids_connectNodes
  · exact ⟨fun _ => rfl, fun _ => ⟨fun _ => rfl, fun _ => trivial⟩⟩

end Tables

theorem records_connectNodes (s : Tool) : records ((connectNodes u v).alone s).2 = records s :=
  avoids_connectNodes.alone s

theorem records_createNewNode (env : Env) (type : NodeType) (parentNode : Option NodeRef)
    (s : Tool) :
    records ((createNewNode env type parentNode).alone s).2 = records s :=
  avoids_createNewNode.alone s

/-- A change of a region record may be moved over `connectNodes`. -/
theorem connectNodes_onParData (f : ParallelRegionData NodeRef → ParallelRegionData NodeRef) :
    (connectNodes u v).alone (s.onParData r f) =
      ((), ((connectNodes u v).alone s).2.onParData r f) :=
  (commutes_connectNodes id fun P => Function.update P r ((P r).map f)).alone s

/-- A change of a task record may be moved over `connectNodes`. -/
theorem connectNodes_onTaskData (f : TaskData NodeRef → TaskData NodeRef) :
    (connectNodes u v).alone (s.onTaskData task f) =
      ((), ((connectNodes u v).alone s).2.onTaskData task f) :=
  (commutes_connectNodes (fun P => Function.update P task ((P task).map f)) id).alone s

/-- A change of a region record may be moved over `createNewNode`. -/
theorem createNewNode_onParData (f : ParallelRegionData NodeRef → ParallelRegionData NodeRef) :
    (createNewNode env type parentNode).alone (s.onParData r f) =
      (((createNewNode env type parentNode).alone s).1,
        ((createNewNode env type parentNode).alone s).2.onParData r f) :=
  (commutes_createNewNode id fun P => Function.update P r ((P r).map f)).alone s

/-- A change of a task record may be moved over `createNewNode`. -/
theorem createNewNode_onTaskData (f : TaskData NodeRef → TaskData NodeRef) :
    (createNewNode env type parentNode).alone (s.onTaskData task f) =
      (((createNewNode env type parentNode).alone s).1,
        ((createNewNode env type parentNode).alone s).2.onTaskData task f) :=
  (commutes_createNewNode (fun P => Function.update P task ((P task).map f)) id).alone s

/-- Alone, a thread finds or makes the barrier node as `Tool.reachBarrier` does.
The counter goes up at once here and at the end there. -/
theorem alone_reachBarrier (task : TaskId) {parInfo : ParallelRegionData NodeRef}
    (hpar : s.parData r = some parInfo) :
    Ensures (s.reachBarrier env r parInfo n) fun a =>
      (reachBarrier env r parInfo.teamSize task n).alone s =
        ((some a.1, decide (parInfo.barrierCnt = 0)),
          a.2.onTaskData task fun td => { td with currBarrierNode := some a.1 }) ∧
      a.2.taskData = s.taskData := by
  unfold Tool.reachBarrier
  refine Ensures.ite (fun hcnt => ?_) fun hcnt => Ensures.read fun b hb => ?_
  · refine Ensures.bind alone_createNewNode fun a ha => Ensures.some ?_
    have hkeep := records_createNewNode env .barrier (some n) s
    rw [ha] at hkeep
    simp only [records, Prod.mk.injEq] at hkeep
    obtain ⟨htask, hreg, -⟩ := hkeep
    have hpar' : a.2.parData r = some parInfo := by rw [hreg, hpar]
    refine ⟨?_, htask⟩
    -- the counter goes up before the node is made, and nothing in between reads it
    simp only [reachBarrier, pickBarrier, openBarrier, alone_bind, alone_take, alone_update,
      hpar, Option.elim_some, hcnt, if_true, createNewNode_onParData, ha, alone_write, alone_pure,
      alone_release]
    simp [Tool.onParData, Tool.setParData, hpar', hcnt]
  · refine Ensures.bind alone_connectNodes fun s₁ h₁ => Ensures.some ?_
    have hkeep := records_connectNodes (u := n) (v := b) s
    rw [h₁] at hkeep
    simp only [records, Prod.mk.injEq] at hkeep
    obtain ⟨htask, hreg, -⟩ := hkeep
    have hpar' : s₁.parData r = some parInfo := by rw [hreg, hpar]
    have hb' : ((s.onParData r fun p => { p with barrierCnt := p.barrierCnt + 1 }).parData r).bind
        (fun p => p.currBarrierNode) = some b := by
      simp [Tool.onParData, Tool.setParData, hpar, hb]
    refine ⟨?_, htask⟩
    simp only [reachBarrier, pickBarrier, joinBarrier, alone_bind, alone_take, alone_update,
      alone_read, hpar, Option.elim_some, hcnt, if_false, hb', connectNodes_onParData, h₁]
    by_cases hlast : parInfo.teamSize ≤ parInfo.barrierCnt + 1
    · simp [resetBarrier, Tool.onParData, Tool.setParData, hpar', hlast]
    · simp [resetBarrier, Tool.onParData, Tool.setParData, hpar', hlast]

/-- A charge changes no record. -/
theorem records_addTime : Ensures (s.addTime env th n) fun s' => records s' = records s := by
  intro s' h
  have halone := alone_addTime s' h
  rw [addTime, ftimerMsec, alone_bind, alone_update, alone_write] at halone
  rw [← (Prod.mk.inj halone).2]
  rfl

theorem curr_of_taskData {td : TaskData NodeRef} (h : s.taskData task = some td) :
    currTaskNode task s = some td.currTaskNode := by
  rw [currTaskNode, h]
  rfl

/-- Alone, an arrival writes the two members of the task's record that
`Tool.cbBarrierBegin` writes together. -/
theorem alone_cbBarrierBegin {parInfo : ParallelRegionData NodeRef}
    (hpar : s.parData r = some parInfo) :
    Ensures (s.cbBarrierBegin env th r parInfo task) fun s' =>
      (cbBarrierBegin env th r parInfo.teamSize task).alone s = ((), s') := by
  refine Ensures.read fun td htd => Ensures.read fun s₁ h₁ => ?_
  have hkeep := records_addTime s₁ h₁
  simp only [records, Prod.mk.injEq] at hkeep
  obtain ⟨htask₁, hreg₁, -⟩ := hkeep
  have hpar₁ : s₁.parData r = some parInfo := by rw [hreg₁, hpar]
  refine Ensures.bind (alone_reachBarrier task hpar₁) fun a ha => ?_
  obtain ⟨ha, htask₂⟩ := ha
  refine Ensures.bind alone_createNewNode fun a' ha' => ?_
  have htask₃ := (Prod.mk.inj (records_createNewNode env .impTask (some a.1) a.2)).1
  rw [ha', htask₂, htask₁] at htask₃
  have htd' : a'.2.taskData task = some td := by rw [htask₃, htd]
  have hrecord : ∀ s₃ : Tool, s₃.taskData task = some td →
      (s₃.onTaskData task fun td => { td with currBarrierNode := some a.1 }).onTaskData task
        (fun td => { td with currTaskNode := a'.1 }) =
      s₃.setTaskData task (some
        { td with currTaskNode := a'.1, currBarrierNode := some a.1 }) := by
    intro s₃ h₃
    simp [Tool.onTaskData, Tool.setTaskData, h₃]
  rw [cbBarrierBegin, alone_deref (curr_of_taskData htd)]
  simp only [alone_bind, alone_addTime s₁ h₁, ha, Option.elim_some, createNewNode_onTaskData,
    ha', alone_write]
  by_cases hnew : parInfo.barrierCnt = 0
  · rw [if_pos hnew]
    refine Ensures.bind alone_connectNodes fun s₄ h₄ => Ensures.some ?_
    have htask₄ := (Prod.mk.inj (records_connectNodes (u := a.1) (v := a'.1) a'.2)).1
    rw [h₄] at htask₄
    have htd₄ : s₄.taskData task = some td := by rw [htask₄, htd']
    simp only [hnew, decide_true, if_true, connectNodes_onTaskData, h₄]
    rw [hrecord s₄ htd₄]
  · rw [if_neg hnew]
    refine Ensures.some ?_
    simp only [hnew, decide_false, Bool.false_eq_true, if_false, alone_pure]
    rw [hrecord a'.2 htd']

theorem alone_cbSyncRegion {kind : SyncKind} {endpoint : Endpoint} :
    Ensures (s.cbSyncRegion env th kind endpoint r task) fun s' =>
      (cbSyncRegion env th kind endpoint r task).alone s = ((), s') := by
  unfold Tool.cbSyncRegion
  rw [cbSyncRegion]
  split_ifs with hkind
  · rcases hpar : s.parData r with - | parInfo
    · exact Ensures.some (by simp [deref, hpar])
    · rw [alone_deref hpar]
      refine Ensures.ite (fun hteam => ?_) fun hteam => Ensures.some ?_
      · rw [if_pos hteam]
        cases endpoint with
        | scopeBegin => exact alone_cbBarrierBegin hpar
        | scopeEnd =>
          refine Ensures.read fun td htd => ?_
          rw [alone_deref (curr_of_taskData htd)]
          exact alone_setLastTime
      · rw [if_neg hteam]
        rfl
  · exact Ensures.some rfl

theorem ws_of_taskData {td : TaskData NodeRef} {ws : WorksharingData NodeRef}
    (h : s.taskData task = some td) (hws : td.currWsData = some ws) :
    (s.taskData task).bind (fun td => td.currWsData) = some ws := by
  rw [h]
  exact hws

theorem alone_cbExtLoopBegin {lower upper : ℤ} :
    Ensures (s.cbExtLoopBegin env th task lower upper) fun s' =>
      (cbExtLoopBegin env th task lower upper).alone s = ((), s') := by
  refine Ensures.read fun td htd => Ensures.read fun s₁ h₁ => ?_
  obtain ⟨htask₁, -⟩ := Prod.mk.inj (records_addTime s₁ h₁)
  refine Ensures.bind alone_createNewNode fun a ha =>
    Ensures.bind Tool.ensures_touch fun s₃ h₃ => Ensures.some ?_
  subst h₃
  have htask₂ := (Prod.mk.inj (records_createNewNode env .wsTask (some td.currTaskNode) s₁)).1
  rw [ha, htask₁] at htask₂
  rw [cbExtLoopBegin, alone_deref (curr_of_taskData htd)]
  have htd₂ : a.2.taskData task = some td := by rw [htask₂, htd]
  simp only [alone_bind, alone_addTime s₁ h₁, ha, alone_write, alone_createCleanNode]
  refine Prod.ext rfl ?_
  exact Tool.onTaskData_eq (by exact htd₂) _

theorem records_setLastTime : Ensures (s.setLastTime env n) fun s' => records s' = records s := by
  intro s' h
  have halone := alone_setLastTime s' h
  rw [setLastTime, ftimerMsec, alone_bind, alone_update, alone_write] at halone
  rw [← (Prod.mk.inj halone).2]
  rfl

theorem records_endPapiCounters :
    Ensures (s.endPapiCounters env th n) fun s' => records s' = records s := by
  intro s' h
  have halone := alone_endPapiCounters s' h
  rw [endPapiCounters, alone_write] at halone
  rw [← (Prod.mk.inj halone).2]
  rfl

theorem setLastTime_onTaskData (f : TaskData NodeRef → TaskData NodeRef) :
    (setLastTime env n).alone (s.onTaskData task f) =
      ((), ((setLastTime env n).alone s).2.onTaskData task f) := rfl

/-- Alone, the end of a loop closes what is open and moves to the sink. -/
theorem alone_cbExtLoopEnd :
    Ensures (s.cbExtLoopEnd env th task) fun s' =>
      (cbExtLoopEnd env th task).alone s = ((), s') := by
  refine Ensures.read fun td htd => Ensures.read fun ws hws => Ensures.read fun thData hth => ?_
  -- the end of the callback, once the open node is closed
  have hrest : ∀ s₁ : Tool, (closeLoop env th ws).alone s = ((), s₁) →
      records s₁ = records s →
      Ensures ((s₁.setLastTime env ws.sinkNode).bind fun s =>
        some ((s.setTaskData task (some
          { td with currTaskNode := ws.sinkNode, currWsData := none })).setThreadData th
            (some ⟨thData.loopCounter + 1⟩))) fun s' =>
        (cbExtLoopEnd env th task).alone s = ((), s') := by
    intro s₁ h₁ hrec₁
    refine Ensures.read fun s₂ h₂ => Ensures.some ?_
    have hrec := (records_setLastTime s₂ h₂).trans hrec₁
    simp only [records, Prod.mk.injEq] at hrec
    obtain ⟨htask, -, hthread⟩ := hrec
    rw [cbExtLoopEnd, alone_deref (ws_of_taskData htd hws)]
    simp only [alone_bind, h₁, alone_write, setLastTime_onTaskData, alone_setLastTime s₂ h₂]
    simp [Tool.onTaskData, Tool.setTaskData, Tool.onThreadData, Tool.setThreadData, htask,
      hthread, htd, hth]
  rcases hlast : ws.lastChunkNode with - | chunk
  · refine Ensures.read fun s₁ h₁ => Ensures.read fun s₂ h₂ => hrest s₂ ?_ ?_
    · simp [closeLoop, hlast, alone_addTime s₁ h₁, alone_connectNodes s₂ h₂]
    · have hkeep := records_connectNodes (u := ws.startNode) (v := ws.sinkNode) s₁
      rw [alone_connectNodes s₂ h₂] at hkeep
      exact hkeep.trans (records_addTime s₁ h₁)
  · refine Ensures.read fun s₁ h₁ => Ensures.read fun s₂ h₂ => hrest s₂ ?_ ?_
    · simp [closeLoop, hlast, alone_endPapiCounters s₁ h₁, alone_addTime s₂ h₂]
    · exact (records_addTime s₂ h₂).trans (records_endPapiCounters s₁ h₁)

/-- Two accesses to one node are one. -/
theorem touch_onData (s : Tool) (n : NodeRef) (f f' : NodeData → NodeData) :
    (s.touch n (Node.onData f)).touch n (Node.onData f') =
      s.touch n (Node.onData fun nd => f' (f nd)) := by
  simp only [Tool.touch, Function.update_self, Function.update_idem, Option.map_map]
  rfl

/-- Alone, the first half of `cb_ext_chunk`; it changes no record. -/
theorem alone_closeChunk {ws : WorksharingData NodeRef} {lastChunk : Bool} :
    Ensures (s.closeChunk env th ws lastChunk) fun s' =>
      (closeChunk env th ws lastChunk).alone s = ((), s') ∧ records s' = records s := by
  rw [Tool.closeChunk, closeChunk]
  rcases ws.lastChunkNode with - | chunk
  · exact fun s₁ h₁ => ⟨alone_addTime s₁ h₁, records_addTime s₁ h₁⟩
  · refine Ensures.ite (fun hl => Ensures.some (by simp [hl])) fun hl => ?_
    refine Ensures.read fun s₁ h₁ => fun s₂ h₂ => ⟨?_, ?_⟩
    · simp [hl, alone_endPapiCounters s₁ h₁, alone_addTime s₂ h₂]
    · exact (records_addTime s₂ h₂).trans (records_endPapiCounters s₁ h₁)

/-- Alone, the second half, whose writes to the new chunk are accesses of their
own. -/
theorem alone_openChunk {td : TaskData NodeRef} {ws : WorksharingData NodeRef} {lower upper : ℤ}
    (htd : s.taskData task = some td) (hws : td.currWsData = some ws) :
    Ensures (s.openChunk env th task td ws lower upper) fun s' =>
      (openChunk env th task ws lower upper).alone s = ((), s') := by
  refine Ensures.read fun thData hth => Ensures.bind alone_createNewNode fun a ha =>
    Ensures.bind Tool.ensures_touch fun s₂ h₂ => Ensures.read fun s₃ h₃ =>
      Ensures.bind Tool.ensures_touch fun s₄ h₄ => Ensures.some ?_
  subst h₂ h₄
  have hkeep := records_createNewNode env .chunkTask (some ws.startNode) s
  rw [ha] at hkeep
  simp only [records, Prod.mk.injEq] at hkeep
  obtain ⟨htask, -, hthread⟩ := hkeep
  have hth' : a.2.threadData th = some thData := by rw [hthread, hth]
  have htd' : a.2.taskData task = some td := by rw [htask, htd]
  have hrecord : ∀ f, (a.2.touch a.1 f).onTaskData task (fun td =>
      { td with currWsData := td.currWsData.map fun ws => { ws with lastChunkNode := some a.1 } }) =
      (a.2.touch a.1 f).setTaskData task (some
        { td with currWsData := some { ws with lastChunkNode := some a.1 } }) := by
    intro f
    refine (Tool.onTaskData_eq (by exact htd') _).trans ?_
    rw [hws]
    rfl
  have hcounter : ∀ f rest, (deref (fun s => s.threadData th) rest).alone (a.2.touch a.1 f) =
      (rest thData).alone (a.2.touch a.1 f) := fun f rest => alone_deref (by exact hth') rest
  have hnum : ∀ f rest, (deref (fun s => (s.taskData task).map fun td => td.threadNum) rest).alone
      (a.2.touch a.1 f) = (rest td.threadNum).alone (a.2.touch a.1 f) := by
    refine fun f rest => alone_deref ?_ rest
    show (a.2.taskData task).map _ = _
    rw [htd']
    rfl
  simp only [openChunk, alone_bind, ha, alone_write, hcounter, hnum, touch_onData, hrecord,
    startPapiCounters, alone_connectNodes s₃ h₃]

theorem alone_cbExtChunk {lower upper : ℤ} {lastChunk : Bool} :
    Ensures (s.cbExtChunk env th task lower upper lastChunk) fun s' =>
      (cbExtChunk env th task lower upper lastChunk).alone s = ((), s') := by
  refine Ensures.read fun td htd => Ensures.read fun ws hws => ?_
  rw [cbExtChunk, alone_deref (ws_of_taskData htd hws)]
  refine Ensures.bind alone_closeChunk fun s₁ h₁ => ?_
  obtain ⟨h₁, hkeep⟩ := h₁
  simp only [records, Prod.mk.injEq] at hkeep
  refine Ensures.ite (fun hl => Ensures.some ?_) fun hl => fun s₂ h₂ => ?_
  · rw [alone_bind, h₁, if_pos hl]
    rfl
  · have htd₁ : s₁.taskData task = some td := by rw [hkeep.1, htd]
    rw [alone_bind, h₁, if_neg hl]
    exact alone_openChunk htd₁ hws s₂ h₂

/-- **A thread alone does what the callback does in one step.** -/
theorem callback_alone {e : Event} :
    Ensures (s.callback env e) fun s' => (callback env e).alone s = ((), s') := by
  rcases e with ⟨th, call⟩
  cases call with
  | threadBegin => exact Ensures.some rfl
  | threadEnd => exact Ensures.read fun _ _ => Ensures.some rfl
  | implicitTask endpoint =>
    cases endpoint with
    | scopeBegin => exact alone_cbImplicitTaskBegin
    | scopeEnd => exact alone_cbImplicitTaskEnd
  | parallelBegin => exact alone_cbParallelBegin
  | parallelEnd => exact alone_cbParallelEnd
  | taskCreate => exact alone_cbTaskCreate
  | taskSchedule => exact alone_cbTaskSchedule
  | syncRegion => exact alone_cbSyncRegion
  | extLoop endpoint =>
    cases endpoint with
    | scopeBegin => exact alone_cbExtLoopBegin
    | scopeEnd => exact alone_cbExtLoopEnd
  | extChunk => exact alone_cbExtChunk

/-- A thread alone that runs callback after callback does a run. -/
theorem callbacks_alone {es : List Event} :
    Ensures (s.runFrom env es) fun s' => ((callbacks env es).alone s).2 = s' := by
  induction es generalizing s with
  | nil => exact Ensures.some rfl
  | cons e es ih =>
    rw [Tool.runFrom, List.foldlM_cons]
    refine Ensures.bind callback_alone fun s₁ h₁ => fun s' h' => ?_
    have hrest := ih s' h'
    show ((callback env e >>= fun _ => callbacks env es).alone s).2 = s'
    rw [alone_bind, h₁]
    exact hrest

end Locked

end Tdg
