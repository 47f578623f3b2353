/-
TdgTool/Roles.lean

The same graph without pointers: nodes named by the role they play in the run.

A node address says nothing about the node; which address a node gets depends
on the interleaving.  Its role does not: it is the `j`-th node of thread `t` of
region `r`, the sink of region `r`, the `c`-th chunk of the `l`-th loop of a
task, and so on.  A `RoleGraph` holds what the tool holds, over roles, with the
edges in one list instead of two vectors per node.  What the tool keeps in
`TaskData`, `ParallelRegionData` and the barrier counter is read off the
runtime's bookkeeping here.

`RoleGraph.step` is the effect of a callback at this level.  That the callbacks
of `callbacks.cc` do the same to the heap is the subject of `Simulation`.

The index of a barrier role is the number of the region's arrivals divided by
the requested team size, because that is when the tool starts a new node; that
it is the number of the barrier phase holds only for complete teams.
-/
import TdgTool.Runtime

namespace Tdg

/-! ### Roles -/

/-- The role of a node. -/
inductive Role
  | root
  | exp (n : ℕ)
  | sink (r : RegionId)
  | imp (r : RegionId) (t j : ℕ)
  | barrier (r : RegionId) (i : ℕ)
  | ws (τ : TaskId) (l : ℕ)
  | loopSink (τ : TaskId) (l : ℕ)
  | chunk (τ : TaskId) (l c : ℕ)
  deriving DecidableEq, Repr

/-- The node type that the tool gives to a role. -/
def Role.type : Role → NodeType
  | .root => .rootTask
  | .exp _ => .expTask
  | .sink _ => .impTask
  | .imp _ _ _ => .impTask
  | .barrier _ _ => .barrier
  | .ws _ _ => .wsTask
  | .loopSink _ _ => .impTask
  | .chunk _ _ _ => .chunkTask

/-! ### The state -/

/-- The graph over roles, with the creation order of the nodes. -/
structure RoleGraph where
  order : List Role
  live : Role → Bool
  edges : List (Role × Role)
  data : Role → NodeData
  graphNodes : OrdMap ℤ Role
  finalNode : Option Role
  cur : TaskId → Role
  bar : TaskId → Option Role
  loopCounter : ThreadId → ℕ
  ticks : ℕ
  charges : List (Charge Role)
  papiCalls : List (PapiCall Role)

namespace RoleGraph

/-- After `init_libtdg`: no node. -/
def init : RoleGraph where
  order := []
  live := fun _ => false
  edges := []
  data := fun _ => { id := 0, type := .rootTask, totalTime := 0 }
  graphNodes := OrdMap.empty
  finalNode := none
  cur := fun _ => .root
  bar := fun _ => none
  loopCounter := fun _ => 0
  ticks := 0
  charges := []
  papiCalls := []

/-! ### Elementary operations -/

variable (g : RoleGraph)

/-- Apply a setter of the scalar members. -/
@[simps -fullyApplied] def onData (x : Role) (f : NodeData → NodeData) : RoleGraph :=
  { g with data := Function.update g.data x (f (g.data x)) }

/-- `addTime` with the reading of now, and the charge that records it. -/
@[simps -fullyApplied] def addTime (env : Env) (th : ThreadId) (x : Role) : RoleGraph :=
  { g with
    data := Function.update g.data x ((g.data x).addTime (env.clock g.ticks))
    ticks := g.ticks + 1
    charges := g.charges ++ [⟨th, x, (g.data x).lastTime, env.clock g.ticks⟩] }

/-- `setLastTime` with the reading of now. -/
@[simps -fullyApplied] def setLastTime (env : Env) (x : Role) : RoleGraph :=
  { g with
    data := Function.update g.data x ((g.data x).setLastTime (env.clock g.ticks))
    ticks := g.ticks + 1 }

/-- A new node: its id is its position in the creation order. -/
@[simps -fullyApplied] def create (x : Role) : RoleGraph :=
  { g with
    order := g.order ++ [x]
    live := Function.update g.live x true
    data := Function.update g.data x { id := g.order.length, type := x.type, totalTime := 0 }
    graphNodes := g.graphNodes.insert g.order.length x }

/-- `connectNodes`: an edge is stored once, behind the others. -/
@[simps -fullyApplied] def connect (x y : Role) : RoleGraph :=
  { g with edges := if (x, y) ∈ g.edges then g.edges else g.edges ++ [(x, y)] }

/-- `disconnectNodes`. -/
@[simps -fullyApplied] def disconnect (x y : Role) : RoleGraph :=
  { g with edges := g.edges.filter fun e => e ≠ (x, y) }

/-- Take a node out of the graph and delete it. -/
@[simps -fullyApplied] def remove (x : Role) : RoleGraph :=
  { g with
    live := Function.update g.live x false
    graphNodes := g.graphNodes.erase (g.data x).id }

/-- Move a task to another node. -/
@[simps -fullyApplied] def setCur (τ : TaskId) (x : Role) : RoleGraph :=
  { g with cur := Function.update g.cur τ x }

/-- The barrier node that a task has reached last, if it is behind a barrier. -/
@[simps -fullyApplied] def setBar (τ : TaskId) (b : Option Role) : RoleGraph :=
  { g with bar := Function.update g.bar τ b }

/-- Set `g_finalNode`. -/
@[simps -fullyApplied] def setFinal (x : Role) : RoleGraph := { g with finalNode := some x }

/-- Set the loop counter of a thread. -/
@[simps -fullyApplied] def setLoopCounter (th : ThreadId) (n : ℕ) : RoleGraph :=
  { g with loopCounter := Function.update g.loopCounter th n }

/-- `startPapiCounters`. -/
@[simps -fullyApplied] def startPapi (th : ThreadId) (x : Role) : RoleGraph :=
  { g with papiCalls := g.papiCalls ++ [⟨th, .start, x⟩] }

/-- `endPapiCounters`: the values go to the node that is stopped. -/
@[simps -fullyApplied] def endPapi (env : Env) (th : ThreadId) (x : Role) : RoleGraph :=
  { g with
    data := Function.update g.data x ((g.data x).setPapiVals (env.papi g.papiCalls.length))
    papiCalls := g.papiCalls ++ [⟨th, .stop, x⟩] }

/-- A new node below `parent`, started now. -/
def createBelow (env : Env) (parent x : Role) : RoleGraph :=
  ((g.create x).connect parent x).setLastTime env x

/-! ### The effect of the callbacks -/

/-- A new implicit task. -/
def implicitBegin (env : Env) (o : Runtime) (r : RegionId) (t : ℕ) : RoleGraph :=
  ((g.createBelow env (g.cur (o.region r).parent) (.imp r t 0)).setCur
    (.implicit r t) (.imp r t 0)).setBar (.implicit r t) none

/-- The end of an implicit task: drop the unused node behind the last barrier,
or close the task's node. -/
def implicitEnd (env : Env) (th : ThreadId) (r : RegionId) (t : ℕ) : RoleGraph :=
  match g.bar (.implicit r t) with
  | some b =>
      let g' := (g.disconnect b (g.cur (.implicit r t))).remove (g.cur (.implicit r t))
      -- the threads share the node of the last barrier, and one of them connects it
      if t = 0 then g'.connect b (.sink r) else g'
  | none =>
      (g.addTime env th (g.cur (.implicit r t))).connect (g.cur (.implicit r t)) (.sink r)

/-- A new region: close the encountering task's node, create the sink. -/
def parallelBegin (env : Env) (th : ThreadId) (parent : TaskId) (r : RegionId) : RoleGraph :=
  (g.addTime env th (g.cur parent)).create (.sink r)

/-- The end of a region: its sink becomes the task's node and the final one. -/
def parallelEnd (env : Env) (r : RegionId) (parent : TaskId) : RoleGraph :=
  ((g.setCur parent (.sink r)).setLastTime env (.sink r)).setFinal (.sink r)

/-- The initial task gets the root. -/
def createInitial (env : Env) (τ : TaskId) : RoleGraph :=
  (((g.create .root).setLastTime env .root).setCur τ .root).setFinal .root

/-- An explicit task gets a node below that of its creator, which goes on
unclosed. -/
def createExplicit (env : Env) (parent : TaskId) (n : ℕ) : RoleGraph :=
  (g.createBelow env (g.cur parent) (.exp n)).setCur (.explicit n) (.exp n)

/-- A switch from one task to another: only times are written. -/
def schedule (env : Env) (th : ThreadId) (first second : TaskId) : RoleGraph :=
  (g.addTime env th (g.cur first)).setLastTime env (g.cur second)

/-- The arrival at the barrier node: created by the first arrival of a round. -/
def reachBarrier (env : Env) (o : Runtime) (r : RegionId) (x : Role) : RoleGraph :=
  let b := Role.barrier r ((o.region r).arrivals / (o.region r).requested)
  -- the counter of the tool is the remainder: 0 means a new node
  if (o.region r).arrivals % (o.region r).requested = 0 then g.createBelow env x b
  else g.connect x b

/-- An arrival: close the task's node, and move to a new node behind the barrier
node. -/
def barrierBegin (env : Env) (th : ThreadId) (o : Runtime) (r : RegionId) (t : ℕ) :
    RoleGraph :=
  let τ := TaskId.implicit r t
  let b := Role.barrier r ((o.region r).arrivals / (o.region r).requested)
  let y := Role.imp r t ((o.task τ).arrived + 1)
  ((((g.addTime env th (g.cur τ)).reachBarrier env o r (g.cur τ)).createBelow env b y).setCur
    τ y).setBar τ (some b)

/-- A new loop: its start node, and a sink that is not connected yet. -/
def loopBegin (env : Env) (th : ThreadId) (o : Runtime) (τ : TaskId) (lower upper : ℤ) :
    RoleGraph :=
  let l := (o.task τ).loops
  (((g.addTime env th (g.cur τ)).createBelow env (g.cur τ) (.ws τ l)).onData (.ws τ l)
    fun nd => nd.setLowerUpper lower upper).create (.loopSink τ l)

/-- The node of the loop that time is being spent on: the open chunk, or the
start node before the first one. -/
def openNode (o : Runtime) (τ : TaskId) : Role :=
  match (o.task τ).chunks (o.task τ).loops with
  | 0 => .ws τ (o.task τ).loops
  | c + 1 => .chunk τ (o.task τ).loops c

/-- Close the open node of a loop. -/
def closeOpen (env : Env) (th : ThreadId) (o : Runtime) (τ : TaskId) : RoleGraph :=
  match (o.task τ).chunks (o.task τ).loops with
  | 0 => g.addTime env th (.ws τ (o.task τ).loops)
  | c + 1 =>
      (g.endPapi env th (.chunk τ (o.task τ).loops c)).addTime env th
        (.chunk τ (o.task τ).loops c)

/-- The end of a loop: close what is open and move to the sink.  A start node
without chunks is connected to the sink here. -/
def loopEnd (env : Env) (th : ThreadId) (o : Runtime) (τ : TaskId) : RoleGraph :=
  let l := (o.task τ).loops
  let g' := g.closeOpen env th o τ
  let g'' := if (o.task τ).chunks l = 0 then g'.connect (.ws τ l) (.loopSink τ l) else g'
  ((g''.setLastTime env (.loopSink τ l)).setCur τ (.loopSink τ l)).setLoopCounter th
    (g.loopCounter th + 1)

/-- The number of the team thread that runs a task. -/
def threadNumOf : TaskId → ℕ
  | .implicit _ t => t
  | _ => 0

/-- A new chunk, which is open until the next call. -/
def chunkOpen (env : Env) (th : ThreadId) (o : Runtime) (τ : TaskId) (lower upper : ℤ) :
    RoleGraph :=
  let l := (o.task τ).loops
  -- the counter of the thread labels the chunk, not the loop it belongs to
  let x := Role.chunk τ l ((o.task τ).chunks l)
  (((((g.createBelow env (.ws τ l) x).onData x fun nd =>
    ((nd.setLowerUpper lower upper).setLoopCounter (g.loopCounter th)).setThreadId
      (threadNumOf τ)).connect x (.loopSink τ l)).onData x fun nd =>
    nd.initPapiVals env.numPapiEvents).startPapi th x)

/-- `last_chunk` calls create nothing, and close only the start node. -/
def chunk (env : Env) (th : ThreadId) (o : Runtime) (τ : TaskId) (lower upper : ℤ)
    (lastChunk : Bool) : RoleGraph :=
  if lastChunk then
    if (o.task τ).chunks (o.task τ).loops = 0 then g.closeOpen env th o τ else g
  else (g.closeOpen env th o τ).chunkOpen env th o τ lower upper

/-- The effect of a callback delivered in runtime state `o`. -/
def step (env : Env) (o : Runtime) (e : Event) : RoleGraph :=
  match e.call with
  | .threadBegin => g.setLoopCounter e.thread 0
  | .threadEnd => g
  | .implicitTask .scopeBegin r _ _ threadNum => g.implicitBegin env o r threadNum
  | .implicitTask .scopeEnd r _ _ threadNum => g.implicitEnd env e.thread r threadNum
  | .parallelBegin parent r _ _ _ => g.parallelBegin env e.thread parent r
  | .parallelEnd r task => g.parallelEnd env r task
  | .taskCreate _ new .initial => g.createInitial env new
  | .taskCreate parent (.explicit n) .explicit => g.createExplicit env parent n
  -- implicit and target tasks are not recorded by `cb_task_create`
  | .taskCreate _ _ _ => g
  | .taskSchedule first _ second => g.schedule env e.thread first second
  | .syncRegion .barrier .scopeBegin r (.implicit _ t) =>
      -- `_team_size` is the size that was requested
      if 1 < (o.region r).requested then g.barrierBegin env e.thread o r t else g
  | .syncRegion .barrier .scopeEnd r (.implicit _ t) =>
      if (o.region r).stage = .opened ∧ 1 < (o.region r).requested then
        g.setLastTime env (g.cur (.implicit r t))
      else g
  | .syncRegion _ _ _ _ => g
  | .extLoop .scopeBegin task lower upper => g.loopBegin env e.thread o task lower upper
  | .extLoop .scopeEnd task _ _ => g.loopEnd env e.thread o task
  | .extChunk task lower upper lastChunk =>
      g.chunk env e.thread o task lower upper lastChunk

end RoleGraph

/-! ### Runs of the runtime with its role graph -/

/-- The runtime's bookkeeping and the role graph built so far. -/
structure Config where
  rt : Runtime
  graph : RoleGraph

namespace Config

/-- The start of a run. -/
def init : Config := ⟨Runtime.init, RoleGraph.init⟩

/-- Deliver a callback to both, if it may be delivered. -/
def step (env : Env) (c : Config) (e : Event) : Option Config :=
  if c.rt.allows e then some ⟨c.rt.apply e, c.graph.step env c.rt e⟩ else none

/-- Deliver a sequence of callbacks from the beginning. -/
def run (env : Env) (es : List Event) : Option Config := es.foldlM (step env) init

end Config

end Tdg
