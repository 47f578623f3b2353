/-
TdgTool/Simulation.lean

The callbacks of `callbacks.cc` do to the heap what `RoleGraph.step` does to
the role graph.

The tool's own records (`TaskData`, `ParallelRegionData`, `ThreadData`) are
functions of the runtime's bookkeeping and the role graph: `tables`.  For every
callback that the runtime may deliver, running it on the realized state gives
the realization of the next role graph with the next tables.  In particular no
callback of such a run dereferences a null or dangling pointer.

Team sizes are not restricted: a team that is smaller than requested makes the
tool build another graph, but the same one on both sides.
-/
import TdgTool.Skeleton

namespace Tdg

namespace Runtime

instance (o : Runtime) : (τ : TaskId) → Decidable (o.HasData τ)
  | .implicit _ _ => inferInstanceAs (Decidable (_ ∧ _))
  | .initial _ => inferInstanceAs (Decidable (¬_))
  | .explicit _ => inferInstanceAs (Decidable (¬_))

/-! ### The tool's records -/

/-- The last chunk of the loop that a task is in. -/
def lastChunkOf (o : Runtime) (τ : TaskId) : Option Role :=
  match (o.task τ).chunks (o.task τ).loops with
  | 0 => none
  | c + 1 => some (.chunk τ (o.task τ).loops c)

/-- The `WorksharingData` of a task in a loop. -/
def wsRecord (o : Runtime) (τ : TaskId) : WorksharingData Role where
  startNode := .ws τ (o.task τ).loops
  sinkNode := .loopSink τ (o.task τ).loops
  lastChunkNode := o.lastChunkOf τ

/-- The workshare record of a task: the start node and the sink of its loop, and the last chunk
that was opened. -/
def wsOf (o : Runtime) (τ : TaskId) : Option (WorksharingData Role) :=
  if (o.task τ).inLoop = true then some (o.wsRecord τ) else none

/-- The sink node that an implicit task remembers. -/
def sinkOf : TaskId → Option Role
  | .implicit r _ => some (.sink r)
  | _ => none

/-- The `ParallelRegionData` of a region.  The counter and the barrier node
follow the number of arrivals in rounds of the requested team size. -/
def regionRecord (o : Runtime) (r : RegionId) : ParallelRegionData Role where
  parentTaskData := (o.region r).parent
  sinkNode := .sink r
  teamSize := (o.region r).requested
  barrierCnt := (o.region r).arrivals % (o.region r).requested
  currBarrierNode :=
    if 1 < (o.region r).requested ∧ 0 < (o.region r).arrivals then
      some (.barrier r (((o.region r).arrivals - 1) / (o.region r).requested))
    else none

end Runtime

namespace RoleGraph

open Tdg.Runtime

variable {o : Runtime} {g : RoleGraph} {env : Env} {e : Event} {x y : Role} {τ : TaskId}
  {r : RegionId} {th : ThreadId}

/-- The `TaskData` of a task. -/
def taskRecord (o : Runtime) (g : RoleGraph) (τ : TaskId) : TaskData Role where
  currTaskNode := g.cur τ
  currWsData := o.wsOf τ
  currBarrierNode := g.bar τ
  sinkNode := sinkOf τ
  threadNum := threadNumOf τ

/-- All records. -/
def tables (o : Runtime) (g : RoleGraph) : Tables where
  task τ := if o.HasData τ then some (taskRecord o g τ) else none
  par r := if (o.region r).stage = .opened then some (o.regionRecord r) else none
  thread th := if o.alive th = true then some ⟨g.loopCounter th⟩ else none

theorem Shaped.bar_created (h : Shaped o g) (hd : o.HasData τ) {b : Role}
    (hb : g.bar τ = some b) : o.Created b ∧ ∃ r i, b = .barrier r i := by
  by_cases hone : ∀ r t, τ = .implicit r t →
      (o.region r).requested ≤ 1 ∨ (o.task τ).arrived = 0
  · rw [h.bar_none hone] at hb
    cases hb
  · push Not at hone
    obtain ⟨r, t, rfl, hreq, harr⟩ := hone
    obtain ⟨i, hi, hc⟩ := h.bar_some hd hreq (Nat.pos_of_ne_zero harr)
    obtain rfl : Role.barrier r i = b := Option.some.inj (hi.symm.trans hb)
    exact ⟨hc, r, i, rfl⟩

/-- The records mention created nodes only. -/
theorem Shaped.closed (h : Shaped o g) (hS : o.Sound) (hA : Alloc g) :
    Closed (tables o g) g where
  toAlloc := hA
  task_mem := by
    intro τ td htd x hx
    rw [h.order_iff]
    simp only [tables] at htd
    split_ifs at htd with hd
    obtain rfl := Option.some.inj htd
    simp only [taskRecord, TaskData.refs, List.mem_cons, List.mem_append] at hx
    rcases hx with rfl | (hx | hx) | hx
    · exact (h.seat hd).1
    · exact (h.bar_created hd (by simpa using hx)).1
    -- the sink of the region is copied into the records of its team, and into no other
    · cases τ with
      | implicit r t =>
        obtain rfl : x = .sink r := by simpa [sinkOf] using hx
        exact hS.region_present hd.present
      | initial i => simp [sinkOf] at hx
      | explicit n => simp [sinkOf] at hx
    -- start node, sink and open chunk of the loop that the task is in
    · unfold wsOf at hx
      split_ifs at hx with hloop
      · simp only [Option.map_some, Option.getD_some, WorksharingData.refs,
          List.mem_cons] at hx
        rcases hx with rfl | rfl | hx
        · simp [wsRecord, Created, TaskState.begun, hloop]
        · simp [wsRecord, Created, TaskState.begun, hloop]
        · rcases hc : (o.task τ).chunks (o.task τ).loops with - | c
          · simp [wsRecord, lastChunkOf, hc] at hx
          · obtain rfl : x = .chunk τ (o.task τ).loops c := by
              simpa [wsRecord, lastChunkOf, hc] using hx
            simp [Created, hc]
      · simp at hx
  par_mem := by
    intro r pi hpi x hx
    rw [h.order_iff]
    simp only [tables] at hpi
    split_ifs at hpi with hopen
    obtain rfl := Option.some.inj hpi
    simp only [regionRecord, ParallelRegionData.refs, List.mem_cons] at hx
    rcases hx with rfl | hx
    · simp [Created, hopen]
    · split_ifs at hx with hbar
      · obtain rfl : x = .barrier r _ := by simpa using hx
        -- the barrier node of the last arrival, which is in a round that has begun
        have := Nat.div_mul_le_self ((o.region r).arrivals - 1) (o.region r).requested
        exact ⟨hbar.1, by omega⟩
      · simp at hx

/-! Looking the records up in the realized state. -/

theorem taskData_realize {T : Tables} {td : TaskData Role} (hT : T.task τ = some td) :
    (realize T g).taskData τ = some (td.map g.addr) := by
  simp [realize, hT]

/-- A task with data has the record of its nodes. -/
theorem tables_task (hd : o.HasData τ) : (tables o g).task τ = some (taskRecord o g τ) :=
  if_pos hd

/-- An open region has its record. -/
theorem tables_par (hopen : (o.region r).stage = .opened) :
    (tables o g).par r = some (o.regionRecord r) :=
  if_pos hopen

theorem tables_thread (halive : o.alive th = true) :
    (tables o g).thread th = some ⟨g.loopCounter th⟩ :=
  if_pos halive

theorem parData_realize {T : Tables} {pi : ParallelRegionData Role} (hT : T.par r = some pi) :
    (realize T g).parData r = some (pi.map g.addr) := by
  simp [realize, hT]

/-! Two sets of records agree on a task if nothing the record is made of differs. -/

theorem tables_task_congr {o' : Runtime} {g' : RoleGraph} (hd : o'.HasData τ ↔ o.HasData τ)
    (hws : o'.wsOf τ = o.wsOf τ) (hcur : g'.cur τ = g.cur τ) (hbar : g'.bar τ = g.bar τ) :
    (tables o' g').task τ = (tables o g).task τ := by
  simp only [tables, taskRecord, hws, hcur, hbar]
  by_cases h : o.HasData τ
  · rw [if_pos h, if_pos (hd.mpr h)]
  · rw [if_neg h, if_neg fun h' => h (hd.mp h')]

/-- A task that a callback leaves alone keeps its record. -/
theorem tables_task_keep {o' : Runtime} {g' : RoleGraph} (ht : o'.task τ = o.task τ)
    (hcur : g'.cur τ = g.cur τ) (hbar : g'.bar τ = g.bar τ) :
    (tables o' g').task τ = (tables o g).task τ := by
  refine tables_task_congr ?_ ?_ hcur hbar
  · cases τ <;> simp only [HasData, ht]
  · simp only [wsOf, wsRecord, lastChunkOf, ht]

theorem tables_par_keep {o' : Runtime} {g' : RoleGraph} (hr : o'.region r = o.region r) :
    (tables o' g').par r = (tables o g).par r := by
  simp only [tables, regionRecord, hr]

/-- The realized state does not depend on what the role graph knows of the
tasks; that is in the tables. -/
theorem realize_congr {T T' : Tables} {g' : RoleGraph} (hT : T = T')
    (hg : g' = { g with cur := g'.cur, bar := g'.bar, loopCounter := g'.loopCounter }) :
    realize T g = realize T' g' := by
  rw [hT, hg]
  rfl

theorem Alloc.congr {g' : RoleGraph} (h : Alloc g)
    (hg : g' = { g with cur := g'.cur, bar := g'.bar, loopCounter := g'.loopCounter }) :
    Alloc g' := by
  rw [hg]
  exact ⟨h.nodup, h.live_mem, h.id_eq, h.type_eq, h.graphNodes_iff, h.edges_nodup, h.edges_live,
    h.final_mem, h.charge_mem, h.papi_mem⟩

/-- The callback on the realized state gives the realization of the next role
graph. -/
def Simulates (env : Env) (o : Runtime) (g : RoleGraph) (e : Event) : Prop :=
  (realize (tables o g) g).callback env e
      = some (realize (tables (o.apply e) (g.step env o e)) (g.step env o e)) ∧
    Alloc (g.step env o e)

theorem Simulates.of {T : Tables} {g' : RoleGraph}
    (hcb : (realize (tables o g) g).callback env e = some (realize T g')) (hA : Alloc g')
    (hg : g.step env o e = { g' with
      cur := (g.step env o e).cur
      bar := (g.step env o e).bar
      loopCounter := (g.step env o e).loopCounter })
    (hT : tables (o.apply e) (g.step env o e) = T) : Simulates env o g e :=
  ⟨hcb.trans (congrArg some (realize_congr hT.symm hg)), hA.congr hg⟩

/-- The record of a task that a callback does not touch. -/
theorem tables_task_untouched (ha : o.allows e = true) (ht : (o.apply e).task τ = o.task τ)
    (hc : ∀ x, o.newCur e ≠ some (τ, x)) (hb : ∀ b, o.newBar e ≠ some (τ, b)) :
    (tables (o.apply e) (g.step env o e)).task τ = (tables o g).task τ :=
  tables_task_keep ht (Shaped.cur_of_not_moved ha hc) (bar_of_not_set ha hb)

/-- The task table after a callback that touches the record of one task. -/
theorem tables_task_step (ha : o.allows e = true) {td : Option (TaskData Role)}
    (hτ : (tables (o.apply e) (g.step env o e)).task τ = td)
    (ht : ∀ σ, σ ≠ τ → (o.apply e).task σ = o.task σ ∧ (∀ x, o.newCur e ≠ some (σ, x)) ∧
      ∀ b, o.newBar e ≠ some (σ, b)) :
    (tables (o.apply e) (g.step env o e)).task = Function.update (tables o g).task τ td := by
  funext σ
  rcases eq_or_ne σ τ with rfl | hσ
  · simpa using hτ
  · obtain ⟨h1, h2, h3⟩ := ht σ hσ
    have hkeep : (tables (o.apply e) (g.step env o e)).task σ = (tables o g).task σ :=
      tables_task_untouched ha h1 h2 h3
    simpa [hσ] using hkeep

/-- The record of a task that a callback does not move and whose loops it does
not touch. -/
theorem tables_task_same (ha : o.allows e = true)
    (hd : (o.apply e).HasData τ ↔ o.HasData τ) (hws : (o.apply e).wsOf τ = o.wsOf τ)
    (hc : ∀ x, o.newCur e ≠ some (τ, x)) (hb : ∀ b, o.newBar e ≠ some (τ, b)) :
    (tables (o.apply e) (g.step env o e)).task τ = (tables o g).task τ :=
  tables_task_congr hd hws (Shaped.cur_of_not_moved ha hc) (bar_of_not_set ha hb)

/-- The region table after a callback that touches the record of one region. -/
theorem tables_par_step {pi : Option (ParallelRegionData Role)}
    (hr : (tables (o.apply e) (g.step env o e)).par r = pi)
    (hs : ∀ s, s ≠ r → (o.apply e).region s = o.region s) :
    (tables (o.apply e) (g.step env o e)).par = Function.update (tables o g).par r pi := by
  funext s
  rcases eq_or_ne s r with rfl | h
  · simpa using hr
  · simpa [h] using tables_par_keep (hs s h)

/-! ### Closing the open node of a loop -/

/-- Before the first chunk the start node of the loop is charged. -/
theorem closeOpen_zero (hc : (o.task τ).chunks (o.task τ).loops = 0) :
    g.closeOpen env th o τ = g.addTime env th (.ws τ (o.task τ).loops) := by
  unfold closeOpen
  rw [hc]

/-- After a chunk it is the chunk that is charged. -/
theorem closeOpen_succ {c : ℕ} (hc : (o.task τ).chunks (o.task τ).loops = c + 1) :
    g.closeOpen env th o τ = (g.endPapi env th (.chunk τ (o.task τ).loops c)).addTime env th
      (.chunk τ (o.task τ).loops c) := by
  unfold closeOpen
  rw [hc]

@[simp] theorem addr_closeOpen : (g.closeOpen env th o τ).addr = g.addr := by
  unfold closeOpen
  split <;> rfl

/-- The nodes of the loop that a task is in are live. -/
theorem Shaped.loop_live (h : Shaped o g) (hloop : (o.task τ).inLoop = true) :
    g.live (.ws τ (o.task τ).loops) = true ∧ g.live (.loopSink τ (o.task τ).loops) = true ∧
      ∀ c < (o.task τ).chunks (o.task τ).loops, g.live (.chunk τ (o.task τ).loops c) = true := by
  refine ⟨?_, ?_, fun c hc => ?_⟩ <;> rw [h.live_iff]
  · exact ⟨by simp [Created, TaskState.begun, hloop], id⟩
  · exact ⟨by simp [Created, TaskState.begun, hloop], id⟩
  · exact ⟨hc, id⟩

/-- Closing the open chunk needs only nodes that are there. -/
theorem Shaped.closeOpen_closed (h : Shaped o g) (env : Env) (th : ThreadId) {T : Tables}
    (hC : Closed T g) (hloop : (o.task τ).inLoop = true) : Closed T (g.closeOpen env th o τ) := by
  obtain ⟨hws, -, hchunk⟩ := h.loop_live hloop
  rcases hc : (o.task τ).chunks (o.task τ).loops with - | c
  · rw [closeOpen_zero hc]
    exact hC.addTime (hC.live_mem hws)
  · have hmem := hC.live_mem (hchunk c (by omega))
    rw [closeOpen_succ hc]
    exact (hC.endPapi env th hmem).addTime hmem

/-- `cb_ext_chunk` closes the open node, unless it is a `last_chunk` call with
a chunk open. -/
theorem Shaped.realize_closeChunk (h : Shaped o g) (env : Env) (th : ThreadId) {T : Tables}
    (hC : Closed T g) (hloop : (o.task τ).inLoop = true) (lastChunk : Bool) :
    (realize T g).closeChunk env th ((o.wsRecord τ).map g.addr) lastChunk
      = some (realize T (if lastChunk = true ∧ (o.task τ).chunks (o.task τ).loops ≠ 0 then g
          else g.closeOpen env th o τ)) := by
  obtain ⟨hws, -, hchunk⟩ := h.loop_live hloop
  rcases hc : (o.task τ).chunks (o.task τ).loops with - | c
  · simp only [Tool.closeChunk, wsRecord, lastChunkOf, WorksharingData.map, hc, Option.map_none,
      realize_addTime hC hws, closeOpen_zero hc]
    simp
  · have hl := hchunk c (by omega)
    have hpapi := hC.endPapi env th (hC.live_mem hl)
    have hadd : (realize T (g.endPapi env th (.chunk τ (o.task τ).loops c))).addTime env th
        (g.addr (.chunk τ (o.task τ).loops c)) = _ := realize_addTime hpapi hl
    simp only [Tool.closeChunk, wsRecord, lastChunkOf, WorksharingData.map, hc, Option.map_some,
      realize_endPapiCounters hC hl, Option.bind_eq_bind, Option.bind_some, hadd,
      closeOpen_succ hc]
    cases lastChunk <;> simp

/-- The second half of `cb_ext_chunk`: the new chunk hangs below the start node
of the loop, leads to its sink, and becomes the last chunk. -/
theorem realize_openChunk (env : Env) (th : ThreadId) (lower upper : ℤ) {T : Tables}
    (hC : Closed T g)
    (hws : g.live (.ws τ (o.task τ).loops) = true)
    (hsink : g.live (.loopSink τ (o.task τ).loops) = true)
    (hfresh : Role.chunk τ (o.task τ).loops ((o.task τ).chunks (o.task τ).loops) ∉ g.order)
    (hth : T.thread th = some ⟨g.loopCounter th⟩) {td : TaskData Role}
    (htd : T.task τ = some td) (hnum : td.threadNum = threadNumOf τ) :
    (realize T g).openChunk env th τ (td.map g.addr) ((o.wsRecord τ).map g.addr) lower upper
        = some (realize (T.setTask τ (some { td with currWsData := some { o.wsRecord τ with
            lastChunkNode := some
              (.chunk τ (o.task τ).loops ((o.task τ).chunks (o.task τ).loops)) } }))
          (g.chunkOpen env th o τ lower upper)) ∧
      Alloc (g.chunkOpen env th o τ lower upper) := by
  set l := (o.task τ).loops with hl
  set x := Role.chunk τ l ((o.task τ).chunks l) with hx
  have hnew := realize_createNewNode hC env hws hfresh
  have hC1 := hC.createBelow env hws hfresh
  set g1 := g.createBelow env (.ws τ l) x with hg1
  have hlive : g1.live x = true := by
    rw [hg1, createBelow_live]
    simp
  have hsink1 : g1.live (.loopSink τ l) = true := by
    have hne : Role.loopSink τ l ≠ x := by simp [hx]
    rw [hg1, createBelow_live, Function.update_of_ne hne, hsink]
  set f : NodeData → NodeData := fun nd =>
    ((nd.setLowerUpper lower upper).setLoopCounter (g.loopCounter th)).setThreadId
      (threadNumOf τ) with hf
  have hon := realize_onNode hC1 hlive f
  -- the three setters one after the other: neither id nor type is among them
  have hC2 := hC1.onData (x := x) (f := f) fun _ => ⟨rfl, rfl⟩
  set g2 := g1.onData x f with hg2
  set td' : TaskData Role := { td with currWsData := some { o.wsRecord τ with
    lastChunkNode := some x } } with htd'
  -- the addresses handed out so far stay valid when a node is appended
  have hmem : ∀ y ∈ g.order, y ∈ g2.order := fun y hy => List.mem_append_left _ hy
  have haddr : ∀ y ∈ g.order, g.addr y = g2.addr y := fun y hy => (addr_create_of_mem hy).symm
  have hwsm := hC.live_mem hws
  have hsinkm := hC.live_mem hsink
  -- the new record mentions the new chunk and else only what the old one did
  have hC3 : Closed (T.setTask τ (some td')) g2 := by
    refine hC2.setTask fun y hy => ?_
    have hold := hC.task_mem htd
    simp only [htd', TaskData.refs, WorksharingData.refs, wsRecord, Option.map_some,
      Option.getD_some, List.mem_cons, List.mem_append, Option.toList_some, List.not_mem_nil,
      or_false] at hy
    rcases hy with rfl | hy | rfl | rfl | rfl
    · exact hmem _ (hold _ (by simp [TaskData.refs]))
    · refine hmem _ (hold _ ?_)
      simp only [TaskData.refs, List.mem_cons, List.mem_append]
      exact .inr (.inl hy)
    · exact hmem _ hwsm
    · exact hmem _ hsinkm
    · simp [hg2, hg1, createBelow_order]
  have htd2 : td'.map g2.addr = { td.map g.addr with
      currWsData :=
        some { (o.wsRecord τ).map g.addr with lastChunkNode := some (g1.addr x) } } := by
    rw [TaskData.map_congr fun y hy => haddr y (hC.task_mem htd y hy)]
    simp only [htd', TaskData.map, Option.map_some, WorksharingData.map, wsRecord, ← hl,
      haddr _ hwsm, haddr _ hsinkm]
    rfl
  have hconn := realize_connectNodes hC3 (x := x) (y := .loopSink τ l) hlive hsink1
  rw [← haddr _ hsinkm, show g2.addr x = g1.addr x from rfl] at hconn
  have hC4 := hC3.connect (x := x) (y := .loopSink τ l) hlive hsink1
  have hon2 := realize_onNode hC4 (x := x) hlive fun nd => nd.initPapiVals env.numPapiEvents
  rw [show (g2.connect x (.loopSink τ l)).addr x = g1.addr x from rfl] at hon2
  have hC5 := hC4.onData (x := x) (f := fun nd => nd.initPapiVals env.numPapiEvents)
    fun _ => ⟨rfl, rfl⟩
  have hxm : x ∈ g2.order := by simp [hg2, hg1, createBelow_order]
  refine ⟨?_, (hC5.startPapi th hxm).toAlloc⟩
  have hth' : (realize T g).threadData th = some ⟨g.loopCounter th⟩ := hth
  have hstart : ((o.wsRecord τ).map g.addr).startNode = g.addr (.ws τ l) := rfl
  have hsinkn : ((o.wsRecord τ).map g.addr).sinkNode = g.addr (.loopSink τ l) := rfl
  have hnum' : (td.map g.addr).threadNum = threadNumOf τ := hnum
  have hset : (realize T g2).setTaskData τ (some
      { currTaskNode := (td.map g.addr).currTaskNode
        currWsData := some
          { startNode := g.addr (.ws τ l), sinkNode := g.addr (.loopSink τ l),
            lastChunkNode := some (g1.addr x) }
        currBarrierNode := (td.map g.addr).currBarrierNode
        sinkNode := (td.map g.addr).sinkNode
        threadNum := threadNumOf τ }) = realize (T.setTask τ (some td')) g2 := by
    rw [← hnum', ← realize_setTaskData, Option.map_some, htd2]
    rfl
  simp only [Tool.openChunk, hth', Option.bind_eq_bind, Option.bind_some, hstart, hsinkn, hnum']
  rw [show NodeType.chunkTask = x.type from rfl, hnew, Option.bind_some, hon, Option.bind_some]
  simp only [hset, hconn, Option.bind_some, hon2]
  exact congrArg some realize_startPapiCounters

/-- Behind the last barrier the task's node is isolated but for the edge from
the barrier, so that it can be removed. -/
theorem Shaped.isolated (h : Shaped o g) {t : ℕ} {b : Role} (hd : o.HasData (.implicit r t))
    (hw : o.Waiting r t) (hbar : g.bar (.implicit r t) = some b) :
    ∀ a ∈ (g.disconnect b (.imp r t (o.task (.implicit r t)).arrived)).edges,
      a.1 ≠ .imp r t (o.task (.implicit r t)).arrived ∧
      a.2 ≠ .imp r t (o.task (.implicit r t)).arrived := by
  rintro ⟨x, y⟩ ha
  simp only [disconnect_edges, List.mem_filter, decide_eq_true_eq] at ha
  refine ⟨?_, ?_⟩
  · rintro rfl
    -- the node is pending, so nothing leaves it
    exact h.exits ha.1 ⟨hw, rfl⟩
  · rintro rfl
    -- and the only edge that enters it comes from the barrier, which is disconnected
    have := h.entry ha.1 hw.2.1 hd rfl
    rw [hbar] at this
    exact ha.2 (by rw [Option.some.inj this])

/-! ### Reaching a barrier -/

/-- `connectNodes` does nothing for nodes that are connected. -/
theorem connect_of_mem (hxy : (x, y) ∈ g.edges) : g.connect x y = g := by
  simp [connect, hxy]

/-- The record of a region after one more arrival. -/
theorem regionRecord_arrival {q a : ℕ} (hq : 1 < q) :
    (if a % q = 0 then 1 else if q ≤ a % q + 1 then 0 else a % q + 1) = (a + 1) % q ∧
      (a % q ≠ 0 → 0 < a ∧ (a - 1) / q = a / q) := by
  refine ⟨?_, fun h0 => ?_⟩
  · have hlt := Nat.mod_lt a (show 0 < q by omega)
    rw [Nat.add_mod_eq_ite, Nat.mod_eq_of_lt hq]
    split_ifs <;> omega
  · obtain ⟨a', rfl⟩ : ∃ a', a = a' + 1 := by
      refine Nat.exists_eq_succ_of_ne_zero ?_
      rintro rfl
      simp at h0
    refine ⟨Nat.succ_pos _, ?_⟩
    rw [Nat.succ_div_of_not_dvd fun hd => h0 (Nat.mod_eq_zero_of_dvd hd)]
    simp

theorem realize_reachBarrier (env : Env) {T : Tables} (hC : Closed T g) (hx : g.live x = true)
    (hreq : 1 < (o.region r).requested) (hsink : Role.sink r ∈ g.order)
    (hnew : (o.region r).arrivals % (o.region r).requested = 0 →
      Role.barrier r ((o.region r).arrivals / (o.region r).requested) ∉ g.order)
    (hold : (o.region r).arrivals % (o.region r).requested ≠ 0 →
      g.live (.barrier r ((o.region r).arrivals / (o.region r).requested)) = true) :
    let b := Role.barrier r ((o.region r).arrivals / (o.region r).requested)
    let T' := T.setPar r (some { o.regionRecord r with
      barrierCnt := ((o.region r).arrivals + 1) % (o.region r).requested
      currBarrierNode := some b })
    (realize T g).reachBarrier env r ((o.regionRecord r).map g.addr) (g.addr x)
        = some ((g.reachBarrier env o r x).addr b, realize T' (g.reachBarrier env o r x)) ∧
      Closed T' (g.reachBarrier env o r x) ∧ (g.reachBarrier env o r x).live b = true ∧
      (∀ y ∈ g.order, (g.reachBarrier env o r x).addr y = g.addr y ∧
        y ∈ (g.reachBarrier env o r x).order) := by
  intro b T'
  obtain ⟨hcnt, hprev⟩ := regionRecord_arrival (a := (o.region r).arrivals) hreq
  have hclosed : ∀ {g' : RoleGraph}, Closed T g' → g'.live b = true →
      (∀ y ∈ g.order, y ∈ g'.order) → Closed T' g' := by
    intro g' hC' hb' hsub
    refine hC'.setPar fun y hy => ?_
    simp only [ParallelRegionData.refs, regionRecord, Option.toList_some, List.mem_cons,
      List.not_mem_nil, or_false] at hy
    rcases hy with rfl | rfl
    · exact hsub _ hsink
    · exact hC'.live_mem hb'
  -- the first arrival of a round creates the barrier node, the others find it in the record
  by_cases h0 : (o.region r).arrivals % (o.region r).requested = 0
  · have hg : g.reachBarrier env o r x = g.createBelow env x b := by
      simp [RoleGraph.reachBarrier, h0, b]
    rw [if_pos h0] at hcnt
    rw [hg]
    have hC1 := hC.createBelow env hx (hnew h0)
    have hcreate : (realize T g).createNewNode env .barrier (some (g.addr x)) = _ :=
      realize_createNewNode hC env hx (hnew h0)
    have hb1 : (g.createBelow env x b).live b = true := by
      rw [createBelow_live]
      simp
    have haddr : ∀ y ∈ g.order, (g.createBelow env x b).addr y = g.addr y ∧
        y ∈ (g.createBelow env x b).order :=
      fun y hy => ⟨addr_create_of_mem hy, List.mem_append_left _ hy⟩
    refine ⟨?_, hclosed hC1 hb1 fun y hy => (haddr y hy).2, hb1, haddr⟩
    simp only [Tool.reachBarrier, ParallelRegionData.map, regionRecord, h0, if_true,
      Option.bind_eq_bind, hcreate, Option.bind_some, T', ← realize_setParData, Option.map_some,
      ← hcnt, (haddr _ hsink).1]
    rfl
  · have hg : g.reachBarrier env o r x = g.connect x b := by
      simp [RoleGraph.reachBarrier, h0, b]
    rw [if_neg h0] at hcnt
    obtain ⟨hpos, hdiv⟩ := hprev h0
    rw [hg]
    have hb := hold h0
    refine ⟨?_, hclosed (hC.connect hx hb) hb fun y hy => hy, hb, fun y hy => ⟨rfl, hy⟩⟩
    have hconn : (realize T g).connectNodes (g.addr x) (g.addr b) = _ :=
      realize_connectNodes hC hx hb
    simp only [Tool.reachBarrier, ParallelRegionData.map, regionRecord, h0, if_false, hreq, hpos,
      and_self, if_true, hdiv, Option.map_some, Option.bind_eq_bind, Option.bind_some, hconn, T',
      ← realize_setParData, hcnt, b]
    rfl

/-! ### The callbacks, one by one -/

/-- A callback that leaves the state as it is. -/
theorem sim_quiet (hA : Alloc g)
    (hcb : (realize (tables o g) g).callback env e = some (realize (tables o g) g))
    (ho : o.apply e = o) (hg : g.step env o e = g) : Simulates env o g e :=
  Simulates.of hcb hA (by rw [hg]) (by rw [ho, hg])

/-- `cb_thread_begin` starts a loop counter. -/
theorem sim_threadBegin (hA : Alloc g) : Simulates env o g ⟨th, .threadBegin⟩ := by
  have hcb : (realize (tables o g) g).callback env ⟨th, .threadBegin⟩
      = some (realize ((tables o g).setThread th (some ⟨0⟩)) g) := rfl
  refine Simulates.of hcb hA rfl
    (Tables.ext rfl rfl (funext fun th' => ?_))
  rcases eq_or_ne th' th with rfl | e
  · simp [tables, Runtime.apply, RoleGraph.step]
  · simp [tables, Runtime.apply, RoleGraph.step, e]

theorem sim_threadEnd (hA : Alloc g) (halive : o.alive th = true) :
    Simulates env o g ⟨th, .threadEnd⟩ := by
  have hcb : (realize (tables o g) g).callback env ⟨th, .threadEnd⟩
      = some (realize ((tables o g).setThread th none) g) := by
    simp [Tool.callback, Tool.cbThreadEnd, realize, tables, halive, Tool.setThreadData]
  refine Simulates.of hcb hA rfl (Tables.ext rfl rfl (funext fun th' => ?_))
  rcases eq_or_ne th' th with rfl | e
  · simp [tables, Runtime.apply]
  · simp [tables, Runtime.apply, RoleGraph.step, e]

section Callbacks

variable (h : Shaped o g) (hS : o.Sound) (hA : Alloc g)
include h hS hA

/-- `cb_implicit_task`, begin: a node below the node of the encountering task. -/
theorem sim_implicitBegin {t : ℕ} (hopen : (o.region r).stage = .opened)
    (ha : o.allows ⟨th, .implicitTask .scopeBegin r (.implicit r t) (o.region r).teamSize t⟩
      = true) :
    Simulates env o g
      ⟨th, .implicitTask .scopeBegin r (.implicit r t) (o.region r).teamSize t⟩ := by
  have hC := h.closed hS hA
  have hd : o.HasData (o.region r).parent := hasData_of_forked (hS.opened_parent hopen)
  have hlive := h.cur_live hd
  -- the encountering task waits, so its node is there; the new one is not
  have hfresh : Role.imp r t 0 ∉ g.order := by
    rw [h.order_iff]
    exact newRoles_fresh ha (by simp [newRoles])
  have hsink : Role.sink r ∈ g.order := by
    rw [h.order_iff]
    simp [Created, hopen]
  set g1 := g.createBelow env (g.cur (o.region r).parent) (.imp r t 0) with hg1
  have haddr : g.addr (.sink r) = g1.addr (.sink r) := (addr_create_of_mem hsink).symm
  have hnew : (realize (tables o g) g).createNewNode env .impTask
      (some (g.addr (g.cur (o.region r).parent)))
        = some (g1.addr (.imp r t 0), realize (tables o g) g1) :=
    realize_createNewNode hC env hlive hfresh
  have hset := realize_setTaskData (T := tables o g) (g := g1) (.implicit r t) (some
    { currTaskNode := .imp r t 0, sinkNode := some (.sink r), threadNum := t })
  simp only [Option.map_some, TaskData.map, Option.map_none] at hset
  have hcb : (realize (tables o g) g).callback env
      ⟨th, .implicitTask .scopeBegin r (.implicit r t) (o.region r).teamSize t⟩
        = some (realize ((tables o g).setTask (.implicit r t) (some
          { currTaskNode := .imp r t 0, sinkNode := some (.sink r), threadNum := t })) g1) := by
    simp only [Tool.callback, Tool.cbImplicitTaskBegin, parData_realize (tables_par hopen),
      Option.bind_eq_bind, Option.bind_some, ParallelRegionData.map, regionRecord,
      taskData_realize (tables_task hd), TaskData.map, taskRecord, hnew, haddr, hset]
  refine Simulates.of hcb (hC.createBelow env hlive hfresh).toAlloc rfl
    (Tables.ext (tables_task_step ha ?_ fun σ hσ => ?_) rfl rfl)
  · simp [tables, HasData, taskRecord, wsOf, Runtime.apply, sinkOf, threadNumOf,
      RoleGraph.step, RoleGraph.implicitBegin]
  · simp [Runtime.apply, newCur, newBar, hσ, Ne.symm hσ]

/-- `cb_task_create` of an explicit task: a node below that of its creator. -/
theorem sim_explicit {parent : TaskId} {n : ℕ} (hact : o.Acts th parent)
    (ha : o.allows ⟨th, .taskCreate parent (.explicit n) .explicit⟩ = true) :
    Simulates env o g ⟨th, .taskCreate parent (.explicit n) .explicit⟩ := by
  have hC := h.closed hS hA
  have hd := hasData_of_active hact.2
  have hlive := h.cur_live hd
  have hfresh : Role.exp n ∉ g.order := by
    rw [h.order_iff]
    exact newRoles_fresh ha (by simp [newRoles])
  set g1 := g.createBelow env (g.cur parent) (.exp n) with hg1
  have hnew : (realize (tables o g) g).createNewNode env .expTask (some (g.addr (g.cur parent)))
      = some (g1.addr (.exp n), realize (tables o g) g1) :=
    realize_createNewNode hC env hlive hfresh
  have hset := realize_setTaskData (T := tables o g) (g := g1) (.explicit n)
    (some { currTaskNode := .exp n })
  simp only [Option.map_some, TaskData.map, Option.map_none] at hset
  have hcb : (realize (tables o g) g).callback env ⟨th, .taskCreate parent (.explicit n) .explicit⟩
      = some (realize ((tables o g).setTask (.explicit n)
          (some { currTaskNode := .exp n })) g1) := by
    simp only [Tool.callback, Tool.cbTaskCreate, taskData_realize (tables_task hd),
      Option.map_some, TaskData.map, taskRecord, hnew, Option.bind_eq_bind, Option.bind_some, hset]
  have hbar : g.bar (.explicit n) = none := h.bar_none (by simp)
  refine Simulates.of hcb (hC.createBelow env hlive hfresh).toAlloc rfl
    (Tables.ext (tables_task_step ha ?_ fun σ hσ => ?_) rfl rfl)
  · simp [tables, HasData, taskRecord, wsOf, Runtime.apply, sinkOf, threadNumOf,
      RoleGraph.step, createExplicit, createBelow, hbar]
  · simp [Runtime.apply, newCur, newBar, hσ, Ne.symm hσ]

/-- `cb_task_create` of the initial task: the root node, which is the final node for now. -/
theorem sim_initial {parent : TaskId} (habs : (o.task (.initial 0)).standing = .absent)
    (ha : o.allows ⟨th, .taskCreate parent (.initial 0) .initial⟩ = true) :
    Simulates env o g ⟨th, .taskCreate parent (.initial 0) .initial⟩ := by
  have hC := h.closed hS hA
  obtain ⟨htasks, hregions⟩ := hS.initial_first habs
  -- the root takes the constant id 0, and it is its position only in an empty graph
  have horder : g.order = [] := by
    rw [List.eq_nil_iff_forall_not_mem]
    intro x hx
    rw [h.order_iff] at hx
    cases x with
    | root => exact hx habs
    | exp n => exact hx (htasks _)
    | sink r => exact hx (hregions r)
    | imp r t j => exact hx.1 (htasks _)
    | barrier r i =>
      have := ((hS.team r).absent (hregions r)).1
      simp [Created, this] at hx
    | ws τ l => simp [Created, hS.fresh (htasks τ), TaskState.begun] at hx
    | loopSink τ l => simp [Created, hS.fresh (htasks τ), TaskState.begun] at hx
    | chunk τ l c => simp [Created, hS.fresh (htasks τ)] at hx
  have hfresh : Role.root ∉ g.order := by simp [horder]
  set g1 := (g.create .root).setLastTime env .root with hg1
  have hnew : (realize (tables o g) g).createNewNode env .rootTask none
      = some (g1.addr .root, realize (tables o g) g1) := realize_createRoot hC horder
  have hset := realize_setTaskData (T := tables o g) (g := g1) (.initial 0)
    (some { currTaskNode := .root })
  simp only [Option.map_some, TaskData.map, Option.map_none] at hset
  have hcb : (realize (tables o g) g).callback env ⟨th, .taskCreate parent (.initial 0) .initial⟩
      = some (realize ((tables o g).setTask (.initial 0)
          (some { currTaskNode := .root })) (g1.setFinal .root)) := by
    simp only [Tool.callback, Tool.cbTaskCreate, hnew, Option.bind_eq_bind, Option.bind_some, hset]
    rfl
  have hbar : g.bar (.initial 0) = none := h.bar_none (by simp)
  have hroot : Role.root ∈ g1.order := by simp [hg1]
  refine Simulates.of hcb ((hC.create hfresh).setLastTime.setFinal hroot).toAlloc rfl
    (Tables.ext (tables_task_step ha ?_ fun σ hσ => ?_) rfl rfl)
  · simp [tables, HasData, taskRecord, wsOf, Runtime.apply, sinkOf, threadNumOf,
      RoleGraph.step, createInitial, hbar]
  · simp [Runtime.apply, newCur, newBar, hσ, Ne.symm hσ]

/-- `cb_task_schedule`: one node is charged, another started. -/
theorem sim_schedule {first second : TaskId} {prior : TaskStatus} (hact : o.Acts th first)
    (hmay : o.MayResume th second) (hterm : Terminates prior → first.isExplicit = true)
    (ha : o.allows ⟨th, .taskSchedule first prior second⟩ = true) :
    Simulates env o g ⟨th, .taskSchedule first prior second⟩ := by
  have hC := h.closed hS hA
  have hd1 := hasData_of_active hact.2
  have hd2 : o.HasData second := hasData_of_present hmay.standing.1 hmay.standing.2.1
  have hne : second ≠ first := by
    rintro rfl
    exact hmay.standing.2.2.1 hact.2
  have hl1 := h.cur_live hd1
  have hl2 := h.cur_live hd2
  have hC1 : Closed (tables o g) (g.addTime env th (g.cur first)) := hC.addTime (hA.live_mem hl1)
  have hlast : (realize (tables o g) (g.addTime env th (g.cur first))).setLastTime env
      (g.addr (g.cur second))
        = some (realize (tables o g) ((g.addTime env th (g.cur first)).setLastTime env
            (g.cur second))) := realize_setLastTime hC1 hl2
  have hcb : (realize (tables o g) g).callback env ⟨th, .taskSchedule first prior second⟩
      = some (realize (tables o g) (g.schedule env th first second)) := by
    simp only [Tool.callback, Tool.cbTaskSchedule, taskData_realize (tables_task hd1),
      TaskData.map, taskRecord, realize_addTime hC hl1, Option.bind_eq_bind, Option.bind_some,
      taskData_realize (tables_task hd2), addr_addTime, hlast]
    rfl
  refine Simulates.of hcb hC1.setLastTime.toAlloc rfl
    (Tables.ext (funext fun σ => tables_task_same ha ?_ ?_ (by simp [newCur]) (by simp [newBar]))
      rfl rfl)
  -- no record changes: the record of an explicit task outlives the task
  · rcases eq_or_ne σ second with rfl | h2
    · refine ⟨fun _ => hd2, fun _ => hasData_of_active ?_⟩
      simp [Runtime.apply]
    · rcases eq_or_ne σ first with rfl | h1
      · refine ⟨fun _ => hd1, fun _ => ?_⟩
        by_cases hp : Terminates prior
        · have hex := hterm hp
          cases σ with
          | explicit n => simp [HasData, Runtime.apply, h2, hp]
          | initial i => cases hex
          | implicit r t => cases hex
        · refine hasData_of_present ?_ ?_ <;> simp [Runtime.apply, h2, hp]
      · cases σ <;> simp [HasData, Runtime.apply, h1, h2]
  · rcases eq_or_ne σ second with rfl | h2
    · simp [wsOf, wsRecord, lastChunkOf, Runtime.apply, hne]
    · rcases eq_or_ne σ first with rfl | h1
      · simp [wsOf, wsRecord, lastChunkOf, Runtime.apply, h2]
      · simp [wsOf, wsRecord, lastChunkOf, Runtime.apply, h1, h2]

/-- `cb_parallel_begin`: the sink of the region, not connected yet. -/
theorem sim_parallelBegin {parent : TaskId} {q m k : ℕ} (hact : o.Acts th parent)
    (ha : o.allows ⟨th, .parallelBegin parent r q m k⟩ = true) :
    Simulates env o g ⟨th, .parallelBegin parent r q m k⟩ := by
  have hC := h.closed hS hA
  have hd := hasData_of_active hact.2
  have hlive := h.cur_live hd
  have hfresh : Role.sink r ∉ g.order := by
    rw [h.order_iff]
    exact newRoles_fresh ha (by simp [newRoles])
  have hC1 : Closed (tables o g) (g.addTime env th (g.cur parent)) :=
    hC.addTime (hA.live_mem hlive)
  -- the sink takes an id from the counter, so it must not be the first node
  have hne : g.order ≠ [] := List.ne_nil_of_mem (hA.live_mem hlive)
  have hclean := realize_createCleanNode hC1 (x := .sink r) hfresh true (by simp [hne])
  set g1 := (g.addTime env th (g.cur parent)).create (.sink r) with hg1
  have hset := realize_setParData (T := tables o g) (g := g1) r (some
    { parentTaskData := parent, sinkNode := .sink r, teamSize := q })
  simp only [Option.map_some, ParallelRegionData.map, Option.map_none] at hset
  have hcb : (realize (tables o g) g).callback env ⟨th, .parallelBegin parent r q m k⟩
      = some (realize ((tables o g).setPar r (some
          { parentTaskData := parent, sinkNode := .sink r, teamSize := q })) g1) := by
    simp only [Tool.callback, Tool.cbParallelBegin, taskData_realize (tables_task hd),
      TaskData.map, taskRecord, realize_addTime hC hlive, Option.bind_eq_bind, Option.bind_some]
    rw [show NodeType.impTask = Role.type (.sink r) from rfl, hclean]
    simp only [hset]
  refine Simulates.of hcb (hC1.create hfresh).toAlloc rfl
    (Tables.ext (funext fun σ => tables_task_same ha ?_ ?_ (by simp [newCur]) (by simp [newBar]))
      (tables_par_step ?_ fun s hs => ?_) rfl)
  · rcases eq_or_ne σ parent with rfl | hσ
    · exact ⟨fun _ => hd, fun _ => hasData_of_forked (r := r) (by simp [Runtime.apply])⟩
    · cases σ <;> simp [HasData, Runtime.apply, hσ]
  · rcases eq_or_ne σ parent with rfl | hσ
    · simp [wsOf, wsRecord, lastChunkOf, Runtime.apply]
    · simp [wsOf, wsRecord, lastChunkOf, Runtime.apply, hσ]
  · simp [tables, regionRecord, Runtime.apply]
  · simp [Runtime.apply, hs]

/-- `cb_parallel_end`: the encountering task moves to the sink, which is started. -/
theorem sim_parallelEnd (hopen : (o.region r).stage = .opened)
    (hfork : (o.task (o.region r).parent).standing = .forked r)
    (ha : o.allows ⟨th, .parallelEnd r (o.region r).parent⟩ = true) :
    Simulates env o g ⟨th, .parallelEnd r (o.region r).parent⟩ := by
  have hC := h.closed hS hA
  have hd : o.HasData (o.region r).parent := hasData_of_forked hfork
  have hsink : Role.sink r ∈ g.order := by
    rw [h.order_iff]
    simp [Created, hopen]
  have hlive : g.live (.sink r) = true := by
    rw [h.live_iff]
    exact ⟨by simp [Created, hopen], id⟩
  set td : TaskData Role := { taskRecord o g (o.region r).parent with currTaskNode := .sink r }
    with htd
  -- the encountering task is moved to the sink before the sink is started
  have hC1 : Closed ((tables o g).setTask (o.region r).parent (some td)) g := by
    refine hC.setTask fun y hy => ?_
    simp only [htd, TaskData.refs, List.mem_cons] at hy
    rcases hy with rfl | hy
    · exact hsink
    · exact hC.task_mem (tables_task hd) y (List.mem_cons_of_mem _ hy)
  have hset := realize_setTaskData (T := tables o g) (g := g) (o.region r).parent (some td)
  simp only [htd, Option.map_some, TaskData.map] at hset
  have hcb : (realize (tables o g) g).callback env ⟨th, .parallelEnd r (o.region r).parent⟩
      = some (realize (((tables o g).setTask (o.region r).parent (some td)).setPar r none)
          ((g.setLastTime env (.sink r)).setFinal (.sink r))) := by
    simp only [Tool.callback, Tool.cbParallelEnd, parData_realize (tables_par hopen),
      ParallelRegionData.map, regionRecord, Option.bind_eq_bind, Option.bind_some,
      taskData_realize (tables_task hd), TaskData.map, hset]
    rw [← htd, realize_setLastTime hC1 hlive]
    simp only [Option.bind_some, ← realize_setParData, Option.map_none]
    rfl
  refine Simulates.of hcb (hC1.setLastTime.setFinal hsink).toAlloc rfl
    (Tables.ext (tables_task_step ha ?_ fun σ hσ => ?_) (tables_par_step ?_ fun s hs => ?_) rfl)
  · have hd' : (o.apply ⟨th, .parallelEnd r (o.region r).parent⟩).HasData (o.region r).parent :=
      hasData_of_active (by simp [Runtime.apply])
    rw [tables_task hd']
    simp [htd, taskRecord, wsOf, wsRecord, lastChunkOf, Runtime.apply, RoleGraph.step,
      RoleGraph.parallelEnd]
  · simp [Runtime.apply, newCur, newBar, hσ, Ne.symm hσ]
  · simp [tables, Runtime.apply]
  · simp [Runtime.apply, hs]

/-- `cb_ext_loop`, begin: the start node of the loop and its sink. -/
theorem sim_loopBegin {lower upper : ℤ} (hact : o.Acts th τ)
    (hloop : (o.task τ).inLoop = false) (hfreshLoops : LoopsFresh (o.task τ))
    (ha : o.allows ⟨th, .extLoop .scopeBegin τ lower upper⟩ = true) :
    Simulates env o g ⟨th, .extLoop .scopeBegin τ lower upper⟩ := by
  have hC := h.closed hS hA
  have hd := hasData_of_active hact.2
  have hlive := h.cur_live hd
  have hfresh : ∀ x, x = Role.ws τ (o.task τ).loops ∨ x = .loopSink τ (o.task τ).loops →
      x ∉ g.order := by
    intro x hx
    rw [h.order_iff]
    exact newRoles_fresh ha (by simpa [newRoles] using hx)
  have hC1 : Closed (tables o g) (g.addTime env th (g.cur τ)) := hC.addTime (hA.live_mem hlive)
  have hlive1 : (g.addTime env th (g.cur τ)).live (g.cur τ) = true := hlive
  have hnew : (realize (tables o g) (g.addTime env th (g.cur τ))).createNewNode env .wsTask
      (some (g.addr (g.cur τ))) = _ :=
    realize_createNewNode hC1 env hlive1 (x := .ws τ (o.task τ).loops)
      (hfresh _ (.inl rfl))
  have hC2 := hC1.createBelow env hlive1 (x := .ws τ (o.task τ).loops)
    (hfresh _ (.inl rfl))
  set g2 := (g.addTime env th (g.cur τ)).createBelow env (g.cur τ) (.ws τ (o.task τ).loops)
    with hg2
  have hlive2 : g2.live (.ws τ (o.task τ).loops) = true := by
    rw [hg2, createBelow_live]
    simp
  have hon := realize_onNode hC2 hlive2 fun nd => nd.setLowerUpper lower upper
  have hC3 := hC2.onData (x := .ws τ (o.task τ).loops)
    (f := fun nd => nd.setLowerUpper lower upper) fun _ => ⟨rfl, rfl⟩
  set g3 := g2.onData (.ws τ (o.task τ).loops) fun nd => nd.setLowerUpper lower upper with hg3
  -- the sink is created after the start node, and its address is the next one
  have hfresh3 : Role.loopSink τ (o.task τ).loops ∉ g3.order := by
    simp [hg3, hg2, createBelow_order, hfresh _ (.inr rfl)]
  have hclean : (realize (tables o g) g3).createCleanNode .impTask true = _ :=
    realize_createCleanNode hC3 hfresh3 true (by simp [hg3, hg2, createBelow_order])
  set g4 := g3.create (.loopSink τ (o.task τ).loops) with hg4
  have haddr : ∀ y ∈ g.order, g.addr y = g4.addr y := by
    intro y hy
    have hy3 : y ∈ g3.order := List.mem_append_left _ hy
    rw [hg4, addr_create_of_mem hy3]
    exact (addr_create_of_mem (g := g.addTime env th (g.cur τ)) hy).symm
  have hws : g2.addr (.ws τ (o.task τ).loops) = g4.addr (.ws τ (o.task τ).loops) := by
    have hmem : Role.ws τ (o.task τ).loops ∈ g3.order := by
      simp [hg3, hg2, createBelow_order]
    exact (addr_create_of_mem hmem).symm
  have hrec := TaskData.map_congr fun y hy => haddr y (hC.task_mem (tables_task hd) y hy)
  set td : TaskData Role := { taskRecord o g τ with
    currWsData := some
      { startNode := .ws τ (o.task τ).loops, sinkNode := .loopSink τ (o.task τ).loops } } with htd
  have htd4 : td.map g4.addr = { (taskRecord o g τ).map g.addr with
      currWsData := some { startNode := g2.addr (.ws τ (o.task τ).loops),
                           sinkNode := g4.addr (.loopSink τ (o.task τ).loops) } } := by
    rw [hrec, hws]
    rfl
  have hcb : (realize (tables o g) g).callback env ⟨th, .extLoop .scopeBegin τ lower upper⟩
      = some (realize ((tables o g).setTask τ (some td)) g4) := by
    rw [← realize_setTaskData, Option.map_some, htd4]
    simp only [Tool.callback, Tool.cbExtLoopBegin, taskData_realize (tables_task hd),
      Option.bind_eq_bind, Option.bind_some, TaskData.map, taskRecord, realize_addTime hC hlive,
      hnew, hon, hclean]
  -- a loop that begins has no chunk yet, so the record has no last chunk
  have hchunks : (o.task τ).chunks (o.task τ).loops = 0 :=
    hfreshLoops _ (by simp [TaskState.begun, hloop])
  refine Simulates.of hcb (hC3.create hfresh3).toAlloc rfl
    (Tables.ext (tables_task_step ha ?_ fun σ hσ => ?_) rfl rfl)
  · have hd' : (o.apply ⟨th, .extLoop .scopeBegin τ lower upper⟩).HasData τ :=
      hasData_of_active (by simp [Runtime.apply, hact.2])
    rw [tables_task hd']
    simp [taskRecord, wsOf, wsRecord, lastChunkOf, Runtime.apply, RoleGraph.step,
      RoleGraph.loopBegin, createBelow, hchunks, htd]
  · simp [Runtime.apply, newCur, newBar, hσ]

/-- `cb_ext_chunk` without iterations: the open chunk is closed. -/
theorem sim_lastChunk {lower upper : ℤ} (hact : o.Acts th τ)
    (hloop : (o.task τ).inLoop = true) :
    Simulates env o g ⟨th, .extChunk τ lower upper true⟩ := by
  have hC := h.closed hS hA
  have hd := hasData_of_active hact.2
  have hcb : (realize (tables o g) g).callback env ⟨th, .extChunk τ lower upper true⟩
      = some (realize (tables o g)
          (if (o.task τ).chunks (o.task τ).loops ≠ 0 then g else g.closeOpen env th o τ)) := by
    have hclose := h.realize_closeChunk env th hC hloop true
    simp only [true_and] at hclose
    simp only [Tool.callback, Tool.cbExtChunk, taskData_realize (tables_task hd),
      Option.bind_eq_bind, Option.bind_some, TaskData.map, taskRecord, wsOf, hloop, if_true,
      Option.map_some, hclose]
  -- nothing is created: the start node is closed if no chunk has closed it before
  have hg : (if (o.task τ).chunks (o.task τ).loops ≠ 0 then g else g.closeOpen env th o τ)
      = g.step env o ⟨th, .extChunk τ lower upper true⟩ := by
    simp only [RoleGraph.step, RoleGraph.chunk, if_true]
    by_cases hc : (o.task τ).chunks (o.task τ).loops = 0
    · simp [hc]
    · simp [hc]
  have hsame : ∀ {g' : RoleGraph}, g'.cur = g.cur → g'.bar = g.bar →
      g'.loopCounter = g.loopCounter → tables o g' = tables o g := by
    intro g' h1 h2 h3
    simp [tables, taskRecord, h1, h2, h3]
  rw [hg] at hcb
  refine Simulates.of hcb ?_ rfl ?_
  · rw [← hg]
    split_ifs
    · exact hA
    · exact (h.closeOpen_closed env th hC hloop).toAlloc
  · rw [← hg]
    split_ifs
    · rfl
    · exact hsame closeOpen_cur closeOpen_bar closeOpen_loopCounter

/-- `cb_ext_loop`, end: the task moves to the sink of the loop. -/
theorem sim_loopEnd {lower upper : ℤ} (hact : o.Acts th τ)
    (hloop : (o.task τ).inLoop = true)
    (ha : o.allows ⟨th, .extLoop .scopeEnd τ lower upper⟩ = true) :
    Simulates env o g ⟨th, .extLoop .scopeEnd τ lower upper⟩ := by
  have hC := h.closed hS hA
  have hd := hasData_of_active hact.2
  have halive := hS.cur_alive hact.1
  obtain ⟨hws, hsink, hchunk⟩ := h.loop_live hloop
  have hC1 := h.closeOpen_closed env th hC hloop
  set g1 := g.closeOpen env th o τ with hg1
  set g2 := if (o.task τ).chunks (o.task τ).loops = 0 then
    g1.connect (.ws τ (o.task τ).loops) (.loopSink τ (o.task τ).loops) else g1 with hg2
  have hlive1 : g1.live = g.live := closeOpen_live
  have haddr1 : g1.addr = g.addr := addr_closeOpen
  have hws1 : g1.live (.ws τ (o.task τ).loops) = true := by rw [hlive1, hws]
  have hsink1 : g1.live (.loopSink τ (o.task τ).loops) = true := by rw [hlive1, hsink]
  have hC2 : Closed (tables o g) g2 := by
    rw [hg2]
    split_ifs
    · exact hC1.connect hws1 hsink1
    · exact hC1
  have haddr2 : g2.addr = g.addr := by
    rw [hg2]
    split_ifs
    · exact haddr1
    · exact haddr1
  have hsink2 : g2.live (.loopSink τ (o.task τ).loops) = true := by
    rw [hg2]
    split_ifs
    · exact hsink1
    · exact hsink1
  have hlast : (realize (tables o g) g2).setLastTime env (g.addr (.loopSink τ (o.task τ).loops))
      = some (realize (tables o g) (g2.setLastTime env (.loopSink τ (o.task τ).loops))) := by
    rw [← haddr2]
    exact realize_setLastTime hC2 hsink2
  set g3 := g2.setLastTime env (.loopSink τ (o.task τ).loops) with hg3
  set td : TaskData Role := { taskRecord o g τ with
    currTaskNode := .loopSink τ (o.task τ).loops, currWsData := none } with htd
  have htd3 : td.map g3.addr = { (taskRecord o g τ).map g.addr with
      currTaskNode := g.addr (.loopSink τ (o.task τ).loops), currWsData := none } := by
    rw [show g3.addr = g.addr from haddr2]
    rfl
  have hcb : (realize (tables o g) g).callback env ⟨th, .extLoop .scopeEnd τ lower upper⟩
      = some (realize (((tables o g).setTask τ (some td)).setThread th
          (some ⟨g.loopCounter th + 1⟩)) g3) := by
    rw [← realize_setThreadData, ← realize_setTaskData, Option.map_some, htd3]
    have hth : (realize (tables o g) g).threadData th = some ⟨g.loopCounter th⟩ :=
      tables_thread halive
    simp only [Tool.callback, Tool.cbExtLoopEnd, taskData_realize (tables_task hd),
      Option.bind_eq_bind, Option.bind_some, TaskData.map, taskRecord, wsOf, hloop, if_true,
      Option.map_some, wsRecord, WorksharingData.map, hth, lastChunkOf]
    -- without a chunk the start node is closed and connected, else the last chunk is closed
    rcases hc : (o.task τ).chunks (o.task τ).loops with - | c
    · have hz : g.addTime env th (.ws τ (o.task τ).loops) = g1 := (closeOpen_zero hc).symm
      have hz2 : g1.connect (.ws τ (o.task τ).loops) (.loopSink τ (o.task τ).loops) = g2 := by
        rw [hg2, if_pos hc]
      have hconn := realize_connectNodes hC1 hws1 hsink1
      rw [haddr1, hz2] at hconn
      simp only [Option.map_none, realize_addTime hC hws, Option.bind_some, hz, hconn, hlast]
    · have hl := hchunk c (by omega)
      have hz : (g.endPapi env th (.chunk τ (o.task τ).loops c)).addTime env th
          (.chunk τ (o.task τ).loops c) = g2 := by
        rw [hg2, if_neg (by omega), hg1, closeOpen_succ hc]
      have hadd : (realize (tables o g) (g.endPapi env th (.chunk τ (o.task τ).loops c))).addTime
          env th (g.addr (.chunk τ (o.task τ).loops c)) = _ :=
        realize_addTime (hC.endPapi env th (hA.live_mem hl)) hl
      rw [hz] at hadd
      simp only [Option.map_some, realize_endPapiCounters hC hl, Option.bind_some, hadd, hlast]
  have hstep : g.step env o ⟨th, .extLoop .scopeEnd τ lower upper⟩
      = (g3.setCur τ (.loopSink τ (o.task τ).loops)).setLoopCounter th (g.loopCounter th + 1) :=
    rfl
  -- the counter of the thread is the one that the loop began with
  have hcnt : g3.loopCounter = g.loopCounter := by
    rw [hg3, hg2, hg1]
    split_ifs <;> simp
  refine Simulates.of hcb hC2.setLastTime.toAlloc (by rw [hstep]; rfl)
    (Tables.ext (tables_task_step ha ?_ fun σ hσ => ?_) rfl (funext fun th' => ?_))
  · have hd' : (o.apply ⟨th, .extLoop .scopeEnd τ lower upper⟩).HasData τ :=
      hasData_of_active (by simp [Runtime.apply, hact.2])
    have hbar : (g.step env o ⟨th, .extLoop .scopeEnd τ lower upper⟩).bar τ = g.bar τ :=
      bar_of_not_set ha (by simp [newBar])
    rw [tables_task hd']
    rw [hstep] at hbar
    simpa [taskRecord, wsOf, Runtime.apply, htd, hstep] using hbar
  · simp [Runtime.apply, newCur, newBar, hσ, Ne.symm hσ]
  · rcases eq_or_ne th' th with rfl | hth'
    · simp [tables, Runtime.apply, halive, hstep]
    · simp [tables, Runtime.apply, hstep, hth', hcnt]

/-- `cb_ext_chunk` with iterations: a chunk below the start node of the loop. -/
theorem sim_chunk {lower upper : ℤ} (hact : o.Acts th τ) (hloop : (o.task τ).inLoop = true)
    (ha : o.allows ⟨th, .extChunk τ lower upper false⟩ = true) :
    Simulates env o g ⟨th, .extChunk τ lower upper false⟩ := by
  have hC := h.closed hS hA
  have hd := hasData_of_active hact.2
  have halive := hS.cur_alive hact.1
  obtain ⟨hws, hsink, -⟩ := h.loop_live hloop
  have hfresh : Role.chunk τ (o.task τ).loops ((o.task τ).chunks (o.task τ).loops) ∉ g.order := by
    rw [h.order_iff]
    exact newRoles_fresh ha (by simp [newRoles])
  -- the callback is the composition of its two halves
  have hclose := h.realize_closeChunk env th hC hloop false
  simp only [Bool.false_eq_true, false_and, if_false] at hclose
  have hopen := realize_openChunk env th lower upper
    (h.closeOpen_closed env th hC hloop) (by simpa using hws)
    (by simpa using hsink) (by simpa using hfresh)
    (by simpa using tables_thread (g := g) halive) (tables_task hd) rfl
  rw [addr_closeOpen] at hopen
  have hcb : (realize (tables o g) g).callback env ⟨th, .extChunk τ lower upper false⟩
      = (realize (tables o g) (g.closeOpen env th o τ)).openChunk env th τ
          ((taskRecord o g τ).map g.addr) ((o.wsRecord τ).map g.addr) lower upper := by
    have hwsd : ((taskRecord o g τ).map g.addr).currWsData
        = some ((o.wsRecord τ).map g.addr) := by
      simp [TaskData.map, taskRecord, wsOf, hloop]
    simp [Tool.callback, Tool.cbExtChunk, taskData_realize (tables_task hd), hwsd, hclose]
  refine Simulates.of (hcb.trans hopen.1) hopen.2 rfl
    (Tables.ext (tables_task_step ha ?_ fun σ hσ => ?_) rfl ?_)
  · have hd' : (o.apply ⟨th, .extChunk τ lower upper false⟩).HasData τ :=
      hasData_of_active (by simp [Runtime.apply, hact.2])
    have hbar : (g.step env o ⟨th, .extChunk τ lower upper false⟩).bar τ = g.bar τ :=
      bar_of_not_set ha (by simp [newBar])
    have hcur : (g.step env o ⟨th, .extChunk τ lower upper false⟩).cur τ = g.cur τ :=
      Shaped.cur_of_not_moved ha (by simp [newCur])
    rw [tables_task hd']
    simp [taskRecord, wsOf, wsRecord, lastChunkOf, hloop, Runtime.apply, hbar, hcur]
  · simp [Runtime.apply, newCur, newBar, hσ]
  · funext th'
    simp [tables, Runtime.apply, RoleGraph.step, RoleGraph.chunk, chunkOpen, createBelow]

/-- `cb_implicit_task`, end: the node behind the last barrier is taken away again, and thread 0
connects the barrier with the sink; without a barrier the node itself is connected. -/
theorem sim_implicitEnd {t m : ℕ} (hact : o.Acts th (.implicit r t))
    (harr : (o.task (.implicit r t)).arrived = (o.region r).barriers)
    (ha : o.allows ⟨th, .implicitTask .scopeEnd r (.implicit r t) m t⟩ = true) :
    Simulates env o g ⟨th, .implicitTask .scopeEnd r (.implicit r t) m t⟩ := by
  have hC := h.closed hS hA
  have hd := hasData_of_active hact.2
  have hlive := h.cur_live hd
  have hsink : g.live (.sink r) = true := h.live_iff.mpr ⟨hS.region_present hd.present, id⟩
  have htables : tables (o.apply ⟨th, .implicitTask .scopeEnd r (.implicit r t) m t⟩)
      (g.step env o ⟨th, .implicitTask .scopeEnd r (.implicit r t) m t⟩)
        = (tables o g).setTask (.implicit r t) none := by
    have hcnt : (g.implicitEnd env th r t).loopCounter = g.loopCounter := by
      unfold RoleGraph.implicitEnd
      rcases g.bar (.implicit r t) with - | b
      · rfl
      · dsimp only
        split_ifs <;> rfl
    refine Tables.ext (tables_task_step ha ?_ fun σ hσ => ?_) rfl (funext fun th' => ?_)
    · simp [tables, HasData, Runtime.apply]
    · simp [Runtime.apply, newCur, newBar, hσ]
    · simp [tables, Runtime.apply, RoleGraph.step, hcnt]
  -- behind a barrier the node is dropped; a team of one has no barrier nodes and closes it
  rcases h.implicitEnd_node hS hact harr with ⟨hreq, hw, hcur, i, hbar, hb⟩ | ⟨-, hbar⟩
  · have hblive : g.live (.barrier r i) = true := h.live_iff.mpr ⟨hb, id⟩
    set x := Role.imp r t (o.task (.implicit r t)).arrived with hx
    rw [hcur] at hlive
    have hne : Role.barrier r i ≠ x := by simp [hx]
    have hC1 : Closed (tables o g) (g.disconnect (.barrier r i) x) := hC.disconnect
    have hiso := h.isolated hd hw hbar
    have hC2 := hC1.remove (x := x) hlive hiso
    have hdisc := realize_disconnectNodes hC hblive hlive hne
    have hrem : (realize (tables o g) (g.disconnect (.barrier r i) x)).removeAndDelete (g.addr x)
        = _ := realize_removeAndDelete hC1 hlive
    set g2 := (g.disconnect (.barrier r i) x).remove x with hg2
    have hb2 : g2.live (.barrier r i) = true := by simp [hg2, hne, hblive]
    have hs2 : g2.live (.sink r) = true := by simp [hg2, hx, hsink]
    have hconn : (realize (tables o g) g2).connectNodes (g.addr (.barrier r i))
        (g.addr (.sink r)) = _ := realize_connectNodes hC2 hb2 hs2
    have hstep : g.step env o ⟨th, .implicitTask .scopeEnd r (.implicit r t) m t⟩
        = if t = 0 then g2.connect (.barrier r i) (.sink r) else g2 := by
      simp only [RoleGraph.step, RoleGraph.implicitEnd, hbar, hcur, hg2]
    have hcb : (realize (tables o g) g).callback env
        ⟨th, .implicitTask .scopeEnd r (.implicit r t) m t⟩
          = some (realize ((tables o g).setTask (.implicit r t) none)
              (if t = 0 then g2.connect (.barrier r i) (.sink r) else g2)) := by
      simp only [Tool.callback, Tool.cbImplicitTaskEnd, taskData_realize (tables_task hd),
        Option.bind_eq_bind, Option.bind_some, TaskData.map, taskRecord, hbar, hcur,
        Option.map_some, hdisc, hrem, sinkOf, hconn]
      split_ifs
      · exact congrArg some (realize_setTaskData (T := tables o g) (.implicit r t) none)
      · exact congrArg some (realize_setTaskData (T := tables o g) (.implicit r t) none)
    refine Simulates.of hcb ?_ ?_ htables
    · split_ifs
      · exact (hC2.connect hb2 hs2).toAlloc
      · exact hC2.toAlloc
    · rw [hstep]
  · set x := g.cur (.implicit r t) with hx
    have hC1 : Closed (tables o g) (g.addTime env th x) := hC.addTime (hA.live_mem hlive)
    have hconn : (realize (tables o g) (g.addTime env th x)).connectNodes (g.addr x)
        (g.addr (.sink r)) = _ := realize_connectNodes hC1 hlive hsink
    have hstep : g.step env o ⟨th, .implicitTask .scopeEnd r (.implicit r t) m t⟩
        = (g.addTime env th x).connect x (.sink r) := by
      simp only [RoleGraph.step, RoleGraph.implicitEnd, hbar, hx]
    have hcb : (realize (tables o g) g).callback env
        ⟨th, .implicitTask .scopeEnd r (.implicit r t) m t⟩
          = some (realize ((tables o g).setTask (.implicit r t) none)
              ((g.addTime env th x).connect x (.sink r))) := by
      simp only [Tool.callback, Tool.cbImplicitTaskEnd, taskData_realize (tables_task hd),
        Option.bind_eq_bind, Option.bind_some, TaskData.map, taskRecord, hbar, Option.map_none,
        ← hx, realize_addTime hC hlive, sinkOf, Option.map_some, hconn]
      exact congrArg some (realize_setTaskData (T := tables o g) (.implicit r t) none)
    exact Simulates.of hcb (hC1.connect (x := x) hlive hsink).toAlloc (by rw [hstep]) htables

/-- `cb_sync_region`, begin: the first thread of a phase makes the barrier node, and each gets a
node behind it. -/
theorem sim_barrierBegin {t : ℕ} (hact : o.Acts th (.implicit r t))
    (hbody : o.InBody (.implicit r t))
    (ha : o.allows ⟨th, .syncRegion .barrier .scopeBegin r (.implicit r t)⟩ = true) :
    Simulates env o g ⟨th, .syncRegion .barrier .scopeBegin r (.implicit r t)⟩ := by
  have hC := h.closed hS hA
  have hd := hasData_of_active hact.2
  have hopen := hS.inBody_opened hd.present hbody
  have hpar := parData_realize (g := g) (tables_par (g := g) hopen)
  have hd' : (o.apply ⟨th, .syncRegion .barrier .scopeBegin r (.implicit r t)⟩).HasData
      (.implicit r t) := hasData_of_active (by simp [Runtime.apply, hact.2])
  have hws : (o.apply ⟨th, .syncRegion .barrier .scopeBegin r (.implicit r t)⟩).wsOf
      (.implicit r t) = o.wsOf (.implicit r t) := by
    simp [wsOf, wsRecord, lastChunkOf, Runtime.apply]
  by_cases hreq : 1 < (o.region r).requested
  · -- the arriving thread closes its node, joins the barrier node, and moves behind it
    have hlive := h.cur_live hd
    have hC1 : Closed (tables o g) (g.addTime env th (g.cur (.implicit r t))) :=
      hC.addTime (hA.live_mem hlive)
    have hsink : Role.sink r ∈ g.order := by
      rw [h.order_iff]
      simp [Created, hopen]
    have hfresh : ∀ x ∈ o.newRoles ⟨th, .syncRegion .barrier .scopeBegin r (.implicit r t)⟩,
        x ∉ g.order := by
      intro x hx
      rw [h.order_iff]
      exact newRoles_fresh ha hx
    obtain ⟨hreach, hC2, hb2, hkeep⟩ := realize_reachBarrier env hC1
      (x := g.cur (.implicit r t)) (o := o) (r := r) hlive hreq hsink
      (fun h0 => hfresh _ (by simp [newRoles, hreq, h0])) fun h0 => by
        refine h.live_iff.mpr ⟨⟨hreq, ?_⟩, id⟩
        have := Nat.div_add_mod' (o.region r).arrivals (o.region r).requested
        omega
    set b := Role.barrier r ((o.region r).arrivals / (o.region r).requested) with hb
    set y := Role.imp r t ((o.task (.implicit r t)).arrived + 1) with hy
    set g2 := (g.addTime env th (g.cur (.implicit r t))).reachBarrier env o r
      (g.cur (.implicit r t)) with hg2
    set T' := (tables o g).setPar r (some { o.regionRecord r with
      barrierCnt := ((o.region r).arrivals + 1) % (o.region r).requested
      currBarrierNode := some b }) with hT'
    have hfresh2 : y ∉ g2.order := by
      have hyf : y ∉ g.order := hfresh y (by simp [newRoles, hreq, hy])
      simp only [hg2, RoleGraph.reachBarrier]
      split_ifs
      · simpa [createBelow_order, hy] using hyf
      · exact hyf
    have hC3 := hC2.createBelow env hb2 hfresh2
    have hnew : (realize T' g2).createNewNode env .impTask (some (g2.addr b)) = _ :=
      realize_createNewNode hC2 env hb2 hfresh2
    set g3 := g2.createBelow env b y with hg3
    have hb3 : g3.live b = true := by
      have hne : b ≠ y := by simp [hb, hy]
      rw [hg3, createBelow_live, Function.update_of_ne hne, hb2]
    have hy3 : g3.live y = true := by
      rw [hg3, createBelow_live]
      simp
    have haddrb : g2.addr b = g3.addr b := (addr_create_of_mem (hC2.live_mem hb2)).symm
    -- the second `connectNodes` of the callback changes nothing
    have hconn : (realize T' g3).connectNodes (g2.addr b) (g3.addr y) = some (realize T' g3) := by
      rw [haddrb, realize_connectNodes hC3 hb3 hy3,
        connect_of_mem (mem_createBelow_edges.mpr (.inr rfl))]
    have haddr : ∀ z ∈ g.order, g.addr z = g3.addr z := by
      intro z hz
      obtain ⟨h1, h2⟩ := hkeep z hz
      rw [hg3, addr_createBelow, addr_create_of_mem h2]
      exact h1.symm
    have hrec := TaskData.map_congr fun z hz => haddr z (hC.task_mem (tables_task hd) z hz)
    set td : TaskData Role := { taskRecord o g (.implicit r t) with
      currTaskNode := y, currBarrierNode := some b } with htd
    have htd3 : td.map g3.addr = { (taskRecord o g (.implicit r t)).map g.addr with
        currTaskNode := g3.addr y, currBarrierNode := some (g2.addr b) } := by
      rw [hrec, haddrb]
      rfl
    have hcb : (realize (tables o g) g).callback env
        ⟨th, .syncRegion .barrier .scopeBegin r (.implicit r t)⟩
          = some (realize (T'.setTask (.implicit r t) (some td)) g3) := by
      rw [← realize_setTaskData, Option.map_some, htd3]
      simp only [Tool.callback, Tool.cbSyncRegion, if_true, hpar]
      rw [if_pos (show 1 < ((o.regionRecord r).map g.addr).teamSize from hreq)]
      simp only [Tool.cbBarrierBegin, taskData_realize (tables_task hd), Option.bind_eq_bind,
        Option.bind_some, TaskData.map, taskRecord, realize_addTime hC hlive]
      rw [addr_addTime] at hreach
      simp only [hreach, Option.bind_some, hnew, hconn]
      split_ifs <;> rfl
    refine Simulates.of hcb hC3.toAlloc ?_
      (Tables.ext (tables_task_step ha ?_ fun σ hσ => ?_) (tables_par_step ?_ fun s hs => ?_) ?_)
    · simp only [RoleGraph.step, if_pos hreq, RoleGraph.barrierBegin]
      rfl
    · have hcur : (g.step env o ⟨th, .syncRegion .barrier .scopeBegin r (.implicit r t)⟩).cur
          (.implicit r t) = y := cur_of_moved ha (by simp [newCur, hreq, hy])
      have hbar : (g.step env o ⟨th, .syncRegion .barrier .scopeBegin r (.implicit r t)⟩).bar
          (.implicit r t) = some b := bar_of_set ha (by simp [newBar, hreq, hb])
      rw [tables_task hd']
      simp [taskRecord, hws, hcur, hbar, htd]
    · simp [Runtime.apply, newCur, newBar, hreq, hσ, Ne.symm hσ]
    · simp [tables, Runtime.apply, hopen, regionRecord, hreq, hb]
    · simp [Runtime.apply, hs]
    · simp only [tables, RoleGraph.step, if_pos hreq, RoleGraph.barrierBegin, setBar_loopCounter,
        setCur_loopCounter, createBelow, RoleGraph.reachBarrier]
      split_ifs <;> rfl
  · -- a team of one: nothing happens
    have hone : (o.region r).requested = 1 := by
      have := (hS.team r).sizes (by simp [hopen])
      omega
    have hcb : (realize (tables o g) g).callback env
        ⟨th, .syncRegion .barrier .scopeBegin r (.implicit r t)⟩
          = some (realize (tables o g) g) := by
      simp [Tool.callback, Tool.cbSyncRegion, hpar, ParallelRegionData.map, regionRecord, hone]
    have hstep : g.step env o ⟨th, .syncRegion .barrier .scopeBegin r (.implicit r t)⟩ = g := by
      simp [RoleGraph.step, hreq]
    refine Simulates.of hcb hA (by rw [hstep]) (Tables.ext (funext fun σ => ?_)
      (funext fun s => ?_) (by rw [hstep]; rfl))
    · rcases eq_or_ne σ (.implicit r t) with rfl | hσ
      · exact tables_task_congr ⟨fun _ => hd, fun _ => hd'⟩ hws (by rw [hstep]) (by rw [hstep])
      · refine tables_task_keep ?_ (by rw [hstep]) (by rw [hstep])
        simp [Runtime.apply, hσ]
    · rcases eq_or_ne s r with rfl | hs
      · simp [tables, Runtime.apply, regionRecord, hone]
      · exact tables_par_keep (by simp [Runtime.apply, hs])

/-- `cb_sync_region`, end: the node behind the barrier is started. -/
theorem sim_barrierEnd {t : ℕ} (hact : o.Acts th (.implicit r t)) :
    Simulates env o g ⟨th, .syncRegion .barrier .scopeEnd r (.implicit r t)⟩ := by
  have hC := h.closed hS hA
  have hd := hasData_of_active hact.2
  have hlive := h.cur_live hd
  have htables : ∀ {g' : RoleGraph}, g'.cur = g.cur → g'.bar = g.bar →
      g'.loopCounter = g.loopCounter →
      tables (o.apply ⟨th, .syncRegion .barrier .scopeEnd r (.implicit r t)⟩) g'
        = tables o g := by
    intro g' h1 h2 h3
    refine Tables.ext (funext fun σ => ?_) rfl (by simp only [tables, h3]; rfl)
    refine tables_task_congr ?_ ?_ (by rw [h1]) (by rw [h2])
    · rcases eq_or_ne σ (.implicit r t) with rfl | hσ
      · exact ⟨fun _ => hd, fun _ => hasData_of_active (by simp [Runtime.apply, hact.2])⟩
      · cases σ <;> simp [HasData, Runtime.apply, hσ]
    · rcases eq_or_ne σ (.implicit r t) with rfl | hσ
      · simp [wsOf, wsRecord, lastChunkOf, Runtime.apply]
      · simp [wsOf, wsRecord, lastChunkOf, Runtime.apply, hσ]
  by_cases hopen : (o.region r).stage = .opened
  · have hpar := parData_realize (g := g) (tables_par (g := g) hopen)
    -- the region data is there: the node behind the barrier is started
    by_cases hreq : 1 < (o.region r).requested
    · have hcb : (realize (tables o g) g).callback env
          ⟨th, .syncRegion .barrier .scopeEnd r (.implicit r t)⟩
            = some (realize (tables o g) (g.setLastTime env (g.cur (.implicit r t)))) := by
        simp only [Tool.callback, Tool.cbSyncRegion, if_true, hpar]
        rw [if_pos (show 1 < ((o.regionRecord r).map g.addr).teamSize from hreq)]
        simp only [taskData_realize (tables_task hd), Option.bind_eq_bind, Option.bind_some,
          TaskData.map, taskRecord, realize_setLastTime hC hlive]
      have hstep : g.step env o ⟨th, .syncRegion .barrier .scopeEnd r (.implicit r t)⟩
          = g.setLastTime env (g.cur (.implicit r t)) := by
        simp [RoleGraph.step, hopen, hreq]
      refine Simulates.of hcb hC.setLastTime.toAlloc (by rw [hstep]) ?_
      rw [hstep]
      exact htables rfl rfl rfl
    · have hcb : (realize (tables o g) g).callback env
          ⟨th, .syncRegion .barrier .scopeEnd r (.implicit r t)⟩
            = some (realize (tables o g) g) := by
        simp only [Tool.callback, Tool.cbSyncRegion, if_true, hpar]
        rw [if_neg (show ¬1 < ((o.regionRecord r).map g.addr).teamSize from hreq)]
      have hstep : g.step env o ⟨th, .syncRegion .barrier .scopeEnd r (.implicit r t)⟩ = g := by
        simp [RoleGraph.step, hreq]
      refine Simulates.of hcb hA (by rw [hstep]) ?_
      rw [hstep]
      exact htables rfl rfl rfl
  · -- the region has ended and its data is gone
    have hcb : (realize (tables o g) g).callback env
        ⟨th, .syncRegion .barrier .scopeEnd r (.implicit r t)⟩
          = some (realize (tables o g) g) := by
      simp [Tool.callback, Tool.cbSyncRegion, realize, tables, hopen]
    have hstep : g.step env o ⟨th, .syncRegion .barrier .scopeEnd r (.implicit r t)⟩ = g := by
      simp [RoleGraph.step, hopen]
    refine Simulates.of hcb hA (by rw [hstep]) ?_
    rw [hstep]
    exact htables rfl rfl rfl

/-- **One callback.** -/
theorem simulates (hL : ∀ τ, LoopsFresh (o.task τ)) (ha : o.allows e = true) :
    Simulates env o g e := by
  cases delivers_of_allows ha with
  | threadBegin => exact sim_threadBegin hA
  | threadEnd halive => exact sim_threadEnd hA halive
  | initial _ _ habs => exact sim_initial h hS hA habs ha
  | explicit hact => exact sim_explicit h hS hA hact ha
  | schedule hact hmay hterm => exact sim_schedule h hS hA hact hmay hterm ha
  | parallelBegin hact => exact sim_parallelBegin h hS hA hact ha
  | parallelEnd hopen _ hfork => exact sim_parallelEnd h hS hA hopen hfork ha
  | implicitBegin hopen => exact sim_implicitBegin h hS hA hopen ha
  | implicitEnd hact harr => exact sim_implicitEnd h hS hA hact harr ha
  | barrierBegin hact hbody => exact sim_barrierBegin h hS hA hact hbody ha
  | barrierEnd hact => exact sim_barrierEnd h hS hA hact
  | @outside _ endpoint r i _ habs =>
    -- callbacks that the tool receives and ignores
    refine sim_quiet hA ?_ ?_ ?_
    · simp [Tool.callback, Tool.cbSyncRegion, realize, tables, habs]
    · cases endpoint <;> rfl
    · cases endpoint <;> rfl
  | @sync _ kind _ _ _ _ _ hkind =>
    refine sim_quiet hA ?_ ?_ ?_
    · simp [Tool.callback, Tool.cbSyncRegion, hkind]
    · cases kind with
      | barrier => exact absurd rfl hkind
      | taskwait => rfl
      | taskgroup => rfl
    · cases kind with
      | barrier => exact absurd rfl hkind
      | taskwait => rfl
      | taskgroup => rfl
  | loopBegin _ hact _ hloop => exact sim_loopBegin h hS hA hact hloop (hL _) ha
  | loopEnd hact _ hloop => exact sim_loopEnd h hS hA hact hloop ha
  | @chunk _ _ _ _ lastChunk hact _ hloop =>
    cases lastChunk with
    | true => exact sim_lastChunk h hS hA hact hloop
    | false => exact sim_chunk h hS hA hact hloop ha

end Callbacks

end RoleGraph

end Tdg
