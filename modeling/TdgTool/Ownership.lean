/-
TdgTool/Ownership.lean

Which task connects which nodes.

`connectNodes` and `disconnectNodes` do not keep two threads off the same pair of
nodes (`connectNodes_race`).  The callbacks do: every call on a pair of nodes is made
by one task, which can be told from the two nodes (`Role.ownerOf`).  A node of an
implicit task is connected by that task, the edge of a barrier into a sink is made by
the task of thread 0, and all other edges are made by the task that has its place at
the source.

So the calls of a run may be interleaved in any way, instruction by instruction, as
long as each task does its own calls in their order: the edges are those of the run
(`any_schedule`).
-/
import TdgTool.Interleaving
import TdgTool.Starts

namespace Tdg

open Tdg.Graph (EdgeOp)

/-! ### The calls of a callback -/

/-- The task whose callback it is. -/
def Event.caller (e : Event) : TaskId :=
  match e.call with
  | .threadBegin => .initial 0
  | .threadEnd => .initial 0
  | .implicitTask _ _ task _ _ => task
  | .parallelBegin parent _ _ _ _ => parent
  | .parallelEnd _ task => task
  | .taskCreate parent _ _ => parent
  | .taskSchedule first _ _ => first
  | .syncRegion _ _ _ task => task
  | .extLoop _ task _ _ => task
  | .extChunk task _ _ _ => task

namespace Tool

/-- The calls of `connectNodes` and `disconnectNodes` that a callback makes, in their
order.  A node that the callback creates gets the next address. -/
def edgeCalls (s : Tool) (e : Event) : List EdgeOp :=
  match e.call with
  | .implicitTask .scopeBegin r _ _ _ =>
      ((s.parData r).bind fun parInfo =>
        s.taskData parInfo.parentTaskData).toList.map fun parentTask =>
        .connect parentTask.currTaskNode s.nextRef
  | .implicitTask .scopeEnd _ task _ threadNum =>
      (s.taskData task).toList.flatMap fun currTask =>
        match currTask.currBarrierNode with
        | some barrierNode =>
            .disconnect barrierNode currTask.currTaskNode ::
              if threadNum = 0 then currTask.sinkNode.toList.map fun sink =>
                .connect barrierNode sink
              else []
        | none => currTask.sinkNode.toList.map fun sink => .connect currTask.currTaskNode sink
  | .taskCreate parent _ .explicit =>
      (s.taskData parent).toList.map fun parentTask => .connect parentTask.currTaskNode s.nextRef
  | .syncRegion .barrier .scopeBegin r task =>
      match s.parData r, s.taskData task with
      | some parInfo, some currTask =>
          if 1 < parInfo.teamSize then
            if parInfo.barrierCnt = 0 then
              -- the new barrier node is connected to the node behind it twice
              [.connect currTask.currTaskNode s.nextRef, .connect s.nextRef (s.nextRef + 1),
                .connect s.nextRef (s.nextRef + 1)]
            else
              parInfo.currBarrierNode.toList.flatMap fun barrierNode =>
                [.connect currTask.currTaskNode barrierNode, .connect barrierNode s.nextRef]
          else []
      | _, _ => []
  | .extLoop .scopeBegin task _ _ =>
      (s.taskData task).toList.map fun currTask => .connect currTask.currTaskNode s.nextRef
  | .extLoop .scopeEnd task _ _ =>
      ((s.taskData task).bind fun currTask => currTask.currWsData).toList.flatMap fun ws =>
        match ws.lastChunkNode with
        | some _ => []
        | none => [.connect ws.startNode ws.sinkNode]
  | .extChunk task _ _ false =>
      ((s.taskData task).bind fun currTask => currTask.currWsData).toList.flatMap fun ws =>
        [.connect ws.startNode s.nextRef, .connect s.nextRef ws.sinkNode]
  | _ => []

/-- The calls of a run from `s`, each with the task that makes it. -/
def edgeLog (env : Env) : Tool → List Event → List (TaskId × EdgeOp)
  | _, [] => []
  | s, e :: es =>
      match callback env s e with
      | some s' => (s.edgeCalls e).map (fun op => (e.caller, op)) ++ edgeLog env s' es
      | none => []

variable {env : Env} {s s' s'' : Tool} {es : List Event} {e : Event}

theorem edgeLog_append_singleton (hrun : runFrom env s es = some s')
    (hstep : callback env s' e = some s'') : edgeLog env s (es ++ [e]) =
      edgeLog env s es ++ (s'.edgeCalls e).map fun op => (e.caller, op) := by
  induction es generalizing s with
  | nil =>
    obtain rfl := Option.some.inj hrun
    simp [edgeLog, hstep]
  | cons e' es ih =>
    rw [runFrom, List.foldlM_cons] at hrun
    obtain ⟨s1, hs1, hrun⟩ := Option.bind_eq_some_iff.mp hrun
    simp only [List.cons_append, edgeLog, hs1, List.append_assoc]
    rw [ih hrun]

end Tool

/-! ### The same calls over roles -/

/-- The task that has its place at a node, where `P` says who has encountered a
region. -/
def Role.home (P : RegionId → TaskId) : Role → TaskId
  | .root => .initial 0
  | .exp n => .explicit n
  | .sink r => P r
  | .imp r t _ => .implicit r t
  | .barrier r _ => .implicit r 0
  | .ws τ _ => τ
  | .loopSink τ _ => τ
  | .chunk τ _ _ => τ

/-- The task that makes the calls on a pair of nodes. -/
def Role.ownerOf (P : RegionId → TaskId) (x : Role) : Role → TaskId
  | .imp r t _ => .implicit r t
  | _ => x.home P

namespace RoleGraph

open Tdg.Runtime

variable {o : Runtime} {g : RoleGraph} {env : Env} {e : Event} {x y : Role} {τ : TaskId}
  {r : RegionId} {th : ThreadId}

/-- The edges that a callback connects, with the one that a new barrier node gets
twice. -/
def connects (g : RoleGraph) (o : Runtime) (e : Event) : List (Role × Role) :=
  match e.call with
  | .syncRegion .barrier .scopeBegin r (.implicit _ t) =>
      if 1 < (o.region r).requested ∧ (o.region r).arrivals % (o.region r).requested = 0 then
        g.newEdges o e ++ [(.barrier r ((o.region r).arrivals / (o.region r).requested),
          .imp r t ((o.task (.implicit r t)).arrived + 1))]
      else g.newEdges o e
  | _ => g.newEdges o e

theorem mem_connects {p : Role × Role} : p ∈ g.connects o e ↔ p ∈ g.newEdges o e := by
  rw [connects]
  split
  · split_ifs with h
    · rw [List.mem_append, List.mem_singleton, or_iff_left_of_imp]
      rintro rfl
      simp_all [newEdges]
    · rfl
  · rfl

/-- **The callbacks make the calls of their edges.** -/
theorem edgeCalls_realize (hW : Shaped o g) (hS : o.Sound) (ha : o.allows e = true) :
    (realize (tables o g) g).edgeCalls e =
      ((g.oldEdge e).toList.map fun p =>
        EdgeOp.disconnect ((g.step env o e).addr p.1) ((g.step env o e).addr p.2)) ++
      (g.connects o e).map fun p =>
        EdgeOp.connect ((g.step env o e).addr p.1) ((g.step env o e).addr p.2) := by
  have hfresh : ∀ {x}, x ∈ o.newRoles e → x ∉ g.order := fun hx h =>
    newRoles_fresh ha hx (hW.order_iff.mp h)
  have hhead : ∀ {x l}, o.newRoles e = x :: l → (g.step env o e).addr x = g.order.length :=
    fun hnew => addr_step_head ha hnew (hfresh (hnew ▸ List.mem_cons_self))
  have hold : ∀ {x}, o.Created x → (g.step env o e).addr x = g.addr x := fun hx =>
    addr_step_of_mem ha (hW.order_iff.mpr hx)
  have hcur : ∀ {τ}, o.HasData τ → (g.step env o e).addr (g.cur τ) = g.addr (g.cur τ) :=
    fun hd => hold (hW.seat hd).1
  cases delivers_of_allows ha with
  | @implicitBegin _ r t hopen =>
    have hfork := hS.opened_parent hopen
    have hd : o.HasData (o.region r).parent :=
      hasData_of_present (by simp [hfork]) (by simp [hfork])
    have hparent : ((o.regionRecord r).map g.addr).parentTaskData = (o.region r).parent := rfl
    simp only [Tool.edgeCalls, oldEdge, connects, newEdges, parData_realize (tables_par hopen),
      Option.bind_some, hparent, taskData_realize (tables_task hd), Option.toList_some,
      Option.toList_none, List.map_cons, List.map_nil, List.nil_append, hcur hd]
    rw [hhead rfl]
    rfl
  | @implicitEnd _ r t _ hact harr hall =>
    have hd := hasData_of_active hact.2
    have hsink : (g.step env o _).addr (.sink r) = g.addr (.sink r) :=
      hold (hS.region_present hd.present)
    have hbarrier : ((taskRecord o g (.implicit r t)).map g.addr).currBarrierNode =
        (g.bar (.implicit r t)).map g.addr := rfl
    simp only [Tool.edgeCalls, oldEdge, connects, newEdges, taskData_realize (tables_task hd),
      Option.toList_some, List.flatMap_cons, List.flatMap_nil, List.append_nil, hbarrier]
    rcases hbar : g.bar (.implicit r t) with - | b
    · simp only [Option.map_none, Option.toList_none, List.map_cons, List.map_nil, List.nil_append,
        hcur hd, hsink]
      rfl
    · have hb : (g.step env o _).addr b = g.addr b := hold (hW.bar_created hd hbar).1
      simp only [Option.map_some, Option.toList_some, List.map_cons, List.map_nil, hcur hd, hb]
      split_ifs
      · simp only [List.map_cons, List.map_nil, hb, hsink]
        rfl
      · rfl
  | @explicit _ parent n hact =>
    have hd := hasData_of_active hact.2
    simp only [Tool.edgeCalls, oldEdge, connects, newEdges, taskData_realize (tables_task hd),
      Option.toList_some, Option.toList_none, List.map_cons, List.map_nil, List.nil_append, hcur hd]
    rw [hhead rfl]
    rfl
  | @barrierBegin th r t hact hbody hloop =>
    have hd := hasData_of_active hact.2
    have hopen := hS.inBody_opened hd.present hbody
    have hpar := parData_realize (g := g) (tables_par (g := g) hopen)
    have hteam : ((o.regionRecord r).map g.addr).teamSize = (o.region r).requested := rfl
    have hcnt : ((o.regionRecord r).map g.addr).barrierCnt =
        (o.region r).arrivals % (o.region r).requested := rfl
    simp only [Tool.edgeCalls, oldEdge, connects, newEdges, hpar,
      taskData_realize (tables_task hd), hteam, hcnt, Option.toList_none, List.map_nil,
      List.nil_append]
    by_cases hreq : 1 < (o.region r).requested
    · by_cases h0 : (o.region r).arrivals % (o.region r).requested = 0
      · -- the barrier node, and the node behind it
        have hnew : o.newRoles ⟨th, .syncRegion .barrier .scopeBegin r (.implicit r t)⟩ =
            [.barrier r ((o.region r).arrivals / (o.region r).requested),
              .imp r t ((o.task (.implicit r t)).arrived + 1)] := by
          simp [newRoles, hreq, h0]
        have hsecond :
            (g.step env o ⟨th, .syncRegion .barrier .scopeBegin r (.implicit r t)⟩).addr
            (.imp r t ((o.task (.implicit r t)).arrived + 1)) = g.order.length + 1 :=
          addr_step_second ha hnew (by simp) (hfresh (by simp [hnew]))
        simp only [if_pos hreq, if_pos h0, if_pos (And.intro hreq h0), List.map_cons, List.map_nil,
          List.cons_append, List.nil_append, hcur hd, hhead hnew, hsecond]
        rfl
      · have hnew : o.newRoles ⟨th, .syncRegion .barrier .scopeBegin r (.implicit r t)⟩ =
            [.imp r t ((o.task (.implicit r t)).arrived + 1)] := by
          simp [newRoles, hreq, h0]
        -- the region still holds the node of the last arrival
        have hpos : 0 < (o.region r).arrivals :=
          Nat.pos_of_ne_zero fun hz => h0 (by rw [hz, Nat.zero_mod])
        have hsplit : (o.region r).arrivals / (o.region r).requested * (o.region r).requested +
            (o.region r).arrivals % (o.region r).requested = (o.region r).arrivals :=
          Nat.div_add_mod' ..
        have hlt : (o.region r).arrivals % (o.region r).requested < (o.region r).requested :=
          Nat.mod_lt _ (by omega)
        have hphase : ((o.region r).arrivals - 1) / (o.region r).requested =
            (o.region r).arrivals / (o.region r).requested :=
          Nat.div_eq_of_lt_le (by omega) (by rw [Nat.add_one_mul]; omega)
        have hnode : ((o.regionRecord r).map g.addr).currBarrierNode =
            some (g.addr (.barrier r ((o.region r).arrivals / (o.region r).requested))) := by
          rw [ParallelRegionData.map, regionRecord, if_pos ⟨hreq, hpos⟩, hphase]
          rfl
        have hbarrier : (g.step env o _).addr _ = g.addr _ :=
          hold (x := .barrier r ((o.region r).arrivals / (o.region r).requested))
            ⟨hreq, by omega⟩
        simp only [if_pos hreq, if_neg h0, if_neg fun h : _ ∧ _ => h0 h.2, hnode,
          Option.toList_some, List.flatMap_cons, List.flatMap_nil, List.append_nil, List.map_cons,
          List.map_nil, hcur hd, hbarrier, hhead hnew]
        rfl
    · simp only [if_neg hreq, if_neg fun h : _ ∧ _ => hreq h.1]
      rfl
  | @loopBegin _ τ _ _ _ hact =>
    have hd := hasData_of_active hact.2
    simp only [Tool.edgeCalls, oldEdge, connects, newEdges, taskData_realize (tables_task hd),
      Option.toList_some, Option.toList_none, List.map_cons, List.map_nil, List.nil_append, hcur hd]
    rw [hhead rfl]
    rfl
  | @loopEnd _ τ lower upper hact hbody hloop =>
    have hws : ((taskRecord o g τ).map g.addr).currWsData = some ((o.wsRecord τ).map g.addr) := by
      rw [TaskData.map, taskRecord, wsOf, if_pos hloop]
      rfl
    have hlast : ((o.wsRecord τ).map g.addr).lastChunkNode = (o.lastChunkOf τ).map g.addr := rfl
    have hstart := hold (hW.live_iff.mp (hW.loop_live hloop).1).1
    have hsink := hold (hW.live_iff.mp (hW.loop_live hloop).2.1).1
    simp only [Tool.edgeCalls, oldEdge, connects, newEdges,
      taskData_realize (tables_task (hasData_of_active hact.2)), Option.bind_some, hws,
      Option.toList_some, Option.toList_none, List.flatMap_cons, List.flatMap_nil, List.append_nil,
      List.map_nil, List.nil_append, hlast, lastChunkOf]
    rcases hchunks : (o.task τ).chunks (o.task τ).loops with - | c
    · simp only [Option.map_none, if_true, List.map_cons, List.map_nil, hstart, hsink]
      rfl
    · simp
  | @chunk _ τ _ _ lastChunk hact _ hloop =>
    cases lastChunk with
    | true => rfl
    | false =>
      have hws : ((taskRecord o g τ).map g.addr).currWsData =
          some ((o.wsRecord τ).map g.addr) := by
        rw [TaskData.map, taskRecord, wsOf, if_pos hloop]
        rfl
      have hstart := hold (hW.live_iff.mp (hW.loop_live hloop).1).1
      have hsink := hold (hW.live_iff.mp (hW.loop_live hloop).2.1).1
      simp only [Tool.edgeCalls, oldEdge, connects, newEdges,
        taskData_realize (tables_task (hasData_of_active hact.2)), Option.bind_some, hws,
        Option.toList_some, Option.toList_none, List.flatMap_cons, List.flatMap_nil,
        List.append_nil,
        List.map_nil, List.nil_append, Bool.false_eq_true, if_false, List.map_cons, hstart, hsink]
      rw [hhead rfl]
      rfl
  | @outside th endpoint r i hact habs =>
    have hpar : (realize (tables o g) g).parData r = none := by simp [realize, tables, habs]
    cases endpoint <;> simp only [Tool.edgeCalls, hpar] <;> rfl
  | @sync _ kind _ _ _ _ _ hkind =>
    cases kind with
    | barrier => exact absurd rfl hkind
    | taskwait => rfl
    | taskgroup => rfl
  | _ => rfl

/-! ### The owner of an edge -/

variable {P : RegionId → TaskId}

theorem home_of_seat (hP : ∀ r, (o.region r).stage ≠ .absent → P r = (o.region r).parent)
    (hs : o.Seat τ x) : x.home P = τ := by
  cases x with
  | root | exp n => exact hs.symm
  | sink r => exact (hP r (by simp [hs.1])).trans hs.2
  | imp r t j => exact hs.1.symm
  | loopSink σ l => exact hs.1
  | barrier r i | ws σ l | chunk σ l c => exact hs.elim

/-- **The calls of a callback are on pairs that its task owns.** -/
theorem owner_of_edge (hW : Shaped o g) (hS : o.Sound) (ha : o.allows e = true)
    (hP : ∀ r, (o.region r).stage ≠ .absent → P r = (o.region r).parent) {p : Role × Role}
    (hp : p ∈ g.newEdges o e ∨ g.oldEdge e = some p) : p.1.ownerOf P p.2 = e.caller := by
  have hhome : ∀ {τ}, o.HasData τ → (g.cur τ).home P = τ :=
    fun hd => home_of_seat hP (hW.seat hd).2
  obtain ⟨x, y⟩ := p
  rcases hp with hp | hp
  · cases newEdge_of_mem ha hp with
    | implicitBegin => rfl
    | sinkOfBarrier hact harr _ hbar =>
      obtain ⟨i, rfl, -⟩ := hW.barrier_of_end hS hact harr hbar
      rfl
    | sinkOfThread hact => exact hhome (hasData_of_active hact.2)
    | explicit hact => exact hhome (hasData_of_active hact.2)
    | toBarrier hact => exact hhome (hasData_of_active hact.2)
    | ofBarrier => rfl
    | loopBegin hact => exact hhome (hasData_of_active hact.2)
    | emptyLoop => rfl
    | toChunk => rfl
    | ofChunk => rfl
  · -- the node behind the last barrier is the task's own
    cases delivers_of_allows ha with
    | @implicitEnd _ r t _ hact harr =>
      obtain ⟨b, hb, hpair⟩ := Option.map_eq_some_iff.mp hp
      obtain ⟨rfl, rfl⟩ := Prod.mk.inj hpair
      rcases hW.implicitEnd_node hS hact harr with ⟨-, -, hnode, -⟩ | ⟨-, hnone⟩
      · show b.ownerOf P (g.cur (.implicit r t)) = .implicit r t
        rw [hnode]
        rfl
      · rw [hb] at hnone
        cases hnone
    | _ => cases hp

/-- The edge that is taken away joins nodes of the graph. -/
theorem oldEdge_mem (hW : Shaped o g) (ha : o.allows e = true) {p : Role × Role}
    (hp : g.oldEdge e = some p) : p.1 ∈ g.order ∧ p.2 ∈ g.order := by
  cases delivers_of_allows ha with
  | @implicitEnd _ r t _ hact =>
    obtain ⟨b, hb, rfl⟩ := Option.map_eq_some_iff.mp hp
    have hd := hasData_of_active hact.2
    exact ⟨hW.order_iff.mpr (hW.bar_created hd hb).1, hW.order_iff.mpr (hW.seat hd).1⟩
  | _ => cases hp

theorem ownerOf_congr {P' : RegionId → TaskId} (h : ∀ r, x = .sink r → P r = P' r) :
    x.ownerOf P y = x.ownerOf P' y := by
  cases y with
  | imp r t j => rfl
  | _ =>
    cases x with
    | sink r => exact h r rfl
    | _ => rfl

end RoleGraph

/-! ### The calls of a run -/

namespace Config

open Tdg.RoleGraph Tdg.Runtime

variable {env : Env} {es : List Event} {e : Event} {c : Config} {x y : Role}
  {S : Finset (NodeRef × NodeRef)}

/-- The calls of a run, without the tasks that make them. -/
def edgeOps (env : Env) (es : List Event) : List EdgeOp := (Tool.edgeLog env .init es).map Prod.snd

/-- The calls so far are made by the owners of their pairs, and what they leave
connected are the edges. -/
structure Owned (env : Env) (es : List Event) (c : Config) : Prop where
  owner : ∀ a ∈ Tool.edgeLog env .init es, ∃ x ∈ c.graph.order, ∃ y ∈ c.graph.order,
    a.2.pair = (c.graph.addr x, c.graph.addr y) ∧
      x.ownerOf (fun r => (c.rt.region r).parent) y = a.1
  edges : ∀ p, p ∈ (edgeOps env es).foldl EdgeOp.replay ∅ ↔
    ∃ a ∈ c.graph.edges, (c.graph.addr a.1, c.graph.addr a.2) = p

theorem mem_foldl_connects (f : Role → NodeRef) (l : List (Role × Role))
    {p : NodeRef × NodeRef} :
    p ∈ (l.map fun a => EdgeOp.connect (f a.1) (f a.2)).foldl EdgeOp.replay S ↔
      p ∈ S ∨ ∃ a ∈ l, (f a.1, f a.2) = p := by
  induction l generalizing S with
  | nil => simp
  | cons a l ih =>
    rw [List.map_cons, List.foldl_cons, ih, EdgeOp.replay, Finset.mem_insert]
    simp only [List.mem_cons, exists_eq_or_imp]
    rw [or_assoc, or_left_comm, eq_comm]

theorem owned_init (env : Env) : Owned env [] Config.init where
  owner := by simp [Tool.edgeLog]
  edges := by simp [edgeOps, Tool.edgeLog, Config.init, RoleGraph.init]

/-- **Every callback calls on its own pairs.** -/
theorem Owned.step (h : Owned env es c) (hrun : run env es = some c) (ha : c.rt.allows e = true) :
    Owned env (es ++ [e]) (c.next env e) := by
  have hg := run_good hrun
  have hg' := hg.next env ha
  have hcalls : c.tool.edgeCalls e = ((c.graph.oldEdge e).toList.map fun p =>
        EdgeOp.disconnect ((c.next env e).graph.addr p.1) ((c.next env e).graph.addr p.2)) ++
      (c.graph.connects c.rt e).map fun p =>
        EdgeOp.connect ((c.next env e).graph.addr p.1) ((c.next env e).graph.addr p.2) :=
    edgeCalls_realize hg.shaped hg.sound ha
  have hstep : Tool.callback env c.tool e = some (c.next env e).tool :=
    (simulates hg.shaped hg.sound hg.alloc hg.loopsFresh ha).1
  have hlog : Tool.edgeLog env .init (es ++ [e]) = Tool.edgeLog env .init es ++ _ :=
    Tool.edgeLog_append_singleton (tool_run hrun) hstep
  have hold : ∀ {x}, x ∈ c.graph.order → (c.next env e).graph.addr x = c.graph.addr x :=
    fun hx => addr_step_of_mem ha hx
  have hmem : ∀ {x}, x ∈ c.graph.order → x ∈ (c.next env e).graph.order := fun hx => by
    show _ ∈ (c.graph.step env c.rt e).order
    rw [step_order ha]
    exact List.mem_append_left _ hx
  have hedges : ∀ {a}, a ∈ (c.next env e).graph.edges ↔
      a ∈ c.graph.edges ∧ c.graph.oldEdge e ≠ some a ∨ a ∈ c.graph.newEdges c.rt e :=
    mem_step_edges ha
  -- the ends of the new calls are nodes of the graph
  have hend : ∀ a, a ∈ c.graph.newEdges c.rt e ∨ c.graph.oldEdge e = some a →
      a.1 ∈ (c.next env e).graph.order ∧ a.2 ∈ (c.next env e).graph.order := by
    rintro a (hnew | hremoved)
    · exact hg'.alloc.edges_mem (hedges.mpr (.inr hnew))
    · exact ⟨hmem (oldEdge_mem hg.shaped ha hremoved).1,
        hmem (oldEdge_mem hg.shaped ha hremoved).2⟩
  refine ⟨fun a hmade => ?_, fun p => ?_⟩
  · rw [hlog] at hmade
    rcases List.mem_append.mp hmade with hmade | hmade
    · -- a call made before
      obtain ⟨x, hx, y, hy, hpair, howner⟩ := h.owner a hmade
      refine ⟨x, hmem hx, y, hmem hy, ?_, ?_⟩
      · rw [hold hx, hold hy, hpair]
      · rw [← howner]
        refine ownerOf_congr fun r hr => ?_
        have hpres : (c.rt.region r).stage ≠ .absent := by
          have hcreated := hg.shaped.order_iff.mp hx
          rwa [hr] at hcreated
        exact (region_apply_fixed ha hpres).1
    · obtain ⟨op, hop, rfl⟩ := List.mem_map.mp hmade
      obtain ⟨b, hb, hpair⟩ :
          ∃ b, (b ∈ c.graph.newEdges c.rt e ∨ c.graph.oldEdge e = some b) ∧
          op.pair = ((c.next env e).graph.addr b.1, (c.next env e).graph.addr b.2) := by
        rw [hcalls] at hop
        rcases List.mem_append.mp hop with hop | hop
        · obtain ⟨b, hb, rfl⟩ := List.mem_map.mp hop
          exact ⟨b, .inr (by simpa using hb), rfl⟩
        · obtain ⟨b, hb, rfl⟩ := List.mem_map.mp hop
          exact ⟨b, .inl (mem_connects.mp hb), rfl⟩
      refine ⟨b.1, (hend b hb).1, b.2, (hend b hb).2, hpair, ?_⟩
      exact owner_of_edge hg.shaped hg.sound ha (fun r hr => (region_apply_fixed ha hr).1) hb
  · -- what the calls leave: the old edge goes, the new ones come
    have hops : edgeOps env (es ++ [e]) = edgeOps env es ++ c.tool.edgeCalls e := by
      rw [edgeOps, hlog, List.map_append, List.map_map]
      exact congrArg _ (List.map_id _)
    have hsame : ∀ {a}, a ∈ c.graph.edges → ((c.next env e).graph.addr a.1,
        (c.next env e).graph.addr a.2) = (c.graph.addr a.1, c.graph.addr a.2) := fun ha' => by
      rw [hold (hg.alloc.edges_mem ha').1, hold (hg.alloc.edges_mem ha').2]
    have hkept : p ∈ ((c.graph.oldEdge e).toList.map fun a =>
        EdgeOp.disconnect ((c.next env e).graph.addr a.1) ((c.next env e).graph.addr a.2)).foldl
          EdgeOp.replay ((edgeOps env es).foldl EdgeOp.replay ∅) ↔
        ∃ a ∈ c.graph.edges, c.graph.oldEdge e ≠ some a ∧
          ((c.next env e).graph.addr a.1, (c.next env e).graph.addr a.2) = p := by
      rcases hrem : c.graph.oldEdge e with - | b
      · simp only [Option.toList_none, List.map_nil, List.foldl_nil, h.edges]
        constructor
        · rintro ⟨a, ha', rfl⟩
          exact ⟨a, ha', by simp, hsame ha'⟩
        · rintro ⟨a, ha', -, rfl⟩
          exact ⟨a, ha', (hsame ha').symm⟩
      · obtain ⟨hb₁, hb₂⟩ := hend b (.inr hrem)
        simp only [Option.toList_some, List.map_cons, List.map_nil, List.foldl_cons, List.foldl_nil,
          EdgeOp.replay, Finset.mem_erase, h.edges]
        constructor
        · rintro ⟨hne, a, ha', rfl⟩
          refine ⟨a, ha', ?_, hsame ha'⟩
          rintro hba
          obtain rfl := Option.some.inj hba
          exact hne (hsame ha').symm
        · rintro ⟨a, ha', hba, rfl⟩
          refine ⟨fun he => hba ?_, a, ha', (hsame ha').symm⟩
          obtain ⟨h₁, h₂⟩ := Prod.mk.inj he
          exact congrArg some
            (Prod.ext ((addr_inj hb₁).mp h₁.symm) ((addr_inj hb₂).mp h₂.symm))
    rw [hops, List.foldl_append, hcalls, List.foldl_append]
    refine (mem_foldl_connects (c.next env e).graph.addr _).trans ?_
    simp only [hedges, mem_connects]
    constructor
    · rintro (hp | ⟨a, hnew, rfl⟩)
      · obtain ⟨a, ha', hne, rfl⟩ := hkept.mp hp
        exact ⟨a, .inl ⟨ha', hne⟩, rfl⟩
      · exact ⟨a, .inr hnew, rfl⟩
    · rintro ⟨a, ⟨ha', hne⟩ | hnew, rfl⟩
      · exact .inl (hkept.mpr ⟨a, ha', hne, rfl⟩)
      · exact .inr ⟨a, hnew, rfl⟩

theorem owned_run (hrun : run env es = some c) : Owned env es c := by
  induction es using List.reverseRecOn generalizing c with
  | nil =>
    obtain rfl : Config.init = c := Option.some.inj hrun
    exact owned_init env
  | append_singleton es e ih =>
    obtain ⟨c₁, hc₁, ha, rfl⟩ := run_snoc.mp hrun
    exact (ih hc₁).step hc₁ ha

/-! ### Any schedule of the calls -/

/-- The calls of a run that a task makes, in the order in which it makes them. -/
def callsOf (env : Env) (es : List Event) (τ : TaskId) : List EdgeOp :=
  ((Tool.edgeLog env .init es).filter fun a => a.1 = τ).map Prod.snd

/-- The owner of a pair of addresses. -/
def ownerAt (c : Config) (p : NodeRef × NodeRef) : TaskId :=
  (c.graph.order[p.1]?.getD .root).ownerOf (fun r => (c.rt.region r).parent)
    (c.graph.order[p.2]?.getD .root)

theorem Owned.ownerAt_eq (h : Owned env es c) {a : TaskId × EdgeOp}
    (ha : a ∈ Tool.edgeLog env .init es) : c.ownerAt a.2.pair = a.1 := by
  obtain ⟨x, hx, y, hy, hpair, howner⟩ := h.owner a ha
  rw [ownerAt, hpair, order_getElem?_addr hx, order_getElem?_addr hy]
  exact howner

/-- The tasks share the calls out by the owners. -/
theorem Owned.callsOf_eq (h : Owned env es c) (τ : TaskId) :
    callsOf env es τ = Locked.callsOf c.ownerAt (edgeOps env es) τ := by
  rw [callsOf, Locked.callsOf, edgeOps, List.filter_map]
  refine congrArg _ (List.filter_congr fun a ha => ?_)
  show decide (a.1 = τ) = decide (c.ownerAt a.2.pair = τ)
  rw [h.ownerAt_eq ha]

/-- The edges that the calls leave are the edges of the graph, up to their order. -/
theorem Owned.perm_edges (h : Owned env es c) (hg : c.Good) :
    ((edgeOps env es).foldl EdgeOp.onEdges []).Perm (c.graph.edges.map c.graph.edgeAt) := by
  have hholds : Graph.Holds ((edgeOps env es).foldl EdgeOp.onEdges [])
      ((edgeOps env es).foldl EdgeOp.replay ∅) :=
    Graph.Holds.run ⟨List.nodup_nil, by simp⟩ _
  have hnodup : (c.graph.edges.map c.graph.edgeAt).Nodup := by
    refine List.Nodup.map_on (fun a ha b hb hab => ?_) hg.alloc.edges_nodup
    obtain ⟨h₁, h₂⟩ := Edge.mk.inj hab
    exact Prod.ext ((addr_inj (hg.alloc.edges_mem ha).1).mp h₁)
      ((addr_inj (hg.alloc.edges_mem ha).2).mp h₂)
  refine (List.perm_ext_iff_of_nodup hholds.nodup hnodup).mpr fun d => ?_
  rw [hholds.mem, h.edges, List.mem_map]
  refine exists_congr fun a => and_congr_right fun _ => ?_
  rw [edgeAt, Prod.mk.injEq, ← Edge.mk.injEq]

/-- The exits of a node are its part of the list of edges. -/
theorem exitsAt_edges {g : RoleGraph} (h : Alloc g) (x : Role) :
    Graph.exitsAt (g.edges.map g.edgeAt) (g.addr x) =
      (g.edges.filter fun e => e.1 = x).map g.edgeAt := by
  rw [Graph.exitsAt, List.filter_map]
  refine congrArg _ (List.filter_congr fun a ha => ?_)
  show decide (g.addr a.1 = g.addr x) = decide (a.1 = x)
  rw [decide_eq_decide]
  exact addr_inj (h.edges_mem ha).1

theorem entriesAt_edges {g : RoleGraph} (h : Alloc g) (x : Role) :
    Graph.entriesAt (g.edges.map g.edgeAt) (g.addr x) =
      (g.edges.filter fun e => e.2 = x).map g.edgeAt := by
  rw [Graph.entriesAt, List.filter_map]
  refine congrArg _ (List.filter_congr fun a ha => ?_)
  show decide (g.addr a.2 = g.addr x) = decide (a.2 = x)
  rw [decide_eq_decide]
  exact addr_inj (h.edges_mem ha).2

/-- **Any schedule of the calls leaves the edges of the run.**  Let the tasks of a run
make their calls of `connectNodes` and `disconnectNodes` again, on nodes without edges,
each task in its own order but the instructions of the tasks interleaved in any way.
When all calls have ended, every node of the graph has the exits and the entries
that the run gave it, up to their order.  The nodes all exist, so no access is one
to an address without a node. -/
theorem any_schedule (hrun : run env es = some c) {s : Tool}
    (hnodes : ∀ n < c.tool.nextRef, ∃ nd, s.nodes n = some nd)
    (hempty : ∀ n nd, s.nodes n = some nd → nd.exitEdges = [] ∧ nd.entryEdges = [])
    {schedule : List TaskId} {k : Threads.Conf Tool Mutex TaskId}
    (hsched : (Threads.Conf.start s fun τ => Locked.edgeOps (callsOf env es τ)).run schedule
      = some k) (hend : ∀ τ, k.Ended τ) {n : NodeRef} {nd : Node}
    (hn : c.tool.nodes n = some nd) :
    ∃ nd', k.mem.nodes n = some nd' ∧ nd'.exitEdges.Perm nd.exitEdges ∧
      nd'.entryEdges.Perm nd.entryEdges := by
  have hown := owned_run hrun
  have hg := run_good hrun
  have haddr : ∀ {x}, x ∈ c.graph.order → c.graph.addr x < c.tool.nextRef := fun hx =>
    List.idxOf_lt_length_of_mem hx
  have hlive : ∀ op ∈ edgeOps env es, Locked.Live s op := by
    intro op hop
    obtain ⟨a, ha, rfl⟩ := List.mem_map.mp hop
    obtain ⟨x, hx, y, hy, hpair, -⟩ := hown.owner a ha
    rw [Locked.Live, hpair]
    exact ⟨hnodes _ (haddr hx), hnodes _ (haddr hy)⟩
  -- the threads do the calls on the pairs that they own
  rw [show callsOf env es = Locked.callsOf c.ownerAt (edgeOps env es) from
    funext hown.callsOf_eq] at hsched
  obtain ⟨g, hops, hsame⟩ := Locked.edges_interleaved c.ownerAt hlive hsched hend
  have hviews : s.toGraph.runEdgeOps (edgeOps env es) =
      some (s.toGraph.withEdges ((edgeOps env es).foldl EdgeOp.onEdges [])) := by
    have hrep : (s.toGraph.withEdges []).runEdgeOps (edgeOps env es) = _ :=
      Graph.runEdgeOps_withEdges hlive
    rwa [Graph.withEdges_nil hempty] at hrep
  obtain rfl := Option.some.inj (hviews.symm.trans hops)
  -- and the list of edges that the calls leave is that of the run
  have hperm := hown.perm_edges hg
  obtain ⟨x, hl, rfl, rfl⟩ := hg.nodes_iff.mp hn
  have hx := hg.alloc.live_mem hl
  obtain ⟨nd₀, hnd₀⟩ := hnodes _ (haddr hx)
  have hviewed := hsame.node (c.graph.addr x)
  rw [Graph.withEdges, Graph.nodes_withVectors hnd₀] at hviewed
  rcases hk : k.mem.nodes (c.graph.addr x) with - | nd'
  · rw [hk] at hviewed
    cases hviewed
  · rw [hk] at hviewed
    obtain ⟨-, hexits, hentries⟩ : _ ∧ _ ∧ _ := by
      cases hviewed with
      | some h => exact h
    refine ⟨nd', rfl, hexits.trans ?_, hentries.trans ?_⟩
    · show (Graph.exitsAt _ _).Perm ((c.graph.edges.filter fun e => e.1 = x).map c.graph.edgeAt)
      rw [← exitsAt_edges hg.alloc x]
      exact hperm.filter _
    · show (Graph.entriesAt _ _).Perm ((c.graph.edges.filter fun e => e.2 = x).map c.graph.edgeAt)
      rw [← entriesAt_edges hg.alloc x]
      exact hperm.filter _

/-- Two threads join a team, and both reach its barrier. -/
def barrierReached : List Event :=
  [⟨0, .threadBegin⟩, ⟨1, .threadBegin⟩,
    ⟨0, .taskCreate (.initial 0) (.initial 0) .initial⟩,
    ⟨0, .parallelBegin (.initial 0) 7 2 2 1⟩,
    ⟨1, .implicitTask .scopeBegin 7 (.implicit 7 1) 2 1⟩,
    ⟨0, .implicitTask .scopeBegin 7 (.implicit 7 0) 2 0⟩,
    ⟨0, .syncRegion .barrier .scopeBegin 7 (.implicit 7 0)⟩,
    ⟨1, .syncRegion .barrier .scopeBegin 7 (.implicit 7 1)⟩]

/-- Nodes without edges. -/
def bareNodes : Tool := { Tool.init with nodes := fun n => some (Node.new n .impTask 0) }

theorem any_schedule_barrierReached : ∃ c schedule k,
    run { clock := fun k => k } barrierReached = some c ∧
      (Threads.Conf.start bareNodes fun τ =>
        Locked.edgeOps (callsOf { clock := fun k => k } barrierReached τ)).run schedule =
          some k ∧
      (∀ τ, k.Ended τ) ∧ ∀ n nd, c.tool.nodes n = some nd →
        ∃ nd', k.mem.nodes n = some nd' ∧
        nd'.exitEdges.Perm nd.exitEdges ∧ nd'.entryEdges.Perm nd.entryEdges := by
  have hrun : run { clock := fun k => k } barrierReached = some _ := rfl
  have hlog : Tool.edgeLog { clock := fun k => k } .init barrierReached =
      [(.implicit 7 1, .connect 0 2), (.implicit 7 0, .connect 0 3), (.implicit 7 0, .connect 3 4),
        (.implicit 7 0, .connect 4 5), (.implicit 7 0, .connect 4 5),
        (.implicit 7 1, .connect 2 4), (.implicit 7 1, .connect 4 6)] := rfl
  -- the two implicit tasks have calls to make
  have hidle : ∀ τ, τ ∉ ({.implicit 7 0, .implicit 7 1} : Finset TaskId) →
      (Threads.Conf.start (M := Mutex) bareNodes fun τ => Locked.edgeOps
        (callsOf { clock := fun k => k } barrierReached τ)).Ended τ := by
    intro τ hτ
    obtain ⟨h₀, h₁⟩ : τ ≠ .implicit 7 0 ∧ τ ≠ .implicit 7 1 := by simpa using hτ
    have hnone : callsOf { clock := fun k => k } barrierReached τ = [] := by
      simp [callsOf, hlog, h₀.symm, h₁.symm]
    show Locked.edgeOps (callsOf _ _ τ) = _
    rw [hnone]
    rfl
  obtain ⟨schedule, k, hsched, hend⟩ := (Threads.Conf.tidy_start fun τ =>
    Locked.ranked_edgeOps (callsOf { clock := fun k => k } barrierReached τ)).completes hidle
  have hempty : ∀ n nd, bareNodes.nodes n = some nd → nd.exitEdges = [] ∧
      nd.entryEdges = [] := by
    intro n nd hn
    obtain rfl := Option.some.inj hn
    exact ⟨rfl, rfl⟩
  exact ⟨_, schedule, k, hrun, hsched, hend, fun n nd hn =>
    any_schedule hrun (fun n _ => ⟨_, rfl⟩) hempty hsched hend hn⟩

end Config

end Tdg
