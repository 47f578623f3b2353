/-
TdgTool/Starts.lean

When each node is started, and that no node is charged before.

`Tool.starts` lists the nodes on which a callback calls `setLastTime`, as
addresses; `Tool.firstStart` is the time that the first such call of a run gives
to a node.  The sinks of regions and loops are created without a start time and
are started by another callback, or never.  `Sane` says what follows for the
times of a node that was started, and of one that was not; it holds in every
state that a run reaches (`times_sane`), because a callback charges started nodes
only (`Shaped.charged_started`) and the clock does not go back.  The times are
exact sums; in doubles a node may hold more (`emptyLoop_total_exceeds`).
-/
import TdgTool.Structure
import TdgTool.Times
import TdgTool.Rounding

namespace Tdg

/-! ### The calls of `setLastTime` -/

namespace Tool

/-- The nodes on which a callback calls `setLastTime`.  A node that the callback
creates gets the next address, and the node behind a new barrier the one after
it. -/
def starts (s : Tool) (e : Event) : List NodeRef :=
  match e.call with
  | .implicitTask .scopeBegin _ _ _ _ => [s.nextRef]
  | .parallelEnd r _ => (s.parData r).toList.map fun parInfo => parInfo.sinkNode
  | .taskCreate _ _ .initial => [s.nextRef]
  | .taskCreate _ _ .explicit => [s.nextRef]
  | .taskSchedule _ _ second =>
      (s.taskData second).toList.map fun secondTask => secondTask.currTaskNode
  | .syncRegion .barrier endpoint r task =>
      match s.parData r with
      | none => []
      | some parInfo =>
          if 1 < parInfo.teamSize then
            match endpoint with
            | .scopeBegin =>
                -- the first arrival creates the barrier node before the node behind it
                if parInfo.barrierCnt = 0 then [s.nextRef, s.nextRef + 1] else [s.nextRef]
            | .scopeEnd => (s.taskData task).toList.map fun currTask => currTask.currTaskNode
          else []
  | .extLoop .scopeBegin _ _ _ => [s.nextRef]
  | .extLoop .scopeEnd task _ _ =>
      ((s.taskData task).bind fun currTask => currTask.currWsData).toList.map fun ws => ws.sinkNode
  | .extChunk _ _ _ false => [s.nextRef]
  | _ => []

/-- `_lastTime` of the node at an address. -/
def lastTimeAt (s : Tool) (n : NodeRef) : ℚ :=
  match s.nodes n with
  | some nd => nd.lastTime
  | none => 0

/-- The calls of `setLastTime` in a run from `s`: the nodes, each with the time
it has behind the callback.  No callback calls `addTime` after `setLastTime` on
the same node. -/
def startLog (env : Env) : Tool → List Event → List (NodeRef × ℚ)
  | _, [] => []
  | s, e :: es =>
      match callback env s e with
      | some s' => (s.starts e).map (fun n => (n, s'.lastTimeAt n)) ++ startLog env s' es
      | none => []

/-- The time that the first `setLastTime` of a run gives to a node. -/
def firstStart (env : Env) (es : List Event) (n : NodeRef) : Option ℚ :=
  (startLog env init es).lookup n

variable {env : Env} {s s' s'' : Tool} {es : List Event} {e : Event} {n : NodeRef}

theorem startLog_append_singleton (hrun : runFrom env s es = some s')
    (hstep : callback env s' e = some s'') : startLog env s (es ++ [e]) =
      startLog env s es ++ (s'.starts e).map fun n => (n, s''.lastTimeAt n) := by
  induction es generalizing s with
  | nil =>
    obtain rfl := Option.some.inj hrun
    simp [startLog, hstep]
  | cons e' es ih =>
    rw [runFrom, List.foldlM_cons] at hrun
    obtain ⟨s1, hs1, hrun⟩ := Option.bind_eq_some_iff.mp hrun
    simp only [List.cons_append, startLog, hs1, List.append_assoc]
    rw [ih hrun]

theorem lookup_map_self (l : List NodeRef) (f : NodeRef → ℚ) (n : NodeRef) :
    (l.map fun m => (m, f m)).lookup n = if n ∈ l then some (f n) else none := by
  induction l with
  | nil => rfl
  | cons m l ih =>
    rcases eq_or_ne n m with rfl | hnm
    · simp
    · rw [List.map_cons, List.lookup_cons, beq_false_of_ne hnm, ih]
      simp [hnm]

/-- A node is started by the first callback that starts it. -/
theorem firstStart_append_singleton (hrun : run env es = some s)
    (hstep : callback env s e = some s') : firstStart env (es ++ [e]) n =
      (firstStart env es n).or (if n ∈ s.starts e then some (s'.lastTimeAt n) else none) := by
  rw [firstStart, startLog_append_singleton hrun hstep, List.lookup_append, lookup_map_self]
  rfl

end Tool

/-! ### The same nodes as roles -/

namespace RoleGraph

open Tdg.Runtime

variable {o : Runtime} {g : RoleGraph} {env : Env} {e : Event} {x y : Role} {τ : TaskId}

/-- The address of a node that exists stays, and a new one gets the next. -/
theorem addr_step (ha : o.allows e = true) (x : Role) :
    (g.step env o e).addr x = (g.order ++ o.newRoles e).idxOf x := by
  rw [addr, step_order ha]

theorem addr_step_of_mem (ha : o.allows e = true) (hx : x ∈ g.order) :
    (g.step env o e).addr x = g.addr x := by
  rw [addr_step ha, List.idxOf_append_of_mem hx]
  rfl

theorem addr_step_head (ha : o.allows e = true) {l : List Role} (hnew : o.newRoles e = x :: l)
    (hx : x ∉ g.order) : (g.step env o e).addr x = g.order.length := by
  rw [addr_step ha, hnew, List.idxOf_append_of_notMem hx, List.idxOf_cons_self, Nat.add_zero]

theorem addr_step_second (ha : o.allows e = true) (hnew : o.newRoles e = [y, x]) (hne : y ≠ x)
    (hx : x ∉ g.order) : (g.step env o e).addr x = g.order.length + 1 := by
  rw [addr_step ha, hnew, List.idxOf_append_of_notMem hx, List.idxOf_cons_ne _ hne,
    List.idxOf_cons_self]

/-- **The callbacks start the stamped nodes.** -/
theorem starts_realize (hW : Shaped o g) (hS : o.Sound) (ha : o.allows e = true) :
    (realize (tables o g) g).starts e = (g.stamped o e).map (g.step env o e).addr := by
  have hfresh : ∀ {x}, x ∈ o.newRoles e → x ∉ g.order := fun hx h =>
    newRoles_fresh ha hx (hW.order_iff.mp h)
  -- a callback that starts one new node, the first that it creates
  have hone : ∀ {x l}, o.newRoles e = x :: l →
      [g.order.length] = [x].map (g.step env o e).addr := by
    intro x l hnew
    rw [List.map_singleton, addr_step_head ha hnew (hfresh (hnew ▸ List.mem_cons_self))]
  have hcur : ∀ {τ}, o.HasData τ → (((realize (tables o g) g).taskData τ).toList.map
      fun td => td.currTaskNode) = [g.cur τ].map (g.step env o e).addr := by
    intro τ hd
    rw [taskData_realize (tables_task hd), List.map_singleton,
      addr_step_of_mem ha (hW.order_iff.mpr (hW.seat hd).1)]
    rfl
  cases delivers_of_allows ha with
  | initial => exact hone rfl
  | explicit => exact hone rfl
  | implicitBegin => exact hone rfl
  | schedule hact hmay => exact hcur (hasData_of_present hmay.standing.1 hmay.standing.2.1)
  | @parallelEnd th r hopen =>
    simp only [Tool.starts, stamped, parData_realize (tables_par hopen)]
    rw [List.map_singleton, addr_step_of_mem ha (hW.order_iff.mpr (by simp [Created, hopen]))]
    rfl
  | @barrierBegin th r t hact hbody =>
    have hopen := hS.inBody_opened (hasData_of_active hact.2).present hbody
    have hpar := parData_realize (g := g) (tables_par (g := g) hopen)
    have hteam : ((o.regionRecord r).map g.addr).teamSize = (o.region r).requested := rfl
    have hcnt : ((o.regionRecord r).map g.addr).barrierCnt =
        (o.region r).arrivals % (o.region r).requested := rfl
    simp only [Tool.starts, stamped, hpar, hteam, hcnt]
    split_ifs with hreq h0
    · -- the barrier node, and the node behind it
      have hnew : o.newRoles ⟨th, .syncRegion .barrier .scopeBegin r (.implicit r t)⟩ =
          [.barrier r ((o.region r).arrivals / (o.region r).requested),
            .imp r t ((o.task (.implicit r t)).arrived + 1)] := by
        simp [newRoles, hreq, h0]
      have hbarrier : (g.step env o _).addr _ = g.order.length :=
        addr_step_head ha hnew (hfresh (by simp [hnew]))
      have himp : (g.step env o _).addr _ = g.order.length + 1 :=
        addr_step_second ha hnew (by simp) (hfresh (by simp [hnew]))
      rw [List.singleton_append, List.map_cons, List.map_singleton, hbarrier, himp]
      rfl
    · exact hone (l := []) (by simp [newRoles, hreq, h0])
    · rfl
  | @barrierEnd th r t hact =>
    by_cases hopen : (o.region r).stage = .opened
    · have hpar := parData_realize (g := g) (tables_par (g := g) hopen)
      have hteam : ((o.regionRecord r).map g.addr).teamSize = (o.region r).requested := rfl
      simp only [Tool.starts, stamped, hpar, hteam, hopen, true_and]
      split_ifs
      · exact hcur (hasData_of_active hact.2)
      · rfl
    · have hpar : (realize (tables o g) g).parData r = none := by simp [realize, tables, hopen]
      simp [Tool.starts, stamped, hpar, hopen]
  | @loopBegin th τ => exact hone rfl
  | @loopEnd th τ lower upper hact hbody hloop =>
    have hws : o.wsOf τ = some (o.wsRecord τ) := if_pos hloop
    have htask := taskData_realize (g := g) (tables_task (g := g) (hasData_of_active hact.2))
    have hsink : Role.loopSink τ (o.task τ).loops ∈ g.order :=
      hW.order_iff.mpr (hW.live_iff.mp (hW.loop_live hloop).2.1).1
    simp only [Tool.starts, stamped, htask]
    rw [List.map_singleton, addr_step_of_mem ha hsink]
    simp [taskRecord, TaskData.map, hws, WorksharingData.map, wsRecord]
  | @chunk th τ lower upper lastChunk =>
    cases lastChunk with
    | true => rfl
    | false => exact hone rfl
  | @outside th endpoint r i hact habs =>
    have hpar : (realize (tables o g) g).parData r = none := by simp [realize, tables, habs]
    cases endpoint <;> simp only [Tool.starts, stamped, hpar] <;> rfl
  | @sync _ kind _ _ _ _ _ hkind =>
    cases kind with
    | barrier => exact absurd rfl hkind
    | taskwait => rfl
    | taskgroup => rfl
  | _ => rfl

/-! ### Which nodes a callback leaves unstarted -/

/-- A node that is started exists behind the callback, and is started. -/
theorem Shaped.stamped_started (hW : Shaped o g) (hS : o.Sound) (ha : o.allows e = true)
    (hx : x ∈ g.stamped o e) : (o.apply e).Created x ∧ ¬Unstarted (o.apply e) x := by
  -- a new node that is not a sink
  have hnew : x ∈ o.newRoles e → (¬Unstarted (o.apply e) x) →
      (o.apply e).Created x ∧ ¬Unstarted (o.apply e) x := fun h hu =>
    ⟨(created_apply hS ha).mpr (.inr h), hu⟩
  have hcur : ∀ {τ}, o.HasData τ → x = g.cur τ →
      (o.apply e).Created x ∧ ¬Unstarted (o.apply e) x := by
    rintro τ hd rfl
    obtain ⟨hc, hseat⟩ := hW.seat hd
    exact ⟨(created_apply hS ha).mpr (.inl hc),
      fun hu => started_of_seat hseat (unstarted_of_apply hS ha hc hu)⟩
  cases delivers_of_allows ha with
  | initial =>
    obtain rfl : x = .root := by simpa [stamped] using hx
    exact hnew hx id
  | @explicit _ _ n =>
    obtain rfl : x = .exp n := by simpa [stamped] using hx
    exact hnew hx id
  | @implicitBegin _ r t =>
    obtain rfl : x = .imp r t 0 := by simpa [stamped] using hx
    exact hnew hx id
  | schedule hact hmay =>
    exact hcur (hasData_of_present hmay.standing.1 hmay.standing.2.1) (List.mem_singleton.mp hx)
  | @parallelEnd _ r hopen =>
    obtain rfl : x = .sink r := by simpa [stamped] using hx
    exact ⟨by simp [Created, Runtime.apply], by simp [Unstarted, Runtime.apply]⟩
  | @barrierBegin _ r t =>
    refine hnew hx ?_
    simp only [stamped] at hx
    split_ifs at hx
    · obtain rfl | hx := List.mem_cons.mp hx
      · exact id
      · obtain rfl := List.mem_singleton.mp hx
        exact id
    · obtain rfl := List.mem_singleton.mp hx
      exact id
    · exact absurd hx List.not_mem_nil
  | @barrierEnd _ r t hact =>
    simp only [stamped] at hx
    split_ifs at hx
    · exact hcur (hasData_of_active hact.2) (List.mem_singleton.mp hx)
    · exact absurd hx List.not_mem_nil
  | @loopBegin _ τ =>
    obtain rfl : x = .ws τ (o.task τ).loops := by simpa [stamped] using hx
    exact hnew (by simp [newRoles]) id
  | @loopEnd _ τ _ _ _ _ hloop =>
    obtain rfl : x = .loopSink τ (o.task τ).loops := by simpa [stamped] using hx
    exact ⟨(created_apply hS ha).mpr (.inl (hW.live_iff.mp (hW.loop_live hloop).2.1).1),
      by simp [Unstarted, Runtime.apply]⟩
  | @chunk _ τ _ _ lastChunk =>
    cases lastChunk with
    | true => exact absurd hx List.not_mem_nil
    | false =>
      obtain rfl : x = .chunk τ (o.task τ).loops ((o.task τ).chunks (o.task τ).loops) := by
        simpa [stamped] using hx
      exact hnew hx id
  | @outside _ endpoint => cases endpoint <;> cases hx
  | @sync _ kind _ _ _ _ _ hkind =>
    cases kind with
    | barrier => exact absurd rfl hkind
    | taskwait => cases hx
    | taskgroup => cases hx
  | _ => cases hx

/-- The nodes that are not started behind a callback. -/
theorem Shaped.unstarted_apply_iff (hW : Shaped o g) (hS : o.Sound) (ha : o.allows e = true)
    (hx : (o.apply e).Created x) : Unstarted (o.apply e) x ↔
      x ∉ g.stamped o e ∧ (o.Created x → Unstarted o x) := by
  constructor
  · intro hu
    exact ⟨fun hst => (hW.stamped_started hS ha hst).2 hu,
      fun hc => unstarted_of_apply hS ha hc hu⟩
  · rintro ⟨hst, hold⟩
    by_contra hu
    obtain ⟨hc, hu'⟩ | hst' := started_of_apply (g := g) hS ha hx hu
    · exact hu' (hold hc)
    · exact hst hst'

/-- A new node that is not started has the constructor's time. -/
theorem lastTime_of_new (ha : o.allows e = true) (hx : x ∈ o.newRoles e)
    (hst : x ∉ g.stamped o e) : ((g.step env o e).data x).lastTime = 0 := by
  -- only the sinks are new and not started
  cases delivers_of_allows ha with
  | @parallelBegin _ _ r =>
    obtain rfl : x = .sink r := by simpa [newRoles] using hx
    simp [RoleGraph.step, RoleGraph.parallelBegin]
  | @loopBegin _ τ =>
    simp only [newRoles, List.mem_cons, List.not_mem_nil, or_false] at hx
    obtain rfl | rfl := hx
    · exact absurd List.mem_cons_self hst
    · simp [RoleGraph.step, RoleGraph.loopBegin]
  | initial => exact absurd hx hst
  | explicit => exact absurd hx hst
  | implicitBegin => exact absurd hx hst
  | barrierBegin => exact absurd hx hst
  | chunk => exact absurd hx hst
  | @outside _ endpoint => cases endpoint <;> cases hx
  | @sync _ kind _ _ _ _ _ hkind =>
    cases kind with
    | barrier => exact absurd rfl hkind
    | taskwait => cases hx
    | taskgroup => cases hx
  | _ => cases hx

end RoleGraph

/-! ### Sane times -/

/-- What holds of the times of a node, given the time of its first start: that
is a reading of the clock, and no more than what has passed since then was
added.  A node that was never started has the constructor's values. -/
def SaneTimes (env : Env) (ticks : ℕ) (first : Option ℚ) (nd : NodeData) : Prop :=
  match first with
  | some t => (∃ k < ticks, t = env.clock k) ∧ 0 ≤ nd.totalTime ∧ nd.totalTime ≤ nd.lastTime - t
  | none => nd.lastTime = 0 ∧ nd.totalTime = 0

theorem SaneTimes.mono {env : Env} {k k' : ℕ} {first : Option ℚ} {nd : NodeData}
    (h : SaneTimes env k first nd) (hk : k ≤ k') : SaneTimes env k' first nd := by
  rcases first with - | t
  · exact h
  · obtain ⟨⟨j, hj, hclock⟩, hrest⟩ := h
    exact ⟨⟨j, hj.trans_le hk, hclock⟩, hrest⟩

namespace Config

open RoleGraph Tdg.Runtime Doubles

variable {c c' : Config} {env : Env} {e : Event} {es : List Event} {x : Role} {n : NodeRef}

/-- The first starts of a run and the role graph that it reaches. -/
structure Started (env : Env) (es : List Event) (c : Config) : Prop where
  fresh : ∀ {n}, c.graph.order.length ≤ n → Tool.firstStart env es n = none
  unstarted : ∀ {x}, c.rt.Created x →
    (Tool.firstStart env es (c.graph.addr x) = none ↔ Unstarted c.rt x)
  times : ∀ {x}, c.graph.live x = true →
    SaneTimes env c.graph.ticks (Tool.firstStart env es (c.graph.addr x)) (c.graph.data x)

/-- The first start of a node over one more callback. -/
theorem firstStart_next (hrun : run env es = some c) (ha : c.rt.allows e = true)
    (hx : (c.rt.apply e).Created x) :
    Tool.firstStart env (es ++ [e]) ((c.next env e).graph.addr x) =
      (Tool.firstStart env es ((c.next env e).graph.addr x)).or
        (if x ∈ c.graph.stamped c.rt e then
          some ((c.next env e).tool.lastTimeAt ((c.next env e).graph.addr x)) else none) := by
  have hg := run_good hrun
  have hsim : Simulates env c.rt c.graph e :=
    simulates hg.shaped hg.sound hg.alloc hg.loopsFresh ha
  have hmem : (c.next env e).graph.addr x ∈ c.tool.starts e ↔ x ∈ c.graph.stamped c.rt e := by
    rw [tool, starts_realize hg.shaped hg.sound ha]
    constructor
    · intro h
      obtain ⟨y, hy, hyx⟩ := List.mem_map.mp h
      have hx' : x ∈ (c.next env e).graph.order := (hg.next env ha).shaped.order_iff.mpr hx
      obtain rfl : x = y := (addr_inj hx').mp hyx.symm
      exact hy
    · exact fun h => List.mem_map.mpr ⟨x, h, rfl⟩
  rw [Tool.firstStart_append_singleton (tool_run hrun) hsim.1]
  simp only [hmem]
  rfl

/-- The address of a node that a callback creates is not in use. -/
theorem Started.firstStart_of_new (h : Started env es c) (hg : c.Good)
    (ha : c.rt.allows e = true) (hx : x ∈ c.rt.newRoles e) :
    Tool.firstStart env es ((c.next env e).graph.addr x) = none := by
  refine h.fresh ?_
  have hnot : x ∉ c.graph.order := fun hin => newRoles_fresh ha hx (hg.shaped.order_iff.mp hin)
  show c.graph.order.length ≤ (c.graph.step env c.rt e).addr x
  rw [addr_step ha, List.idxOf_append_of_notMem hnot]
  exact Nat.le_add_right _ _

theorem Started.unstarted_next (h : Started env es c) (hrun : run env es = some c)
    (ha : c.rt.allows e = true) (hx : (c.rt.apply e).Created x) :
    Tool.firstStart env (es ++ [e]) ((c.next env e).graph.addr x) = none ↔
      Unstarted (c.rt.apply e) x := by
  have hg := run_good hrun
  rw [firstStart_next hrun ha hx, hg.shaped.unstarted_apply_iff hg.sound ha hx,
    Option.or_eq_none_iff, and_comm]
  refine and_congr (by simp) ?_
  rcases (created_apply hg.sound ha).mp hx with hc | hnew
  · have haddr : (c.next env e).graph.addr x = c.graph.addr x :=
      addr_step_of_mem ha (hg.shaped.order_iff.mpr hc)
    rw [haddr, h.unstarted hc]
    exact ⟨fun hu _ => hu, fun hu => hu hc⟩
  · have hnone := h.firstStart_of_new hg ha hnew
    exact ⟨fun _ hc => absurd hc (newRoles_fresh ha hnew), fun _ => hnone⟩

/-- **A callback keeps the times sane.** -/
theorem Started.times_next (h : Started env es c) (hL : Ledger env c.rt c.graph)
    (hmono : Monotone env.clock) (hrun : run env es = some c) (ha : c.rt.allows e = true)
    (hlive : (c.next env e).graph.live x = true) :
    SaneTimes env (c.next env e).graph.ticks
      (Tool.firstStart env (es ++ [e]) ((c.next env e).graph.addr x))
      ((c.next env e).graph.data x) := by
  have hg := run_good hrun
  have hT := step_timed env c.graph ha
  have hticks := hT.ticks
  have hcreated : (c.rt.apply e).Created x := ((hg.next env ha).shaped.live_iff.mp hlive).1
  have hlast : (c.next env e).tool.lastTimeAt ((c.next env e).graph.addr x) =
      ((c.next env e).graph.data x).lastTime := by
    have hnode := (hg.next env ha).nodes_iff.mpr ⟨x, hlive, rfl, rfl⟩
    rw [Tool.lastTimeAt, hnode]
    rfl
  rw [firstStart_next hrun ha hcreated, hlast]
  -- a start that is the first
  have hfirst : x ∈ c.graph.stamped c.rt e → ((c.next env e).graph.data x).totalTime = 0 →
      SaneTimes env (c.next env e).graph.ticks
        (some ((c.next env e).graph.data x).lastTime) ((c.next env e).graph.data x) := by
    intro hst htotal
    obtain ⟨k, -, hk, hclock⟩ := hT.stamp hst
    refine ⟨⟨k, hk, hclock⟩, htotal.ge, ?_⟩
    rw [htotal, sub_self]
  rcases ((step_live ha).mp hlive).1 with hold | hnew
  · have hc : c.rt.Created x := (hg.shaped.live_iff.mp hold).1
    have hnew : x ∉ c.rt.newRoles e := fun hn => newRoles_fresh ha hn hc
    have haddr : (c.next env e).graph.addr x = c.graph.addr x :=
      addr_step_of_mem ha (hg.shaped.order_iff.mpr hc)
    have htimes := h.times hold
    have htotal := hT.total hnew
    rw [haddr]
    rcases hfs : Tool.firstStart env es (c.graph.addr x) with - | t
    · -- never started: not charged, and started now or not at all
      have hu := (h.unstarted hc).mp hfs
      have hch : c.graph.charged c.rt e ≠ some x := fun hch =>
        (hg.shaped.charged_started ha hch).2 hu
      rw [hfs] at htimes
      rw [if_neg hch, add_zero, htimes.2] at htotal
      rw [Option.none_or]
      split_ifs with hst
      · exact hfirst hst htotal
      · exact ⟨(hT.keep hst hnew hch).trans htimes.1, htotal⟩
    · have hu : ¬Unstarted c.rt x := by
        rw [← h.unstarted hc, hfs]
        exact Option.some_ne_none t
      obtain ⟨hle, hcharge⟩ := hL.lastTime_le hmono ha hc hu
      obtain ⟨⟨k, hk, hclock⟩, hnonneg, hbound⟩ := hfs ▸ htimes
      rw [Option.some_or]
      refine ⟨⟨k, by simp only [next]; omega, hclock⟩, ?_⟩
      simp only [next]
      rw [htotal]
      split_ifs with hch
      · -- the interval that is added starts at the last time, and ends at the new one
        obtain ⟨k', hk', hlast'⟩ := hL.clocked hc hu
        have hnew' := hcharge hch
        have hforward : (c.graph.data x).lastTime ≤ env.clock c.graph.ticks := by
          rw [hlast']
          exact hmono hk'.le
        constructor <;> linarith
      · constructor <;> linarith
  · -- a new node
    have hnone := h.firstStart_of_new hg ha hnew
    have htotal : ((c.next env e).graph.data x).totalTime = 0 := hT.total_new hnew
    rw [hnone, Option.none_or]
    split_ifs with hst
    · exact hfirst hst htotal
    · exact ⟨lastTime_of_new ha hnew hst, htotal⟩

theorem started_run (hmono : Monotone env.clock) (hrun : run env es = some c) :
    Started env es c := by
  induction es using List.reverseRecOn generalizing c with
  | nil =>
    obtain rfl : Config.init = c := Option.some.inj hrun
    exact {
      fresh := fun _ => rfl
      unstarted := fun hx => absurd (shaped_init.order_iff.mpr hx) (by simp [RoleGraph.init])
      times := fun hx => by simp [Config.init, RoleGraph.init] at hx }
  | append_singleton es e ih =>
    obtain ⟨c1, hc1, ha, rfl⟩ := run_snoc.mp hrun
    have hg := run_good hc1
    have h := ih hc1
    refine ⟨?_, fun hx => h.unstarted_next hc1 ha hx,
      fun hx => h.times_next (ledger_run hmono hc1) hmono hc1 ha hx⟩
    intro n hn
    have hsim : Simulates env c1.rt c1.graph e :=
      simulates hg.shaped hg.sound hg.alloc hg.loopsFresh ha
    -- an address that has not been handed out yet
    have hlen : c1.graph.order.length ≤ n := by
      refine le_trans ?_ hn
      simp only [next, step_order ha, List.length_append]
      exact Nat.le_add_right _ _
    have hnot : n ∉ c1.tool.starts e := by
      have hstarts : c1.tool.starts e =
          (c1.graph.stamped c1.rt e).map (c1.next env e).graph.addr :=
        starts_realize hg.shaped hg.sound ha
      rw [hstarts]
      rintro hmem
      obtain ⟨y, hy, rfl⟩ := List.mem_map.mp hmem
      -- what is started exists after the callback, so its address is below the next one
      have hin : y ∈ (c1.next env e).graph.order :=
        (hg.next env ha).shaped.order_iff.mpr (hg.shaped.stamped_started hg.sound ha hy).1
      exact absurd (List.idxOf_lt_length_of_mem hin) hn.not_gt
    rw [Tool.firstStart_append_singleton (tool_run hc1) hsim.1, h.fresh hlen, if_neg hnot]
    rfl

/-! ### Sane times in every state -/

/-- The times of all nodes of a state are sane. -/
def Sane (env : Env) (es : List Event) (s : Tool) : Prop :=
  ∀ n nd, s.nodes n = some nd →
    SaneTimes env s.ticks (Tool.firstStart env es n) nd.toNodeData

/-- Between two states time is added to nodes only that the callbacks `es` have
started. -/
def ChargesStarted (env : Env) (es : List Event) (s s' : Tool) : Prop :=
  ∀ a ∈ s'.charges.drop s.charges.length, Tool.firstStart env es a.node ≠ none

theorem sane_realize {T : Tables} {g : RoleGraph} (hA : Alloc g)
    (haddr : g.addr = c.graph.addr)
    (htimes : ∀ {x}, g.live x = true → SaneTimes env g.ticks
      (Tool.firstStart env es (c.graph.addr x)) (g.data x)) :
    Sane env es (realize T g) := by
  intro n nd hn
  obtain ⟨x, hl, rfl, rfl⟩ := hA.nodes_iff.mp hn
  rw [haddr]
  exact htimes hl

/-- The first statement of `finalize_libtdg` charges a node that was started,
and keeps the times sane. -/
theorem Started.closeFinal (h : Started env es c) (hmono : Monotone env.clock)
    (hrun : run env es = some c) (th : ThreadId) :
    ∃ s', c.tool.closeFinalNode env th = some s' ∧ ChargesStarted env es c.tool s' ∧
      Sane env es s' := by
  have hg := run_good hrun
  have hclose := closeFinalNode_run th hrun
  have hA : Alloc (c.graph.closeFinal env th) :=
    ((hg.shaped.closed hg.sound hg.alloc).closeFinal env th).toAlloc
  refine ⟨_, hclose, ?_⟩
  unfold RoleGraph.closeFinal at hA ⊢
  rcases hx : c.graph.finalNode with - | x
  · rw [hx] at hA
    refine ⟨fun a ha => ?_, sane_realize hA rfl h.times⟩
    rw [tool, List.drop_length] at ha
    cases ha
  · rw [hx] at hA
    have hlive : c.graph.live x = true := final_live hrun hx
    have hc : c.rt.Created x := (hg.shaped.live_iff.mp hlive).1
    -- the final node is the root or the sink of a region that has ended
    have hu : ¬Unstarted c.rt x := by
      have hseat := finalSeat_run hrun hx
      cases x with
      | sink r =>
        rw [Unstarted, show (c.rt.region r).stage = .ended from hseat]
        intro h
        cases h
      | root => exact id
      | _ => exact hseat.elim
    have hsome : Tool.firstStart env es (c.graph.addr x) ≠ none := fun hn =>
      hu ((h.unstarted hc).mp hn)
    refine ⟨fun a ha => ?_, sane_realize hA rfl fun {y} hy => ?_⟩
    · obtain rfl :
          a = ⟨th, c.graph.addr x, (c.graph.data x).lastTime, env.clock c.graph.ticks⟩ := by
        simpa [tool, realize, Charge.map] using ha
      exact hsome
    · have htimes := h.times (x := y) hy
      rcases eq_or_ne y x with rfl | hyx
      · obtain ⟨t, ht⟩ := Option.ne_none_iff_exists'.mp hsome
        obtain ⟨k', hk', hlast⟩ := (ledger_run hmono hrun).clocked hc hu
        obtain ⟨⟨k, hk, hclock⟩, hnonneg, hbound⟩ := ht ▸ htimes
        have hforward : (c.graph.data y).lastTime ≤ env.clock c.graph.ticks := by
          rw [hlast]
          exact hmono hk'.le
        rw [ht]
        refine ⟨⟨k, hk.trans (Nat.lt_succ_self _), hclock⟩, ?_⟩
        simp only [addTime_data, Function.update_self, NodeData.addTime]
        constructor <;> linarith
      · rw [addTime_data, Function.update_of_ne hyx, addTime_ticks]
        exact htimes.mono (Nat.le_succ _)

/-- **Node times are sane.**  In every run with a nondecreasing clock and without
rounding, every callback charges nodes only that an earlier callback has
started, and the times of all nodes are sane in every state that the run
reaches, also when `finalize_libtdg` has closed the final node. -/
theorem times_sane (env : Env) {o : Runtime} (hmono : Monotone env.clock)
    (hrun : Runtime.run es = some o) :
    ∃ s, Tool.run env es = some s ∧ Sane env es s ∧
      (∀ pre e post, es = pre ++ e :: post → ∃ s₁ s₂, Tool.run env pre = some s₁ ∧
        s₁.callback env e = some s₂ ∧ ChargesStarted env pre s₁ s₂) ∧
      ∀ th, ∃ s', s.closeFinalNode env th = some s' ∧ ChargesStarted env es s s' ∧
        Sane env es s' := by
  obtain ⟨c, hc, rfl⟩ := run_of_runtime env hrun
  have h := started_run hmono hc
  refine ⟨c.tool, tool_run hc, sane_realize (run_good hc).alloc rfl h.times, ?_,
    fun th => h.closeFinal hmono hc th⟩
  rintro pre e post rfl
  obtain ⟨c₁, hc₁, ha, -⟩ := run_split hc
  have hg := run_good hc₁
  have hsim : Simulates env c₁.rt c₁.graph e :=
    simulates hg.shaped hg.sound hg.alloc hg.loopsFresh ha
  refine ⟨c₁.tool, _, tool_run hc₁, hsim.1, fun a hmem => ?_⟩
  -- what the callback adds is its one charge
  have hcharges := (step_timed env c₁.graph ha).charges
  simp only [realize, tool, hcharges, List.map_append, List.length_map] at hmem
  rw [List.drop_left' (by simp)] at hmem
  obtain ⟨b, hb, rfl⟩ := List.mem_map.mp hmem
  obtain ⟨x, hx, rfl⟩ := List.mem_map.mp hb
  obtain ⟨hlive, hu⟩ := hg.shaped.charged_started ha (by simpa using hx)
  have hcr : c₁.rt.Created x := (hg.shaped.live_iff.mp hlive).1
  have haddr : (c₁.graph.step env c₁.rt e).addr x = c₁.graph.addr x :=
    addr_step_of_mem ha (hg.shaped.order_iff.mpr hcr)
  show Tool.firstStart env pre ((c₁.graph.step env c₁.rt e).addr x) ≠ none
  rw [haddr]
  exact fun hn => hu (((started_run hmono hc₁).unstarted hcr).mp hn)

theorem times_sane_taskInBarrier :
    ∃ s s', Tool.run { clock := fun k => k } taskInBarrier = some s ∧
      Sane { clock := fun k => k } taskInBarrier s ∧
      s.closeFinalNode { clock := fun k => k } 0 = some s' ∧
      Sane { clock := fun k => k } taskInBarrier s' := by
  obtain ⟨o, ho, -, -⟩ := taskInBarrier_ended
  have hmono : Monotone (Env.clock { clock := fun k => k }) := fun _ _ h => Nat.cast_le.mpr h
  obtain ⟨s, hs, hsane, -, hclose⟩ := times_sane { clock := fun k => k } hmono ho
  obtain ⟨s', h1, -, h2⟩ := hclose 0
  exact ⟨s, s', hs, hsane, h1, h2⟩

/-- A loop outside regions, with a call that announces no iterations. -/
def emptyLoop : List Event :=
  [⟨0, .threadBegin⟩,
    ⟨0, .taskCreate (.initial 0) (.initial 0) .initial⟩,
    ⟨0, .extLoop .scopeBegin (.initial 0) 0 7⟩,
    ⟨0, .extChunk (.initial 0) 0 7 true⟩,
    ⟨0, .extLoop .scopeEnd (.initial 0) 0 7⟩]

/-- Readings for the loop: its start node is started at 2.6 and charged at 7.1
and at 7.3. -/
def loopClock : ℕ → ℚ := readings [2.6, 2.6, 2.6, 7.1] 7.3

/-- **In doubles a node can hold more than its time.**  The start node of the
loop gets 4.5 and 0.20000000000000018, which doubles add to 4.7, and
4.699999999999999 has passed since it was started. -/
theorem emptyLoop_total_exceeds :
    Monotone loopClock ∧ (∀ k, IsDouble (loopClock k)) ∧
      ∃ o s nd t, Runtime.run emptyLoop = some o ∧
        Tool.run { clock := loopClock } emptyLoop = some s ∧ s.nodes 1 = some nd ∧
        Tool.firstStart { clock := loopClock } emptyLoop 1 = some t ∧
        nd.lastTime - t < s.timeIn .double 1 := by
  refine ⟨readings_mono (by decide +kernel), readings_isDouble (by decide +kernel), ?_⟩
  have heval : (do
      let o ← Runtime.run emptyLoop
      let s ← Tool.run { clock := loopClock } emptyLoop
      let nd ← s.nodes 1
      let t ← Tool.firstStart { clock := loopClock } emptyLoop 1
      some (decide (nd.lastTime - t < s.timeIn .double 1))) = some true := by decide +kernel
  obtain ⟨o, h1, heval⟩ := Option.bind_eq_some_iff.mp heval
  obtain ⟨s, h2, heval⟩ := Option.bind_eq_some_iff.mp heval
  obtain ⟨nd, h3, heval⟩ := Option.bind_eq_some_iff.mp heval
  obtain ⟨t, h4, heval⟩ := Option.bind_eq_some_iff.mp heval
  exact ⟨o, s, nd, t, h1, h2, h3, h4, of_decide_eq_true (Option.some.inj heval)⟩

end Config

end Tdg
