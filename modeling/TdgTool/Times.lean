/-
TdgTool/Times.lean

Which node a callback charges, which nodes it starts, and what follows for the
times of all nodes.

A callback charges at most one node (`charged`), by an `addTime` that comes
before everything else it does to times, and starts some nodes (`stamped`), by
`setLastTime`.  The lemmas `step_ticks`, `step_charges`, `step_lastTime` and
`step_totalTime` say so once for all callbacks.  `Ledger` is what follows
without any assumption on the run: a node's total time is the sum of what was
charged to it, in intervals that follow one another.
-/
import TdgTool.Runs

namespace Tdg

/-- The length of a charged interval. -/
def Charge.length {ρ : Type} (c : Charge ρ) : ℚ := c.stop - c.start

namespace RoleGraph

open Tdg.Runtime

variable {o : Runtime} {g : RoleGraph} {env : Env} {e : Event} {x y z : Role} {τ : TaskId}
  {r : RegionId} {th : ThreadId}

/-! ### Charges and stamps -/

/-- The node that a callback charges. -/
def charged (g : RoleGraph) (o : Runtime) (e : Event) : Option Role :=
  match e.call with
  | .implicitTask .scopeEnd r _ _ threadNum =>
      match g.bar (.implicit r threadNum) with
      | some _ => none
      | none => some (g.cur (.implicit r threadNum))
  | .parallelBegin parent _ _ _ _ => some (g.cur parent)
  | .taskSchedule first _ _ => some (g.cur first)
  | .syncRegion .barrier .scopeBegin r (.implicit _ t) =>
      if 1 < (o.region r).requested then some (g.cur (.implicit r t)) else none
  | .extLoop .scopeBegin τ _ _ => some (g.cur τ)
  | .extLoop .scopeEnd τ _ _ => some (openNode o τ)
  | .extChunk τ _ _ lastChunk =>
      if lastChunk = true ∧ (o.task τ).chunks (o.task τ).loops ≠ 0 then none
      else some (openNode o τ)
  | _ => none

/-- The nodes that a callback starts. -/
def stamped (g : RoleGraph) (o : Runtime) (e : Event) : List Role :=
  match e.call with
  | .implicitTask .scopeBegin r _ _ threadNum => [.imp r threadNum 0]
  | .parallelEnd r _ => [.sink r]
  | .taskCreate _ _ .initial => [.root]
  | .taskCreate _ (.explicit n) .explicit => [.exp n]
  | .taskSchedule _ _ second => [g.cur second]
  | .syncRegion .barrier .scopeBegin r (.implicit _ t) =>
      if 1 < (o.region r).requested then
        (if (o.region r).arrivals % (o.region r).requested = 0 then
          [.barrier r ((o.region r).arrivals / (o.region r).requested)] else []) ++
        [.imp r t ((o.task (.implicit r t)).arrived + 1)]
      else []
  | .syncRegion .barrier .scopeEnd r (.implicit _ t) =>
      if (o.region r).stage = .opened ∧ 1 < (o.region r).requested then [g.cur (.implicit r t)]
      else []
  | .extLoop .scopeBegin τ _ _ => [.ws τ (o.task τ).loops]
  | .extLoop .scopeEnd τ _ _ => [.loopSink τ (o.task τ).loops]
  | .extChunk τ _ _ lastChunk =>
      if lastChunk then [] else [.chunk τ (o.task τ).loops ((o.task τ).chunks (o.task τ).loops)]
  | _ => []

/-! ### How the elementary operations compose -/

/-- `g'` arises from `g` by charging one node, and then creating and starting
nodes. -/
structure Timed (env : Env) (th : ThreadId) (g g' : RoleGraph) (ch : Option Role)
    (st nw : List Role) : Prop where
  ticks : g.ticks + ch.toList.length ≤ g'.ticks
  charges : g'.charges = g.charges ++ ch.toList.map fun x =>
    ⟨th, x, (g.data x).lastTime, env.clock g.ticks⟩
  stamp : ∀ {z}, z ∈ st → ∃ k, g.ticks ≤ k ∧ k < g'.ticks ∧ (g'.data z).lastTime = env.clock k
  charge : ∀ {z}, z ∉ st → z ∉ nw → ch = some z → (g'.data z).lastTime = env.clock g.ticks
  keep : ∀ {z}, z ∉ st → z ∉ nw → ch ≠ some z → (g'.data z).lastTime = (g.data z).lastTime
  total_new : ∀ {z}, z ∈ nw → (g'.data z).totalTime = 0
  total : ∀ {z}, z ∉ nw → (g'.data z).totalTime = (g.data z).totalTime +
    if ch = some z then env.clock g.ticks - (g.data z).lastTime else 0

namespace Timed

variable {g' : RoleGraph} {ch : Option Role} {st nw : List Role}

theorem refl : Timed env th g g none [] [] where
  ticks := by simp
  charges := by simp
  stamp := by simp
  charge := by simp
  keep := by simp
  total_new := by simp
  total := by simp

theorem addTime : Timed env th g (g.addTime env th x) (some x) [] [] where
  ticks := by simp
  charges := by simp
  stamp := by simp
  charge := by
    rintro z - - ⟨⟩
    simp [NodeData.addTime]
  keep := by
    intro z _ _ hz
    have : z ≠ x := fun h => hz (by rw [h])
    simp [this]
  total_new := by simp
  total := by
    intro z _
    by_cases hz : z = x
    · simp [hz, NodeData.addTime]
    · have : ¬x = z := fun h => hz h.symm
      simp [hz, this]

/-- An operation that touches no times. -/
theorem same {g'' : RoleGraph} (h : Timed env th g g' ch st nw) (ht : g''.ticks = g'.ticks)
    (hc : g''.charges = g'.charges)
    (hl : ∀ z, (g''.data z).lastTime = (g'.data z).lastTime)
    (hs : ∀ z, (g''.data z).totalTime = (g'.data z).totalTime) :
    Timed env th g g'' ch st nw where
  ticks := ht ▸ h.ticks
  charges := hc.trans h.charges
  stamp := fun hz => by
    rw [hl, ht]
    exact h.stamp hz
  charge := fun h1 h2 h3 => (hl _).trans (h.charge h1 h2 h3)
  keep := fun h1 h2 h3 => (hl _).trans (h.keep h1 h2 h3)
  total_new := fun hz => (hs _).trans (h.total_new hz)
  total := fun hz => (hs _).trans (h.total hz)

theorem create (h : Timed env th g g' ch st nw) (hx : x ∉ st) :
    Timed env th g (g'.create x) ch st (x :: nw) where
  ticks := h.ticks
  charges := h.charges
  stamp := by
    intro z hz
    have : z ≠ x := fun e => hx (e ▸ hz)
    simpa [this] using h.stamp hz
  charge := by
    intro z h1 h2 h3
    obtain ⟨h4, h5⟩ : z ≠ x ∧ z ∉ nw := by simpa using h2
    simpa [h4] using h.charge h1 h5 h3
  keep := by
    intro z h1 h2 h3
    obtain ⟨h4, h5⟩ : z ≠ x ∧ z ∉ nw := by simpa using h2
    simpa [h4] using h.keep h1 h5 h3
  total_new := by
    intro z hz
    by_cases hzx : z = x
    · simp [hzx]
    · simpa [hzx] using h.total_new ((List.mem_cons.mp hz).resolve_left hzx)
  total := by
    intro z hz
    obtain ⟨h4, h5⟩ : z ≠ x ∧ z ∉ nw := by simpa using hz
    simpa [h4] using h.total h5

theorem setLastTime (h : Timed env th g g' ch st nw) :
    Timed env th g (g'.setLastTime env x) ch (x :: st) nw where
  ticks := h.ticks.trans (Nat.le_succ _)
  charges := h.charges
  stamp := by
    intro z hz
    by_cases hzx : z = x
    -- the reading of this call, or an earlier one of the same callback
    · have := h.ticks
      exact ⟨g'.ticks, by omega, by simp, by simp [hzx, NodeData.setLastTime]⟩
    · obtain ⟨k, h1, h2, h3⟩ := h.stamp ((List.mem_cons.mp hz).resolve_left hzx)
      exact ⟨k, h1, h2.trans (Nat.lt_succ_self _), by simpa [hzx] using h3⟩
  charge := by
    intro z h1 h2 h3
    obtain ⟨h4, h5⟩ : z ≠ x ∧ z ∉ st := by simpa using h1
    simpa [h4] using h.charge h5 h2 h3
  keep := by
    intro z h1 h2 h3
    obtain ⟨h4, h5⟩ : z ≠ x ∧ z ∉ st := by simpa using h1
    simpa [h4] using h.keep h5 h2 h3
  total_new := by
    intro z hz
    by_cases hzx : z = x
    · simpa [hzx, NodeData.setLastTime] using h.total_new (hzx ▸ hz)
    · simpa [hzx] using h.total_new hz
  total := by
    intro z hz
    by_cases hzx : z = x
    · simpa [hzx, NodeData.setLastTime] using h.total (hzx ▸ hz)
    · simpa [hzx] using h.total hz

theorem createBelow (h : Timed env th g g' ch st nw) {p : Role} (hx : x ∉ st) :
    Timed env th g (g'.createBelow env p x) ch (x :: st) (x :: nw) :=
  have hconn : Timed env th g ((g'.create x).connect p x) ch st (x :: nw) :=
    (h.create hx).same rfl rfl (fun _ => rfl) fun _ => rfl
  hconn.setLastTime

theorem connect (h : Timed env th g g' ch st nw) : Timed env th g (g'.connect x y) ch st nw :=
  h.same rfl rfl (fun _ => rfl) fun _ => rfl

theorem onData (h : Timed env th g g' ch st nw) {f : NodeData → NodeData}
    (hf : ∀ nd, (f nd).lastTime = nd.lastTime ∧ (f nd).totalTime = nd.totalTime) :
    Timed env th g (g'.onData x f) ch st nw := by
  refine h.same rfl rfl (fun z => ?_) fun z => ?_
  · by_cases hz : z = x
    · simp [hz, (hf _).1]
    · simp [hz]
  · by_cases hz : z = x
    · simp [hz, (hf _).2]
    · simp [hz]

theorem congr {st' nw' : List Role} (h : Timed env th g g' ch st nw)
    (hst : ∀ z, z ∈ st' ↔ z ∈ st) (hnw : ∀ z, z ∈ nw' ↔ z ∈ nw) :
    Timed env th g g' ch st' nw' where
  ticks := h.ticks
  charges := h.charges
  stamp := fun hz => h.stamp ((hst _).mp hz)
  charge := fun h1 h2 => h.charge (fun hz => h1 ((hst _).mpr hz)) fun hz => h2 ((hnw _).mpr hz)
  keep := fun h1 h2 => h.keep (fun hz => h1 ((hst _).mpr hz)) fun hz => h2 ((hnw _).mpr hz)
  total_new := fun hz => h.total_new ((hnw _).mp hz)
  total := fun hz => h.total fun hz' => hz ((hnw _).mpr hz')

/-- Closing a chunk stores its counter values first. -/
theorem endPapi_addTime :
    Timed env th g ((g.endPapi env th x).addTime env th x) (some x) [] [] := by
  refine (addTime (x := x)).same rfl ?_ (fun z => ?_) fun z => ?_
  · simp [NodeData.setPapiVals]
  · by_cases hz : z = x
    · simp [hz, NodeData.addTime]
    · simp [hz]
  · by_cases hz : z = x
    · simp [hz, NodeData.addTime, NodeData.setPapiVals]
    · simp [hz]

/-- Closing the open node of a loop charges it. -/
theorem closeOpen :
    Timed env th g (g.closeOpen env th o τ) (some (openNode o τ)) [] [] := by
  unfold RoleGraph.closeOpen openNode
  rcases (o.task τ).chunks (o.task τ).loops with - | c
  · exact addTime
  · exact endPapi_addTime

theorem chunkOpen (h : Timed env th g g' ch st nw) {lower upper : ℤ}
    (hx : .chunk τ (o.task τ).loops ((o.task τ).chunks (o.task τ).loops) ∉ st) :
    Timed env th g (g'.chunkOpen env th o τ lower upper) ch
      (.chunk τ (o.task τ).loops ((o.task τ).chunks (o.task τ).loops) :: st)
      (.chunk τ (o.task τ).loops ((o.task τ).chunks (o.task τ).loops) :: nw) := by
  have h1 := h.createBelow (p := .ws τ (o.task τ).loops) hx
  have h2 := h1.onData (x := .chunk τ (o.task τ).loops ((o.task τ).chunks (o.task τ).loops))
    (f := fun nd => ((nd.setLowerUpper lower upper).setLoopCounter (g'.loopCounter th)).setThreadId
      (threadNumOf τ)) fun _ => ⟨rfl, rfl⟩
  have h3 := h2.connect (x := .chunk τ (o.task τ).loops ((o.task τ).chunks (o.task τ).loops))
    (y := .loopSink τ (o.task τ).loops)
  have h4 := h3.onData (x := .chunk τ (o.task τ).loops ((o.task τ).chunks (o.task τ).loops))
    (f := fun nd => nd.initPapiVals env.numPapiEvents) fun _ => ⟨rfl, rfl⟩
  exact h4.same rfl rfl (fun _ => rfl) fun _ => rfl

end Timed

/-- **What a callback does to times.** -/
theorem step_timed (env : Env) (g : RoleGraph) (ha : o.allows e = true) :
    Timed env e.thread g (g.step env o e) (g.charged o e) (g.stamped o e) (o.newRoles e) := by
  -- the callbacks are compositions, and so are the proofs: start from `addTime` or from nothing
  have hquiet : ∀ {g' : RoleGraph} {th}, g'.ticks = g.ticks → g'.charges = g.charges →
      g'.data = g.data → Timed env th g g' none [] [] := fun ht hc hd =>
    Timed.refl.same ht hc (fun z => by rw [hd]) fun z => by rw [hd]
  cases delivers_of_allows ha with
  | threadBegin => exact hquiet rfl rfl rfl
  | threadEnd => exact .refl
  | initial =>
    exact ((Timed.refl.create (by simp)).setLastTime).same rfl rfl (fun _ => rfl) fun _ => rfl
  | explicit =>
    exact (Timed.refl.createBelow (by simp)).same rfl rfl (fun _ => rfl) fun _ => rfl
  | schedule => exact Timed.addTime.setLastTime
  | parallelBegin => exact Timed.addTime.create (by simp)
  | @parallelEnd th r hopen =>
    have h : Timed env th g (g.setCur (o.region r).parent (.sink r)) none [] [] :=
      hquiet rfl rfl rfl
    exact (h.setLastTime (x := .sink r)).same rfl rfl (fun _ => rfl) fun _ => rfl
  | implicitBegin =>
    exact (Timed.refl.createBelow (by simp)).same rfl rfl (fun _ => rfl) fun _ => rfl
  | @implicitEnd th r t =>
    simp only [RoleGraph.step, charged, stamped, newRoles, RoleGraph.implicitEnd]
    rcases g.bar (.implicit r t) with - | b
    · exact Timed.addTime.connect
    · split_ifs <;> exact hquiet rfl rfl rfl
  | @barrierBegin th r t =>
    simp only [RoleGraph.step, charged, stamped, newRoles]
    split_ifs with hreq h0
    · simp only [RoleGraph.barrierBegin, RoleGraph.reachBarrier, h0, if_true]
      refine Timed.congr (((Timed.addTime.createBelow (by simp)).createBelow (by simp)).same
        rfl rfl (fun _ => rfl) fun _ => rfl) ?_ ?_
      · intro z
        simp [or_comm]
      · intro z
        simp [or_comm]
    · simp only [RoleGraph.barrierBegin, RoleGraph.reachBarrier, h0, if_false]
      exact (Timed.addTime.connect.createBelow (by simp)).same rfl rfl (fun _ => rfl) fun _ => rfl
    · exact .refl
  | barrierEnd =>
    simp only [RoleGraph.step, charged, stamped, newRoles]
    split_ifs
    · exact Timed.refl.setLastTime
    · exact .refl
  | @outside _ endpoint => cases endpoint <;> exact .refl
  | @sync _ kind _ _ _ _ _ hkind =>
    cases kind with
    | barrier => exact absurd rfl hkind
    | taskwait => exact .refl
    | taskgroup => exact .refl
  | @loopBegin th τ lower upper =>
    have h : Timed env th g ((g.addTime env th (g.cur τ)).createBelow env (g.cur τ)
        (.ws τ (o.task τ).loops)) (some (g.cur τ)) [.ws τ (o.task τ).loops]
        [.ws τ (o.task τ).loops] := Timed.addTime.createBelow (by simp)
    refine Timed.congr ((h.onData (f := fun nd => nd.setLowerUpper lower upper)
      fun _ => ⟨rfl, rfl⟩).create (x := .loopSink τ (o.task τ).loops) (by simp))
      (fun z => Iff.rfl) fun z => ?_
    simp [newRoles, or_comm]
  | @loopEnd th τ =>
    simp only [RoleGraph.step, charged, stamped, newRoles, RoleGraph.loopEnd]
    split_ifs
    · exact (Timed.closeOpen.connect.setLastTime).same rfl rfl (fun _ => rfl) fun _ => rfl
    · exact Timed.closeOpen.setLastTime.same rfl rfl (fun _ => rfl) fun _ => rfl
  | @chunk th τ lower upper lastChunk =>
    simp only [RoleGraph.step, charged, stamped, newRoles, RoleGraph.chunk]
    cases lastChunk with
    | true =>
      by_cases h0 : (o.task τ).chunks (o.task τ).loops = 0
      · simpa [h0] using Timed.closeOpen
      · simpa [h0] using Timed.refl
    | false =>
      simp only [Bool.false_eq_true, if_false, false_and]
      exact Timed.closeOpen.chunkOpen (by simp)

/-- An interval was charged before, or is charged by this callback. -/
theorem mem_step_charges (ha : o.allows e = true) {c : Charge Role}
    (hc : c ∈ (g.step env o e).charges) : c ∈ g.charges ∨ ∃ x, g.charged o e = some x ∧
      c = ⟨e.thread, x, (g.data x).lastTime, env.clock g.ticks⟩ := by
  rw [(step_timed env g ha).charges] at hc
  rcases List.mem_append.mp hc with hold | hnew
  · exact .inl hold
  · obtain ⟨x, hx, rfl⟩ := List.mem_map.mp hnew
    exact .inr ⟨x, by simpa using hx, rfl⟩

/-! ### Nodes that have been started -/

/-- The sinks of open regions and loops are created without a start time. -/
def Unstarted (o : Runtime) : Role → Prop
  | .sink r => (o.region r).stage = .opened
  | .loopSink τ l => (o.task τ).inLoop = true ∧ l = (o.task τ).loops
  | _ => False

/-- The current node of a task has been started. -/
theorem started_of_seat (hs : o.Seat τ x) : ¬Unstarted o x := by
  cases x with
  | sink r =>
    intro hu
    have hend := hs.1
    rw [show (o.region r).stage = .opened from hu] at hend
    cases hend
  | loopSink σ l =>
    obtain ⟨rfl, hl⟩ := hs
    rintro ⟨-, rfl⟩
    omega
  | _ => exact id

/-- The node of a loop that time is spent on. -/
theorem Shaped.openNode_live (h : Shaped o g) (hloop : (o.task τ).inLoop = true) :
    g.live (openNode o τ) = true ∧ ¬Unstarted o (openNode o τ) := by
  obtain ⟨h1, -, h2⟩ := h.loop_live hloop
  unfold openNode
  rcases hc : (o.task τ).chunks (o.task τ).loops with - | c
  · exact ⟨h1, id⟩
  · exact ⟨h2 c (by omega), id⟩

/-- A callback charges a node that exists and has been started. -/
theorem Shaped.charged_started (h : Shaped o g) (ha : o.allows e = true)
    (hx : g.charged o e = some x) : g.live x = true ∧ ¬Unstarted o x := by
  -- a task is never seated at a node without a start time
  have hcur : ∀ {τ}, (o.task τ).standing = .active → g.cur τ = x →
      g.live x = true ∧ ¬Unstarted o x := by
    rintro τ hact rfl
    have hd := hasData_of_active hact
    exact ⟨h.cur_live hd, started_of_seat (h.seat hd).2⟩
  cases delivers_of_allows ha with
  | @implicitEnd _ r t _ hact =>
    simp only [charged] at hx
    split at hx
    · cases hx
    · exact hcur hact.2 (Option.some.inj hx)
  | parallelBegin hact => exact hcur hact.2 (Option.some.inj hx)
  | schedule hact => exact hcur hact.2 (Option.some.inj hx)
  | barrierBegin hact =>
    simp only [charged] at hx
    split_ifs at hx
    exact hcur hact.2 (Option.some.inj hx)
  | loopBegin _ hact => exact hcur hact.2 (Option.some.inj hx)
  | loopEnd _ _ hloop =>
    obtain rfl := Option.some.inj hx
    exact h.openNode_live hloop
  | chunk _ _ hloop =>
    simp only [charged] at hx
    split_ifs at hx
    obtain rfl := Option.some.inj hx
    exact h.openNode_live hloop
  | @outside _ endpoint => cases endpoint <;> cases hx
  | @sync _ kind _ _ _ _ _ hkind =>
    cases kind with
    | barrier => exact absurd rfl hkind
    | taskwait => cases hx
    | taskgroup => cases hx
  | _ => cases hx

/-- A started node was started before, or is started now. -/
theorem started_of_apply (hS : o.Sound) (ha : o.allows e = true) (hc : (o.apply e).Created x)
    (hu : ¬Unstarted (o.apply e) x) :
    o.Created x ∧ ¬Unstarted o x ∨ x ∈ g.stamped o e := by
  rcases (created_apply hS ha).mp hc with hc | hnew
  -- the sinks are the nodes that are created first and started later
  · by_cases hold : Unstarted o x
    · refine .inr ?_
      cases x with
      | sink r =>
        have hr := regionChange ha r
        simp only [Unstarted] at hold hu
        generalize (o.apply e).region r = ρ at hr hu
        cases hr with
        | ended hcall => simp [stamped, hcall]
        | opened => simp at hu
        | same => exact absurd hold hu
        | reached => exact absurd hold hu
      | loopSink τ l =>
        have ht := taskChange ha τ
        obtain ⟨hin, rfl⟩ := hold
        simp only [Unstarted] at hu
        generalize (o.apply e).task τ = v at ht hu
        cases ht with
        | loopEnd _ _ _ hcall => simp [stamped, hcall]
        | created _ habs =>
          rw [hS.fresh habs] at hin
          cases hin
        | loopBegin _ _ hl => simp [hin] at hl
        | _ => exact absurd ⟨hin, rfl⟩ hu
      | _ => exact hold.elim
    · exact .inl ⟨hc, hold⟩
  · refine .inr ?_
    -- a new node: all but the sinks are started by the callback that creates them
    cases delivers_of_allows ha with
    | @parallelBegin _ _ r =>
      obtain rfl : x = .sink r := by simpa [newRoles] using hnew
      exact absurd (by simp [Unstarted, Runtime.apply]) hu
    | @loopBegin _ τ =>
      simp only [newRoles, List.mem_cons, List.not_mem_nil, or_false] at hnew
      rcases hnew with rfl | rfl
      · simp [stamped]
      · exact absurd (by simp [Unstarted, Runtime.apply]) hu
    | initial => exact hnew
    | explicit => exact hnew
    | implicitBegin => exact hnew
    | barrierBegin => exact hnew
    | chunk => exact hnew
    | @outside _ endpoint => cases endpoint <;> cases hnew
    | @sync _ kind _ _ _ _ _ hkind =>
      cases kind with
      | barrier => exact absurd rfl hkind
      | taskwait => cases hnew
      | taskgroup => cases hnew
    | _ => cases hnew

/-! ### The ledger -/

/-- The intervals charged to a node, in order. -/
def chargesOf (g : RoleGraph) (x : Role) : List (Charge Role) :=
  g.charges.filter fun c => c.node = x

/-- What holds of the times of nodes for every nondecreasing clock. -/
structure Ledger (env : Env) (o : Runtime) (g : RoleGraph) : Prop where
  clocked : ∀ {x}, o.Created x → ¬Unstarted o x →
    ∃ k < g.ticks, (g.data x).lastTime = env.clock k
  window : ∀ {c}, c ∈ g.charges → env.clock 0 ≤ c.start ∧ c.start ≤ c.stop ∧
    c.stop ≤ (g.data c.node).lastTime
  started : ∀ {c}, c ∈ g.charges → o.Created c.node ∧ ¬Unstarted o c.node
  sequential : g.charges.Pairwise fun a b => a.node = b.node → a.stop ≤ b.start
  total : ∀ {x}, o.Created x → (g.data x).totalTime = ((g.chargesOf x).map Charge.length).sum

/-- A node that was started stays started. -/
theorem unstarted_of_apply (hS : o.Sound) (ha : o.allows e = true) (hx : o.Created x)
    (hu : Unstarted (o.apply e) x) : Unstarted o x := by
  cases x with
  | sink r => exact pending_of_apply (x := .sink r) hS ha hx hu
  | loopSink τ l => exact pending_of_apply (x := .loopSink τ l) hS ha hx hu
  | _ => exact hu

theorem ledger_init : Ledger env Runtime.init RoleGraph.init where
  clocked := fun hx => absurd (shaped_init.order_iff.mpr hx) (by simp [RoleGraph.init])
  window := by simp [RoleGraph.init]
  started := by simp [RoleGraph.init]
  sequential := List.Pairwise.nil
  total := fun hx => absurd (shaped_init.order_iff.mpr hx) (by simp [RoleGraph.init])

/-- The start time of a started node never decreases, and is at least the time
of the callback if the node is charged. -/
theorem Ledger.lastTime_le (h : Ledger env o g) (hmono : Monotone env.clock)
    (ha : o.allows e = true) (hx : o.Created x) (hu : ¬Unstarted o x) :
    (g.data x).lastTime ≤ ((g.step env o e).data x).lastTime ∧
      (g.charged o e = some x → env.clock g.ticks ≤ ((g.step env o e).data x).lastTime) := by
  have hT := step_timed env g ha
  have hnew : x ∉ o.newRoles e := fun hn => newRoles_fresh ha hn hx
  obtain ⟨k, hk, hlast⟩ := h.clocked hx hu
  by_cases hst : x ∈ g.stamped o e
  · obtain ⟨k', hk', -, hlast'⟩ := hT.stamp hst
    rw [hlast, hlast']
    exact ⟨hmono (by omega), fun _ => hmono hk'⟩
  · by_cases hch : g.charged o e = some x
    · rw [hT.charge hst hnew hch, hlast]
      exact ⟨hmono hk.le, fun _ => le_rfl⟩
    · rw [hT.keep hst hnew hch]
      exact ⟨le_rfl, fun hc => absurd hc hch⟩

/-- **Every callback keeps the ledger.** -/
theorem Ledger.step (h : Ledger env o g) (hW : Shaped o g) (hS : o.Sound)
    (hmono : Monotone env.clock) (ha : o.allows e = true) :
    Ledger env (o.apply e) (g.step env o e) := by
  have hT := step_timed env g ha
  have hticks := hT.ticks
  -- the charge of this callback
  have hcharge : ∀ {x}, g.charged o e = some x → o.Created x ∧ ¬Unstarted o x := by
    intro x hx
    obtain ⟨hl, hu⟩ := hW.charged_started ha hx
    exact ⟨(hW.live_iff.mp hl).1, hu⟩
  refine ⟨?_, ?_, ?_, ?_, ?_⟩
  · intro x hx hu
    rcases started_of_apply (g := g) hS ha hx hu with ⟨hc, hu'⟩ | hst
    · have hnew : x ∉ o.newRoles e := fun hn => newRoles_fresh ha hn hc
      by_cases hst : x ∈ g.stamped o e
      · obtain ⟨k, -, hk, hlast⟩ := hT.stamp hst
        exact ⟨k, hk, hlast⟩
      · by_cases hch : g.charged o e = some x
        · refine ⟨g.ticks, ?_, hT.charge hst hnew hch⟩
          simp only [hch, Option.toList_some, List.length_singleton] at hticks
          omega
        · obtain ⟨k, hk, hlast⟩ := h.clocked hc hu'
          exact ⟨k, by omega, (hT.keep hst hnew hch).trans hlast⟩
    · obtain ⟨k, -, hk, hlast⟩ := hT.stamp hst
      exact ⟨k, hk, hlast⟩
  · intro c hc
    rcases mem_step_charges ha hc with hold | ⟨x, hx, rfl⟩
    · obtain ⟨h1, h2, h3⟩ := h.window hold
      obtain ⟨h4, h5⟩ := h.started hold
      exact ⟨h1, h2, h3.trans (h.lastTime_le hmono ha h4 h5).1⟩
    · obtain ⟨hcr, hu⟩ := hcharge hx
      obtain ⟨k, hk, hlast⟩ := h.clocked hcr hu
      refine ⟨?_, ?_, (h.lastTime_le hmono ha hcr hu).2 hx⟩
      · simp only [hlast]
        exact hmono (Nat.zero_le k)
      · simp only [hlast]
        exact hmono hk.le
  · intro c hc
    have hkeep : o.Created c.node → ¬Unstarted o c.node →
        (o.apply e).Created c.node ∧ ¬Unstarted (o.apply e) c.node := fun h1 h2 =>
      ⟨(created_apply hS ha).mpr (.inl h1), fun hu => h2 (unstarted_of_apply hS ha h1 hu)⟩
    rcases mem_step_charges ha hc with hold | ⟨x, hx, rfl⟩
    · exact hkeep (h.started hold).1 (h.started hold).2
    · exact hkeep (hcharge hx).1 (hcharge hx).2
  · rw [hT.charges]
    refine List.pairwise_append.mpr ⟨h.sequential, ?_, ?_⟩
    · rcases g.charged o e with - | x <;> simp
    · intro a haa b hb hab
      obtain ⟨x, -, rfl⟩ := List.mem_map.mp hb
      obtain rfl : a.node = x := hab
      exact (h.window haa).2.2
  · intro x hx
    rcases (created_apply hS ha).mp hx with hc | hnew
    · have hnew : x ∉ o.newRoles e := fun hn => newRoles_fresh ha hn hc
      rw [hT.total hnew, h.total hc]
      simp only [chargesOf, hT.charges, List.filter_append, List.map_append, List.sum_append]
      congr 1
      rcases hch : g.charged o e with - | y
      · simp
      · by_cases hyx : y = x
        · simp [hyx, Charge.length]
        · simp [hyx]
    · -- nothing was charged to a node before it was created
      rw [hT.total_new hnew]
      have hnone : (g.step env o e).chargesOf x = [] := by
        refine List.filter_eq_nil_iff.mpr fun c hc hcx => ?_
        have hcx : c.node = x := by simpa using hcx
        have hcr : o.Created c.node := by
          rcases mem_step_charges ha hc with hold | ⟨y, hy, rfl⟩
          · exact (h.started hold).1
          · exact (hcharge hy).1
        exact newRoles_fresh ha hnew (hcx ▸ hcr)
      rw [hnone]
      rfl

/-! ### The final node -/

/-- The node that a callback makes `g_finalNode`. -/
def newFinal (e : Event) : Option Role :=
  match e.call with
  | .taskCreate _ _ .initial => some .root
  | .parallelEnd r _ => some (.sink r)
  | _ => none

theorem step_final (ha : o.allows e = true) :
    (g.step env o e).finalNode = (newFinal e).or g.finalNode := by
  cases delivers_of_allows ha with
  | @implicitEnd _ r t =>
    simp only [RoleGraph.step, newFinal, RoleGraph.implicitEnd, Option.none_or]
    rcases g.bar (.implicit r t) with - | b
    · rfl
    · split_ifs <;> rfl
  | barrierBegin =>
    simp only [RoleGraph.step, newFinal, RoleGraph.barrierBegin, RoleGraph.reachBarrier,
      Option.none_or]
    split_ifs <;> rfl
  | barrierEnd =>
    simp only [RoleGraph.step, newFinal, Option.none_or]
    split_ifs <;> rfl
  | @outside _ endpoint => cases endpoint <;> rfl
  | @sync _ kind _ _ _ _ _ hkind =>
    cases kind with
    | barrier => exact absurd rfl hkind
    | taskwait => rfl
    | taskgroup => rfl
  | @loopEnd _ τ =>
    simp only [RoleGraph.step, newFinal, RoleGraph.loopEnd, closeOpen, Option.none_or]
    rcases (o.task τ).chunks (o.task τ).loops with - | c <;> split_ifs <;> rfl
  | @chunk _ τ _ _ lastChunk =>
    simp only [RoleGraph.step, newFinal, RoleGraph.chunk, closeOpen, Option.none_or]
    rcases (o.task τ).chunks (o.task τ).loops with - | c <;> cases lastChunk <;> rfl
  | _ => rfl

/-- `g_finalNode` is the root or the sink of a region that has ended. -/
def FinalSeat (o : Runtime) : Role → Prop
  | .root => (o.task (.initial 0)).standing ≠ .absent
  | .sink r => (o.region r).stage = .ended
  | _ => False

theorem FinalSeat.apply (h : FinalSeat o x) (ha : o.allows e = true) :
    FinalSeat (o.apply e) x := by
  cases x with
  | root => exact task_present_apply ha h
  | sink r => exact ended_apply ha h
  | _ => exact h

theorem finalSeat_new (ha : o.allows e = true) (hx : newFinal e = some x) :
    FinalSeat (o.apply e) x := by
  cases delivers_of_allows ha with
  | initial =>
    obtain rfl : Role.root = x := Option.some.inj hx
    simp [FinalSeat, Runtime.apply]
  | @parallelEnd _ r =>
    obtain rfl : Role.sink r = x := Option.some.inj hx
    simp [FinalSeat, Runtime.apply]
  | _ => cases hx

/-- The graph after the first statement of `finalize_libtdg`. -/
def closeFinal (g : RoleGraph) (env : Env) (th : ThreadId) : RoleGraph :=
  match g.finalNode with
  | some x => g.addTime env th x
  | none => g

theorem Closed.closeFinal {T : Tables} (hC : Closed T g) (env : Env) (th : ThreadId) :
    Closed T (g.closeFinal env th) := by
  unfold RoleGraph.closeFinal
  rcases hx : g.finalNode with - | x
  · exact hC
  · exact hC.addTime (hC.final_mem hx)

theorem realize_closeFinalNode {T : Tables} (hC : Closed T g) (env : Env) (th : ThreadId)
    (hlive : ∀ x, g.finalNode = some x → g.live x = true) :
    (realize T g).closeFinalNode env th = some (realize T (g.closeFinal env th)) := by
  have hfinal : (realize T g).finalNode = g.finalNode.map g.addr := rfl
  unfold RoleGraph.closeFinal Tool.closeFinalNode
  rw [hfinal]
  rcases hx : g.finalNode with - | x
  · rfl
  · exact realize_addTime hC (hlive x hx)

end RoleGraph

namespace Config

open RoleGraph

/-- **The ledger of every run.** -/
theorem ledger_run {env : Env} {es : List Event} {c : Config} (hmono : Monotone env.clock)
    (hrun : run env es = some c) : Ledger env c.rt c.graph := by
  refine (run_induction (P := fun c => Ledger env c.rt c.graph) ledger_init ?_ hrun).2
  intro c e hg ha hL
  exact hL.step hg.shaped hg.sound hmono ha

theorem finalSeat_run {env : Env} {es : List Event} {c : Config} {x : Role}
    (hrun : run env es = some c) (hx : c.graph.finalNode = some x) : FinalSeat c.rt x := by
  refine (run_induction (P := fun c => ∀ x, c.graph.finalNode = some x → FinalSeat c.rt x)
    (by simp [Config.init, RoleGraph.init]) ?_ hrun).2 x hx
  intro c e hg ha ih x hx
  simp only [next, step_final ha] at hx
  rcases hn : newFinal e with - | y
  · rw [hn, Option.none_or] at hx
    exact (ih x hx).apply ha
  · rw [hn, Option.some_or] at hx
    obtain rfl := Option.some.inj hx
    exact finalSeat_new ha hn

/-- `finalize_libtdg` closes a node that exists. -/
theorem final_live {env : Env} {es : List Event} {c : Config} {x : Role}
    (hrun : run env es = some c) (hx : c.graph.finalNode = some x) :
    c.graph.live x = true := by
  have hf := finalSeat_run hrun hx
  refine (run_good hrun).shaped.live_iff.mpr ?_
  cases x with
  | root => exact ⟨hf, id⟩
  | sink r => exact ⟨by simp [Runtime.Created, show (c.rt.region r).stage = .ended from hf], id⟩
  | _ => exact hf.elim

/-- **The state that the metrics see.** -/
theorem closeFinalNode_run {env : Env} {es : List Event} {c : Config} (th : ThreadId)
    (hrun : run env es = some c) :
    c.tool.closeFinalNode env th
      = some (realize (tables c.rt c.graph) (c.graph.closeFinal env th)) := by
  have hg := run_good hrun
  exact realize_closeFinalNode (hg.shaped.closed hg.sound hg.alloc) env th
    fun x hx => final_live hrun hx

end Config

end Tdg
