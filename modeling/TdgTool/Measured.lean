/-
TdgTool/Measured.lean

The graph that the metrics are run on.

The metrics ask for a graph whose stored edges lead to stored nodes, in which
exits and entries mirror each other, and whose metric members nobody has
written yet.  A realized role graph is such a graph: the first two are a matter
of `realize` alone, and no callback writes the metric members.  A path of the
stored graph is a path of roles, and takes the time that has been charged to
them.
-/
import TdgTool.CriticalPath
import TdgTool.Times
import TdgTool.Lib.Intervals

namespace Tdg

namespace RoleGraph

open Tdg.Runtime Relation

variable {o : Runtime} {g : RoleGraph} {env : Env} {e : Event} {x y z : Role} {τ : TaskId}
  {r : RegionId} {th : ThreadId} {T : Tables} {n : NodeRef} {nd : Node}

/-! ### Stored edges -/

/-- The exit edges of a node are its links. -/
theorem mem_node_exits {d : Edge} :
    d ∈ (g.node x).exitEdges ↔ ∃ y, g.Link x y ∧ g.edgeAt (x, y) = d := by
  simp only [node, Link, List.mem_map, List.mem_filter, decide_eq_true_eq]
  constructor
  · rintro ⟨⟨x', y⟩, ⟨hxy, rfl⟩, rfl⟩
    exact ⟨y, hxy, rfl⟩
  · rintro ⟨y, hxy, rfl⟩
    exact ⟨(x, y), ⟨hxy, rfl⟩, rfl⟩

theorem mem_node_entries {d : Edge} :
    d ∈ (g.node x).entryEdges ↔ ∃ y, g.Link y x ∧ g.edgeAt (y, x) = d := by
  simp only [node, Link, List.mem_map, List.mem_filter, decide_eq_true_eq]
  constructor
  · rintro ⟨⟨y, x'⟩, ⟨hxy, rfl⟩, rfl⟩
    exact ⟨y, hxy, rfl⟩
  · rintro ⟨y, hxy, rfl⟩
    exact ⟨(y, x), ⟨hxy, rfl⟩, rfl⟩

/-- A stored edge leads to a stored node. -/
theorem Alloc.closed (h : Alloc g) : (realize T g).toGraph.Closed where
  node := by
    intro n hn
    obtain ⟨x, hl, rfl⟩ := h.present_iff.mp hn
    exact ⟨g.node x, h.nodes_iff.mpr ⟨x, hl, rfl, rfl⟩⟩
  exits := by
    rintro n nd - hnd d hd
    obtain ⟨x, -, rfl, rfl⟩ := h.nodes_iff.mp hnd
    obtain ⟨y, hxy, rfl⟩ := mem_node_exits.mp hd
    exact h.present_iff.mpr ⟨y, (h.edges_live hxy).2, rfl⟩
  entries := by
    rintro n nd - hnd d hd
    obtain ⟨x, -, rfl, rfl⟩ := h.nodes_iff.mp hnd
    obtain ⟨y, hyx, rfl⟩ := mem_node_entries.mp hd
    exact h.present_iff.mpr ⟨y, (h.edges_live hyx).1, rfl⟩

/-- An edge is stored at both ends. -/
theorem Alloc.mirrored (h : Alloc g) : (realize T g).toGraph.Mirrored where
  exits := by
    rintro n nd - hnd d hd
    obtain ⟨x, -, rfl, rfl⟩ := h.nodes_iff.mp hnd
    obtain ⟨y, hxy, rfl⟩ := mem_node_exits.mp hd
    refine ⟨rfl, g.node y, ?_, mem_node_entries.mpr ⟨x, hxy, rfl⟩⟩
    exact h.nodes_iff.mpr ⟨y, (h.edges_live hxy).2, rfl, rfl⟩
  entries := by
    rintro n nd - hnd d hd
    obtain ⟨x, -, rfl, rfl⟩ := h.nodes_iff.mp hnd
    obtain ⟨y, hyx, rfl⟩ := mem_node_entries.mp hd
    refine ⟨rfl, g.node y, ?_, mem_node_exits.mpr ⟨x, hyx, rfl⟩⟩
    exact h.nodes_iff.mpr ⟨y, (h.edges_live hyx).1, rfl, rfl⟩

/-! ### Metric members -/

/-- The metric members of all nodes are as the constructor sets them. -/
def Unmarked (g : RoleGraph) : Prop := ∀ x, (g.data x).marks = {}

theorem unmarked_init : Unmarked RoleGraph.init := fun _ => rfl

namespace Unmarked

/-- An operation on the members of one node that writes no metric member. -/
theorem onData (h : g.Unmarked) {f : NodeData → NodeData}
    (hf : ∀ nd, (f nd).marks = nd.marks) : (g.onData x f).Unmarked := by
  intro z
  rcases eq_or_ne z x with rfl | hz
  · simpa [hf] using h z
  · simpa [hz] using h z

theorem addTime (h : g.Unmarked) : (g.addTime env th x).Unmarked :=
  show (g.onData x fun nd => nd.addTime (env.clock g.ticks)).Unmarked from h.onData fun _ => rfl

theorem setLastTime (h : g.Unmarked) : (g.setLastTime env x).Unmarked :=
  show (g.onData x fun nd => nd.setLastTime (env.clock g.ticks)).Unmarked from h.onData fun _ => rfl

theorem endPapi (h : g.Unmarked) : (g.endPapi env th x).Unmarked :=
  show (g.onData x fun nd => nd.setPapiVals (env.papi g.papiCalls.length)).Unmarked from
    h.onData fun _ => rfl

theorem create (h : g.Unmarked) : (g.create x).Unmarked := by
  intro z
  by_cases hz : z = x
  · simp [hz, NodeData.marks]
  · simpa [hz] using h z

theorem createBelow {p : Role} (h : g.Unmarked) : (g.createBelow env p x).Unmarked :=
  have hconn : ((g.create x).connect p x).Unmarked := h.create
  hconn.setLastTime

theorem closeOpen (h : g.Unmarked) : (g.closeOpen env th o τ).Unmarked := by
  unfold RoleGraph.closeOpen
  rcases (o.task τ).chunks (o.task τ).loops with - | c
  · exact h.addTime
  · exact h.endPapi.addTime

theorem chunkOpen (h : g.Unmarked) {lower upper : ℤ} :
    (g.chunkOpen env th o τ lower upper).Unmarked := by
  have h0 : (g.createBelow env (.ws τ (o.task τ).loops)
      (.chunk τ (o.task τ).loops ((o.task τ).chunks (o.task τ).loops))).Unmarked := h.createBelow
  have h1 := h0.onData (x := .chunk τ (o.task τ).loops ((o.task τ).chunks (o.task τ).loops))
    (f := fun nd => ((nd.setLowerUpper lower upper).setLoopCounter (g.loopCounter th)).setThreadId
      (threadNumOf τ)) fun _ => rfl
  exact h1.onData (f := fun nd => nd.initPapiVals env.numPapiEvents) fun _ => rfl

/-- **No callback writes a metric member.** -/
theorem step (h : g.Unmarked) (ha : o.allows e = true) : (g.step env o e).Unmarked := by
  cases delivers_of_allows ha with
  | initial => exact h.create.setLastTime
  | explicit => exact h.createBelow
  | schedule => exact h.addTime.setLastTime
  | parallelBegin => exact h.addTime.create
  | @parallelEnd _ r =>
    have hcur : (g.setCur (o.region r).parent (.sink r)).Unmarked := h
    exact hcur.setLastTime
  | implicitBegin => exact h.createBelow
  | @implicitEnd th r t =>
    simp only [RoleGraph.step, RoleGraph.implicitEnd]
    rcases g.bar (.implicit r t) with - | b
    · show (g.addTime env th (g.cur (.implicit r t))).Unmarked
      exact h.addTime
    · split_ifs <;> exact h
  | @barrierBegin th r t =>
    simp only [RoleGraph.step, RoleGraph.barrierBegin, RoleGraph.reachBarrier]
    split_ifs
    · exact h.addTime.createBelow.createBelow
    · have htime : (g.addTime env th (g.cur (.implicit r t))).Unmarked := h.addTime
      have hconn : ((g.addTime env th (g.cur (.implicit r t))).connect (g.cur (.implicit r t))
        (.barrier r ((o.region r).arrivals / (o.region r).requested))).Unmarked := htime
      exact hconn.createBelow
    · exact h
  | barrierEnd =>
    simp only [RoleGraph.step]
    split_ifs
    · exact h.setLastTime
    · exact h
  | @outside _ endpoint => cases endpoint <;> exact h
  | @sync _ kind _ _ _ _ _ hkind =>
    cases kind with
    | barrier => exact absurd rfl hkind
    | taskwait => exact h
    | taskgroup => exact h
  | @loopBegin th τ lower upper =>
    have hws : ((g.addTime env th (g.cur τ)).createBelow env (g.cur τ)
        (.ws τ (o.task τ).loops)).Unmarked := h.addTime.createBelow
    exact (hws.onData (f := fun nd => nd.setLowerUpper lower upper) fun _ => rfl).create
  | loopEnd =>
    simp only [RoleGraph.step, RoleGraph.loopEnd]
    split_ifs
    · exact Unmarked.setLastTime h.closeOpen
    · exact h.closeOpen.setLastTime
  | @chunk _ _ _ _ lastChunk =>
    simp only [RoleGraph.step, RoleGraph.chunk]
    cases lastChunk with
    | true =>
      rw [if_pos rfl]
      split_ifs
      · exact h.closeOpen
      · exact h
    | false => exact h.closeOpen.chunkOpen
  | _ => exact h

/-- Nor does the last charge mark a node. -/
theorem closeFinal (h : g.Unmarked) : (g.closeFinal env th).Unmarked := by
  unfold RoleGraph.closeFinal
  rcases g.finalNode with - | x
  · exact h
  · exact h.addTime

/-- The members that the computation reads. -/
theorem fresh (h : g.Unmarked) (hA : Alloc g) : (realize T g).toGraph.Fresh := by
  have hread : ∀ {n nd}, (realize T g).nodes n = some nd → nd.marks = {} := by
    intro n nd hnd
    obtain ⟨x, -, -, rfl⟩ := hA.nodes_iff.mp hnd
    exact h x
  refine ⟨fun n nd _ hnd => ?_, fun n nd _ hnd => ?_, fun n nd _ hnd => ?_⟩
  · exact congrArg Marks.visited (hread hnd)
  · exact congrArg Marks.pathTime (hread hnd)
  · exact congrArg Marks.prevCritical (hread hnd)

end Unmarked

/-! ### Paths -/

/-- A path of the stored graph is a path of roles. -/
theorem Alloc.path_roles (h : Alloc g) {p : List NodeRef} (hp : (realize T g).toGraph.IsPath p) :
    ∃ q : List Role, q.map g.addr = p ∧ q.IsChain g.Link ∧ ∀ x ∈ q, g.live x = true := by
  induction p with
  | nil => exact ⟨[], rfl, List.isChain_nil, by simp⟩
  | cons n p ih =>
    obtain ⟨hchain, hpres⟩ := hp
    obtain ⟨q, rfl, hq, hlive⟩ := ih ⟨hchain.tail, fun m hm => hpres m (List.mem_cons_of_mem n hm)⟩
    obtain ⟨x, hx, rfl⟩ := h.present_iff.mp (hpres n List.mem_cons_self)
    refine ⟨x :: q, rfl, ?_, List.forall_mem_cons.mpr ⟨hx, hlive⟩⟩
    rcases q with - | ⟨y, q⟩
    · exact List.isChain_singleton x
    · obtain ⟨x', y', hx', hy', hxy⟩ := h.adj_iff.mp (List.isChain_cons_cons.mp hchain).1
      obtain rfl := (addr_inj (h.live_mem hx)).mp hx'.symm
      obtain rfl := (addr_inj (h.live_mem (hlive y List.mem_cons_self))).mp hy'.symm
      exact List.isChain_cons_cons.mpr ⟨hxy, hq⟩

/-- The stored time of a role. -/
theorem Alloc.totalTime_addr (h : Alloc g) (hx : g.live x = true) :
    (realize T g).toGraph.totalTime (g.addr x) = (g.data x).totalTime :=
  Graph.totalTime_eq (h.nodes_iff.mpr ⟨x, hx, rfl, rfl⟩)

/-- Intervals charged to the first node end before those charged to the second
begin. -/
def Before (g : RoleGraph) (x y : Role) : Prop :=
  ∀ a ∈ g.charges, a.node = x → ∀ b ∈ g.charges, b.node = y → a.stop ≤ b.start

/-- **A path takes at most the elapsed time**, if what is charged to a node
comes before what is charged to all nodes behind it. -/
theorem Ledger.timeOf_le (hL : Ledger env o g) (hA : Alloc g)
    (hcr : ∀ {x}, g.live x = true → o.Created x) {now : ℚ} (hle : env.clock 0 ≤ now)
    (hnow : ∀ a ∈ g.charges, a.stop ≤ now)
    (hord : ∀ {x y}, g.live y = true → TransGen g.Link x y → g.Before x y) {p : List NodeRef}
    (hp : (realize T g).toGraph.IsPath p) :
    (realize T g).toGraph.timeOf p ≤ now - env.clock 0 := by
  obtain ⟨q, rfl, hq, hlive⟩ := hA.path_roles hp
  have htime : (realize T g).toGraph.timeOf (q.map g.addr)
      = (q.map fun x => ((g.charges.filter fun a => a.node = x).map
          fun a => a.stop - a.start).sum).sum := by
    rw [Graph.timeOf, List.map_map]
    refine congrArg List.sum (List.map_congr_left fun x hx => ?_)
    exact (hA.totalTime_addr (hlive x hx)).trans (hL.total (hcr (hlive x hx)))
  rw [htime]
  refine Intervals.sum_chain_le hle (fun x _ => ?_) ?_ fun a ha => ?_
  · -- the intervals of one node
    refine List.Pairwise.imp_of_mem ?_ (hL.sequential.filter _)
    intro a b ha hb hab
    have hax : a.node = x := by simpa using (List.mem_filter.mp ha).2
    have hbx : b.node = x := by simpa using (List.mem_filter.mp hb).2
    exact hab (hax.trans hbx.symm)
  · -- the intervals of nodes along the path
    have hpath : q.Pairwise (TransGen g.Link) :=
      List.isChain_iff_pairwise.mp (hq.imp fun _ _ => TransGen.single)
    exact hpath.imp_of_mem fun hx hy hxy => hord (hlive _ hy) hxy
  · exact ⟨(hL.window ha).1, (hL.window ha).2.1, hnow a ha⟩

end RoleGraph

namespace Config

open RoleGraph

/-- No callback marks a node. -/
theorem unmarked_run {env : Env} {es : List Event} {c : Config} (hrun : run env es = some c) :
    c.graph.Unmarked :=
  (run_induction (P := fun c => c.graph.Unmarked) unmarked_init
    (fun _ _ _ ha ih => ih.step ha) hrun).2

end Config

end Tdg
