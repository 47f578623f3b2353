/-
TdgTool/Embedding.lean

How the critical path of one graph compares with that of another.

A map of the nodes that carries edges to edges and loses no time can only
lengthen the critical path, in time as well as in edges (`criticalPath_mono`).
Everything here is a case of it: one more `connectNodes` never shortens the path,
and graphs that differ in the names of their nodes, in the order of their edges
or in the order of their ids print the same numbers (`runMetrics_renamed`).

The times themselves are measured.  If no node is off by more than `ε`, the
critical path is off by at most `ε` for each of its nodes, and the printed length
says how many these can be (`timeLen_close`).
-/
import TdgTool.Finalize
import TdgTool.Stats

namespace Tdg

open Text Doubles

namespace Graph

variable {g h g' h' : Graph} {cp cp' : CriticalPath} {f : NodeRef → NodeRef} {p : List NodeRef}
  {u v n : NodeRef} {ε : ℚ}

/-! ### Graphs inside graphs -/

/-- The map carries nodes to nodes and edges to edges, and loses no time. -/
structure Embeds (f : NodeRef → NodeRef) (g h : Graph) : Prop where
  present : ∀ n, g.Present n → h.Present (f n)
  within : ∀ u v, g.Within u v → h.Within (f u) (f v)
  time : ∀ n, g.Present n → g.totalTime n ≤ h.totalTime (f n)

/-- What the critical path metric needs of a graph. -/
structure Scannable (g : Graph) : Prop where
  closed : g.Closed
  mirrored : g.Mirrored
  acyclic : Paths.Acyclic g.Within
  fresh : g.Fresh

theorem Measurable.scannable (hg : g.Measurable) : g.Scannable :=
  ⟨hg.closed, hg.mirrored, hg.acyclic, hg.fresh⟩

/-- The edges of a path are edges between nodes of `_graphNodes`. -/
theorem IsPath.within (hp : g.IsPath p) : p.IsChain g.Within := by
  induction p with
  | nil => exact List.isChain_nil
  | cons n p ih =>
    have hrest := ih ⟨hp.1.tail, fun m hm => hp.2 m (List.mem_cons_of_mem n hm)⟩
    rcases p with - | ⟨m, p⟩
    · exact List.isChain_singleton n
    · exact List.isChain_cons_cons.mpr
        ⟨⟨hp.2 n List.mem_cons_self, (List.isChain_cons_cons.mp hp.1).1⟩, hrest⟩

theorem Embeds.isPath (hE : Embeds f g h) (hp : g.IsPath p) : h.IsPath (p.map f) := by
  refine ⟨?_, ?_⟩
  · rw [List.isChain_map]
    exact hp.within.imp fun u v huv => (hE.within u v huv).2
  · intro n hn
    obtain ⟨m, hm, rfl⟩ := List.mem_map.mp hn
    exact hE.present m (hp.2 m hm)

theorem Embeds.timeOf_le (hE : Embeds f g h) (hp : g.IsPath p) :
    g.timeOf p ≤ h.timeOf (p.map f) := by
  rw [timeOf, timeOf, List.map_map]
  exact List.sum_le_sum fun n hn => hE.time n (hp.2 n hn)

/-! ### The two lengths -/

/-- What the metric says, path by path: no path is longer than the printed time
and length, and some path takes the time, and some has the length. -/
structure Lengths (g : Graph) (cp : CriticalPath) : Prop where
  time_nonneg : 0 ≤ cp.timeLen
  time_le : ∀ p, g.IsPath p → g.timeOf p ≤ cp.timeLen
  time_eq : ∃ p, g.IsPath p ∧ g.timeOf p = cp.timeLen
  len_nonneg : 0 ≤ cp.len
  len_le : ∀ p, g.IsPath p → (p.length : ℤ) ≤ cp.len + 1
  len_eq : cp.len = 0 ∨ ∃ p, g.IsPath p ∧ (p.length : ℤ) = cp.len + 1

theorem Scannable.lengths (hg : g.Scannable) (hcp : g.computeCriticalPath = some (g', cp)) :
    Lengths g cp := by
  obtain ⟨g₁, cp₁, m, post, l, s, q, heq, hcomp⟩ :=
    computeCriticalPath_computed hg.closed hg.fresh
  obtain ⟨rfl, rfl⟩ := Prod.mk.inj (Option.some.inj (heq.symm.trans hcp))
  have hnonneg : 0 ≤ cp₁.timeLen := by
    rcases hcomp.inv.last with ⟨-, hzero⟩ | ⟨x, -, -, htime, hpos⟩
    · exact hzero.ge
    · exact htime ▸ hpos.le
  refine ⟨hnonneg, fun p hp => ?_, ⟨_, hcomp.isPath_marked hg.closed hg.mirrored⟩,
    hcomp.inv.len_nonneg, fun p hp => hcomp.length_le hg.closed hg.mirrored hg.acyclic hp, ?_⟩
  · rcases eq_or_ne p [] with rfl | hne
    · exact hnonneg
    · exact hcomp.timeOf_le hg.closed hg.mirrored hg.acyclic hp hne
  · rcases eq_or_ne l [] with rfl | hne
    · exact .inl (hcomp.inv.len_eq.resolve_right (by simp))
    · exact .inr (hcomp.exists_length hg.closed hg.mirrored hg.acyclic hne)

theorem Lengths.mono (hg : Lengths g cp) (hh : Lengths h cp') (hE : Embeds f g h) :
    cp.timeLen ≤ cp'.timeLen ∧ cp.len ≤ cp'.len := by
  constructor
  · obtain ⟨p, hp, htime⟩ := hg.time_eq
    rw [← htime]
    exact (hE.timeOf_le hp).trans (hh.time_le _ (hE.isPath hp))
  · rcases hg.len_eq with hzero | ⟨p, hp, hlen⟩
    · exact hzero.trans_le hh.len_nonneg
    · have hle := hh.len_le _ (hE.isPath hp)
      rw [List.length_map] at hle
      omega

/-- If the nodes of one graph can be mapped to those of another so that edges go to
edges and no time is lost, then the critical path of the first is not longer than
that of the second, neither in time nor in edges.  The map may merge nodes. -/
theorem criticalPath_mono (hg : g.Scannable) (hh : h.Scannable) (hE : Embeds f g h) :
    ∃ g' cp h' cp', g.computeCriticalPath = some (g', cp) ∧
      h.computeCriticalPath = some (h', cp') ∧ cp.timeLen ≤ cp'.timeLen ∧
        cp.len ≤ cp'.len := by
  obtain ⟨g', cp, -, -, -, -, -, h1, -⟩ := computeCriticalPath_computed hg.closed hg.fresh
  obtain ⟨h', cp', -, -, -, -, -, h2, -⟩ := computeCriticalPath_computed hh.closed hh.fresh
  exact ⟨g', cp, h', cp', h1, h2, (hg.lengths h1).mono (hh.lengths h2) hE⟩

/-! ### One more edge -/

/-- The node at `n` when the edge `u → v` has been added. -/
def withEdge (u v n : NodeRef) (nd : Node) : Node :=
  { nd with
    exitEdges := nd.exitEdges ++ if n = u then [⟨u, v⟩] else []
    entryEdges := nd.entryEdges ++ if n = v then [⟨u, v⟩] else [] }

/-- The graph with one more edge. -/
def insertEdge (g : Graph) (u v : NodeRef) : Graph :=
  { g with nodes := fun n => (g.nodes n).map (withEdge u v n) }

/-- `connectNodes` finds the edge, or adds it. -/
theorem connectNodes_cases (hu : ∃ nd, g.nodes u = some nd) (hv : ∃ nd, g.nodes v = some nd) :
    g.connectNodes u v = some g ∨ g.connectNodes u v = some (g.insertEdge u v) := by
  obtain ⟨nu, hnu⟩ := hu
  obtain ⟨nv, hnv⟩ := hv
  rcases hcon : nu.isConnectedWith v with - | -
  · refine .inr ?_
    have hpush : ∃ nd, Function.update g.nodes u (some (nu.pushExit ⟨u, v⟩)) v = some nd ∧
        some (nd.pushEntry ⟨u, v⟩) = (g.nodes v).map (withEdge u v v) := by
      rcases eq_or_ne v u with rfl | hne
      · obtain rfl := Option.some.inj (hnu.symm.trans hnv)
        exact ⟨_, Function.update_self ..,
          by simp [hnu, withEdge, Node.pushEntry, Node.pushExit]⟩
      · refine ⟨nv, by rw [Function.update_of_ne hne]; exact hnv, ?_⟩
        simp [hnv, withEdge, Node.pushEntry, hne]
    obtain ⟨nd, hnd, hpushed⟩ := hpush
    simp only [connectNodes, hnu, hcon, modifyNode, Option.bind_eq_bind, Option.bind_some,
      Option.map_some, hnd, Bool.false_eq_true, if_false, Option.some.injEq]
    refine congrArg (fun nodes => ({ g with nodes := nodes } : Graph)) (funext fun n => ?_)
    rcases eq_or_ne n v with rfl | hnv'
    · rw [Function.update_self, hpushed]
    · rw [Function.update_of_ne hnv']
      rcases eq_or_ne n u with rfl | hnu'
      · simp [hnu, withEdge, Node.pushExit, hnv']
      · rw [Function.update_of_ne hnu']
        rcases g.nodes n with - | nd <;> simp [withEdge, hnu', hnv']
  · exact .inl (by simp [connectNodes, hnu, hcon])

theorem nodes_insertEdge {nd' : Node} : (g.insertEdge u v).nodes n = some nd' ↔
    ∃ nd, g.nodes n = some nd ∧ withEdge u v n nd = nd' :=
  Option.map_eq_some_iff

theorem adj_insertEdge {x y : NodeRef} (hu : ∃ nd, g.nodes u = some nd) :
    (g.insertEdge u v).Adj x y ↔ g.Adj x y ∨ x = u ∧ y = v := by
  obtain ⟨nu, hnu⟩ := hu
  constructor
  · rintro ⟨nd', hnd', e, he, rfl⟩
    obtain ⟨nd, hnd, rfl⟩ := nodes_insertEdge.mp hnd'
    rcases List.mem_append.mp he with he | he
    · exact .inl ⟨nd, hnd, e, he, rfl⟩
    · split_ifs at he with hx
      · obtain rfl := List.mem_singleton.mp he
        exact .inr ⟨hx, rfl⟩
      · cases he
  · rintro (⟨nd, hnd, e, he, rfl⟩ | ⟨rfl, rfl⟩)
    · exact ⟨_, nodes_insertEdge.mpr ⟨nd, hnd, rfl⟩, e, List.mem_append_left _ he, rfl⟩
    · exact ⟨_, nodes_insertEdge.mpr ⟨nu, hnu, rfl⟩, ⟨x, y⟩, by simp [withEdge], rfl⟩

theorem totalTime_insertEdge : (g.insertEdge u v).totalTime n = g.totalTime n := by
  rcases hn : g.nodes n with - | nd
  · simp [totalTime, insertEdge, hn]
  · rw [totalTime_eq hn, totalTime_eq (nodes_insertEdge.mpr ⟨nd, hn, rfl⟩)]
    rfl

/-- One more edge keeps the graph scannable, if its target does not lead back to
its source. -/
theorem Scannable.insertEdge (hg : g.Scannable) (hu : g.Present u) (hv : g.Present v)
    (hback : ¬Relation.ReflTransGen g.Within v u) : (g.insertEdge u v).Scannable := by
  obtain ⟨nu, hnu⟩ := hg.closed.node u hu
  obtain ⟨nv, hnv⟩ := hg.closed.node v hv
  refine ⟨⟨fun n hn => ?_, fun n nd' hn hnd' e he => ?_, fun n nd' hn hnd' e he => ?_⟩,
    ⟨fun n nd' hn hnd' e he => ?_, fun n nd' hn hnd' e he => ?_⟩, ?_,
    ⟨fun n nd' hn hnd' => ?_, fun n nd' hn hnd' => ?_, fun n nd' hn hnd' => ?_⟩⟩
  · obtain ⟨nd, hnd⟩ := hg.closed.node n hn
    exact ⟨_, nodes_insertEdge.mpr ⟨nd, hnd, rfl⟩⟩
  · obtain ⟨nd, hnd, rfl⟩ := nodes_insertEdge.mp hnd'
    rcases List.mem_append.mp he with he | he
    · exact hg.closed.exits n nd hn hnd e he
    · split_ifs at he
      · obtain rfl := List.mem_singleton.mp he
        exact hv
      · cases he
  · obtain ⟨nd, hnd, rfl⟩ := nodes_insertEdge.mp hnd'
    rcases List.mem_append.mp he with he | he
    · exact hg.closed.entries n nd hn hnd e he
    · split_ifs at he
      · obtain rfl := List.mem_singleton.mp he
        exact hu
      · cases he
  · obtain ⟨nd, hnd, rfl⟩ := nodes_insertEdge.mp hnd'
    rcases List.mem_append.mp he with he | he
    · obtain ⟨hsrc, nd₂, hnd₂, hmem⟩ := hg.mirrored.exits n nd hn hnd e he
      exact ⟨hsrc, _, nodes_insertEdge.mpr ⟨nd₂, hnd₂, rfl⟩,
        List.mem_append_left _ hmem⟩
    · split_ifs at he with hx
      · obtain rfl := List.mem_singleton.mp he
        exact ⟨hx.symm, _, nodes_insertEdge.mpr ⟨nv, hnv, rfl⟩, by simp [withEdge]⟩
      · cases he
  · obtain ⟨nd, hnd, rfl⟩ := nodes_insertEdge.mp hnd'
    rcases List.mem_append.mp he with he | he
    · obtain ⟨htgt, nd₂, hnd₂, hmem⟩ := hg.mirrored.entries n nd hn hnd e he
      exact ⟨htgt, _, nodes_insertEdge.mpr ⟨nd₂, hnd₂, rfl⟩,
        List.mem_append_left _ hmem⟩
    · split_ifs at he with hx
      · obtain rfl := List.mem_singleton.mp he
        exact ⟨hx.symm, _, nodes_insertEdge.mpr ⟨nu, hnu, rfl⟩, by simp [withEdge]⟩
      · cases he
  · refine hg.acyclic.insert hback fun a b hab => ?_
    rcases (adj_insertEdge ⟨nu, hnu⟩).mp hab.2 with hold | hnew
    · exact .inl ⟨hab.1, hold⟩
    · exact .inr hnew
  · obtain ⟨nd, hnd, rfl⟩ := nodes_insertEdge.mp hnd'
    exact hg.fresh.visited n nd hn hnd
  · obtain ⟨nd, hnd, rfl⟩ := nodes_insertEdge.mp hnd'
    exact hg.fresh.pathTime n nd hn hnd
  · obtain ⟨nd, hnd, rfl⟩ := nodes_insertEdge.mp hnd'
    exact hg.fresh.prevCritical n nd hn hnd

/-- **One more edge shortens nothing.**  `connectNodes` between two nodes of the
graph, of which the second does not lead back to the first, leaves a graph that
can be scanned again, and the critical path is at least as long, in time and in
edges. -/
theorem connectNodes_mono (hg : g.Scannable) (hu : g.Present u) (hv : g.Present v)
    (hback : ¬Relation.ReflTransGen g.Within v u) :
    ∃ h, g.connectNodes u v = some h ∧ h.Scannable ∧
      ∃ g' cp h' cp', g.computeCriticalPath = some (g', cp) ∧
        h.computeCriticalPath = some (h', cp') ∧ cp.timeLen ≤ cp'.timeLen ∧
          cp.len ≤ cp'.len := by
  rcases connectNodes_cases (hg.closed.node u hu) (hg.closed.node v hv) with hsame | hmore
  · exact ⟨g, hsame, hg,
      criticalPath_mono hg hg ⟨fun _ => id, fun _ _ => id, fun _ _ => le_rfl⟩⟩
  · have hh := hg.insertEdge hu hv hback
    have hE : Embeds id g (g.insertEdge u v) := by
      refine ⟨fun _ => id, fun x y hxy => ⟨hxy.1, ?_⟩, fun n _ => totalTime_insertEdge.ge⟩
      exact (adj_insertEdge (hg.closed.node u hu)).mpr (.inl hxy.2)
    exact ⟨_, hmore, hh, criticalPath_mono hg hh hE⟩

/-- The diamond with an edge between its two branches. -/
theorem connectNodes_mono_diamond :
    ∃ h, diamond.connectNodes 1 2 = some h ∧ h.Scannable ∧
      ∃ g' cp h' cp', diamond.computeCriticalPath = some (g', cp) ∧
        h.computeCriticalPath = some (h', cp') ∧ cp.timeLen ≤ cp'.timeLen ∧
          cp.len ≤ cp'.len := by
  have hstep : ∀ a b, diamond.Within a b → a < b := by
    rintro u v ⟨hu, nd, hnd, e, he, rfl⟩
    obtain rfl | rfl | rfl | rfl := diamond_present hu <;> cases hnd <;> simp [Node.new] at he
    · obtain rfl | rfl := he <;> decide
    · subst he
      decide
    · subst he
      decide
  have hle : ∀ b, Relation.ReflTransGen diamond.Within 2 b → 2 ≤ b := by
    intro b hb
    induction hb with
    | refl => exact le_rfl
    | tail _ hbc ih => exact ih.trans (hstep _ _ hbc).le
  exact connectNodes_mono diamond_measurable.scannable (by simp [Present, diamond])
    (by simp [Present, diamond]) fun hback => absurd (hle 1 hback) (by decide)

/-! ### Times that are not exact -/

/-- The graphs have the same nodes and edges, and no time is off by more
than `ε`. -/
structure Close (ε : ℚ) (g h : Graph) : Prop where
  present : ∀ n, h.Present n ↔ g.Present n
  within : ∀ u v, h.Within u v ↔ g.Within u v
  time : ∀ n, g.Present n → |h.totalTime n - g.totalTime n| ≤ ε

theorem Close.symm (hc : Close ε g h) : Close ε h g where
  present := fun n => (hc.present n).symm
  within := fun u v => (hc.within u v).symm
  time := fun n hn => by
    rw [abs_sub_comm]
    exact hc.time n ((hc.present n).mp hn)

/-- Errors add up along a path. -/
theorem Close.timeOf_le (hc : Close ε g h) {p : List NodeRef} (hp : ∀ n ∈ p, g.Present n) :
    h.timeOf p ≤ g.timeOf p + p.length * ε := by
  induction p with
  | nil => simp [timeOf]
  | cons n p ih =>
    have hrest := ih fun m hm => hp m (List.mem_cons_of_mem n hm)
    have hn := (abs_le.mp (hc.time n (hp n List.mem_cons_self))).2
    simp only [timeOf, List.map_cons, List.sum_cons, List.length_cons] at hrest ⊢
    push_cast
    linarith

theorem Close.isPath (hc : Close ε g h) {p : List NodeRef} (hp : h.IsPath p) : g.IsPath p :=
  ⟨hp.within.imp fun u v huv => ((hc.within u v).mp huv).2, fun n hn =>
    (hc.present n).mp (hp.2 n hn)⟩

theorem Lengths.timeLen_le (hg : Lengths g cp) (hh : Lengths h cp') (hc : Close ε g h)
    (hε : 0 ≤ ε) :
    cp'.timeLen ≤ cp.timeLen + (cp.len + 1) * ε := by
  obtain ⟨p, hp, htime⟩ := hh.time_eq
  have hpg := hc.isPath hp
  have hlen : (p.length : ℚ) ≤ cp.len + 1 := by exact_mod_cast hg.len_le p hpg
  have herr : (p.length : ℚ) * ε ≤ (cp.len + 1) * ε := mul_le_mul_of_nonneg_right hlen hε
  rw [← htime]
  linarith [hc.timeOf_le hpg.2, hg.time_le p hpg]

theorem Lengths.len_le_of_close (hg : Lengths g cp) (hh : Lengths h cp') (hc : Close ε g h) :
    cp'.len ≤ cp.len := by
  rcases hh.len_eq with hzero | ⟨p, hp, hlen⟩
  · exact hzero.trans_le hg.len_nonneg
  · have := hg.len_le p (hc.isPath hp)
    omega

/-- The graph with other times. -/
def retime (g : Graph) (time : NodeRef → ℚ) : Graph :=
  { g with nodes := fun n => (g.nodes n).map fun nd => { nd with totalTime := time n } }

section Retime

variable {time : NodeRef → ℚ}

theorem nodes_retime {nd' : Node} : (g.retime time).nodes n = some nd' ↔
    ∃ nd, g.nodes n = some nd ∧ { nd with totalTime := time n } = nd' :=
  Option.map_eq_some_iff

theorem adj_retime : (g.retime time).Adj u v ↔ g.Adj u v := by
  constructor
  · rintro ⟨nd', hnd', e, he, rfl⟩
    obtain ⟨nd, hnd, rfl⟩ := nodes_retime.mp hnd'
    exact ⟨nd, hnd, e, he, rfl⟩
  · rintro ⟨nd, hnd, e, he, rfl⟩
    exact ⟨_, nodes_retime.mpr ⟨nd, hnd, rfl⟩, e, he, rfl⟩

theorem Scannable.retime (hg : g.Scannable) : (g.retime time).Scannable := by
  refine ⟨⟨fun n hn => ?_, fun n nd' hn hnd' => ?_, fun n nd' hn hnd' => ?_⟩,
    ⟨fun n nd' hn hnd' e he => ?_, fun n nd' hn hnd' e he => ?_⟩,
    hg.acyclic.mono fun a b hab => ⟨hab.1, adj_retime.mp hab.2⟩,
    ⟨fun n nd' hn hnd' => ?_, fun n nd' hn hnd' => ?_, fun n nd' hn hnd' => ?_⟩⟩
  · obtain ⟨nd, hnd⟩ := hg.closed.node n hn
    exact ⟨_, nodes_retime.mpr ⟨nd, hnd, rfl⟩⟩
  · obtain ⟨nd, hnd, rfl⟩ := nodes_retime.mp hnd'
    exact hg.closed.exits n nd hn hnd
  · obtain ⟨nd, hnd, rfl⟩ := nodes_retime.mp hnd'
    exact hg.closed.entries n nd hn hnd
  · obtain ⟨nd, hnd, rfl⟩ := nodes_retime.mp hnd'
    obtain ⟨hsrc, nd₂, hnd₂, hmem⟩ := hg.mirrored.exits n nd hn hnd e he
    exact ⟨hsrc, _, nodes_retime.mpr ⟨nd₂, hnd₂, rfl⟩, hmem⟩
  · obtain ⟨nd, hnd, rfl⟩ := nodes_retime.mp hnd'
    obtain ⟨htgt, nd₂, hnd₂, hmem⟩ := hg.mirrored.entries n nd hn hnd e he
    exact ⟨htgt, _, nodes_retime.mpr ⟨nd₂, hnd₂, rfl⟩, hmem⟩
  · obtain ⟨nd, hnd, rfl⟩ := nodes_retime.mp hnd'
    exact hg.fresh.visited n nd hn hnd
  · obtain ⟨nd, hnd, rfl⟩ := nodes_retime.mp hnd'
    exact hg.fresh.pathTime n nd hn hnd
  · obtain ⟨nd, hnd, rfl⟩ := nodes_retime.mp hnd'
    exact hg.fresh.prevCritical n nd hn hnd

theorem Scannable.close_retime (hg : g.Scannable)
    (htime : ∀ n, g.Present n → |time n - g.totalTime n| ≤ ε) :
    Close ε g (g.retime time) where
  present := fun _ => Iff.rfl
  within := fun _ _ => and_congr_right fun _ => adj_retime
  time := fun n hn => by
    obtain ⟨nd, hnd⟩ := hg.closed.node n hn
    rw [totalTime_eq (nodes_retime.mpr ⟨nd, hnd, rfl⟩)]
    exact htime n hn

end Retime

/-- **The error of the critical path.**  If the times of two graphs that are alike
otherwise differ by at most `ε` at every node, then the printed lengths are the
same, and the printed times, added up without rounding, differ by at most `ε` for
each node that this length allows for. -/
theorem timeLen_close {time : NodeRef → ℚ} (hg : g.Scannable) (hε : 0 ≤ ε)
    (htime : ∀ n, g.Present n → |time n - g.totalTime n| ≤ ε) :
    ∃ g' cp h' cp', g.computeCriticalPath = some (g', cp) ∧
      (g.retime time).computeCriticalPath = some (h', cp') ∧ cp'.len = cp.len ∧
      |cp'.timeLen - cp.timeLen| ≤ (cp.len + 1) * ε := by
  have hh : (g.retime time).Scannable := hg.retime
  have hc := hg.close_retime htime
  obtain ⟨g', cp, -, -, -, -, -, h1, -⟩ := computeCriticalPath_computed hg.closed hg.fresh
  obtain ⟨h', cp', -, -, -, -, -, h2, -⟩ := computeCriticalPath_computed hh.closed hh.fresh
  have hlg := hg.lengths h1
  have hlh := hh.lengths h2
  have hlen : cp'.len = cp.len :=
    le_antisymm (hlg.len_le_of_close hlh hc) (hlh.len_le_of_close hlg hc.symm)
  have hup := hlg.timeLen_le hlh hc hε
  have hdown := hlh.timeLen_le hlg hc.symm hε
  rw [hlen] at hdown
  refine ⟨g', cp, h', cp', h1, h2, hlen, abs_le.mpr ⟨?_, ?_⟩⟩
  · linarith
  · linarith

theorem timeLen_close_diamond :
    ∃ g' cp h' cp', diamond.computeCriticalPath = some (g', cp) ∧
      (diamond.retime fun n => diamond.totalTime n + 1 / 2).computeCriticalPath = some (h', cp') ∧
      cp'.len = cp.len ∧ |cp'.timeLen - cp.timeLen| ≤ (cp.len + 1) * (1 / 2) := by
  refine timeLen_close diamond_measurable.scannable (by norm_num) fun n _ => ?_
  rw [add_sub_cancel_left]
  norm_num

/-! ### What is printed -/

/-- The lines that the metrics print: a second critical path metric finds nothing
left to visit. -/
def reports (tt : TotalTime) : CriticalPath → List Metric → List Report
  | _, [] => []
  | cp, .tim :: tokens => .totals tt :: reports tt cp tokens
  | cp, .cri :: tokens => .criticalPath cp.timeLen cp.len :: reports tt {} tokens
  | cp, .dot :: tokens => reports tt cp tokens
  | cp, .log :: tokens => reports tt cp tokens

theorem foldlM_reports {showTime : ℚ → List Char} {tt : TotalTime} {tokens : List Metric}
    {objs : List MetricObj} {s out : Printed} {g₀ : Graph} (htt : g₀.totalTimeInit = some tt)
    (hobjs : tokens.mapM g₀.initMetric = some objs)
    (hcp : s.graph.computeCriticalPath = some (g', cp))
    (hrest : g'.computeCriticalPath = some (g', {}))
    (hout : objs.foldlM (printMetric showTime) s = some out) :
    out.stdout = s.stdout ++ reports tt cp tokens := by
  induction tokens generalizing objs s cp with
  | nil =>
    obtain rfl := Option.some.inj hobjs
    obtain rfl := Option.some.inj hout
    simp [reports]
  | cons t tokens ih =>
    rw [List.mapM_cons] at hobjs
    obtain ⟨obj, hobj, hobjs⟩ := Option.bind_eq_some_iff.mp hobjs
    obtain ⟨objs', hobjs', hcons⟩ := Option.bind_eq_some_iff.mp hobjs
    obtain rfl := Option.some.inj hcons
    rw [List.foldlM_cons] at hout
    obtain ⟨s', hs', hout⟩ := Option.bind_eq_some_iff.mp hout
    cases t with
    | tim =>
      rw [initMetric, htt] at hobj
      obtain rfl := Option.some.inj hobj
      obtain rfl := Option.some.inj hs'
      have hrec := ih (s := { s with stdout := s.stdout ++ [.totals tt] }) hobjs' hcp hout
      rw [hrec]
      simp [reports]
    | cri =>
      obtain rfl := Option.some.inj hobj
      have hmetric : s.graph.getMetric .new = some (g', cp) := by
        rw [getMetric_new, hcp]
      simp only [printMetric, hmetric, Option.bind_eq_bind, Option.bind_some,
        Option.some.injEq] at hs'
      subst hs'
      have hrec := ih
        (s := { s with graph := g', stdout := s.stdout ++ [.criticalPath cp.timeLen cp.len] })
        hobjs' hrest hout
      rw [hrec]
      simp [reports]
    | dot =>
      obtain rfl := Option.some.inj hobj
      obtain ⟨text, -, hs'⟩ := Option.bind_eq_some_iff.mp hs'
      obtain rfl := Option.some.inj hs'
      exact ih (s := { s with dotFile := some text }) hobjs' hcp hout
    | log =>
      obtain rfl := Option.some.inj hobj
      obtain ⟨text, -, hs'⟩ := Option.bind_eq_some_iff.mp hs'
      obtain rfl := Option.some.inj hs'
      exact ih (s := { s with logFile := some text }) hobjs' hcp hout

/-! ### Other names -/

/-- The graphs differ only in the names of the nodes, in the order of their ids and
in the order of their edges. -/
structure Renamed (f : NodeRef → NodeRef) (g h : Graph) : Prop where
  bij : Set.BijOn f {n | g.Present n} {n | h.Present n}
  adj : ∀ u v, g.Present u → g.Present v → (h.Adj (f u) (f v) ↔ g.Adj u v)
  node : ∀ n nd, g.Present n → g.nodes n = some nd →
    ∃ nd', h.nodes (f n) = some nd' ∧ nd'.type = nd.type ∧ nd'.totalTime = nd.totalTime

theorem Renamed.totalTime (hr : Renamed f g h) (hg : g.Closed) (hn : g.Present n) :
    h.totalTime (f n) = g.totalTime n := by
  obtain ⟨nd, hnd⟩ := hg.node n hn
  obtain ⟨nd', hnd', -, htime⟩ := hr.node n nd hn hnd
  rw [totalTime_eq hnd, totalTime_eq hnd', htime]

theorem Renamed.embeds (hr : Renamed f g h) (hg : g.Closed) : Embeds f g h where
  present := fun _ hn => hr.bij.mapsTo hn
  within := fun u v huv => ⟨hr.bij.mapsTo huv.1,
    (hr.adj u v huv.1 (hg.present_of_adj huv.1 huv.2)).mpr huv.2⟩
  time := fun _ hn => (hr.totalTime hg hn).ge

/-- Back along the names. -/
theorem Renamed.symm (hr : Renamed f g h) (hg : g.Closed) : ∃ f', Renamed f' h g := by
  have hinv := hr.bij.invOn_invFunOn
  set f' := Function.invFunOn f {n | g.Present n} with hf'
  have hbij : Set.BijOn f' {n | h.Present n} {n | g.Present n} := hr.bij.symm hinv.symm
  have hback : ∀ {n}, h.Present n → f (f' n) = n := fun hn => hinv.2 hn
  have hpres : ∀ {n}, h.Present n → g.Present (f' n) := fun hn => hbij.mapsTo hn
  refine ⟨f', hbij, fun u v hu hv => ?_, fun n nd hn hnd => ?_⟩
  · rw [← hr.adj _ _ (hpres hu) (hpres hv), hback hu, hback hv]
  · obtain ⟨nd', hnd'⟩ := hg.node _ (hpres hn)
    obtain ⟨nd₂, hnd₂, htype, htime⟩ := hr.node _ nd' (hpres hn) hnd'
    rw [hback hn, hnd] at hnd₂
    obtain rfl := Option.some.inj hnd₂
    exact ⟨nd', hnd', htype.symm, htime.symm⟩

/-- What `TotalTimeMetric` reads of a node. -/
def key (nd : Node) : NodeType × ℚ := (nd.type, nd.totalTime)

/-- The total time metric depends on the types and times only, in any order. -/
theorem totalTimeInit_keys {ns ns' : List Node} (hns : g.nodeList = some ns)
    (hns' : h.nodeList = some ns') (hperm : (ns'.map key).Perm (ns.map key)) :
    h.totalTimeInit = g.totalTimeInit := by
  have htimes : (ns'.map fun nd => nd.totalTime).Perm (ns.map fun nd => nd.totalTime) := by
    simpa [key, Function.comp_def] using hperm.map Prod.snd
  have hfilter : ∀ (l : List Node) (ty : NodeType), (l.filter fun nd => nd.type = ty).map key
      = (l.map key).filter fun k => k.1 = ty := by
    intro l ty
    rw [List.filter_map]
    rfl
  have hkind : ∀ ty : NodeType, ((ns'.filter fun nd => nd.type = ty).map key).Perm
      ((ns.filter fun nd => nd.type = ty).map key) := by
    intro ty
    rw [hfilter, hfilter]
    exact hperm.filter _
  have hcount : ∀ ty : NodeType, (ns'.filter fun nd => nd.type = ty).length
      = (ns.filter fun nd => nd.type = ty).length := by
    intro ty
    simpa using (hkind ty).length_eq
  have hsum : ∀ ty : NodeType,
      ((ns'.filter fun nd => nd.type = ty).map fun nd => nd.totalTime).sum
      = ((ns.filter fun nd => nd.type = ty).map fun nd => nd.totalTime).sum := by
    intro ty
    have hp := ((hkind ty).map Prod.snd).sum_eq
    simpa [key, Function.comp_def] using hp
  have hstats : computeStatsIn .exact _ = computeStatsIn .exact _ := computeStats_perm htimes
  rw [totalTimeInit, totalTimeInit, totalTimeInitIn, totalTimeInitIn, hns, hns']
  simp only [Option.bind_eq_bind, Option.bind_some, htimes.length_eq, Arith.exact_sum, hcount,
    hsum]
  split_ifs with hpos
  · rw [hstats]
  · have hnil : ns = [] := by simpa using hpos
    have hnil' : ns' = [] := by
      have := htimes.length_eq
      simp [hnil] at this
      exact this
    rw [hnil, hnil']

/-- Different ids are those of different nodes. -/
theorem Listed.addrs_nodup (hg : g.Listed) : (g.graphNodes.entries.map Prod.snd).Nodup := by
  refine List.Nodup.map_on (fun a ha b hb hab => ?_) (List.Nodup.of_map _ g.graphNodes.keys_nodup)
  obtain ⟨nd, hnd, hid⟩ := hg.ids a ha
  obtain ⟨nd', hnd', hid'⟩ := hg.ids b hb
  rw [hab] at hnd
  obtain rfl := Option.some.inj (hnd.symm.trans hnd')
  exact Prod.ext (hid.symm.trans hid') hab

/-- The same nodes are listed, in some order. -/
theorem Renamed.nodeList (hr : Renamed f g h) (hg : g.Measurable) (hh : h.Measurable) :
    ∃ ns ns', g.nodeList = some ns ∧ h.nodeList = some ns' ∧
      (ns'.map key).Perm (ns.map key) := by
  obtain ⟨ns, hns, hmap⟩ := nodeList_eq fun a ha => hg.closed.node a.2 ⟨a.1, ha⟩
  obtain ⟨ns', hns', hmap'⟩ := nodeList_eq fun a ha => hh.closed.node a.2 ⟨a.1, ha⟩
  refine ⟨ns, ns', hns, hns', ?_⟩
  have hmem : ∀ {g : Graph} {n}, n ∈ g.graphNodes.entries.map Prod.snd ↔ g.Present n := by
    intro g n
    simp [Present]
  -- the addresses, and what is read there
  have haddr : ((g.graphNodes.entries.map Prod.snd).map f).Perm
      (h.graphNodes.entries.map Prod.snd) := by
    refine (List.perm_ext_iff_of_nodup ?_ hh.listed.addrs_nodup).mpr fun n => ?_
    · exact hg.listed.addrs_nodup.map_on fun a ha b hb =>
        hr.bij.injOn (hmem.mp ha) (hmem.mp hb)
    · rw [hmem, List.mem_map]
      constructor
      · rintro ⟨m, hm, rfl⟩
        exact hr.bij.mapsTo (hmem.mp hm)
      · intro hn
        obtain ⟨m, hm, rfl⟩ := hr.bij.surjOn hn
        exact ⟨m, hmem.mpr hm, rfl⟩
  have hkeys : ∀ {g : Graph} {ns : List Node},
      g.graphNodes.entries.map (fun a => g.nodes a.2) = ns.map some →
      ns.map (some ∘ key) = (g.graphNodes.entries.map Prod.snd).map fun n =>
        (g.nodes n).map key := by
    intro g ns hns
    have hread := congrArg (List.map (Option.map key)) hns
    simp only [List.map_map] at hread
    rw [List.map_map]
    exact hread.symm
  have hperm : (ns'.map (some ∘ key)).Perm (ns.map (some ∘ key)) := by
    rw [hkeys hmap, hkeys hmap']
    refine (haddr.symm.map _).trans (List.Perm.of_eq ?_)
    rw [List.map_map]
    refine List.map_congr_left fun n hn => ?_
    obtain ⟨nd, hnd⟩ := hg.closed.node n (hmem.mp hn)
    obtain ⟨nd', hnd', htype, htime⟩ := hr.node n nd (hmem.mp hn) hnd
    simp [hnd, hnd', key, htype, htime]
  have hsome := hperm.filterMap id
  simpa [List.filterMap_map, Function.comp_def] using hsome

/-- What the metrics print, line by line. -/
theorem runMetrics_stdout {showTime : ℚ → List Char} {tt : TotalTime} {tokens : List Metric}
    {out : Printed} (hS : Settled g g' cp) (htt : g.totalTimeInit = some tt)
    (hout : g.runMetrics showTime tokens = some out) : out.stdout = reports tt cp tokens := by
  rw [runMetrics, Option.bind_eq_bind] at hout
  obtain ⟨objs, hobjs, hfold⟩ := Option.bind_eq_some_iff.mp hout
  have hlines := foldlM_reports (s := { graph := g }) htt hobjs hS.first hS.second hfold
  rw [hlines, List.nil_append]

theorem reports_congr {tt : TotalTime} (htime : cp.timeLen = cp'.timeLen) (hlen : cp.len = cp'.len)
    (tokens : List Metric) : reports tt cp tokens = reports tt cp' tokens := by
  induction tokens with
  | nil => rfl
  | cons t tokens ih => cases t <;> simp [reports, ih, htime, hlen]

/-- **The output does not depend on names.**  On graphs that differ only in the
names of their nodes, in the order of the ids and in the order of the edges, any
list of metrics prints the same lines, as long as sums are exact: doubles are
added in the order of the ids, and their sum depends on it. -/
theorem runMetrics_renamed {showTime : ℚ → List Char} (hg : g.Measurable) (hh : h.Measurable)
    (hr : Renamed f g h) (htime : ∀ t, '"' ∉ showTime t) (tokens : List Metric) :
    ∃ out out', g.runMetrics showTime tokens = some out ∧
      h.runMetrics showTime tokens = some out' ∧ out'.stdout = out.stdout := by
  obtain ⟨ns, ns', hns, hns', hperm⟩ := hr.nodeList hg hh
  obtain ⟨g', cp, hS⟩ := hg.settled
  obtain ⟨h', cp', hS'⟩ := hh.settled
  obtain ⟨tt, htt⟩ := exists_totalTimeInit hns
  have htt' : h.totalTimeInit = some tt := (totalTimeInit_keys hns hns' hperm).trans htt
  obtain ⟨out, hout, -⟩ := runMetrics_outcome hg hS htt htime tokens
  obtain ⟨out', hout', -⟩ := runMetrics_outcome hh hS' htt' htime tokens
  -- the lengths agree, since each graph is inside the other
  have hlg := hg.scannable.lengths hS.first
  have hlh := hh.scannable.lengths hS'.first
  obtain ⟨f', hr'⟩ := hr.symm hg.closed
  have hle := hlg.mono hlh (hr.embeds hg.closed)
  have hge := hlh.mono hlg (hr'.embeds hh.closed)
  refine ⟨out, out', hout, hout', ?_⟩
  rw [runMetrics_stdout hS htt hout, runMetrics_stdout hS' htt' hout',
    reports_congr (le_antisymm hge.1 hle.1) (le_antisymm hge.2 hle.2)]

/-- The diamond upside down: other addresses, ids in another order, and the edges
out of the first node in another order. -/
def turnedDiamond : Graph where
  nodes := fun n =>
    match n with
    | 0 => some { Node.new 4 .impTask 0 with entryEdges := [⟨1, 0⟩, ⟨2, 0⟩] }
    | 1 => some { Node.new 6 .impTask 3 with entryEdges := [⟨3, 1⟩], exitEdges := [⟨1, 0⟩] }
    | 2 => some { Node.new 5 .impTask 1 with entryEdges := [⟨3, 2⟩], exitEdges := [⟨2, 0⟩] }
    | 3 => some { Node.new 7 .rootTask 2 with exitEdges := [⟨3, 1⟩, ⟨3, 2⟩] }
    | _ => none
  graphNodes := ⟨[(4, 0), (5, 2), (6, 1), (7, 3)], by decide⟩

theorem turnedDiamond_present (hn : turnedDiamond.Present n) :
    n = 0 ∨ n = 2 ∨ n = 1 ∨ n = 3 := by
  obtain ⟨id, hid⟩ := hn
  simp only [turnedDiamond, List.mem_cons, Prod.mk.injEq, List.not_mem_nil, or_false] at hid
  tauto

theorem turnedDiamond_measurable : turnedDiamond.Measurable where
  closed := by
    refine ⟨fun n hn => ?_, fun n nd hn hnd => ?_, fun n nd hn hnd => ?_⟩
    · obtain rfl | rfl | rfl | rfl := turnedDiamond_present hn <;> exact ⟨_, rfl⟩
    · obtain rfl | rfl | rfl | rfl := turnedDiamond_present hn <;> cases hnd <;>
        simp [Present, turnedDiamond, Node.new]
    · obtain rfl | rfl | rfl | rfl := turnedDiamond_present hn <;> cases hnd <;>
        simp [Present, turnedDiamond, Node.new]
  mirrored := by
    refine ⟨fun n nd hn hnd => ?_, fun n nd hn hnd => ?_⟩
    · obtain rfl | rfl | rfl | rfl := turnedDiamond_present hn <;> cases hnd <;>
        simp [turnedDiamond, Node.new]
    · obtain rfl | rfl | rfl | rfl := turnedDiamond_present hn <;> cases hnd <;>
        simp [turnedDiamond, Node.new]
  acyclic := by
    refine Paths.acyclic_of_rank (f := fun n => 3 - (n : ℤ)) ?_
    rintro u v ⟨hu, nd, hnd, e, he, rfl⟩
    obtain rfl | rfl | rfl | rfl := turnedDiamond_present hu <;> cases hnd <;>
      simp [Node.new] at he
    · subst he
      decide
    · subst he
      decide
    · obtain rfl | rfl := he <;> decide
  fresh := by
    refine ⟨fun n nd hn hnd => ?_, fun n nd hn hnd => ?_, fun n nd hn hnd => ?_⟩ <;>
      obtain rfl | rfl | rfl | rfl := turnedDiamond_present hn <;> cases hnd <;> rfl
  uncritical := by
    intro n nd hn hnd
    obtain rfl | rfl | rfl | rfl := turnedDiamond_present hn <;> cases hnd <;> rfl
  listed := by
    refine ⟨?_, fun n nd hn hnd => ?_, fun n nd hn hnd => ?_⟩
    · simp [turnedDiamond, Node.new]
    · obtain rfl | rfl | rfl | rfl := turnedDiamond_present hn <;> cases hnd <;>
        simp [Present, turnedDiamond, Node.new]
    · obtain rfl | rfl | rfl | rfl := turnedDiamond_present hn <;> cases hnd <;>
        simp [Node.new]

theorem turnedDiamond_renamed : Renamed (fun n => 3 - n) diamond turnedDiamond where
  bij := by
    refine ⟨fun n hn => ?_, fun m hm n hn hmn => ?_, fun n hn => ⟨3 - n, ?_, ?_⟩⟩
    · obtain rfl | rfl | rfl | rfl := diamond_present hn <;> simp [Present, turnedDiamond]
    · obtain rfl | rfl | rfl | rfl := diamond_present hm <;>
        obtain rfl | rfl | rfl | rfl := diamond_present hn <;> simp at hmn ⊢
    · obtain rfl | rfl | rfl | rfl := turnedDiamond_present hn <;> simp [Present, diamond]
    · obtain rfl | rfl | rfl | rfl := turnedDiamond_present hn <;> rfl
  adj := by
    intro u v hu hv
    obtain rfl | rfl | rfl | rfl := diamond_present hu <;>
      obtain rfl | rfl | rfl | rfl := diamond_present hv <;>
        simp [Adj, diamond, turnedDiamond, Node.new]
  node := by
    intro n nd hn hnd
    obtain rfl | rfl | rfl | rfl := diamond_present hn <;> cases hnd <;>
      exact ⟨_, rfl, rfl, rfl⟩

theorem runMetrics_renamed_diamond :
    ∃ out out', diamond.runMetrics (fun t => decimal t.num) [.tim, .cri, .dot] = some out ∧
      turnedDiamond.runMetrics (fun t => decimal t.num) [.tim, .cri, .dot] = some out' ∧
      out'.stdout = out.stdout :=
  runMetrics_renamed diamond_measurable turnedDiamond_measurable turnedDiamond_renamed
    (fun _ => notMem_decimal (by decide) (by decide)) [.tim, .cri, .dot]

end Graph

end Tdg
