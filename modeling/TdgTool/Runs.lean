/-
TdgTool/Runs.lean

Runs of the runtime, of the role graph and of the tool.

`run_induction` is the rule for invariants of whole runs; a condition on every
step may be assumed (`run_induction_of`).  `tool_run` carries the simulation of
one callback to whole runs: whatever the runtime delivers, every callback is
defined and the tool reaches the realization of the role graph.  The last part
says what the stored graph is in terms of roles, and that addresses do not
change along a run.
-/
import TdgTool.Simulation
import TdgTool.Lib.Paths

namespace Tdg

namespace RoleGraph

variable {g : RoleGraph} {T : Tables} {n u v : NodeRef} {nd : Node}

/-! ### The graph of a realized state -/

/-- The nodes are the live roles. -/
theorem Alloc.nodes_iff (h : Alloc g) :
    (realize T g).nodes n = some nd ↔ ∃ x, g.live x = true ∧ g.addr x = n ∧ g.node x = nd := by
  constructor
  · intro hn
    obtain ⟨x, hx, hnd⟩ := Option.bind_eq_some_iff.mp hn
    split_ifs at hnd with hl
    exact ⟨x, hl, addr_of_getElem? h.nodup hx, Option.some.inj hnd⟩
  · rintro ⟨x, hl, rfl, rfl⟩
    exact heap_addr (h.live_mem hl) hl

theorem Alloc.present_iff (h : Alloc g) :
    (realize T g).toGraph.Present n ↔ ∃ x, g.live x = true ∧ g.addr x = n := by
  constructor
  · rintro ⟨id, hid⟩
    obtain ⟨a, ha, hae⟩ := List.mem_map.mp hid
    exact ⟨a.2, (h.graphNodes_iff.mp ha).1, (Prod.mk.inj hae).2⟩
  · rintro ⟨x, hl, rfl⟩
    refine ⟨g.addr x, List.mem_map.mpr ⟨(g.addr x, x), ?_, rfl⟩⟩
    exact h.graphNodes_iff.mpr ⟨hl, rfl⟩

/-- The edges in the exit vectors are the edges of the role graph. -/
theorem Alloc.adj_iff (h : Alloc g) : (realize T g).toGraph.Adj u v ↔
    ∃ x y, g.addr x = u ∧ g.addr y = v ∧ (x, y) ∈ g.edges := by
  constructor
  · rintro ⟨nd, hnd, e, he, rfl⟩
    obtain ⟨x, hl, rfl, rfl⟩ := h.nodes_iff.mp hnd
    simp only [node, List.mem_map, List.mem_filter, decide_eq_true_eq] at he
    obtain ⟨⟨x', y⟩, ⟨hxy, rfl⟩, rfl⟩ := he
    exact ⟨x', y, rfl, rfl, hxy⟩
  · rintro ⟨x, y, rfl, rfl, hxy⟩
    refine ⟨g.node x, h.nodes_iff.mpr ⟨x, (h.edges_live hxy).1, rfl, rfl⟩,
      ⟨g.addr x, g.addr y⟩, ?_, rfl⟩
    simp only [node, List.mem_map, List.mem_filter, decide_eq_true_eq]
    exact ⟨(x, y), ⟨hxy, rfl⟩, rfl⟩

end RoleGraph

namespace Config

open RoleGraph Tdg.Runtime Paths Relation

variable {c c' : Config} {env : Env} {e : Event} {es : List Event} {x y : Role}

/-! ### Invariants of runs -/

/-- What holds of the runtime and its role graph between callbacks. -/
structure Good (c : Config) : Prop where
  sound : c.rt.Sound
  loopsFresh : ∀ τ, LoopsFresh (c.rt.task τ)
  shaped : Shaped c.rt c.graph
  alloc : Alloc c.graph

theorem good_init : Config.init.Good where
  sound := sound_init
  loopsFresh := fun _ _ _ => rfl
  shaped := shaped_init
  alloc := by constructor <;> simp [Config.init, RoleGraph.init, OrdMap.empty]

/-- The configuration after a callback. -/
def next (env : Env) (c : Config) (e : Event) : Config := ⟨c.rt.apply e, c.graph.step env c.rt e⟩

theorem step_eq_some : c.step env e = some c' ↔ c.rt.allows e = true ∧ c.next env e = c' := by
  unfold Config.step
  split_ifs with ha
  · simp [ha, next]
  · simp [ha]

theorem Good.next (h : c.Good) (env : Env) (ha : c.rt.allows e = true) : (c.next env e).Good where
  sound := h.sound.apply ha
  loopsFresh := fun τ => (h.loopsFresh τ).apply ha
  shaped := h.shaped.step h.sound h.alloc ha
  alloc := (simulates h.shaped h.sound h.alloc h.loopsFresh ha).2

theorem run_append {es' : List Event} :
    run env (es ++ es') = (run env es).bind fun c => es'.foldlM (step env) c := by
  simp [run, List.foldlM_append]

theorem run_snoc :
    run env (es ++ [e]) = some c' ↔
      ∃ c, run env es = some c ∧ c.rt.allows e = true ∧ c.next env e = c' := by
  rw [run_append, Option.bind_eq_some_iff]
  simp [step_eq_some]

/-- A condition on the configuration before a callback, and on the callback,
holds at every step of the run. -/
def Throughout (env : Env) (C : Config → Event → Prop) (es : List Event) : Prop :=
  ∀ pre e post, es = pre ++ e :: post → ∀ c, run env pre = some c → C c e

/-- **Invariants of runs.**  What holds initially and is kept by every callback
that meets a condition holds after every run whose steps all meet it. -/
theorem run_induction_of {C : Config → Event → Prop} {P : Config → Prop} (h0 : P Config.init)
    (hstep : ∀ c e, c.Good → c.rt.allows e = true → C c e → P c → P (c.next env e))
    (hC : Throughout env C es) (hrun : run env es = some c) : c.Good ∧ P c := by
  induction es using List.reverseRecOn generalizing c with
  | nil =>
    obtain rfl : Config.init = c := Option.some.inj hrun
    exact ⟨good_init, h0⟩
  | append_singleton es e ih =>
    obtain ⟨c1, hc1, ha, rfl⟩ := run_snoc.mp hrun
    have hC' : Throughout env C es := by
      intro pre e' post hes
      refine hC pre e' (post ++ [e]) ?_
      rw [hes]
      simp
    obtain ⟨hg, hp⟩ := ih hC' hc1
    exact ⟨hg.next env ha, hstep c1 e hg ha (hC es e [] rfl c1 hc1) hp⟩

theorem run_induction {P : Config → Prop} (h0 : P Config.init)
    (hstep : ∀ c e, c.Good → c.rt.allows e = true → P c → P (c.next env e))
    (hrun : run env es = some c) : c.Good ∧ P c :=
  run_induction_of (C := fun _ _ => True) h0 (fun c e hg ha _ => hstep c e hg ha)
    (fun _ _ _ _ _ _ => trivial) hrun

theorem run_good (hrun : run env es = some c) : c.Good :=
  (run_induction (P := fun _ => True) trivial (fun _ _ _ _ _ => trivial) hrun).1

/-- What holds in some state of a run and is kept by the callbacks that follow
holds after them. -/
theorem run_induction_mem {pre post : List Event} {P : Config → Prop}
    (hpre : run env pre = some c) (h0 : P c)
    (hstep : ∀ c e, e ∈ post → c.Good → c.rt.allows e = true → P c → P (c.next env e))
    (hrun : run env (pre ++ post) = some c') : P c' := by
  induction post using List.reverseRecOn generalizing c' with
  | nil =>
    rw [List.append_nil, hpre] at hrun
    obtain rfl := Option.some.inj hrun
    exact h0
  | append_singleton post e ih =>
    rw [← List.append_assoc] at hrun
    obtain ⟨c1, hc1, ha, rfl⟩ := run_snoc.mp hrun
    have hrec : P c1 := ih (fun c e he => hstep c e (by simp [he])) hc1
    exact hstep c1 e (by simp) (run_good hc1) ha hrec

theorem run_induction_from {pre post : List Event} {P : Config → Prop}
    (hpre : run env pre = some c) (h0 : P c)
    (hstep : ∀ c e, c.Good → c.rt.allows e = true → P c → P (c.next env e))
    (hrun : run env (pre ++ post) = some c') : P c' :=
  run_induction_mem hpre h0 (fun c e _ => hstep c e) hrun

/-- The tool state that a configuration stands for. -/
def tool (c : Config) : Tool := realize (tables c.rt c.graph) c.graph

theorem tool_init : Config.init.tool = Tool.init := by
  refine Tool.ext ?_ ?_ rfl rfl rfl ?_ ?_ rfl rfl rfl rfl
  · funext n
    simp [tool, Config.init, realize, heap, RoleGraph.init, Tool.init]
  · rfl
  · funext τ
    simp only [tool, Config.init, realize, tables, Tool.init]
    cases τ <;> simp [HasData, Runtime.init]
  · funext r
    simp [tool, Config.init, realize, tables, Tool.init, Runtime.init]

/-- **The tool simulates the role graph.**  In every run that the runtime may
deliver, whatever teams it forms, every callback is defined, and the state that
the tool reaches is the realization of the role graph. -/
theorem tool_run (hrun : run env es = some c) : Tool.run env es = some c.tool := by
  induction es using List.reverseRecOn generalizing c with
  | nil =>
    obtain rfl : Config.init = c := Option.some.inj hrun
    rw [tool_init]
    rfl
  | append_singleton es e ih =>
    obtain ⟨c1, hc1, ha, rfl⟩ := run_snoc.mp hrun
    have hg := run_good hc1
    have hsim : Simulates env c1.rt c1.graph e :=
      simulates hg.shaped hg.sound hg.alloc hg.loopsFresh ha
    have hrec := ih hc1
    simp only [Tool.run, Tool.runFrom, List.foldlM_append, List.foldlM_cons,
      List.foldlM_nil] at hrec ⊢
    rw [hrec]
    simp only [Option.bind_eq_bind, Option.bind_some, tool, hsim.1]
    rfl

/-- Every run of the runtime has its role graph. -/
theorem run_of_runtime (env : Env) {o : Runtime} (hrun : Runtime.run es = some o) :
    ∃ c, run env es = some c ∧ c.rt = o := by
  induction es using List.reverseRecOn generalizing o with
  | nil => exact ⟨Config.init, rfl, Option.some.inj hrun⟩
  | append_singleton es e ih =>
    simp only [Runtime.run, List.foldlM_append, List.foldlM_cons, List.foldlM_nil] at hrun
    obtain ⟨o1, ho1, ho⟩ := Option.bind_eq_some_iff.mp hrun
    obtain ⟨o2, ho2, ho3⟩ := Option.bind_eq_some_iff.mp ho
    obtain rfl : o2 = o := Option.some.inj ho3
    obtain ⟨c1, hc1, rfl⟩ := ih ho1
    simp only [Runtime.step] at ho2
    split_ifs at ho2 with ha
    obtain rfl := Option.some.inj ho2
    exact ⟨c1.next env e, run_snoc.mpr ⟨c1, hc1, ha, rfl⟩, rfl⟩

theorem runtime_of_run (hrun : run env es = some c) : Runtime.run es = some c.rt := by
  induction es using List.reverseRecOn generalizing c with
  | nil => exact congrArg (Option.map Config.rt) hrun
  | append_singleton es e ih =>
    obtain ⟨c1, hc1, ha, rfl⟩ := run_snoc.mp hrun
    have hrec := ih hc1
    simp only [Runtime.run] at hrec
    simp only [Runtime.run, List.foldlM_append, hrec]
    simp [Runtime.step, ha, next]

/-! ### Parts of runs -/

theorem run_split {pre post : List Event} (hrun : run env (pre ++ e :: post) = some c) :
    ∃ c1, run env pre = some c1 ∧ c1.rt.allows e = true ∧
      run env (pre ++ [e]) = some (c1.next env e) := by
  rw [run_append] at hrun
  obtain ⟨c1, hc1, hc⟩ := Option.bind_eq_some_iff.mp hrun
  rw [List.foldlM_cons] at hc
  obtain ⟨c2, hc2, -⟩ := Option.bind_eq_some_iff.mp hc
  obtain ⟨ha, rfl⟩ := step_eq_some.mp hc2
  exact ⟨c1, hc1, ha, run_snoc.mpr ⟨c1, hc1, ha, rfl⟩⟩

/-- Nodes are only added at the end of the creation order. -/
theorem order_prefix {pre post : List Event} (hpre : run env pre = some c)
    (hrun : run env (pre ++ post) = some c') : c.graph.order <+: c'.graph.order := by
  refine run_induction_from (P := fun c' => c.graph.order <+: c'.graph.order) hpre
    (List.prefix_refl _) (fun c1 e _ ha ih => ih.trans ?_) hrun
  simp only [next, step_order ha]
  exact List.prefix_append _ _

/-- A node keeps its address. -/
theorem addr_run {pre post : List Event} (hpre : run env pre = some c)
    (hrun : run env (pre ++ post) = some c') (hx : x ∈ c.graph.order) :
    x ∈ c'.graph.order ∧ c'.graph.addr x = c.graph.addr x := by
  obtain ⟨l, hl⟩ := order_prefix hpre hrun
  simp only [addr, ← hl]
  exact ⟨List.mem_append_left l hx, List.idxOf_append_of_mem hx⟩

/-! ### The graph that the tool stores -/

/-- The nodes of the tool are the live roles. -/
theorem Good.nodes_iff (h : c.Good) {n : NodeRef} {nd : Node} :
    c.tool.nodes n = some nd ↔
      ∃ x, c.graph.live x = true ∧ c.graph.addr x = n ∧ c.graph.node x = nd :=
  h.alloc.nodes_iff

theorem Good.present_iff (h : c.Good) {n : NodeRef} :
    c.tool.toGraph.Present n ↔ ∃ x, c.graph.live x = true ∧ c.graph.addr x = n :=
  h.alloc.present_iff

/-- The edges in the exit vectors are the edges of the role graph. -/
theorem Good.adj_iff (h : c.Good) {u v : NodeRef} :
    c.tool.toGraph.Adj u v ↔
      ∃ x y, c.graph.addr x = u ∧ c.graph.addr y = v ∧ c.graph.Link x y :=
  h.alloc.adj_iff

/-- The edges out of a node. -/
theorem Good.adj_from (h : c.Good) (hx : x ∈ c.graph.order) {v : NodeRef} :
    c.tool.toGraph.Adj (c.graph.addr x) v ↔ ∃ y, c.graph.addr y = v ∧ c.graph.Link x y := by
  rw [h.adj_iff]
  constructor
  · rintro ⟨x', y, hx', hy, hxy⟩
    obtain rfl := (addr_inj hx).mp hx'.symm
    exact ⟨y, hy, hxy⟩
  · rintro ⟨y, hy, hxy⟩
    exact ⟨x, y, rfl, hy, hxy⟩

/-- The edges into a node. -/
theorem Good.adj_to (h : c.Good) (hx : x ∈ c.graph.order) {u : NodeRef} :
    c.tool.toGraph.Adj u (c.graph.addr x) ↔ ∃ y, c.graph.addr y = u ∧ c.graph.Link y x := by
  rw [h.adj_iff]
  constructor
  · rintro ⟨y, x', hy, hx', hxy⟩
    obtain rfl := (addr_inj hx).mp hx'.symm
    exact ⟨y, hy, hxy⟩
  · rintro ⟨y, hy, hxy⟩
    exact ⟨y, x, hy, rfl, hxy⟩

/-- Both ends of a stored edge are in `_graphNodes`. -/
theorem Good.edgesPresent (h : c.Good) : c.tool.toGraph.EdgesPresent := by
  intro n nd hnd e he
  obtain ⟨x, -, -, rfl⟩ := h.nodes_iff.mp hnd
  simp only [node, List.mem_append, List.mem_map, List.mem_filter, decide_eq_true_eq] at he
  rcases he with ⟨a, ⟨ha, -⟩, rfl⟩ | ⟨a, ⟨ha, -⟩, rfl⟩ <;>
    exact ⟨h.present_iff.mpr ⟨a.1, (h.alloc.edges_live ha).1, rfl⟩,
      h.present_iff.mpr ⟨a.2, (h.alloc.edges_live ha).2, rfl⟩⟩

/-- Addresses do not merge the ends of edges. -/
theorem Good.image (h : c.Good) : Image c.graph.addr c.graph.Link c.tool.toGraph.Adj where
  preimage := fun _ _ huv => h.adj_iff.mp huv
  inj := fun hxy _ he => (addr_inj (h.alloc.edges_mem hxy).2).mp he

theorem Good.reach (h : c.Good) (hr : ReflTransGen c.graph.Link x y) :
    ReflTransGen c.tool.toGraph.Adj (c.graph.addr x) (c.graph.addr y) :=
  ReflTransGen.lift c.graph.addr (fun a b hab => h.adj_iff.mpr ⟨a, b, rfl, rfl, hab⟩) _ _ hr

/-- Paths between nodes of the tool are paths between roles. -/
theorem Good.reach_iff (h : c.Good) (hx : x ∈ c.graph.order) (hy : y ∈ c.graph.order) :
    ReflTransGen c.tool.toGraph.Adj (c.graph.addr x) (c.graph.addr y) ↔
      ReflTransGen c.graph.Link x y := by
  refine ⟨fun hr => ?_, h.reach⟩
  have key : ∀ {v}, ReflTransGen c.tool.toGraph.Adj (c.graph.addr x) v →
      ∃ z ∈ c.graph.order, c.graph.addr z = v ∧ ReflTransGen c.graph.Link x z := by
    intro v hv
    induction hv with
    | refl => exact ⟨x, hx, rfl, .refl⟩
    | tail _ hvw ih =>
      obtain ⟨z, hz, rfl, hxz⟩ := ih
      obtain ⟨z', w, hz', rfl, hzw⟩ := h.adj_iff.mp hvw
      obtain rfl := (addr_inj (h.alloc.edges_mem hzw).1).mp hz'
      exact ⟨w, (h.alloc.edges_mem hzw).2, rfl, hxz.tail hzw⟩
  obtain ⟨z, hz, hzy, hxz⟩ := key hr
  obtain rfl := (addr_inj hz).mp hzy
  exact hxz

/-- The record of a task that has one. -/
theorem taskData_tool {τ : TaskId} (hd : c.rt.HasData τ) :
    c.tool.taskData τ = some ((taskRecord c.rt c.graph τ).map c.graph.addr) :=
  taskData_realize (tables_task hd)

theorem hasData_of_tool {τ : TaskId} {td : TaskData NodeRef} (h : c.tool.taskData τ = some td) :
    c.rt.HasData τ := by
  by_contra hd
  simp [tool, realize, tables, hd] at h

/-- The record of a region, which exists while the region is open. -/
theorem parData_tool {r : RegionId} {pi : ParallelRegionData NodeRef} :
    c.tool.parData r = some pi ↔
      (c.rt.region r).stage = .opened ∧ (regionRecord c.rt r).map c.graph.addr = pi := by
  by_cases hopen : (c.rt.region r).stage = .opened
  · simp only [tool, parData_realize (tables_par hopen), hopen, Option.some.injEq, true_and]
  · simp [tool, realize, tables, hopen]

end Config

end Tdg
