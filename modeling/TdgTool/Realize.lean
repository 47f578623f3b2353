/-
TdgTool/Realize.lean

From roles back to addresses.

The address of a role is its position in the creation order.  `realize` turns a
role graph, with the tool's records written over roles (`Tables`), into a tool
state: the heap holds a node at the address of every live role, and the edge
vectors of a node are the edges of the list that leave it and enter it, in the
order in which they were added.

For each elementary operation of `Callbacks` one lemma says that realizing
commutes with it.  The callbacks are compositions of these operations, so their
simulation only has to chain the lemmas.
-/
import TdgTool.Roles

namespace Tdg

/-! ### Records over another node type -/

variable {ρ σ : Type}

/-- A worksharing record with its nodes renamed. -/
def WorksharingData.map (f : ρ → σ) (ws : WorksharingData ρ) : WorksharingData σ where
  startNode := f ws.startNode
  sinkNode := f ws.sinkNode
  lastChunkNode := ws.lastChunkNode.map f

/-- A task record with its nodes renamed. -/
def TaskData.map (f : ρ → σ) (td : TaskData ρ) : TaskData σ where
  currTaskNode := f td.currTaskNode
  currWsData := td.currWsData.map (WorksharingData.map f)
  currBarrierNode := td.currBarrierNode.map f
  sinkNode := td.sinkNode.map f
  threadNum := td.threadNum

/-- A region record with its node renamed. -/
def ParallelRegionData.map (f : ρ → σ) (pi : ParallelRegionData ρ) : ParallelRegionData σ where
  parentTaskData := pi.parentTaskData
  sinkNode := f pi.sinkNode
  teamSize := pi.teamSize
  barrierCnt := pi.barrierCnt
  currBarrierNode := pi.currBarrierNode.map f

/-- A charge with its node renamed. -/
def Charge.map (f : ρ → σ) (c : Charge ρ) : Charge σ := { c with node := f c.node }

/-- A PAPI call with its node renamed. -/
def PapiCall.map (f : ρ → σ) (c : PapiCall ρ) : PapiCall σ := { c with node := f c.node }

/-- The nodes a worksharing record refers to. -/
def WorksharingData.refs (ws : WorksharingData ρ) : List ρ :=
  ws.startNode :: ws.sinkNode :: ws.lastChunkNode.toList

/-- The nodes a task record refers to. -/
def TaskData.refs (td : TaskData ρ) : List ρ :=
  td.currTaskNode :: (td.currBarrierNode.toList ++ td.sinkNode.toList ++
    (td.currWsData.map WorksharingData.refs).getD [])

/-- The nodes a region record refers to. -/
def ParallelRegionData.refs (pi : ParallelRegionData ρ) : List ρ :=
  pi.sinkNode :: pi.currBarrierNode.toList

/-- Renamings that agree on the value that is there do the same. -/
theorem Option.map_congr_toList {f f' : ρ → σ} {x : Option ρ}
    (h : ∀ a ∈ x.toList, f a = f' a) : x.map f = x.map f' := by
  cases x with
  | none => rfl
  | some a => simpa using h a (by simp)

/-- A renaming of a record depends on the nodes that the record mentions only. -/
theorem WorksharingData.map_congr {f f' : ρ → σ} {ws : WorksharingData ρ}
    (h : ∀ a ∈ ws.refs, f a = f' a) : ws.map f = ws.map f' := by
  simp only [refs, List.mem_cons] at h
  simp only [WorksharingData.map, h ws.startNode (.inl rfl), h ws.sinkNode (.inr (.inl rfl)),
    Option.map_congr_toList fun a ha => h a (.inr (.inr ha))]

theorem TaskData.map_congr {f f' : ρ → σ} {td : TaskData ρ}
    (h : ∀ a ∈ td.refs, f a = f' a) : td.map f = td.map f' := by
  simp only [refs, List.mem_cons, List.mem_append] at h
  have hws : td.currWsData.map (WorksharingData.map f)
      = td.currWsData.map (WorksharingData.map f') := by
    rcases e : td.currWsData with - | ws
    · rfl
    · rw [e] at h
      exact congrArg some (WorksharingData.map_congr fun a ha => h a (.inr (.inr ha)))
  simp only [TaskData.map, hws, h td.currTaskNode (.inl rfl),
    Option.map_congr_toList fun a ha => h a (.inr (.inl (.inl ha))),
    Option.map_congr_toList fun a ha => h a (.inr (.inl (.inr ha)))]

theorem ParallelRegionData.map_congr {f f' : ρ → σ} {pi : ParallelRegionData ρ}
    (h : ∀ a ∈ pi.refs, f a = f' a) : pi.map f = pi.map f' := by
  simp only [refs, List.mem_cons] at h
  simp only [ParallelRegionData.map, h pi.sinkNode (.inl rfl),
    Option.map_congr_toList fun a ha => h a (.inr ha)]

/-- The tool's records, over roles. -/
@[ext] structure Tables where
  task : TaskId → Option (TaskData Role)
  par : RegionId → Option (ParallelRegionData Role)
  thread : ThreadId → Option ThreadData

namespace Tables

/-- Set the `ptr` of a task. -/
@[simps -fullyApplied] def setTask (T : Tables) (τ : TaskId) (td : Option (TaskData Role)) :
    Tables :=
  { T with task := Function.update T.task τ td }

/-- Set the `ptr` of a region. -/
@[simps -fullyApplied] def setPar (T : Tables) (r : RegionId)
    (pi : Option (ParallelRegionData Role)) : Tables :=
  { T with par := Function.update T.par r pi }

/-- Set the `ptr` of a thread. -/
@[simps -fullyApplied] def setThread (T : Tables) (th : ThreadId) (td : Option ThreadData) :
    Tables :=
  { T with thread := Function.update T.thread th td }

end Tables

namespace RoleGraph

/-! ### Realization -/

/-- The address of a role. -/
def addr (g : RoleGraph) (x : Role) : NodeRef := g.order.idxOf x

/-- An edge between addresses. -/
def edgeAt (g : RoleGraph) (e : Role × Role) : Edge := ⟨g.addr e.1, g.addr e.2⟩

/-- The node object of a role. -/
def node (g : RoleGraph) (x : Role) : Node where
  toNodeData := g.data x
  entryEdges := (g.edges.filter fun e => e.2 = x).map g.edgeAt
  exitEdges := (g.edges.filter fun e => e.1 = x).map g.edgeAt

/-- The heap. -/
def heap (g : RoleGraph) (n : NodeRef) : Option Node :=
  (g.order[n]?).bind fun x => if g.live x then some (g.node x) else none

/-- The tool state that a role graph stands for. -/
def realize (T : Tables) (g : RoleGraph) : Tool where
  nodes := g.heap
  graphNodes := g.graphNodes.mapVal g.addr
  nextRef := g.order.length
  nextId := max 1 g.order.length
  finalNode := g.finalNode.map g.addr
  taskData := fun τ => (T.task τ).map (TaskData.map g.addr)
  parData := fun r => (T.par r).map (ParallelRegionData.map g.addr)
  threadData := T.thread
  ticks := g.ticks
  charges := g.charges.map (Charge.map g.addr)
  papiCalls := g.papiCalls.map (PapiCall.map g.addr)

/-- The creation order, the ids, the map of the graph and the edges agree: a
node's id is its address, `_graphNodes` holds the live nodes, edges join live
nodes, and everything that is mentioned was created. -/
structure Alloc (g : RoleGraph) : Prop where
  nodup : g.order.Nodup
  live_mem : ∀ {x}, g.live x = true → x ∈ g.order
  id_eq : ∀ {x}, x ∈ g.order → (g.data x).id = g.addr x
  type_eq : ∀ {x}, x ∈ g.order → (g.data x).type = x.type
  graphNodes_iff : ∀ {a}, a ∈ g.graphNodes.entries ↔ g.live a.2 = true ∧ a.1 = g.addr a.2
  edges_nodup : g.edges.Nodup
  edges_live : ∀ {e}, e ∈ g.edges → g.live e.1 = true ∧ g.live e.2 = true
  final_mem : ∀ {x}, g.finalNode = some x → x ∈ g.order
  charge_mem : ∀ {c}, c ∈ g.charges → c.node ∈ g.order
  papi_mem : ∀ {c}, c ∈ g.papiCalls → c.node ∈ g.order

/-- In addition, the records mention created roles only. -/
structure Closed (T : Tables) (g : RoleGraph) : Prop extends Alloc g where
  task_mem : ∀ {τ td}, T.task τ = some td → ∀ x ∈ td.refs, x ∈ g.order
  par_mem : ∀ {r pi}, T.par r = some pi → ∀ x ∈ pi.refs, x ∈ g.order

variable {T : Tables} {g : RoleGraph} {env : Env} {th : ThreadId} {x y : Role}

/-- The ends of an edge were created. -/
theorem Alloc.edges_mem (h : Alloc g) {e : Role × Role} (he : e ∈ g.edges) :
    e.1 ∈ g.order ∧ e.2 ∈ g.order :=
  ⟨h.live_mem (h.edges_live he).1, h.live_mem (h.edges_live he).2⟩

/-! Only `create` changes addresses, and only that of the new role. -/

@[simp] theorem addr_onData (f : NodeData → NodeData) : (g.onData x f).addr = g.addr := rfl

@[simp] theorem addr_addTime : (g.addTime env th x).addr = g.addr := rfl

@[simp] theorem addr_setLastTime : (g.setLastTime env x).addr = g.addr := rfl

@[simp] theorem addr_connect : (g.connect x y).addr = g.addr := rfl

@[simp] theorem addr_disconnect : (g.disconnect x y).addr = g.addr := rfl

@[simp] theorem addr_remove : (g.remove x).addr = g.addr := rfl

@[simp] theorem addr_startPapi : (g.startPapi th x).addr = g.addr := rfl

@[simp] theorem addr_endPapi : (g.endPapi env th x).addr = g.addr := rfl

/-- A creation leaves the addresses of the roles that exist alone. -/
theorem addr_create_of_mem (hx : x ∈ g.order) : (g.create y).addr x = g.addr x :=
  List.idxOf_append_of_mem hx

/-- A new role gets the next address. -/
theorem addr_create_self (hx : x ∉ g.order) : (g.create x).addr x = g.order.length := by
  simp [addr, List.idxOf_append_of_notMem hx]

/-- Addresses tell the created roles apart. -/
theorem addr_inj (hx : x ∈ g.order) : g.addr x = g.addr y ↔ x = y :=
  List.idxOf_inj hx

theorem order_getElem?_addr (hx : x ∈ g.order) : g.order[g.addr x]? = some x :=
  List.getElem?_idxOf hx

/-- At the address of a live role stands its node. -/
theorem heap_addr (hx : x ∈ g.order) (hl : g.live x = true) :
    g.heap (g.addr x) = some (g.node x) := by
  simp [heap, order_getElem?_addr hx, hl]

/-- A role stands at its address only. -/
theorem addr_of_getElem? (hn : g.order.Nodup) {n : NodeRef} (e : g.order[n]? = some x) :
    g.addr x = n := by
  obtain ⟨hlt, rfl⟩ := List.getElem?_eq_some_iff.mp e
  exact hn.idxOf_getElem n hlt

/-- Two role graphs with the same creation order have the same heap but for
the address of `x`, if they agree on the other roles. -/
theorem heap_update {g' : RoleGraph} (hn : g.order.Nodup) (ho : g'.order = g.order)
    (hl : ∀ y ≠ x, g'.live y = g.live y) (hnode : ∀ y ≠ x, g'.node y = g.node y) :
    g'.heap = Function.update g.heap (g.addr x) (g'.heap (g.addr x)) := by
  funext n
  rcases eq_or_ne n (g.addr x) with rfl | hnx
  · simp
  · rw [Function.update_of_ne hnx]
    simp only [heap, ho]
    rcases e : g.order[n]? with - | y
    · rfl
    · have hyx : y ≠ x := by
        rintro rfl
        exact hnx (addr_of_getElem? hn e).symm
      simp [hl y hyx, hnode y hyx]

/-! ### Setters of the scalar members -/

/-- A setter on a role is the setter on its node object. -/
theorem node_onData_self (f : NodeData → NodeData) :
    (g.onData x f).node x = Node.onData f (g.node x) := by
  simp [node, Node.onData, edgeAt, addr]

theorem node_onData_of_ne (f : NodeData → NodeData) (h : y ≠ x) :
    (g.onData x f).node y = g.node y := by
  simp [node, edgeAt, addr, h]

/-- A setter writes one address of the heap. -/
theorem heap_onData (hn : g.order.Nodup) (hx : x ∈ g.order) (hl : g.live x = true)
    (f : NodeData → NodeData) :
    (g.onData x f).heap
      = Function.update g.heap (g.addr x) (some (Node.onData f (g.node x))) := by
  have hself : (g.onData x f).heap (g.addr x) = some (Node.onData f (g.node x)) := by
    have := heap_addr (g := g.onData x f) hx hl
    rwa [node_onData_self] at this
  rw [← hself]
  exact heap_update hn rfl (fun _ _ => rfl) fun y hy => node_onData_of_ne f hy

/-- **Setters commute with realization.** -/
theorem realize_onNode (h : Closed T g) (hl : g.live x = true) (f : NodeData → NodeData) :
    (realize T g).onNode (g.addr x) f = some (realize T (g.onData x f)) := by
  have hx := h.live_mem hl
  have hheap : (realize T g).nodes (g.addr x) = some (g.node x) := heap_addr hx hl
  simp only [Tool.onNode, Graph.modifyNode, hheap, Option.map_some, Option.bind_eq_bind,
    Option.bind_some, Option.some.injEq]
  simp only [realize, heap_onData h.nodup hx hl f]
  rfl

/-- `addTime` commutes with realization, and records the charge under the
address. -/
theorem realize_addTime (h : Closed T g) (hl : g.live x = true) :
    (realize T g).addTime env th (g.addr x) = some (realize T (g.addTime env th x)) := by
  have hheap : (realize T g).nodes (g.addr x) = some (g.node x) := heap_addr (h.live_mem hl) hl
  simp only [Tool.addTime, hheap, Option.bind_eq_bind, Option.bind_some,
    realize_onNode h hl]
  refine congrArg some (Tool.ext rfl rfl rfl rfl rfl rfl rfl rfl rfl ?_ rfl)
  simp [realize, Charge.map, node]

theorem realize_setLastTime (h : Closed T g) (hl : g.live x = true) :
    (realize T g).setLastTime env (g.addr x) = some (realize T (g.setLastTime env x)) := by
  simp only [Tool.setLastTime, Option.bind_eq_bind, realize_onNode h hl, Option.bind_some]
  rfl

/-- `endPapiCounters` takes the values that its position among the PAPI calls
gives it, on both sides. -/
theorem realize_endPapiCounters (h : Closed T g) (hl : g.live x = true) :
    (realize T g).endPapiCounters env th (g.addr x) = some (realize T (g.endPapi env th x)) := by
  have hlen : (realize T g).papiCalls.length = g.papiCalls.length := by simp [realize]
  simp only [Tool.endPapiCounters, Option.bind_eq_bind, realize_onNode h hl, Option.bind_some,
    hlen]
  refine congrArg some (Tool.ext rfl rfl rfl rfl rfl rfl rfl rfl rfl rfl ?_)
  simp [realize, PapiCall.map]

theorem realize_startPapiCounters :
    (realize T g).startPapiCounters th (g.addr x) = realize T (g.startPapi th x) := by
  refine Tool.ext rfl rfl rfl rfl rfl rfl rfl rfl rfl rfl ?_
  simp [Tool.startPapiCounters, realize, PapiCall.map]

/-! ### Edges -/

/-- `isConnectedWith` finds the edges of the list. -/
theorem isConnectedWith_node (h : Closed T g) :
    (g.node x).isConnectedWith (g.addr y) = true ↔ (x, y) ∈ g.edges := by
  simp only [Node.isConnectedWith, node, List.any_eq_true, List.mem_map, List.mem_filter,
    decide_eq_true_eq]
  constructor
  · rintro ⟨_, ⟨e, ⟨he, rfl⟩, rfl⟩, ht⟩
    -- targets are compared as addresses, and addresses are injective
    have hy : e.2 = y := (addr_inj (h.edges_mem he).2).mp ht
    rwa [← hy]
  · intro he
    exact ⟨_, ⟨(x, y), ⟨he, rfl⟩, rfl⟩, rfl⟩

/-- A new edge is the last exit of its source and the last entry of its target. -/
theorem node_connect (hxy : (x, y) ∉ g.edges) (z : Role) :
    (g.connect x y).node z =
      { g.node z with
        entryEdges := (g.node z).entryEdges ++ if y = z then [g.edgeAt (x, y)] else []
        exitEdges := (g.node z).exitEdges ++ if x = z then [g.edgeAt (x, y)] else [] } := by
  have he : (g.connect x y).edges = g.edges ++ [(x, y)] := by simp [hxy]
  have ha : (g.connect x y).edgeAt = g.edgeAt := rfl
  simp only [node, he, ha, List.filter_append, List.map_append]
  by_cases h1 : x = z <;> by_cases h2 : y = z <;> simp [h1, h2]

/-- A new edge writes the addresses of its two ends. -/
theorem heap_connect (h : Closed T g) (hx : g.live x = true) (hy : g.live y = true)
    (hxy : (x, y) ∉ g.edges) :
    (g.connect x y).heap =
      Function.update
        (Function.update g.heap (g.addr x) (some (Node.pushExit (g.edgeAt (x, y)) (g.node x))))
        (g.addr y) (some ((g.connect x y).node y)) := by
  funext n
  have hxm := h.live_mem hx
  have hym := h.live_mem hy
  rcases eq_or_ne n (g.addr y) with rfl | hny
  · have := heap_addr (g := g.connect x y) hym hy
    simpa using this
  · rw [Function.update_of_ne hny]
    rcases eq_or_ne n (g.addr x) with rfl | hnx
    -- source and target are different nodes here, and each gets one entry
    · have hne : y ≠ x := fun e => hny (by rw [e])
      have := heap_addr (g := g.connect x y) hxm hx
      rw [node_connect hxy, if_neg hne] at this
      simpa [Node.pushExit] using this
    · rw [Function.update_of_ne hnx]
      simp only [heap, connect_order, connect_live]
      rcases e : g.order[n]? with - | z
      · rfl
      · have hzn := addr_of_getElem? h.nodup e
        have hxz : x ≠ z := fun e' => hnx (by rw [e', hzn])
        have hyz : y ≠ z := fun e' => hny (by rw [e', hzn])
        simp [node_connect hxy, hxz, hyz]

/-- **`connectNodes` commutes with realization**, whether the edge is there
already or not. -/
theorem realize_connectNodes (h : Closed T g) (hx : g.live x = true) (hy : g.live y = true) :
    (realize T g).connectNodes (g.addr x) (g.addr y) = some (realize T (g.connect x y)) := by
  have hnx : (realize T g).nodes (g.addr x) = some (g.node x) := heap_addr (h.live_mem hx) hx
  simp only [Tool.connectNodes, Graph.connectNodes, hnx, Option.bind_eq_bind, Option.bind_some]
  by_cases hxy : (x, y) ∈ g.edges
  · rw [if_pos ((isConnectedWith_node h).mpr hxy), Option.bind_some]
    simp [connect, hxy]
  · rw [if_neg fun hc => hxy ((isConnectedWith_node h).mp hc)]
    -- the target is looked up after the source has been updated: a self-loop sees the new exit
    have hny : (Function.update g.heap (g.addr x)
        (some (Node.pushExit (g.edgeAt (x, y)) (g.node x)))) (g.addr y)
          = some (if y = x then Node.pushExit (g.edgeAt (x, y)) (g.node x) else g.node y) := by
      by_cases hyx : y = x
      · simp [hyx]
      · have hne : g.addr y ≠ g.addr x := fun e => hyx ((addr_inj (h.live_mem hy)).mp e)
        rw [Function.update_of_ne hne, if_neg hyx]
        exact heap_addr (h.live_mem hy) hy
    have hpush : Node.pushEntry (g.edgeAt (x, y))
        (if y = x then Node.pushExit (g.edgeAt (x, y)) (g.node x) else g.node y)
          = (g.connect x y).node y := by
      rw [node_connect hxy]
      rcases eq_or_ne y x with rfl | hyx
      · simp [Node.pushEntry, Node.pushExit]
      · have hxy' : x ≠ y := fun e => hyx e.symm
        simp [Node.pushEntry, hyx, hxy']
    simp only [Graph.modifyNode, hnx, Option.map_some, Option.bind_some]
    change Option.bind (Option.map _ (Function.update g.heap (g.addr x)
      (some (Node.pushExit (g.edgeAt (x, y)) (g.node x))) (g.addr y))) _ = _
    rw [hny, Option.map_some, Option.bind_some]
    refine congrArg some (Tool.ext ?_ rfl rfl rfl rfl rfl rfl rfl rfl rfl rfl)
    change Function.update (Function.update g.heap (g.addr x) _) (g.addr y)
      (some (Node.pushEntry (g.edgeAt (x, y)) _)) = (g.connect x y).heap
    rw [hpush, heap_connect h hx hy hxy]
    rfl

/-- Erasing the first match is filtering, when there is at most one. -/
theorem eraseP_eq_filter {α : Type*} {p : α → Bool} {l : List α}
    (h : l.Pairwise fun a b => ¬(p a = true ∧ p b = true)) :
    l.eraseP p = l.filter fun a => !p a := by
  induction l with
  | nil => rfl
  | cons a l ih =>
    obtain ⟨ha, hl⟩ := List.pairwise_cons.mp h
    by_cases hp : p a = true
    · have hall : ∀ b ∈ l, (!p b) = true := fun b hb => by
        simpa using fun hb' => ha b hb ⟨hp, hb'⟩
      simp [hp, List.filter_eq_self.mpr hall]
    · simp [hp, ih hl]

/-- Of the edges that satisfy `q`, the tool erases the first that satisfies `p`:
it is the edge `(x, y)`, if that edge is there. -/
theorem eraseP_edges (h : Closed T g) {q : Role × Role → Bool} {p : Edge → Bool}
    (hp : ∀ e ∈ g.edges, q e = true → p (g.edgeAt e) = decide (e = (x, y))) :
    ((g.edges.filter q).map g.edgeAt).eraseP p
      = ((g.disconnect x y).edges.filter q).map g.edgeAt := by
  have hu : (g.edges.filter q).Pairwise fun a b =>
      ¬((p ∘ g.edgeAt) a = true ∧ (p ∘ g.edgeAt) b = true) := by
    refine List.Pairwise.imp_of_mem ?_ (h.edges_nodup.filter _)
    intro a b ha hb hab
    obtain ⟨ha, ha'⟩ := List.mem_filter.mp ha
    obtain ⟨hb, hb'⟩ := List.mem_filter.mp hb
    simp only [Function.comp_apply, hp a ha ha', hp b hb hb', decide_eq_true_eq]
    rintro ⟨e1, e2⟩
    exact hab (e1.trans e2.symm)
  rw [List.eraseP_map, eraseP_eq_filter hu, disconnect_edges, List.filter_filter,
    List.filter_filter]
  congr 1
  refine List.filter_congr fun e he => ?_
  rcases hq : q e with - | -
  · simp
  · simp [hp e he hq]

/-- Erasing from the exits of the source is dropping the edge from the list. -/
theorem eraseExit_node (h : Closed T g) (hxy : x ≠ y) :
    Node.eraseExit (g.addr y) (g.node x) = (g.disconnect x y).node x := by
  have hexit := eraseP_edges (x := x) (y := y) h (q := fun e => e.1 = x)
    (p := fun e => e.target = g.addr y) fun e he hq => by
      simp only [decide_eq_true_eq] at hq
      simp [edgeAt, addr_inj (h.edges_mem he).2, Prod.ext_iff, hq]
  have hentry : (g.disconnect x y).edges.filter (fun e => e.2 = x)
      = g.edges.filter fun e => e.2 = x := by
    rw [disconnect_edges, List.filter_filter]
    refine List.filter_congr fun e _ => ?_
    by_cases h2 : e.2 = x
    · simp [h2, Prod.ext_iff, hxy]
    · simp [h2]
  have ha : (g.disconnect x y).edgeAt = g.edgeAt := rfl
  simp only [Node.eraseExit, node, hexit, hentry, ha]
  rfl

/-- Erasing from the entries of the target is dropping the edge from the list. -/
theorem eraseEntry_node (h : Closed T g) (hxy : x ≠ y) :
    Node.eraseEntry (g.addr x) (g.node y) = (g.disconnect x y).node y := by
  have hentry := eraseP_edges (x := x) (y := y) h (q := fun e => e.2 = y)
    (p := fun e => e.source = g.addr x) fun e he hq => by
      simp only [decide_eq_true_eq] at hq
      simp [edgeAt, addr_inj (h.edges_mem he).1, Prod.ext_iff, hq]
  have hexit : (g.disconnect x y).edges.filter (fun e => e.1 = y)
      = g.edges.filter fun e => e.1 = y := by
    rw [disconnect_edges, List.filter_filter]
    refine List.filter_congr fun e _ => ?_
    by_cases h1 : e.1 = y
    · simp [h1, Prod.ext_iff, hxy.symm]
    · simp [h1]
  have ha : (g.disconnect x y).edgeAt = g.edgeAt := rfl
  simp only [Node.eraseEntry, node, hexit, hentry, ha]
  rfl

/-- Other nodes keep their edges. -/
theorem node_disconnect_of_ne {z : Role} (hx : z ≠ x) (hy : z ≠ y) :
    (g.disconnect x y).node z = g.node z := by
  have ha : (g.disconnect x y).edgeAt = g.edgeAt := rfl
  have hentry : (g.disconnect x y).edges.filter (fun e => e.2 = z)
      = g.edges.filter fun e => e.2 = z := by
    rw [disconnect_edges, List.filter_filter]
    refine List.filter_congr fun e _ => ?_
    by_cases h2 : e.2 = z
    · simp [h2, Prod.ext_iff, hy]
    · simp [h2]
  have hexit : (g.disconnect x y).edges.filter (fun e => e.1 = z)
      = g.edges.filter fun e => e.1 = z := by
    rw [disconnect_edges, List.filter_filter]
    refine List.filter_congr fun e _ => ?_
    by_cases h1 : e.1 = z
    · simp [h1, Prod.ext_iff, hx]
    · simp [h1]
  simp only [node, hentry, hexit, ha]
  rfl

/-- `disconnectNodes` writes the addresses of the two ends. -/
theorem heap_disconnect (h : Closed T g) (hx : g.live x = true) (hy : g.live y = true) :
    (g.disconnect x y).heap =
      Function.update
        (Function.update g.heap (g.addr x) (some ((g.disconnect x y).node x)))
        (g.addr y) (some ((g.disconnect x y).node y)) := by
  funext n
  rcases eq_or_ne n (g.addr y) with rfl | hny
  · simpa using heap_addr (g := g.disconnect x y) (h.live_mem hy) hy
  · rw [Function.update_of_ne hny]
    rcases eq_or_ne n (g.addr x) with rfl | hnx
    · simpa using heap_addr (g := g.disconnect x y) (h.live_mem hx) hx
    · rw [Function.update_of_ne hnx]
      simp only [heap, disconnect_order, disconnect_live]
      rcases e : g.order[n]? with - | z
      · rfl
      · have hzn := addr_of_getElem? h.nodup e
        have hxz : z ≠ x := fun e' => hnx (by rw [← e', hzn])
        have hyz : z ≠ y := fun e' => hny (by rw [← e', hzn])
        simp [node_disconnect_of_ne hxz hyz]

/-- **`disconnectNodes` commutes with realization.** -/
theorem realize_disconnectNodes (h : Closed T g) (hx : g.live x = true)
    (hy : g.live y = true) (hxy : x ≠ y) :
    (realize T g).disconnectNodes (g.addr x) (g.addr y)
      = some (realize T (g.disconnect x y)) := by
  have hnx : (realize T g).nodes (g.addr x) = some (g.node x) := heap_addr (h.live_mem hx) hx
  have hne : g.addr y ≠ g.addr x := fun e => hxy ((addr_inj (h.live_mem hy)).mp e).symm
  have hny : (Function.update g.heap (g.addr x) (some ((g.disconnect x y).node x)))
      (g.addr y) = some (g.node y) := by
    rw [Function.update_of_ne hne]
    exact heap_addr (h.live_mem hy) hy
  simp only [Tool.disconnectNodes, Graph.disconnectNodes, Graph.modifyNode, hnx,
    Option.bind_eq_bind, Option.map_some, Option.bind_some, eraseExit_node h hxy]
  change Option.bind (Option.map _ (Function.update g.heap (g.addr x)
    (some ((g.disconnect x y).node x)) (g.addr y))) _ = _
  rw [hny, Option.map_some, Option.bind_some]
  refine congrArg some (Tool.ext ?_ rfl rfl rfl rfl rfl rfl rfl rfl rfl rfl)
  change Function.update (Function.update g.heap (g.addr x) _) (g.addr y)
    (some (Node.eraseEntry (g.addr x) (g.node y))) = (g.disconnect x y).heap
  rw [eraseEntry_node h hxy, heap_disconnect h hx hy]

/-! ### Creation and deletion -/

/-- Deleting a node empties its address and takes its id out of the map. -/
theorem realize_removeAndDelete (h : Closed T g) (hx : g.live x = true) :
    (realize T g).removeAndDelete (g.addr x) = some (realize T (g.remove x)) := by
  have hnx : (realize T g).nodes (g.addr x) = some (g.node x) := heap_addr (h.live_mem hx) hx
  have hself : (g.remove x).heap (g.addr x) = none := by
    simp [heap, order_getElem?_addr (h.live_mem hx)]
  have hup : (g.remove x).heap
      = Function.update g.heap (g.addr x) ((g.remove x).heap (g.addr x)) :=
    heap_update h.nodup rfl (fun y hy => by simp [hy]) fun _ _ => rfl
  rw [hself] at hup
  simp only [Tool.removeAndDelete, hnx, Option.bind_eq_bind, Option.bind_some]
  refine congrArg some (Tool.ext ?_ ?_ rfl rfl rfl rfl rfl rfl rfl rfl rfl)
  · exact hup.symm
  · exact (OrdMap.mapVal_erase g.addr g.graphNodes (g.data x).id).symm

/-- A role that was not created is no end of an edge. -/
theorem Alloc.notMem_edges (h : Alloc g) (hx : x ∉ g.order) {e : Role × Role}
    (he : e ∈ g.edges) : e.1 ≠ x ∧ e.2 ≠ x :=
  ⟨fun e' => hx (e' ▸ (h.edges_mem he).1), fun e' => hx (e' ▸ (h.edges_mem he).2)⟩

/-- A creation leaves the node objects that exist alone. -/
theorem node_create_of_mem (h : Closed T g) (hx : x ∉ g.order) (hy : y ∈ g.order) :
    (g.create x).node y = g.node y := by
  have hyx : y ≠ x := fun e => hx (e ▸ hy)
  have hedge : ∀ e ∈ g.edges, (g.create x).edgeAt e = g.edgeAt e := fun e he => by
    simp [edgeAt, addr_create_of_mem (h.edges_mem he).1, addr_create_of_mem (h.edges_mem he).2]
  simp only [node, create_edges]
  rw [List.map_congr_left fun e he => hedge e (List.mem_of_mem_filter he),
    List.map_congr_left fun e he => hedge e (List.mem_of_mem_filter he)]
  simp [hyx]

/-- A new node has no edges. -/
theorem node_create_self (h : Closed T g) (hx : x ∉ g.order) :
    (g.create x).node x = Node.new g.order.length x.type 0 := by
  have h1 : (g.edges.filter fun e => e.1 = x) = [] :=
    List.filter_eq_nil_iff.mpr fun e he => by simpa using (h.notMem_edges hx he).1
  have h2 : (g.edges.filter fun e => e.2 = x) = [] :=
    List.filter_eq_nil_iff.mpr fun e he => by simpa using (h.notMem_edges hx he).2
  simp [node, Node.new, h1, h2]

/-- A creation fills the next address of the heap. -/
theorem heap_create (h : Closed T g) (hx : x ∉ g.order) :
    (g.create x).heap
      = Function.update g.heap g.order.length (some (Node.new g.order.length x.type 0)) := by
  funext n
  rcases lt_trichotomy n g.order.length with hn | rfl | hn
  · rw [Function.update_of_ne hn.ne]
    have hy : g.order[n]? = some g.order[n] := List.getElem?_eq_getElem hn
    have hmem : g.order[n] ∈ g.order := List.getElem_mem hn
    have hne : g.order[n] ≠ x := fun e => hx (e ▸ hmem)
    simp [heap, List.getElem?_append_left hn, hy, hne, node_create_of_mem h hx hmem]
  · simp [heap, node_create_self h hx]
  · rw [Function.update_of_ne hn.ne']
    have h1 : g.order[n]? = none := List.getElem?_eq_none hn.le
    have h2 : (g.order ++ [x])[n]? = none := List.getElem?_eq_none (by simp; omega)
    simp [heap, h1, h2]

/-- The address of the new role, and the state with it.  The root is the first
node and the only one that does not take an id from the counter. -/
theorem realize_createCleanNode (h : Closed T g) (hx : x ∉ g.order) (genId : Bool)
    (hgen : genId = true ↔ g.order ≠ []) :
    (realize T g).createCleanNode x.type genId
      = ((g.create x).addr x, realize T (g.create x)) := by
  have hlen : genId = true ↔ g.order.length ≠ 0 := by simp [hgen]
  -- the counter starts at 1 and the root has taken none: the next id is the next position
  have hid : (if genId = true then max 1 (g.order.length : ℤ) else 0) = g.order.length := by
    split_ifs with hg
    · have := hlen.mp hg
      omega
    · have := hlen.not.mp hg
      omega
  have hnext : (if genId = true then max 1 (g.order.length : ℤ) + 1
      else max 1 (g.order.length : ℤ)) = max 1 ((g.create x).order.length : ℤ) := by
    rw [create_order, List.length_append, List.length_singleton]
    split_ifs with hg
    · have := hlen.mp hg
      omega
    · have := hlen.not.mp hg
      omega
  -- everything that the records mention keeps its address
  have haddr : ∀ {y}, y ∈ g.order → g.addr y = (g.create x).addr y :=
    fun hy => (addr_create_of_mem hy).symm
  simp only [Tool.createCleanNode, addr_create_self hx]
  refine Prod.ext rfl (Tool.ext ?_ ?_ ?_ ?_ ?_ ?_ ?_ rfl rfl ?_ ?_)
  · simp only [realize, Graph.addNode, hid, heap_create h hx]
  · simp only [realize, Graph.addNode, hid, create_graphNodes, OrdMap.mapVal_insert,
      addr_create_self hx]
    rw [OrdMap.mapVal_congr fun a ha => haddr (h.live_mem (h.graphNodes_iff.mp ha).1)]
  · simp [realize]
  · exact hnext
  · exact Option.map_congr_toList fun a ha => haddr (h.final_mem (by simpa using ha))
  · funext τ
    rcases e : T.task τ with - | td
    · simp [realize, e]
    · simpa [realize, e] using TaskData.map_congr fun a ha => haddr (h.task_mem e a ha)
  · funext r
    rcases e : T.par r with - | pi
    · simp [realize, e]
    · simpa [realize, e] using ParallelRegionData.map_congr fun a ha => haddr (h.par_mem e a ha)
  · exact List.map_congr_left fun c hc => by simp [Charge.map, haddr (h.charge_mem hc)]
  · exact List.map_congr_left fun c hc => by simp [PapiCall.map, haddr (h.papi_mem hc)]

/-! ### Closedness is kept, and the composed creation -/

/-- An operation that leaves order, liveness, edges and mentions alone, and
changes neither id nor type of a node. -/
theorem Closed.setData (h : Closed T g) {data : Role → NodeData} (ticks : ℕ)
    (hd : ∀ y, (data y).id = (g.data y).id ∧ (data y).type = (g.data y).type) :
    Closed T { g with data := data, ticks := ticks } :=
  { h with
    id_eq := fun {y} hy => (hd y).1.trans (h.id_eq hy)
    type_eq := fun {y} hy => (hd y).2.trans (h.type_eq hy) }

theorem update_data_same {f : NodeData → NodeData}
    (hf : ∀ nd, (f nd).id = nd.id ∧ (f nd).type = nd.type) (y : Role) :
    (Function.update g.data x (f (g.data x)) y).id = (g.data y).id ∧
      (Function.update g.data x (f (g.data x)) y).type = (g.data y).type := by
  rcases eq_or_ne y x with rfl | e
  · simpa using hf (g.data y)
  · simp [e]

theorem Closed.onData (h : Closed T g) {f : NodeData → NodeData}
    (hf : ∀ nd, (f nd).id = nd.id ∧ (f nd).type = nd.type) : Closed T (g.onData x f) :=
  h.setData g.ticks (update_data_same hf)

theorem Closed.setLastTime (h : Closed T g) : Closed T (g.setLastTime env x) :=
  h.setData _ (update_data_same (f := fun nd => nd.setLastTime _) fun _ => ⟨rfl, rfl⟩)

/-- A charge mentions a role, which must have been created. -/
theorem Closed.addTime (h : Closed T g) (hx : x ∈ g.order) :
    Closed T (g.addTime env th x) :=
  { h.setData (g.ticks + 1) (update_data_same (x := x)
      (f := fun nd => nd.addTime (env.clock g.ticks)) fun _ => ⟨rfl, rfl⟩) with
    charge_mem := by
      intro c hc
      rcases List.mem_append.mp hc with hc | hc
      · exact h.charge_mem hc
      · rw [List.mem_singleton.mp hc]
        exact hx }

/-- A PAPI call mentions a role, which must have been created. -/
theorem Closed.startPapi (h : Closed T g) (th : ThreadId) (hx : x ∈ g.order) :
    Closed T (g.startPapi th x) :=
  { h with
    papi_mem := by
      intro c hc
      rcases List.mem_append.mp hc with hc | hc
      · exact h.papi_mem hc
      · rw [List.mem_singleton.mp hc]
        exact hx }

theorem Closed.endPapi (h : Closed T g) (env : Env) (th : ThreadId) (hx : x ∈ g.order) :
    Closed T (g.endPapi env th x) :=
  { h.setData g.ticks (update_data_same (x := x)
      (f := fun nd => nd.setPapiVals (env.papi g.papiCalls.length)) fun _ => ⟨rfl, rfl⟩) with
    papi_mem := by
      intro c hc
      rcases List.mem_append.mp hc with hc | hc
      · exact h.papi_mem hc
      · rw [List.mem_singleton.mp hc]
        exact hx }

/-- The edges after `connect`. -/
theorem mem_connect_edges {e : Role × Role} :
    e ∈ (g.connect x y).edges ↔ e ∈ g.edges ∨ e = (x, y) := by
  by_cases hxy : (x, y) ∈ g.edges
  · simp only [connect_edges, if_pos hxy]
    exact ⟨.inl, fun h => h.elim id fun h => h ▸ hxy⟩
  · simp [hxy]

/-- No edge is stored twice. -/
theorem nodup_connect_edges (h : g.edges.Nodup) : (g.connect x y).edges.Nodup := by
  by_cases hxy : (x, y) ∈ g.edges
  · simpa [hxy] using h
  · simp only [connect_edges, if_neg hxy]
    exact List.nodup_append.mpr ⟨h, by simp, fun a ha b hb e => by
      rw [List.mem_singleton.mp hb] at e
      exact hxy (e ▸ ha)⟩

/-- Both ends of a new edge must be live. -/
theorem Closed.connect (h : Closed T g) (hx : g.live x = true) (hy : g.live y = true) :
    Closed T (g.connect x y) :=
  { h with
    edges_nodup := nodup_connect_edges h.edges_nodup
    edges_live := by
      intro e he
      rcases mem_connect_edges.mp he with he | rfl
      · exact h.edges_live he
      · exact ⟨hx, hy⟩ }

/-- A role that was not created yet may be. -/
theorem Closed.create (h : Closed T g) (hx : x ∉ g.order) : Closed T (g.create x) where
  nodup := List.nodup_append.mpr ⟨h.nodup, by simp, fun a ha b hb e => by
    rw [List.mem_singleton.mp hb] at e
    exact hx (e ▸ ha)⟩
  live_mem := by
    intro y hy
    by_cases hyx : y = x
    · simp [hyx]
    · rw [create_live, Function.update_of_ne hyx] at hy
      exact List.mem_append_left _ (h.live_mem hy)
  id_eq := by
    intro y hy
    rcases List.mem_append.mp hy with hy | hy
    · have hyx : y ≠ x := fun e => hx (e ▸ hy)
      rw [addr_create_of_mem hy]
      simpa [hyx] using h.id_eq hy
    · rw [List.mem_singleton.mp hy, addr_create_self hx]
      simp
  type_eq := by
    intro y hy
    rcases List.mem_append.mp hy with hy | hy
    · have hyx : y ≠ x := fun e => hx (e ▸ hy)
      simpa [hyx] using h.type_eq hy
    · rw [List.mem_singleton.mp hy]
      simp
  graphNodes_iff := by
    rintro ⟨k, y⟩
    simp only [create_graphNodes, OrdMap.mem_insert, h.graphNodes_iff, create_live,
      Prod.mk.injEq]
    -- inserting under a new id replaces no entry
    rcases eq_or_ne y x with rfl | e
    · have hdead : g.live y ≠ true := fun hl => hx (h.live_mem hl)
      simp [addr_create_self hx, hdead]
    · simp only [e, and_false, false_or, Function.update_of_ne e]
      constructor
      · rintro ⟨⟨hl, hk⟩, -⟩
        exact ⟨hl, by rw [addr_create_of_mem (h.live_mem hl), hk]⟩
      · rintro ⟨hl, hk⟩
        rw [addr_create_of_mem (h.live_mem hl)] at hk
        refine ⟨⟨hl, hk⟩, ?_⟩
        -- older nodes have smaller ids
        have hlt : g.addr y < g.order.length := List.idxOf_lt_length_of_mem (h.live_mem hl)
        exact fun e' => absurd (hk.symm.trans e') (by exact_mod_cast hlt.ne)
  edges_nodup := h.edges_nodup
  edges_live := by
    intro e he
    have hl := h.edges_live he
    have hne := h.notMem_edges hx he
    simp [hne, hl]
  final_mem := fun hy => List.mem_append_left _ (h.final_mem hy)
  task_mem := fun e y hy => List.mem_append_left _ (h.task_mem e y hy)
  par_mem := fun e y hy => List.mem_append_left _ (h.par_mem e y hy)
  charge_mem := fun hc => List.mem_append_left _ (h.charge_mem hc)
  papi_mem := fun hc => List.mem_append_left _ (h.papi_mem hc)

/-- A node without edges is removed. -/
theorem Closed.remove (h : Closed T g) (hx : g.live x = true)
    (he : ∀ e ∈ g.edges, e.1 ≠ x ∧ e.2 ≠ x) : Closed T (g.remove x) :=
  { h with
    live_mem := by
      intro y hy
      by_cases e : y = x
      · simp [e] at hy
      · rw [remove_live, Function.update_of_ne e] at hy
        exact h.live_mem hy
    graphNodes_iff := by
      rintro ⟨k, y⟩
      simp only [remove_graphNodes, OrdMap.mem_erase, h.graphNodes_iff, remove_live,
        h.id_eq (h.live_mem hx), addr_remove]
      -- ids are addresses, so erasing the id of `x` takes out `x` alone
      rcases eq_or_ne y x with rfl | e
      · simp
      · simp only [Function.update_of_ne e, and_iff_left_iff_imp, and_imp]
        intro hl hk
        rw [hk]
        intro e'
        exact e ((addr_inj (h.live_mem hl)).mp (by exact_mod_cast e'))
    edges_live := by
      intro e' he'
      have hl := h.edges_live he'
      have hne := he e' he'
      simp [hne, hl] }

theorem Closed.disconnect (h : Closed T g) : Closed T (g.disconnect x y) :=
  { h with
    edges_nodup := h.edges_nodup.filter _
    edges_live := fun he => h.edges_live (List.mem_of_mem_filter he) }

/-- Only the new node becomes live. -/
theorem createBelow_live (p : Role) :
    (g.createBelow env p x).live = Function.update g.live x true := rfl

/-- The new node is the last of the creation order. -/
theorem createBelow_order (p : Role) :
    (g.createBelow env p x).order = g.order ++ [x] := rfl

theorem addr_createBelow (p : Role) : (g.createBelow env p x).addr = (g.create x).addr := rfl

theorem live_create_of_live (hy : g.live y = true) : (g.create x).live y = true := by
  by_cases hyx : y = x
  · simp [hyx]
  · simp [hyx, hy]

/-- A new node may hang below any live one. -/
theorem Closed.createBelow (h : Closed T g) (env : Env) {p : Role} (hp : g.live p = true)
    (hx : x ∉ g.order) : Closed T (g.createBelow env p x) :=
  ((h.create hx).connect (live_create_of_live hp) (by simp)).setLastTime

/-- **`create_new_node` commutes with realization.** -/
theorem realize_createNewNode (h : Closed T g) (env : Env) {p : Role} (hp : g.live p = true)
    (hx : x ∉ g.order) :
    (realize T g).createNewNode env x.type (some (g.addr p))
      = some ((g.createBelow env p x).addr x, realize T (g.createBelow env p x)) := by
  have hpm := h.live_mem hp
  have hne : g.order ≠ [] := List.ne_nil_of_mem hpm
  have hp' : (g.create x).live p = true := live_create_of_live hp
  have hx' : (g.create x).live x = true := by simp
  have hc := h.create hx
  simp only [Tool.createNewNode, Option.isSome_some,
    realize_createCleanNode h hx true (by simp [hne]), ← addr_create_of_mem hpm (y := x),
    realize_connectNodes hc hp' hx', Option.bind_eq_bind, Option.bind_some, if_true]
  rw [← addr_connect (g := g.create x) (x := p) (y := x),
    realize_setLastTime (hc.connect hp' hx') hx', Option.bind_some]
  rfl

/-- The root: no parent, no id from the counter. -/
theorem realize_createRoot (h : Closed T g) (h0 : g.order = []) :
    (realize T g).createNewNode env .rootTask none
      = some (((g.create .root).setLastTime env .root).addr .root,
          realize T ((g.create .root).setLastTime env .root)) := by
  have hx : Role.root ∉ g.order := by simp [h0]
  have hclean := realize_createCleanNode h hx false (by simp [h0])
  have hx' : (g.create .root).live .root = true := by simp
  change Tool.createNewNode _ env (Role.type .root) none = _
  simp only [Tool.createNewNode, Option.isSome_none, hclean, Option.bind_eq_bind,
    Option.bind_some, if_true, realize_setLastTime (h.create hx) hx']
  rfl

/-- `g_finalNode` must have been created. -/
theorem Closed.setFinal (h : Closed T g) (hx : x ∈ g.order) : Closed T (g.setFinal x) :=
  { h with
    final_mem := by
      rintro y ⟨⟩
      exact hx }

/-! ### The records -/

/-- A task record may mention created roles only. -/
theorem Closed.setTask (h : Closed T g) {τ : TaskId} {td : TaskData Role}
    (htd : ∀ y ∈ td.refs, y ∈ g.order) : Closed (T.setTask τ (some td)) g :=
  { h with
    task_mem := by
      intro σ td' hσ y hy
      rcases eq_or_ne σ τ with rfl | e
      · simp only [Tables.setTask_task, Function.update_self, Option.some.injEq] at hσ
        exact htd y (hσ ▸ hy)
      · simp only [Tables.setTask_task, Function.update_of_ne e] at hσ
        exact h.task_mem hσ y hy }

/-- A region record may mention created roles only. -/
theorem Closed.setPar (h : Closed T g) {r : RegionId} {pi : ParallelRegionData Role}
    (hpi : ∀ y ∈ pi.refs, y ∈ g.order) : Closed (T.setPar r (some pi)) g :=
  { h with
    par_mem := by
      intro r' pi' hr y hy
      rcases eq_or_ne r' r with rfl | e
      · simp only [Tables.setPar_par, Function.update_self, Option.some.injEq] at hr
        exact hpi y (hr ▸ hy)
      · simp only [Tables.setPar_par, Function.update_of_ne e] at hr
        exact h.par_mem hr y hy }

/-- A task record is written over roles as it is over addresses. -/
theorem realize_setTaskData (τ : TaskId) (td : Option (TaskData Role)) :
    (realize T g).setTaskData τ (td.map (TaskData.map g.addr))
      = realize (T.setTask τ td) g := by
  refine Tool.ext rfl rfl rfl rfl rfl ?_ rfl rfl rfl rfl rfl
  funext τ'
  by_cases h : τ' = τ
  · simp [Tool.setTaskData, realize, h]
  · simp [Tool.setTaskData, realize, h]

theorem realize_setParData (r : RegionId) (pi : Option (ParallelRegionData Role)) :
    (realize T g).setParData r (pi.map (ParallelRegionData.map g.addr))
      = realize (T.setPar r pi) g := by
  refine Tool.ext rfl rfl rfl rfl rfl rfl ?_ rfl rfl rfl rfl
  funext r'
  by_cases h : r' = r
  · simp [Tool.setParData, realize, h]
  · simp [Tool.setParData, realize, h]

theorem realize_setThreadData (th : ThreadId) (td : Option ThreadData) :
    (realize T g).setThreadData th td
      = realize (T.setThread th td) g := rfl

end RoleGraph

end Tdg
