/-
TdgTool/Ids.lean

Node ids and the map of the graph, over all sequences of callbacks.

Here the tool is on its own: nothing is assumed about the order of the
callbacks, there may be several initial tasks, and explicit tasks may be
created by tasks without a record.  Ids come from the counter `_nextId`, except
for a node that is created without a parent, which gets the constant 0.  The
map of the graph and the heap agree (`Ids`) as long as no such node is created
while the map has an entry under 0, and no longer.
-/
import TdgTool.Callbacks
import TdgTool.Lib.Partial

namespace Tdg

namespace Tool

open Partial

variable {s s' : Tool} {env : Env} {th : ThreadId} {n n' p : NodeRef} {es : List Event}
  {e : Event}

/-! ### The invariant -/

/-- `_graphNodes` holds exactly the nodes of the heap, each under its id, and
neither the next address nor the next id is in use. -/
structure Ids (s : Tool) : Prop where
  mapped : ∀ {k n}, (k, n) ∈ s.graphNodes.entries ↔ ∃ nd, s.nodes n = some nd ∧ nd.id = k
  ref_lt : ∀ {n nd}, s.nodes n = some nd → n < s.nextRef
  id_lt : ∀ {n nd}, s.nodes n = some nd → nd.id < s.nextId
  nextId_pos : 0 < s.nextId

theorem ids_init : init.Ids where
  mapped := by simp [init, OrdMap.empty]
  ref_lt := by simp [init]
  id_lt := by simp [init]
  nextId_pos := by simp [init]

/-- Nothing that the invariant looks at has changed. -/
structure SameIds (s s' : Tool) : Prop where
  graphNodes : s'.graphNodes = s.graphNodes
  nextRef : s'.nextRef = s.nextRef
  nextId : s'.nextId = s.nextId
  ids : ∀ n, (s'.nodes n).map (·.id) = (s.nodes n).map (·.id)

theorem SameIds.refl : SameIds s s := ⟨rfl, rfl, rfl, fun _ => rfl⟩

theorem SameIds.node (h : SameIds s s') {nd : Node} (hn : s'.nodes n = some nd) :
    ∃ nd', s.nodes n = some nd' ∧ nd'.id = nd.id := by
  have := h.ids n
  rw [hn, Option.map_some] at this
  exact Option.map_eq_some_iff.mp this.symm

/-- What changes neither ids nor keys keeps the invariant. -/
theorem Ids.same (h : s.Ids) (hs : SameIds s s') : s'.Ids where
  mapped := by
    intro k n
    rw [hs.graphNodes, h.mapped, ← Option.map_eq_some_iff, ← Option.map_eq_some_iff, hs.ids]
  ref_lt := by
    intro n nd hn
    obtain ⟨nd', hn', -⟩ := hs.node hn
    rw [hs.nextRef]
    exact h.ref_lt hn'
  id_lt := by
    intro n nd hn
    obtain ⟨nd', hn', hid⟩ := hs.node hn
    rw [hs.nextId, ← hid]
    exact h.id_lt hn'
  nextId_pos := by
    rw [hs.nextId]
    exact h.nextId_pos

/-! ### Elementary operations -/

/-- An update of a node that keeps its id. -/
theorem sameIds_modify {nd : Node} {f : Node → Node} (hn : s.nodes n = some nd)
    (hf : (f nd).id = nd.id) (n' : NodeRef) :
    (Function.update s.nodes n (some (f nd)) n').map (·.id) = (s.nodes n').map (·.id) := by
  rcases eq_or_ne n' n with rfl | h
  · simp [hn, hf]
  · simp [h]

theorem ensures_onNode {f : NodeData → NodeData} (hf : ∀ nd, (f nd).id = nd.id) :
    Ensures (s.onNode n f) (SameIds s) := by
  refine Ensures.bind (P := fun g => SameIds s { s with toGraph := g }) ?_ fun g hg =>
    Ensures.some hg
  unfold Graph.modifyNode
  intro g hg
  obtain ⟨nd, hn, rfl⟩ := Option.map_eq_some_iff.mp hg
  exact ⟨rfl, rfl, rfl, sameIds_modify (f := Node.onData f) hn (hf nd.toNodeData)⟩

/-- The elementary operations on nodes change no id. -/
theorem ensures_addTime : Ensures (s.addTime env th n) (SameIds s) := by
  refine Ensures.read fun nd _ => Ensures.bind (ensures_onNode fun _ => rfl) fun s' hs' => ?_
  exact Ensures.some ⟨hs'.graphNodes, hs'.nextRef, hs'.nextId, hs'.ids⟩

theorem ensures_setLastTime : Ensures (s.setLastTime env n) (SameIds s) := by
  refine Ensures.bind (ensures_onNode fun _ => rfl) fun s' hs' => ?_
  exact Ensures.some ⟨hs'.graphNodes, hs'.nextRef, hs'.nextId, hs'.ids⟩

theorem ensures_endPapiCounters : Ensures (s.endPapiCounters env th n) (SameIds s) := by
  refine Ensures.bind (ensures_onNode fun _ => rfl) fun s' hs' => ?_
  exact Ensures.some ⟨hs'.graphNodes, hs'.nextRef, hs'.nextId, hs'.ids⟩

/-- Two updates that keep ids, as `connectNodes` and `disconnectNodes` make
them. -/
theorem ensures_modifyNode_modifyNode {f f' : Node → Node} (hf : ∀ nd, (f nd).id = nd.id)
    (hf' : ∀ nd, (f' nd).id = nd.id) :
    Ensures ((s.toGraph.modifyNode n f).bind fun g => g.modifyNode n' f')
      fun g => SameIds s { s with toGraph := g } := by
  intro g hg
  obtain ⟨g1, hg1, hg⟩ := Option.bind_eq_some_iff.mp hg
  obtain ⟨nd, hn, rfl⟩ := Option.map_eq_some_iff.mp hg1
  obtain ⟨nd', hn', rfl⟩ := Option.map_eq_some_iff.mp hg
  refine ⟨rfl, rfl, rfl, fun m => ?_⟩
  exact (sameIds_modify (s := { s with nodes := Function.update s.nodes n (some (f nd)) })
    (f := f') hn' (hf' nd') m).trans (sameIds_modify (f := f) hn (hf nd) m)

theorem ensures_connectNodes : Ensures (s.connectNodes n n') (SameIds s) := by
  refine Ensures.bind (P := fun g => SameIds s { s with toGraph := g }) ?_ fun g hg =>
    Ensures.some hg
  refine Ensures.read fun nd _ => Ensures.ite (fun _ => Ensures.some .refl) fun _ => ?_
  exact ensures_modifyNode_modifyNode (fun _ => rfl) fun _ => rfl

theorem ensures_disconnectNodes : Ensures (s.disconnectNodes n n') (SameIds s) := by
  refine Ensures.bind (P := fun g => SameIds s { s with toGraph := g }) ?_ fun g hg =>
    Ensures.some hg
  exact ensures_modifyNode_modifyNode (fun _ => rfl) fun _ => rfl

/-- An operation that keeps the ids keeps the invariant. -/
theorem Ids.ensures (h : s.Ids) {m : Option Tool} (hm : Ensures m (SameIds s)) : Ensures m Ids :=
  fun a ha => h.same (hm a ha)

/-- Deleting a node deletes its entry. -/
theorem Ids.removeAndDelete (h : s.Ids) : Ensures (s.removeAndDelete n) Ids := by
  have hkeep : ∀ {m nd'}, Function.update s.nodes n none m = some nd' → s.nodes m = some nd' := by
    intro m nd' hm
    by_cases hmn : m = n
    · simp [hmn] at hm
    · rwa [Function.update_of_ne hmn] at hm
  refine Ensures.read fun nd hn => Ensures.some ⟨?_, ?_, ?_, h.nextId_pos⟩
  · intro k m
    simp only [Graph.removeNode, OrdMap.mem_erase, h.mapped]
    rcases eq_or_ne m n with rfl | hm
    · simp only [hn, Option.some.injEq, exists_eq_left', Function.update_self, reduceCtorEq,
        false_and, exists_false, iff_false]
      exact fun hk => hk.2 hk.1.symm
    · rw [Function.update_of_ne hm]
      refine ⟨And.left, fun hk => ⟨hk, ?_⟩⟩
      -- another node has another id
      rintro rfl
      obtain ⟨nd', hm', hid⟩ := hk
      have h1 : (nd.id, m) ∈ s.graphNodes.entries := h.mapped.mpr ⟨nd', hm', hid⟩
      have h2 : (nd.id, n) ∈ s.graphNodes.entries := h.mapped.mpr ⟨nd, hn, rfl⟩
      exact hm (Prod.mk.inj (OrdMap.entry_unique h1 h2 rfl)).2
  · exact fun hm => h.ref_lt (hkeep hm)
  · exact fun hm => h.id_lt (hkeep hm)

/-- A new node takes a free id: the next one, or 0 if no node has it. -/
theorem Ids.createCleanNode (h : s.Ids) {type : NodeType} {genId : Bool}
    (hfree : genId = false → ∀ n, ((0 : ℤ), n) ∉ s.graphNodes.entries) :
    (s.createCleanNode type genId).2.Ids := by
  have hnone : s.nodes s.nextRef = none := by
    rcases hn : s.nodes s.nextRef with - | nd
    · rfl
    · exact absurd (h.ref_lt hn) (lt_irrefl _)
  -- nobody has the id yet: it is the counter, or 0 and free by assumption
  have hkey : ∀ {m nd}, s.nodes m = some nd → nd.id ≠ if genId then s.nextId else 0 := by
    intro m nd hm hid
    have hmem := h.mapped.mpr ⟨nd, hm, hid⟩
    cases genId with
    | false => exact hfree rfl m hmem
    | true => exact absurd hid (h.id_lt hm).ne
  refine ⟨?_, ?_, ?_, ?_⟩
  · intro k m
    simp only [Tool.createCleanNode, Graph.addNode, OrdMap.mem_insert, h.mapped, Prod.mk.injEq]
    rcases eq_or_ne m s.nextRef with rfl | hm
    · simp [hnone, Node.new, eq_comm]
    · rw [Function.update_of_ne hm]
      refine ⟨?_, fun hk => .inr ⟨hk, ?_⟩⟩
      · rintro (⟨-, hm'⟩ | ⟨hk, -⟩)
        · exact absurd hm' hm
        · exact hk
      · obtain ⟨nd, hn, rfl⟩ := hk
        exact hkey hn
  · intro m nd hm
    simp only [Tool.createCleanNode, Graph.addNode] at hm ⊢
    by_cases hmn : m = s.nextRef
    · rw [hmn]
      exact Nat.lt_succ_self _
    · rw [Function.update_of_ne hmn] at hm
      exact (h.ref_lt hm).trans (Nat.lt_succ_self _)
  · intro m nd hm
    simp only [Tool.createCleanNode, Graph.addNode] at hm ⊢
    have hpos := h.nextId_pos
    rcases eq_or_ne m s.nextRef with rfl | hmn
    · obtain rfl : Node.new _ type 0 = nd := by simpa using hm
      cases genId <;> simp [Node.new]
      exact hpos
    · rw [Function.update_of_ne hmn] at hm
      have := h.id_lt hm
      cases genId <;> simp <;> omega
  · have hpos := h.nextId_pos
    cases genId <;> simp [Tool.createCleanNode] <;> omega

/-- A new node gets a new id, or id 0 if it has no parent and 0 is free. -/
theorem Ids.createNewNode (h : s.Ids) {type : NodeType} {parent : Option NodeRef} {setTime : Bool}
    (hfree : parent = none → ∀ n, ((0 : ℤ), n) ∉ s.graphNodes.entries) :
    Ensures (s.createNewNode env type parent setTime) fun a => a.2.Ids := by
  have hnew : (s.createCleanNode type parent.isSome).2.Ids :=
    h.createCleanNode fun hp => hfree (Option.isNone_iff_eq_none.mp (by simpa using hp))
  have htime : ∀ {s' : Tool} {n}, s'.Ids →
      Ensures (if setTime then (s'.setLastTime env n).bind fun s => some (n, s)
        else some (n, s')) fun a => a.2.Ids := by
    intro s' n hs'
    refine Ensures.ite (fun _ => ?_) fun _ => Ensures.some hs'
    exact Ensures.bind (hs'.ensures ensures_setLastTime) fun s1 h1 => Ensures.some h1
  unfold Tool.createNewNode
  cases parent with
  | none => exact htime hnew
  | some p => exact Ensures.bind (hnew.ensures ensures_connectNodes) fun s1 h1 => htime h1

/-! ### Callbacks -/

/-- What a callback must not do: create a node without a parent while there is
an entry under id 0. -/
def FreeZero (s : Tool) (e : Event) : Prop :=
  match e.call with
  | .taskCreate _ _ .initial => ∀ n, ((0 : ℤ), n) ∉ s.graphNodes.entries
  | .taskCreate parent _ .explicit =>
      s.taskData parent = none → ∀ n, ((0 : ℤ), n) ∉ s.graphNodes.entries
  | _ => True

theorem Ids.setTaskData (h : s.Ids) (τ : TaskId) (td : Option (TaskData NodeRef)) :
    (s.setTaskData τ td).Ids := h.same ⟨rfl, rfl, rfl, fun _ => rfl⟩

theorem Ids.setParData (h : s.Ids) (r : RegionId) (pi : Option (ParallelRegionData NodeRef)) :
    (s.setParData r pi).Ids := h.same ⟨rfl, rfl, rfl, fun _ => rfl⟩

theorem Ids.setThreadData (h : s.Ids) (th : ThreadId) (td : Option ThreadData) :
    (s.setThreadData th td).Ids := h.same ⟨rfl, rfl, rfl, fun _ => rfl⟩

theorem Ids.setFinalNode (h : s.Ids) (n : Option NodeRef) : { s with finalNode := n }.Ids :=
  h.same ⟨rfl, rfl, rfl, fun _ => rfl⟩

theorem Ids.cbImplicitTaskBegin (h : s.Ids) {r : RegionId} {τ : TaskId} {t : ℕ} :
    Ensures (s.cbImplicitTaskBegin env r τ t) Ids := by
  refine Ensures.read fun parInfo _ => Ensures.read fun parentTask _ => ?_
  refine Ensures.bind (h.createNewNode (by simp)) ?_
  rintro ⟨n, s'⟩ hs'
  exact Ensures.some (hs'.setTaskData _ _)

theorem Ids.cbImplicitTaskEnd (h : s.Ids) {τ : TaskId} {t : ℕ} :
    Ensures (s.cbImplicitTaskEnd env th τ t) Ids := by
  refine Ensures.read fun currTask _ => ?_
  split
  · refine Ensures.bind (h.ensures ensures_disconnectNodes) fun s1 h1 => ?_
    refine Ensures.bind h1.removeAndDelete fun s2 h2 => Ensures.ite (fun _ => ?_) fun _ => ?_
    · refine Ensures.read fun sink _ => ?_
      refine Ensures.bind (h2.ensures ensures_connectNodes) fun s3 h3 => ?_
      exact Ensures.some (h3.setTaskData _ _)
    · exact Ensures.some (h2.setTaskData _ _)
  · refine Ensures.bind (h.ensures ensures_addTime) fun s1 h1 => Ensures.read fun sink _ => ?_
    refine Ensures.bind (h1.ensures ensures_connectNodes) fun s2 h2 => ?_
    exact Ensures.some (h2.setTaskData _ _)

theorem Ids.cbParallelBegin (h : s.Ids) {parent : TaskId} {r : RegionId} {q : ℕ} :
    Ensures (s.cbParallelBegin env th parent r q) Ids := by
  refine Ensures.read fun parentTask _ => ?_
  refine Ensures.bind (h.ensures ensures_addTime) fun s1 h1 => ?_
  exact Ensures.some ((h1.createCleanNode (by simp)).setParData _ _)

theorem Ids.cbParallelEnd (h : s.Ids) {r : RegionId} : Ensures (s.cbParallelEnd env r) Ids := by
  refine Ensures.read fun parInfo _ => Ensures.read fun parentTask _ => ?_
  refine Ensures.bind ((h.setTaskData _ _).ensures ensures_setLastTime) fun s1 h1 => ?_
  exact Ensures.some ((h1.setFinalNode _).setParData _ _)

/-- The one callback that may give out id 0. -/
theorem Ids.cbTaskCreate (h : s.Ids) {parent new : TaskId} {type : TaskType}
    (hfree : s.FreeZero ⟨th, .taskCreate parent new type⟩) :
    Ensures (s.cbTaskCreate env parent new type) Ids := by
  cases type with
  | initial =>
    refine Ensures.bind (h.createNewNode fun _ => hfree) ?_
    rintro ⟨n, s'⟩ hs'
    exact Ensures.some ((hs'.setTaskData _ _).setFinalNode _)
  | explicit =>
    refine Ensures.bind (h.createNewNode fun hp => hfree (by simpa using hp)) ?_
    rintro ⟨n, s'⟩ hs'
    exact Ensures.some (hs'.setTaskData _ _)
  | implicit => exact Ensures.some h
  | target => exact Ensures.some h

theorem Ids.cbTaskSchedule (h : s.Ids) {first second : TaskId} :
    Ensures (s.cbTaskSchedule env th first second) Ids := by
  unfold Tool.cbTaskSchedule
  split
  · refine Ensures.bind (h.ensures ensures_addTime) fun s1 h1 => ?_
    beta_reduce
    split
    · exact h1.ensures ensures_setLastTime
    · exact Ensures.some h1
  · refine Ensures.bind (P := Ids) (Ensures.some h) fun s1 h1 => ?_
    beta_reduce
    split
    · exact h1.ensures ensures_setLastTime
    · exact Ensures.some h1

theorem Ids.reachBarrier (h : s.Ids) {r : RegionId} {pi : ParallelRegionData NodeRef} :
    Ensures (s.reachBarrier env r pi n) fun a => a.2.Ids := by
  refine Ensures.ite (fun _ => ?_) fun _ => ?_
  · refine Ensures.bind (h.createNewNode (by simp)) ?_
    rintro ⟨b, s1⟩ h1
    exact Ensures.some (h1.setParData _ _)
  · refine Ensures.read fun b _ => ?_
    refine Ensures.bind (h.ensures ensures_connectNodes) fun s1 h1 => ?_
    exact Ensures.some (h1.setParData _ _)

theorem Ids.cbSyncRegion (h : s.Ids) {kind : SyncKind} {endpoint : Endpoint} {r : RegionId}
    {τ : TaskId} : Ensures (s.cbSyncRegion env th kind endpoint r τ) Ids := by
  refine Ensures.ite (fun _ => ?_) fun _ => Ensures.some h
  split
  · exact Ensures.some h
  · refine Ensures.ite (fun _ => ?_) fun _ => Ensures.some h
    cases endpoint with
    | scopeBegin =>
      refine Ensures.read fun currTask _ => ?_
      refine Ensures.bind (h.ensures ensures_addTime) fun s1 h1 => ?_
      refine Ensures.bind h1.reachBarrier ?_
      rintro ⟨b, s2⟩ h2
      refine Ensures.bind (h2.createNewNode (by simp)) ?_
      rintro ⟨n, s3⟩ h3
      refine Ensures.ite (fun _ => ?_) fun _ => Ensures.some (h3.setTaskData _ _)
      exact Ensures.bind (h3.ensures ensures_connectNodes) fun s4 h4 =>
        Ensures.some (h4.setTaskData _ _)
    | scopeEnd => exact Ensures.read fun currTask _ => h.ensures ensures_setLastTime

theorem Ids.cbExtLoopBegin (h : s.Ids) {τ : TaskId} {lower upper : ℤ} :
    Ensures (s.cbExtLoopBegin env th τ lower upper) Ids := by
  refine Ensures.read fun currTask _ => ?_
  refine Ensures.bind (h.ensures ensures_addTime) fun s1 h1 => ?_
  refine Ensures.bind (h1.createNewNode (by simp)) ?_
  rintro ⟨start, s2⟩ h2
  refine Ensures.bind (h2.ensures (ensures_onNode fun _ => rfl)) fun s3 h3 => ?_
  exact Ensures.some ((h3.createCleanNode (by simp)).setTaskData _ _)

theorem Ids.cbExtLoopEnd (h : s.Ids) {τ : TaskId} :
    Ensures (s.cbExtLoopEnd env th τ) Ids := by
  refine Ensures.read fun currTask _ => Ensures.read fun ws _ => Ensures.read fun thData _ => ?_
  split
  · refine Ensures.bind (h.ensures ensures_endPapiCounters) fun s1 h1 => ?_
    refine Ensures.bind (h1.ensures ensures_addTime) fun s2 h2 => ?_
    refine Ensures.bind (h2.ensures ensures_setLastTime) fun s3 h3 => ?_
    exact Ensures.some ((h3.setTaskData _ _).setThreadData _ _)
  · refine Ensures.bind (h.ensures ensures_addTime) fun s1 h1 => ?_
    refine Ensures.bind (h1.ensures ensures_connectNodes) fun s2 h2 => ?_
    refine Ensures.bind (h2.ensures ensures_setLastTime) fun s3 h3 => ?_
    exact Ensures.some ((h3.setTaskData _ _).setThreadData _ _)

theorem Ids.cbExtChunk (h : s.Ids) {τ : TaskId} {lower upper : ℤ} {lastChunk : Bool} :
    Ensures (s.cbExtChunk env th τ lower upper lastChunk) Ids := by
  refine Ensures.read fun currTask _ => Ensures.read fun ws _ => ?_
  refine Ensures.bind (P := Ids) ?_ fun s1 h1 => Ensures.ite (fun _ => Ensures.some h1) fun _ => ?_
  · unfold Tool.closeChunk
    split
    · refine Ensures.ite (fun _ => Ensures.some h) fun _ => ?_
      exact Ensures.bind (h.ensures ensures_endPapiCounters) fun s1 h1 =>
        h1.ensures ensures_addTime
    · exact h.ensures ensures_addTime
  · refine Ensures.read fun thData _ => Ensures.bind (h1.createNewNode (by simp)) ?_
    rintro ⟨chunk, s2⟩ h2
    refine Ensures.bind (h2.ensures (ensures_onNode fun _ => rfl)) fun s3 h3 => ?_
    refine Ensures.bind ((h3.setTaskData _ _).ensures ensures_connectNodes) fun s4 h4 => ?_
    refine Ensures.bind (h4.ensures (ensures_onNode fun _ => rfl)) fun s5 h5 => ?_
    exact Ensures.some (h5.same ⟨rfl, rfl, rfl, fun _ => rfl⟩)

/-- **One callback.** -/
theorem Ids.callback (h : s.Ids) (hfree : s.FreeZero e) : Ensures (s.callback env e) Ids := by
  obtain ⟨th, call⟩ := e
  cases call with
  | threadBegin => exact Ensures.some (h.setThreadData _ _)
  | threadEnd => exact Ensures.read fun _ _ => Ensures.some (h.setThreadData _ _)
  | implicitTask endpoint r τ m t =>
    cases endpoint with
    | scopeBegin => exact h.cbImplicitTaskBegin
    | scopeEnd => exact h.cbImplicitTaskEnd
  | parallelBegin parent r q m k => exact h.cbParallelBegin
  | parallelEnd r τ => exact h.cbParallelEnd
  | taskCreate parent new type => exact h.cbTaskCreate hfree
  | taskSchedule first prior second => exact h.cbTaskSchedule
  | syncRegion kind endpoint r τ => exact h.cbSyncRegion
  | extLoop endpoint τ lower upper =>
    cases endpoint with
    | scopeBegin => exact h.cbExtLoopBegin
    | scopeEnd => exact h.cbExtLoopEnd
  | extChunk τ lower upper lastChunk => exact h.cbExtChunk

/-! ### Runs -/

/-- The nodes have different ids, and `_graphNodes` leads from the id of every
node to that node. -/
structure NoClash (s : Tool) : Prop where
  distinct : ∀ {n n' nd nd'}, s.nodes n = some nd → s.nodes n' = some nd' → nd.id = nd'.id →
    n = n'
  mapped : ∀ {n nd}, s.nodes n = some nd → (nd.id, n) ∈ s.graphNodes.entries

/-- The invariant excludes clashes. -/
theorem Ids.noClash (h : s.Ids) : s.NoClash where
  distinct := by
    intro n n' nd nd' hn hn' hid
    have h1 : (nd.id, n) ∈ s.graphNodes.entries := h.mapped.mpr ⟨nd, hn, rfl⟩
    have h2 : (nd.id, n') ∈ s.graphNodes.entries := h.mapped.mpr ⟨nd', hn', hid.symm⟩
    exact (Prod.mk.inj (OrdMap.entry_unique h1 h2 rfl)).2
  mapped := fun hn => h.mapped.mpr ⟨_, hn, rfl⟩

theorem tool_run_snoc :
    run env (es ++ [e]) = some s' ↔ ∃ s, run env es = some s ∧ s.callback env e = some s' := by
  simp only [run, runFrom, List.foldlM_append, List.foldlM_cons, List.foldlM_nil]
  rw [Option.bind_eq_bind, Option.bind_eq_some_iff]
  simp

/-- As long as every step leaves id 0 to one node, the invariant holds. -/
theorem ids_run (hfree : ∀ pre e post s, es = pre ++ e :: post → run env pre = some s →
    s.FreeZero e) (hrun : run env es = some s) : s.Ids := by
  induction es using List.reverseRecOn generalizing s with
  | nil =>
    obtain rfl : init = s := Option.some.inj hrun
    exact ids_init
  | append_singleton es e ih =>
    obtain ⟨s1, hs1, hs⟩ := tool_run_snoc.mp hrun
    have hI : s1.Ids := by
      refine ih (fun pre e' post s hes => hfree pre e' (post ++ [e]) s ?_) hs1
      simp [hes]
    exact hI.callback (hfree es e [] s1 rfl hs1) s hs

/-- A node without a parent gets id 0, whoever has it already. -/
theorem createNewNode_none_clash (h : s.Ids) (env : Env) (type : NodeType) {k : NodeRef}
    (hk : ((0 : ℤ), k) ∈ s.graphNodes.entries) :
    ∃ a, s.createNewNode env type none = some a ∧ ¬a.2.NoClash := by
  obtain ⟨nd, hnd, hid⟩ := h.mapped.mp hk
  have hne : k ≠ s.nextRef := (h.ref_lt hnd).ne
  have hnew : (s.createCleanNode type false).2.nodes s.nextRef = some (Node.new 0 type 0) := by
    simp [Tool.createCleanNode, Graph.addNode]
  obtain ⟨s', hs'⟩ :
      ∃ s', (s.createCleanNode type false).2.setLastTime env s.nextRef = some s' := by
    simp [Tool.setLastTime, Tool.onNode, Graph.modifyNode, hnew]
  have hsame := ensures_setLastTime s' hs'
  -- starting the node changes no id, so there are two nodes with id 0
  have hids : ∀ {m}, s.nodes m = some nd ∧ m ≠ s.nextRef ∨ m = s.nextRef →
      ∃ nd', s'.nodes m = some nd' ∧ nd'.id = 0 := by
    intro m hm
    have := hsame.ids m
    rcases hm with ⟨hm, hmn⟩ | rfl
    · rw [show (s.createCleanNode type false).2.nodes m = some nd by
        simpa [Tool.createCleanNode, Graph.addNode, hmn] using hm, Option.map_some, hid] at this
      exact Option.map_eq_some_iff.mp this
    · rw [hnew] at this
      exact Option.map_eq_some_iff.mp this
  refine ⟨(s.nextRef, s'), ?_, fun hc => ?_⟩
  · change ((s.createCleanNode type false).2.setLastTime env s.nextRef).bind
      (fun s' => some (s.nextRef, s')) = _
    exact Option.bind_eq_some_iff.mpr ⟨s', hs', rfl⟩
  · obtain ⟨nd1, h1, hid1⟩ := hids (.inl ⟨hnd, hne⟩)
    obtain ⟨nd2, h2, hid2⟩ := hids (.inr rfl)
    exact hne (hc.distinct h1 h2 (hid1.trans hid2.symm))

/-- A node without a parent, when id 0 is taken, clashes with the node that has it. -/
theorem callback_clash (h : s.Ids) (env : Env) (hfree : ¬s.FreeZero e) :
    ∃ s', s.callback env e = some s' ∧ ¬s'.NoClash := by
  have hkeep : ∀ {s1 s2 : Tool}, ¬s1.NoClash → s2.nodes = s1.nodes →
      s2.graphNodes = s1.graphNodes → ¬s2.NoClash := by
    intro s1 s2 hc hn hm hc'
    refine hc ⟨fun h1 h2 => ?_, fun h1 => ?_⟩
    · rw [← hn] at h1 h2
      exact hc'.distinct h1 h2
    · rw [← hn] at h1
      rw [← hm]
      exact hc'.mapped h1
  obtain ⟨th, call⟩ := e
  unfold FreeZero at hfree
  -- the two callbacks that may create a node without a parent
  split at hfree
  · rename_i parent new hcall
    obtain rfl : call = _ := hcall
    push Not at hfree
    obtain ⟨k, hk⟩ := hfree
    obtain ⟨⟨n, s1⟩, hs1, hc⟩ := createNewNode_none_clash h env .rootTask hk
    exact ⟨_, Option.bind_eq_some_iff.mpr ⟨(n, s1), hs1, rfl⟩, hkeep hc rfl rfl⟩
  · rename_i parent new hcall
    obtain rfl : call = _ := hcall
    push Not at hfree
    obtain ⟨hnull, k, hk⟩ := hfree
    obtain ⟨⟨n, s1⟩, hs1, hc⟩ := createNewNode_none_clash h env .expTask hk
    refine ⟨_, Option.bind_eq_some_iff.mpr ⟨(n, s1), ?_, rfl⟩, hkeep hc rfl rfl⟩
    simpa only [hnull, Option.map_none] using hs1
  · exact absurd trivial hfree

/-- **When no node is lost.**  For every sequence of callbacks: the nodes have
different ids and are found under them in every state that is reached if and
only if no callback creates a node without a parent, that is an initial task or
an explicit task whose parent has no record, while `_graphNodes` has an entry
under id 0. -/
theorem noClash_iff (env : Env) (es : List Event) :
    (∀ pre post s, es = pre ++ post → run env pre = some s → s.NoClash) ↔
      ∀ pre e post s, es = pre ++ e :: post → run env pre = some s → s.FreeZero e := by
  constructor
  · intro hall
    -- the first violation would be reached with the invariant intact
    have key : ∀ pre post, es = pre ++ post →
        ∀ pre' e post' s, pre = pre' ++ e :: post' → run env pre' = some s → s.FreeZero e := by
      intro pre
      induction pre using List.reverseRecOn with
      | nil =>
        intro post _ pre' e post' s hpre
        simp at hpre
      | append_singleton pre a ih =>
        intro post hes pre' e post' s hpre hs
        have hes' : es = pre ++ a :: post := by simpa using hes
        rcases List.eq_nil_or_concat post' with rfl | ⟨post'', b, rfl⟩
        · obtain ⟨rfl, rfl⟩ : pre = pre' ∧ a = e := by simpa using hpre
          have hI : s.Ids := ids_run (ih (a :: post) hes') hs
          by_contra hfree
          obtain ⟨s', hs', hc⟩ := callback_clash hI env hfree
          exact hc (hall (pre ++ [a]) post s' hes (tool_run_snoc.mpr ⟨s, hs, hs'⟩))
        · refine ih (a :: post) hes' pre' e post'' s ?_ hs
          have hpre' : pre ++ [a] = (pre' ++ e :: post'') ++ [b] := by simpa using hpre
          exact (List.append_inj' hpre' rfl).1
    intro pre e post s hes hs
    exact key es [] (by simp) pre e post s hes hs
  · intro hfree pre post s hes hs
    refine (ids_run (fun pre' e post' s' hpre => ?_) hs).noClash
    refine hfree pre' e (post' ++ post) s' ?_
    rw [hes, hpre]
    simp

/-- Two initial threads report their initial tasks. -/
def twoInitialTasks : List Event :=
  [⟨0, .taskCreate (.initial 0) (.initial 0) .initial⟩,
    ⟨1, .taskCreate (.initial 1) (.initial 1) .initial⟩]

/-- Both root nodes get id 0, and the first one is no longer in the graph. -/
theorem twoInitialTasks_clash :
    ∃ s, run { clock := fun k => k } twoInitialTasks = some s ∧ ¬s.NoClash ∧
      ¬s.toGraph.Present 0 := by
  refine ⟨_, rfl, fun hc => ?_, ?_⟩
  · have hsame : (0 : NodeRef) = 1 := hc.distinct rfl rfl rfl
    cases hsame
  · rintro ⟨id, hid⟩
    have : (id, 0) ∈ [((0 : ℤ), 1)] := hid
    simp at this

end Tool

end Tdg
