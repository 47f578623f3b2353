/-
TdgTool/Labels.lean

What a callback does to the members of nodes that are not times, to the PAPI
calls and to the loop counters, and the edges inside a loop.

The bounds, the loop counter and the thread number of a node are set when the
node is created and never again (`step_label`).  `LoopEdges` gives the edges
between the nodes of a loop as a function of the runtime's bookkeeping, in every
reachable state and without any assumption on the run.
-/
import TdgTool.Runs

namespace Tdg

/-- The members of a node that say which iterations it stands for. -/
structure Label where
  lower : ℤ := 0
  upper : ℤ := 0
  loopCounter : Option ℕ := none
  threadId : Option ℕ := none
  deriving DecidableEq, Repr

/-- The label of a node. -/
def NodeData.label (nd : NodeData) : Label := ⟨nd.lower, nd.upper, nd.loopCounter, nd.threadId⟩

namespace RoleGraph

open Tdg.Runtime

variable {o : Runtime} {g : RoleGraph} {env : Env} {e : Event} {x y z : Role} {τ : TaskId}
  {r : RegionId} {th : ThreadId}

/-! ### Labels -/

/-- The label of a node. -/
def label (g : RoleGraph) (x : Role) : Label := (g.data x).label

/-- The label of the nodes that a callback creates. -/
def newLabel (g : RoleGraph) (o : Runtime) (e : Event) (x : Role) : Label :=
  match e.call with
  | .extLoop .scopeBegin τ lower upper =>
      if x = .ws τ (o.task τ).loops then ⟨lower, upper, none, none⟩ else {}
  | .extChunk τ lower upper _ => ⟨lower, upper, some (g.loopCounter e.thread), some (threadNumOf τ)⟩
  | _ => {}

/-! The elementary operations, of which only creation and the setters of the
label matter. -/

/-- An operation on the members of one node changes no other label. -/
theorem label_onData {f : NodeData → NodeData} :
    (g.onData x f).label z = if z = x then (f (g.data x)).label else g.label z := by
  by_cases h : z = x
  · simp [label, h]
  · simp [label, h]

@[simp] theorem label_addTime : (g.addTime env th x).label = g.label := by
  funext z
  rcases eq_or_ne z x with rfl | h
  · simp [label, NodeData.label, NodeData.addTime]
  · simp [label, h]

@[simp] theorem label_setLastTime : (g.setLastTime env x).label = g.label := by
  funext z
  rcases eq_or_ne z x with rfl | h
  · simp [label, NodeData.label, NodeData.setLastTime]
  · simp [label, h]

@[simp] theorem label_endPapi : (g.endPapi env th x).label = g.label := by
  funext z
  rcases eq_or_ne z x with rfl | h
  · simp [label, NodeData.label, NodeData.setPapiVals]
  · simp [label, h]

@[simp] theorem label_initPapi {n : ℕ} :
    (g.onData x fun nd => nd.initPapiVals n).label = g.label := by
  funext z
  rcases eq_or_ne z x with rfl | h
  · simp [label, NodeData.label, NodeData.initPapiVals]
  · simp [label, h]

theorem label_create : (g.create x).label z = if z = x then {} else g.label z := by
  rcases eq_or_ne z x with rfl | h
  · simp [label, NodeData.label]
  · simp [label, h]

@[simp] theorem label_connect : (g.connect x y).label = g.label := rfl

@[simp] theorem label_disconnect : (g.disconnect x y).label = g.label := rfl

@[simp] theorem label_remove : (g.remove x).label = g.label := rfl

@[simp] theorem label_setCur : (g.setCur τ x).label = g.label := rfl

@[simp] theorem label_setBar {b : Option Role} : (g.setBar τ b).label = g.label := rfl

@[simp] theorem label_setFinal : (g.setFinal x).label = g.label := rfl

@[simp] theorem label_setLoopCounter {n : ℕ} : (g.setLoopCounter th n).label = g.label := rfl

@[simp] theorem label_startPapi : (g.startPapi th x).label = g.label := rfl

@[simp] theorem label_createBelow {p : Role} :
    (g.createBelow env p x).label = (g.create x).label := by
  simp [createBelow]

@[simp] theorem label_closeOpen : (g.closeOpen env th o τ).label = g.label := by
  unfold closeOpen
  split <;> simp

/-- A chunk gets the bounds of the call, the counter of the thread and the number of the task. -/
theorem label_chunkOpen {lower upper : ℤ} :
    (g.chunkOpen env th o τ lower upper).label z
      = if z = .chunk τ (o.task τ).loops ((o.task τ).chunks (o.task τ).loops) then
          ⟨lower, upper, some (g.loopCounter th), some (threadNumOf τ)⟩
        else g.label z := by
  unfold chunkOpen
  rw [label_startPapi, label_initPapi, label_connect, label_onData]
  split_ifs with h
  · rfl
  · rw [label_createBelow, label_create, if_neg h]

/-- **Labels are set at creation.** -/
theorem step_label (ha : o.allows e = true) :
    (g.step env o e).label x = if x ∈ o.newRoles e then g.newLabel o e x else g.label x := by
  cases delivers_of_allows ha with
  | @implicitEnd _ r t =>
    simp only [RoleGraph.step, RoleGraph.implicitEnd, newRoles]
    -- the edges and the removal at the end of a task touch no label
    rcases g.bar (.implicit r t) with - | b
    · simp
    · split_ifs <;> simp
  | barrierBegin =>
    simp only [RoleGraph.step, RoleGraph.barrierBegin, RoleGraph.reachBarrier, newRoles, newLabel]
    split_ifs <;> simp_all [label_create]
    tauto
  | barrierEnd =>
    simp only [RoleGraph.step, newRoles]
    split_ifs <;> simp_all
  | @outside _ endpoint => cases endpoint <;> simp [RoleGraph.step, newRoles]
  | @sync _ kind _ _ _ _ _ hkind =>
    cases kind with
    | barrier => exact absurd rfl hkind
    | taskwait => simp [RoleGraph.step, newRoles]
    | taskgroup => simp [RoleGraph.step, newRoles]
  | @loopBegin _ τ lower upper =>
    simp only [RoleGraph.step, RoleGraph.loopBegin, newRoles, newLabel, label_create, label_onData,
      label_createBelow]
    by_cases h1 : x = .loopSink τ (o.task τ).loops
    · simp [h1]
    · by_cases h2 : x = .ws τ (o.task τ).loops
      · simp [h2, NodeData.label, NodeData.setLowerUpper, createBelow, NodeData.setLastTime]
      · simp [h1, h2]
  | @loopEnd _ τ =>
    simp only [RoleGraph.step, RoleGraph.loopEnd, newRoles]
    split_ifs <;> simp_all
  | @chunk th τ lower upper lastChunk =>
    cases lastChunk with
    | true =>
      simp only [RoleGraph.step, RoleGraph.chunk, newRoles]
      split_ifs <;> simp_all
    | false =>
      simp only [RoleGraph.step, RoleGraph.chunk, newRoles, newLabel, Bool.false_eq_true, if_false,
        label_chunkOpen, closeOpen_loopCounter, label_closeOpen, List.mem_singleton]
  | _ =>
    simp [RoleGraph.step, newRoles, newLabel, createInitial, createExplicit,
      RoleGraph.schedule, RoleGraph.parallelBegin, RoleGraph.parallelEnd,
      RoleGraph.implicitBegin, label_create]

/-! ### PAPI calls -/

/-- Stopping the counters for the open chunk of a task, if there is one. -/
def stopLast (o : Runtime) (th : ThreadId) (τ : TaskId) : List (PapiCall Role) :=
  match (o.task τ).chunks (o.task τ).loops with
  | 0 => []
  | c + 1 => [⟨th, .stop, .chunk τ (o.task τ).loops c⟩]

/-- The PAPI calls of a callback. -/
def newPapi (o : Runtime) (e : Event) : List (PapiCall Role) :=
  match e.call with
  | .extLoop .scopeEnd τ _ _ => stopLast o e.thread τ
  | .extChunk τ _ _ false => stopLast o e.thread τ ++
      [⟨e.thread, .start, .chunk τ (o.task τ).loops ((o.task τ).chunks (o.task τ).loops)⟩]
  | _ => []

/-- Closing the open chunk stops its counters. -/
theorem papiCalls_closeOpen :
    (g.closeOpen env th o τ).papiCalls = g.papiCalls ++ stopLast o th τ := by
  rcases hc : (o.task τ).chunks (o.task τ).loops with - | c <;> simp [closeOpen, stopLast, hc]

/-- The PAPI calls of a callback. -/
theorem step_papi (ha : o.allows e = true) :
    (g.step env o e).papiCalls = g.papiCalls ++ newPapi o e := by
  cases delivers_of_allows ha with
  | @implicitEnd _ r t =>
    simp only [RoleGraph.step, RoleGraph.implicitEnd, newPapi]
    rcases g.bar (.implicit r t) with - | b
    · simp
    · split_ifs <;> simp
  | barrierBegin =>
    simp only [RoleGraph.step, RoleGraph.barrierBegin, RoleGraph.reachBarrier, newPapi]
    split_ifs <;> simp [createBelow]
  | barrierEnd =>
    simp only [RoleGraph.step, newPapi]
    split_ifs <;> simp
  | @outside _ endpoint => cases endpoint <;> simp [RoleGraph.step, newPapi]
  | @sync _ kind _ _ _ _ _ hkind =>
    cases kind with
    | barrier => exact absurd rfl hkind
    | taskwait => simp [RoleGraph.step, newPapi]
    | taskgroup => simp [RoleGraph.step, newPapi]
  | loopEnd =>
    simp only [RoleGraph.step, RoleGraph.loopEnd, newPapi]
    split_ifs <;> simp [papiCalls_closeOpen]
  | @chunk th τ lower upper lastChunk =>
    cases lastChunk with
    | true =>
      simp only [RoleGraph.step, RoleGraph.chunk, newPapi, if_true]
      split_ifs with h0
      · simp [papiCalls_closeOpen, stopLast, h0]
      · simp
    | false =>
      simp [RoleGraph.step, RoleGraph.chunk, newPapi, chunkOpen, createBelow, papiCalls_closeOpen]
  | _ =>
    simp [RoleGraph.step, newPapi, createInitial, createExplicit, RoleGraph.schedule,
      RoleGraph.parallelBegin, RoleGraph.parallelEnd, RoleGraph.implicitBegin,
      RoleGraph.loopBegin, createBelow]

/-! ### Loop counters -/

/-- The effect of a thread's own callback on its loop counter. -/
def newCounter (e : Event) (n : ℕ) : ℕ :=
  match e.call with
  | .threadBegin => 0
  | .extLoop .scopeEnd _ _ _ => n + 1
  | _ => n

/-- A callback changes the counter of its own thread only. -/
theorem step_loopCounter (ha : o.allows e = true) :
    (g.step env o e).loopCounter th
      = if e.thread = th then newCounter e (g.loopCounter th) else g.loopCounter th := by
  cases delivers_of_allows ha with
  | @threadBegin th' =>
    rcases eq_or_ne th' th with rfl | h
    · simp [RoleGraph.step, newCounter]
    · simp [RoleGraph.step, h, Ne.symm h]
  | @implicitEnd _ r t =>
    simp only [RoleGraph.step, RoleGraph.implicitEnd, newCounter]
    rcases g.bar (.implicit r t) with - | b
    · simp
    · split_ifs <;> simp
  | barrierBegin =>
    simp only [RoleGraph.step, RoleGraph.barrierBegin, RoleGraph.reachBarrier, newCounter]
    split_ifs <;> simp [createBelow]
  | barrierEnd =>
    simp only [RoleGraph.step, newCounter]
    split_ifs <;> simp
  | @outside _ endpoint => cases endpoint <;> simp [RoleGraph.step, newCounter]
  | @sync _ kind _ _ _ _ _ hkind =>
    cases kind with
    | barrier => exact absurd rfl hkind
    | taskwait => simp [RoleGraph.step, newCounter]
    | taskgroup => simp [RoleGraph.step, newCounter]
  | @loopEnd th' τ =>
    simp only [RoleGraph.step, RoleGraph.loopEnd, newCounter]
    rcases eq_or_ne th' th with rfl | h
    · simp
    · split_ifs <;> simp [Ne.symm h]
  | @chunk th' τ lower upper lastChunk =>
    simp only [RoleGraph.step, RoleGraph.chunk, newCounter, ite_self]
    split_ifs <;> simp [chunkOpen, createBelow]
  | _ =>
    simp [RoleGraph.step, newCounter, createInitial, createExplicit, RoleGraph.schedule,
      RoleGraph.parallelBegin, RoleGraph.parallelEnd, RoleGraph.implicitBegin,
      RoleGraph.loopBegin, createBelow]

/-! ### The edges of a loop -/

/-- An edge that can only be one between the nodes of a loop. -/
def WithinLoop : Role → Role → Prop
  | .ws _ _, _ => True
  | .chunk _ _ _, _ => True
  | _, .chunk _ _ _ => True
  | _, .loopSink _ _ => True
  | _, _ => False

/-- The edges between the nodes of the loops: from the start node to each chunk
and from there to the sink, or from the start node to the sink when the loop has
ended without a chunk. -/
def LoopEdge (o : Runtime) : Role → Role → Prop
  | .ws τ l, .chunk τ' l' c => τ' = τ ∧ l' = l ∧ c < (o.task τ).chunks l
  | .chunk τ l c, .loopSink τ' l' => τ' = τ ∧ l' = l ∧ c < (o.task τ).chunks l
  | .ws τ l, .loopSink τ' l' =>
      τ' = τ ∧ l' = l ∧ l < (o.task τ).loops ∧ (o.task τ).chunks l = 0
  | _, _ => False

/-- What a callback does to the loops of a task. -/
theorem loops_apply (hS : o.Sound) (ha : o.allows e = true) (τ : TaskId) :
    (((o.apply e).task τ).loops = (o.task τ).loops ∧
        ((o.apply e).task τ).chunks = (o.task τ).chunks) ∨
      (∃ lower upper, e.call = .extLoop .scopeEnd τ lower upper ∧
        ((o.apply e).task τ).loops = (o.task τ).loops + 1 ∧
        ((o.apply e).task τ).chunks = (o.task τ).chunks) ∨
      ∃ lower upper, e.call = .extChunk τ lower upper false ∧
        ((o.apply e).task τ).loops = (o.task τ).loops ∧
        ((o.apply e).task τ).chunks = Function.update (o.task τ).chunks (o.task τ).loops
          ((o.task τ).chunks (o.task τ).loops + 1) := by
  have ht := taskChange ha τ
  generalize (o.apply e).task τ = v at ht
  cases ht with
  | created _ habs =>
    rw [hS.fresh habs]
    exact .inl ⟨rfl, rfl⟩
  | loopEnd _ _ _ hcall => exact .inr (.inl ⟨_, _, hcall, rfl, rfl⟩)
  | chunk _ _ _ hcall => exact .inr (.inr ⟨_, _, hcall, rfl, rfl⟩)
  | _ => exact .inl ⟨rfl, rfl⟩

/-- The edges of the loops depend on the numbers of loops and chunks only. -/
theorem LoopEdge.congr {o' : Runtime} (h : ∀ τ, (o'.task τ).loops = (o.task τ).loops ∧
    (o'.task τ).chunks = (o.task τ).chunks) : LoopEdge o' x y ↔ LoopEdge o x y := by
  unfold LoopEdge
  split <;> simp [h]

/-- The inner edges that a callback adds, and that it never removes. -/
theorem withinLoop_newEdges (hW : Shaped o g) (hS : o.Sound) (ha : o.allows e = true)
    (hin : WithinLoop x y) (hnew : (x, y) ∈ g.newEdges o e) :
    (∃ τ lower upper, e.call = .extLoop .scopeEnd τ lower upper) ∨
      ∃ τ lower upper, e.call = .extChunk τ lower upper false := by
  -- the current node of a task is neither a start node nor a chunk
  have hseat : ∀ {τ y}, o.HasData τ → (∀ σ l c, y ≠ .chunk σ l c) → (∀ σ l, y ≠ .loopSink σ l) →
      ¬WithinLoop (g.cur τ) y := by
    intro τ y hd h1 h2 hin
    have hs := (hW.seat hd).2
    generalize g.cur τ = z at hs hin
    cases z with
    | ws => exact hs
    | chunk => exact hs
    | _ =>
      cases y with
      | chunk => exact h1 _ _ _ rfl
      | loopSink => exact h2 _ _ rfl
      | _ => exact hin
  cases newEdge_of_mem ha hnew with
  | emptyLoop => exact .inl ⟨_, _, _, rfl⟩
  | toChunk => exact .inr ⟨_, _, _, rfl⟩
  | ofChunk => exact .inr ⟨_, _, _, rfl⟩
  | implicitBegin hopen =>
    exact absurd hin (hseat (hasData_of_forked (hS.opened_parent hopen)) (by simp) (by simp))
  | sinkOfBarrier hact harr _ hbar =>
    obtain ⟨i, rfl, -⟩ := hW.barrier_of_end hS hact harr hbar
    exact hin.elim
  | sinkOfThread hact =>
    exact absurd hin (hseat (hasData_of_active hact.2) (by simp) (by simp))
  | explicit hact => exact absurd hin (hseat (hasData_of_active hact.2) (by simp) (by simp))
  | toBarrier hact => exact absurd hin (hseat (hasData_of_active hact.2) (by simp) (by simp))
  | ofBarrier => exact hin.elim
  | loopBegin hact => exact absurd hin (hseat (hasData_of_active hact.2) (by simp) (by simp))

/-- The end of a loop without chunks connects its start node with its sink. -/
theorem loopEdge_loopEnd {lower upper : ℤ} :
    LoopEdge (o.apply ⟨th, .extLoop .scopeEnd τ lower upper⟩) x y ↔ LoopEdge o x y ∨
      (o.task τ).chunks (o.task τ).loops = 0 ∧ x = .ws τ (o.task τ).loops ∧
        y = .loopSink τ (o.task τ).loops := by
  -- the end of a loop adds it to the finished ones and leaves the chunks as they are
  have hkeep : ∀ σ, ((o.apply ⟨th, .extLoop .scopeEnd τ lower upper⟩).task σ).chunks
      = (o.task σ).chunks := by
    intro σ
    by_cases hσ : σ = τ <;> simp [Runtime.apply, hσ]
  cases x with
  | ws σ l =>
    cases y with
    | chunk => simp [LoopEdge, hkeep]
    | loopSink σ' l' =>
      simp only [LoopEdge, hkeep]
      rcases eq_or_ne σ τ with rfl | hσ
      · simp only [Runtime.apply, onTask_task, Function.update_self, Role.ws.injEq,
          Role.loopSink.injEq, true_and]
        constructor
        · rintro ⟨rfl, rfl, hl, h0⟩
          rcases Nat.lt_succ_iff_lt_or_eq.mp hl with hl | rfl
          · exact .inl ⟨rfl, rfl, hl, h0⟩
          · exact .inr ⟨h0, rfl, rfl, rfl⟩
        · rintro (⟨rfl, rfl, hl, h0⟩ | ⟨h0, rfl, rfl, rfl⟩)
          · exact ⟨rfl, rfl, by omega, h0⟩
          · exact ⟨rfl, rfl, by omega, h0⟩
      · simp [Runtime.apply, hσ]
    | _ => simp [LoopEdge]
  | chunk σ l c => cases y <;> simp [LoopEdge, hkeep]
  | _ => simp [LoopEdge]

/-- A chunk is connected with the start node and the sink of its loop. -/
theorem loopEdge_chunk {lower upper : ℤ} :
    LoopEdge (o.apply ⟨th, .extChunk τ lower upper false⟩) x y ↔ LoopEdge o x y ∨
      x = .ws τ (o.task τ).loops ∧
        y = .chunk τ (o.task τ).loops ((o.task τ).chunks (o.task τ).loops) ∨
      x = .chunk τ (o.task τ).loops ((o.task τ).chunks (o.task τ).loops) ∧
        y = .loopSink τ (o.task τ).loops := by
  -- one chunk more in the loop that is open
  have hself : ∀ l c, c < ((o.apply ⟨th, .extChunk τ lower upper false⟩).task τ).chunks l ↔
      c < (o.task τ).chunks l ∨ l = (o.task τ).loops ∧
        c = (o.task τ).chunks (o.task τ).loops := by
    intro l c
    rcases eq_or_ne l ((o.task τ).loops) with rfl | hl
    · have hone : ((o.apply ⟨th, .extChunk τ lower upper false⟩).task τ).chunks (o.task τ).loops
          = (o.task τ).chunks (o.task τ).loops + 1 := by simp [Runtime.apply]
      rw [hone, Nat.lt_succ_iff_lt_or_eq]
      simp
    · simp [Runtime.apply, hl]
  have hother : ∀ σ, σ ≠ τ →
      (o.apply ⟨th, .extChunk τ lower upper false⟩).task σ = o.task σ := by
    intro σ hσ
    simp [Runtime.apply, hσ]
  cases x with
  | ws σ l =>
    rcases eq_or_ne σ τ with rfl | hσ
    · cases y with
      | chunk σ' l' c =>
        simp only [LoopEdge, hself, Role.ws.injEq, Role.chunk.injEq, reduceCtorEq, and_false,
          or_false, true_and]
        constructor
        · rintro ⟨rfl, rfl, h | ⟨rfl, rfl⟩⟩
          · exact .inl ⟨rfl, rfl, h⟩
          · exact .inr ⟨rfl, rfl, rfl, rfl⟩
        · rintro (⟨rfl, rfl, h⟩ | ⟨rfl, rfl, rfl, rfl⟩)
          · exact ⟨rfl, rfl, .inl h⟩
          · exact ⟨rfl, rfl, .inr ⟨rfl, rfl⟩⟩
      | loopSink σ' l' =>
        simp only [LoopEdge, reduceCtorEq, and_false, or_false, false_and]
        rcases eq_or_ne l ((o.task σ).loops) with rfl | hl
        · simp [Runtime.apply]
        · simp [Runtime.apply, hl]
      | _ => simp [LoopEdge]
    · cases y <;> simp [LoopEdge, hother σ hσ, hσ]
  | chunk σ l c =>
    rcases eq_or_ne σ τ with rfl | hσ
    · cases y with
      | loopSink σ' l' =>
        simp only [LoopEdge, hself, Role.chunk.injEq, Role.loopSink.injEq, reduceCtorEq, and_false,
          false_or, true_and]
        constructor
        · rintro ⟨rfl, rfl, h | ⟨rfl, rfl⟩⟩
          · exact .inl ⟨rfl, rfl, h⟩
          · exact .inr ⟨⟨rfl, rfl⟩, rfl, rfl⟩
        · rintro (⟨rfl, rfl, h⟩ | ⟨⟨rfl, rfl⟩, rfl, rfl⟩)
          · exact ⟨rfl, rfl, .inl h⟩
          · exact ⟨rfl, rfl, .inr ⟨rfl, rfl⟩⟩
      | _ => simp [LoopEdge]
    · cases y <;> simp [LoopEdge, hother σ hσ, hσ]
  | _ => simp [LoopEdge]

/-- The edge that is removed with a node is not one of a loop. -/
theorem withinLoop_oldEdge (hW : Shaped o g) (hS : o.Sound) (ha : o.allows e = true)
    (hin : WithinLoop x y) : g.oldEdge e ≠ some (x, y) := by
  intro hold
  cases delivers_of_allows ha with
  | @implicitEnd _ r t _ hact harr =>
    rcases hW.implicitEnd_node hS hact harr with ⟨-, -, hcur, i, hbar, -⟩ | ⟨-, hbar⟩
    · obtain ⟨rfl, rfl⟩ : Role.barrier r i = x ∧ Role.imp r t _ = y := by
        simpa [oldEdge, hbar, hcur] using hold
      exact hin
    · simp [oldEdge, hbar] at hold
  | @outside _ endpoint => cases endpoint <;> cases hold
  | _ => cases hold

/-- **The edges of loops, step by step.** -/
theorem loopEdge_step (hW : Shaped o g) (hS : o.Sound) (ha : o.allows e = true)
    (ih : g.Link x y ↔ LoopEdge o x y) (hin : WithinLoop x y) :
    (g.step env o e).Link x y ↔ LoopEdge (o.apply e) x y := by
  have hedge : (g.step env o e).Link x y ↔ LoopEdge o x y ∨ (x, y) ∈ g.newEdges o e := by
    rw [← ih]
    refine (mem_step_edges ha).trans (or_congr_left ?_)
    exact and_iff_left (withinLoop_oldEdge hW hS ha hin)
  rw [hedge]
  by_cases hnew : (x, y) ∈ g.newEdges o e
  · rcases withinLoop_newEdges hW hS ha hin hnew with
      ⟨τ, lower, upper, hcall⟩ | ⟨τ, lower, upper, hcall⟩
    · obtain ⟨th, call⟩ := e
      obtain rfl : call = _ := hcall
      rw [loopEdge_loopEnd]
      refine or_congr_right ?_
      simp only [newEdges]
      split_ifs with h0
      · simp [h0]
      · simp [h0]
    · obtain ⟨th, call⟩ := e
      obtain rfl : call = _ := hcall
      rw [loopEdge_chunk]
      simp [newEdges]
  · -- no inner edge is added, and none was to be
    refine (or_iff_left hnew).trans ?_
    obtain ⟨th, call⟩ := e
    by_cases hend : ∃ τ lower upper, call = .extLoop .scopeEnd τ lower upper
    · obtain ⟨τ, lower, upper, rfl⟩ := hend
      rw [loopEdge_loopEnd]
      refine (or_iff_left ?_).symm
      rintro ⟨h0, rfl, rfl⟩
      simp [newEdges, h0] at hnew
    · by_cases hchunk : ∃ τ lower upper, call = .extChunk τ lower upper false
      · obtain ⟨τ, lower, upper, rfl⟩ := hchunk
        rw [loopEdge_chunk]
        refine (or_iff_left ?_).symm
        rintro (⟨rfl, rfl⟩ | ⟨rfl, rfl⟩)
        · simp [newEdges] at hnew
        · simp [newEdges] at hnew
      · refine (LoopEdge.congr fun τ => ?_).symm
        rcases loops_apply hS ha τ with h | ⟨lower, upper, hcall, -⟩ | ⟨lower, upper, hcall, -⟩
        · exact h
        · exact absurd ⟨τ, lower, upper, hcall⟩ hend
        · exact absurd ⟨τ, lower, upper, hcall⟩ hchunk

end RoleGraph

namespace Config

open RoleGraph

/-- **The edges of loops** in every reachable state. -/
theorem loopEdge_run {env : Env} {es : List Event} {c : Config} (hrun : run env es = some c)
    {x y : Role} (hin : WithinLoop x y) : c.graph.Link x y ↔ LoopEdge c.rt x y := by
  refine (run_induction (P := fun c => c.graph.Link x y ↔ LoopEdge c.rt x y) ?_ ?_ hrun).2
  · have hnone : ¬LoopEdge Runtime.init x y := by
      unfold LoopEdge
      split <;> simp [Runtime.init]
    refine (iff_false_right hnone).mpr fun h => ?_
    cases h
  · intro c e hg ha ih
    exact loopEdge_step hg.shaped hg.sound ha ih hin

end Config

end Tdg
