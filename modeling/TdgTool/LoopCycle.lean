/-
TdgTool/LoopCycle.lean

The life cycle of a loop: what the callbacks of one task leave behind from
`cb_ext_loop` begin to `cb_ext_loop` end, for every sequence of `cb_ext_chunk`
calls in between, whatever their bounds and `last_chunk` flags, and whatever the
other threads do meanwhile.

`Cycle` is the invariant: the calls so far with `last_chunk = 0` are the chunks
so far, in order and with their bounds, the time since the loop began is the sum
of the times of the start node and the chunks up to the last start of the open
node, and the counters are running if and only if a chunk is open.
-/
import TdgTool.Labels
import TdgTool.Times
import TdgTool.TopoSort

namespace Tdg

/-- The tasks whose data cells a callback is given. -/
def Call.tasks : Call → List TaskId
  | .threadBegin => []
  | .threadEnd => []
  | .implicitTask _ _ task _ _ => [task]
  | .parallelBegin parent _ _ _ _ => [parent]
  | .parallelEnd _ task => [task]
  | .taskCreate parent new _ => [parent, new]
  | .taskSchedule first _ second => [first, second]
  | .syncRegion _ _ _ task => [task]
  | .extLoop _ task _ _ => [task]
  | .extChunk task _ _ _ => [task]

/-- The bounds of a `cb_ext_chunk` call of the task with `last_chunk = 0`. -/
def Event.chunkBounds (τ : TaskId) (e : Event) : Option (ℤ × ℤ) :=
  match e.call with
  | .extChunk σ lower upper false => if σ = τ then some (lower, upper) else none
  | _ => none

/-- No callback of the task or of the thread but `cb_ext_chunk` calls. -/
def LoopBody (th : ThreadId) (τ : TaskId) (mid : List Event) : Prop :=
  ∀ e ∈ mid, e.thread = th ∨ τ ∈ e.call.tasks →
    ∃ lower upper lastChunk, e = ⟨th, .extChunk τ lower upper lastChunk⟩

namespace RoleGraph

open Tdg.Runtime

variable {o : Runtime} {g : RoleGraph} {env : Env} {e : Event} {x y : Role} {τ : TaskId}
  {th : ThreadId} {l c : ℕ}

/-! ### What other callbacks leave alone -/

/-- A task that a callback is not given does not change. -/
theorem task_apply_of_notMem (ha : o.allows e = true) (hτ : τ ∉ e.call.tasks) :
    (o.apply e).task τ = o.task τ := by
  cases delivers_of_allows ha with
  | @schedule _ first prior second =>
    obtain ⟨h1, h2⟩ : τ ≠ first ∧ τ ≠ second := by simpa [Call.tasks] using hτ
    simp [Runtime.apply, h1, h2]
  | initial =>
    have h : τ ≠ .initial 0 := by
      rintro rfl
      exact hτ (by simp [Call.tasks])
    simp [Runtime.apply, h]
  | @explicit _ _ n =>
    have h : τ ≠ .explicit n := by
      rintro rfl
      exact hτ (by simp [Call.tasks])
    simp [Runtime.apply, h]
  | @outside _ endpoint => cases endpoint <;> rfl
  | @sync _ kind _ _ _ _ _ hkind =>
    cases kind with
    | barrier => exact absurd rfl hkind
    | taskwait => rfl
    | taskgroup => rfl
  | @chunk _ σ _ _ lastChunk =>
    have h : τ ≠ σ := by simpa [Call.tasks] using hτ
    cases lastChunk with
    | true => rfl
    | false => simp [Runtime.apply, h]
  | threadBegin => rfl
  | threadEnd => rfl
  | _ =>
    simp only [Call.tasks, List.mem_singleton] at hτ
    simp [Runtime.apply, hτ]

/-- The start node or a chunk of a loop. -/
def OfLoop (τ : TaskId) (l : ℕ) : Role → Prop
  | .ws σ l' => σ = τ ∧ l' = l
  | .chunk σ l' _ => σ = τ ∧ l' = l
  | _ => False

theorem Seat.not_ofLoop {σ : TaskId} (hs : o.Seat σ x) : ¬OfLoop τ l x := by
  cases x with
  | ws => exact hs.elim
  | chunk => exact hs.elim
  | _ => exact id

/-- The nodes of a loop are started at their creation only. -/
theorem stamped_ofLoop (hW : Shaped o g) (ha : o.allows e = true) (hx : x ∈ g.stamped o e)
    (hl : OfLoop τ l x) : x ∈ o.newRoles e := by
  cases delivers_of_allows ha with
  | @schedule _ first _ second hact hmay =>
    obtain rfl : x = g.cur second := by simpa [stamped] using hx
    have hd := hasData_of_present hmay.standing.1 hmay.standing.2.1
    exact absurd hl (Seat.not_ofLoop (hW.seat hd).2)
  | @parallelEnd _ r =>
    obtain rfl : x = .sink r := by simpa [stamped] using hx
    exact hl.elim
  | @barrierEnd _ r t hact =>
    simp only [stamped] at hx
    split_ifs at hx
    · obtain rfl : x = g.cur (.implicit r t) := by simpa using hx
      exact absurd hl (Seat.not_ofLoop (hW.seat (hasData_of_active hact.2)).2)
    · cases hx
  | parallelBegin => cases hx
  | @loopEnd _ σ =>
    obtain rfl : x = .loopSink σ (o.task σ).loops := by simpa [stamped] using hx
    exact hl.elim
  | @loopBegin _ σ =>
    obtain rfl : x = .ws σ (o.task σ).loops := by simpa [stamped] using hx
    simp [newRoles]
  | @outside _ endpoint => cases endpoint <;> cases hx
  | @sync _ kind _ _ _ _ _ hkind =>
    cases kind with
    | barrier => exact absurd rfl hkind
    | taskwait => cases hx
    | taskgroup => cases hx
  | _ => exact hx

/-- The nodes of a loop are charged by the loop callbacks of the task only. -/
theorem charged_ofLoop (hW : Shaped o g) (ha : o.allows e = true) (hx : g.charged o e = some x)
    (hl : OfLoop τ l x) : τ ∈ e.call.tasks := by
  have hcur : ∀ {σ}, (o.task σ).standing = .active → ¬OfLoop τ l (g.cur σ) := fun hact =>
    Seat.not_ofLoop (hW.seat (hasData_of_active hact)).2
  have hopen : ∀ {σ}, OfLoop τ l (openNode o σ) → σ = τ := by
    intro σ h
    unfold openNode at h
    split at h <;> exact h.1
  -- only callbacks that are given the task charge its loop nodes
  cases delivers_of_allows ha with
  | implicitEnd hact =>
    simp only [charged] at hx
    split at hx
    · cases hx
    · obtain rfl := Option.some.inj hx
      exact absurd hl (hcur hact.2)
  | parallelBegin hact =>
    obtain rfl := Option.some.inj hx
    exact absurd hl (hcur hact.2)
  | schedule hact =>
    obtain rfl := Option.some.inj hx
    exact absurd hl (hcur hact.2)
  | barrierBegin hact =>
    simp only [charged] at hx
    split_ifs at hx
    obtain rfl := Option.some.inj hx
    exact absurd hl (hcur hact.2)
  | loopBegin _ hact =>
    obtain rfl := Option.some.inj hx
    exact absurd hl (hcur hact.2)
  | loopEnd =>
    obtain rfl := Option.some.inj hx
    simp [Call.tasks, hopen hl]
  | chunk =>
    simp only [charged] at hx
    split_ifs at hx
    obtain rfl := Option.some.inj hx
    simp [Call.tasks, hopen hl]
  | @outside _ endpoint => cases endpoint <;> cases hx
  | @sync _ kind _ _ _ _ _ hkind =>
    cases kind with
    | barrier => exact absurd rfl hkind
    | taskwait => cases hx
    | taskgroup => cases hx
  | _ => cases hx

/-- The PAPI calls of a callback are made on its thread. -/
theorem newPapi_thread {a : PapiCall Role} (h : a ∈ newPapi o e) : a.thread = e.thread := by
  have hstop : ∀ {σ}, a ∈ stopLast o e.thread σ → a.thread = e.thread := by
    intro σ ha
    unfold stopLast at ha
    split at ha
    · cases ha
    · rw [List.mem_singleton.mp ha]
  unfold newPapi at h
  split at h
  · exact hstop h
  · rcases List.mem_append.mp h with h | h
    · exact hstop h
    · rw [List.mem_singleton.mp h]
  · cases h

/-- The start node of a loop is entered once. -/
theorem newEdges_ws (ha : o.allows e = true) (hxy : (x, .ws τ l) ∈ g.newEdges o e) :
    .ws τ l ∈ o.newRoles e ∧ x = g.cur τ := by
  cases newEdge_of_mem ha hxy with
  | loopBegin => exact ⟨by simp [newRoles], rfl⟩

end RoleGraph

namespace Config

open RoleGraph Tdg.Runtime

variable {c c' c0 : Config} {env : Env} {th : ThreadId} {τ : TaskId} {l : ℕ} {p : Role}
  {lower upper : ℤ} {calls : List (ℤ × ℤ)} {start : ℚ} {e : Event}

/-! ### The invariant -/

/-- The start node and the first `k` chunks of a loop. -/
def loopNodes (τ : TaskId) (l k : ℕ) : Finset Role :=
  insert (.ws τ l) ((Finset.range k).image (.chunk τ l))

theorem mem_loopNodes {k : ℕ} {x : Role} :
    x ∈ loopNodes τ l k ↔ x = .ws τ l ∨ ∃ i < k, x = .chunk τ l i := by
  simp [loopNodes, eq_comm]

theorem loopNodes_ofLoop {k : ℕ} {x : Role} (hx : x ∈ loopNodes τ l k) : OfLoop τ l x := by
  rcases mem_loopNodes.mp hx with rfl | ⟨i, -, rfl⟩ <;> exact ⟨rfl, rfl⟩

theorem openNode_mem {o : Runtime} (hl : (o.task τ).loops = l) :
    openNode o τ ∈ loopNodes τ l ((o.task τ).chunks l) := by
  rw [mem_loopNodes]
  unfold openNode
  rw [hl]
  rcases hc : (o.task τ).chunks l with - | i
  · exact .inl rfl
  · exact .inr ⟨i, by omega, rfl⟩

/-- The time that the nodes of a loop have been charged. -/
def loopTime (g : RoleGraph) (τ : TaskId) (l k : ℕ) : ℚ :=
  ∑ x ∈ loopNodes τ l k, (g.data x).totalTime

/-- The calls that start and stop the counters for the first `k` chunks. -/
def papiPairs (th : ThreadId) (τ : TaskId) (l k : ℕ) : List (PapiCall Role) :=
  (List.range k).flatMap fun i => [⟨th, .start, .chunk τ l i⟩, ⟨th, .stop, .chunk τ l i⟩]

/-- Inside the `l`-th loop of a task on a thread, entered from node `p` of the
state `c0` at time `start`, after `cb_ext_chunk` calls with the bounds
`calls`. -/
structure Cycle (c0 : Config) (th : ThreadId) (τ : TaskId) (l : ℕ) (lower upper : ℤ)
    (start : ℚ) (calls : List (ℤ × ℤ)) (c : Config) : Prop where
  inLoop : (c.rt.task τ).inLoop = true
  loops : (c.rt.task τ).loops = l
  count : (c.rt.task τ).chunks l = calls.length
  entry : ∀ x, c.graph.Link x (.ws τ l) ↔ x = c0.graph.cur τ
  startLabel : c.graph.label (.ws τ l) = ⟨lower, upper, none, none⟩
  chunkLabel : ∀ i b, calls[i]? = some b →
    (c.graph.label (.chunk τ l i)).lower = b.1 ∧ (c.graph.label (.chunk τ l i)).upper = b.2
  time : loopTime c.graph τ l calls.length = (c.graph.data (openNode c.rt τ)).lastTime - start
  papi : ∃ rest, c.graph.papiCalls = c0.graph.papiCalls ++ rest ∧
    rest.filter (fun a => a.thread = th) ++ stopLast c.rt th τ = papiPairs th τ l calls.length

theorem Cycle.created (h : Cycle c0 th τ l lower upper start calls c) {x : Role}
    (hx : x ∈ loopNodes τ l calls.length) : c.rt.Created x := by
  have h1 := h.loops
  rcases mem_loopNodes.mp hx with rfl | ⟨i, hi, rfl⟩
  · show l < (c.rt.task τ).begun
    simp [TaskState.begun, h.inLoop, h1]
  · show i < (c.rt.task τ).chunks l
    rwa [h.count]

/-- The begin of the loop. -/
theorem cycle_begin (hg : c.Good)
    (ha : c.rt.allows ⟨th, .extLoop .scopeBegin τ lower upper⟩ = true)
    (honce : ∀ k, c.graph.ticks ≤ k →
      k < (c.next env ⟨th, .extLoop .scopeBegin τ lower upper⟩).graph.ticks →
      env.clock k = env.clock c.graph.ticks) :
    Cycle c th τ (c.rt.task τ).loops lower upper (env.clock c.graph.ticks) []
      (c.next env ⟨th, .extLoop .scopeBegin τ lower upper⟩) := by
  have hT := step_timed env c.graph ha
  have hfresh : ∀ {x}, x ∈ c.rt.newRoles ⟨th, .extLoop .scopeBegin τ lower upper⟩ →
      ¬c.rt.Created x := fun hx => newRoles_fresh ha hx
  have hchunks : (c.rt.task τ).chunks (c.rt.task τ).loops = 0 := by
    refine hg.loopsFresh τ _ ?_
    cases delivers_of_allows ha with
    | loopBegin _ _ _ hloop => simp [TaskState.begun, hloop]
  have htask : (c.next env ⟨th, .extLoop .scopeBegin τ lower upper⟩).rt.task τ
      = { c.rt.task τ with inLoop := true } := by simp [next, Runtime.apply]
  have hopen : openNode (c.next env ⟨th, .extLoop .scopeBegin τ lower upper⟩).rt τ
      = .ws τ (c.rt.task τ).loops := by
    unfold openNode
    rw [htask]
    simp [hchunks]
  have hnew : Role.ws τ (c.rt.task τ).loops ∈
      c.rt.newRoles ⟨th, .extLoop .scopeBegin τ lower upper⟩ := by simp [newRoles]
  refine ⟨by rw [htask], by rw [htask], by rw [htask]; exact hchunks, ?_, ?_, by simp, ?_, ?_⟩
  · intro x
    simp only [next, Link]
    rw [mem_step_edges ha]
    constructor
    · rintro (⟨hold, -⟩ | hadd)
      · -- a new node has no old edges
        exact absurd (hg.shaped.order_iff.mp (hg.alloc.edges_mem hold).2) (hfresh hnew)
      · exact (newEdges_ws ha hadd).2
    · rintro rfl
      exact .inr (by simp [newEdges])
  · rw [next, step_label ha, if_pos hnew]
    simp [newLabel]
  · rw [hopen]
    obtain ⟨k, hk1, hk2, hlast⟩ :=
      hT.stamp (z := .ws τ (c.rt.task τ).loops) (by simp [stamped])
    simp only [next, loopTime, loopNodes, List.length_nil, Finset.range_zero, Finset.image_empty,
      insert_empty_eq, Finset.sum_singleton, hT.total_new hnew, hlast]
    rw [honce k hk1 hk2, sub_self]
  · refine ⟨[], ?_, ?_⟩
    · rw [next, step_papi ha]
      rfl
    · unfold stopLast
      rw [htask]
      simp [hchunks, papiPairs]

/-- A callback of another thread that is not given the task. -/
theorem Cycle.other (h : Cycle c0 th τ l lower upper start calls c) (hg : c.Good)
    (ha : c.rt.allows e = true) (hth : e.thread ≠ th) (hτ : τ ∉ e.call.tasks) :
    Cycle c0 th τ l lower upper start calls (c.next env e) := by
  have hT := step_timed env c.graph ha
  have htask : (c.next env e).rt.task τ = c.rt.task τ := task_apply_of_notMem ha hτ
  have hold : ∀ {x}, x ∈ loopNodes τ l calls.length → x ∉ c.rt.newRoles e := fun hx hn =>
    newRoles_fresh ha hn (h.created hx)
  have hch : ∀ {x}, x ∈ loopNodes τ l calls.length → c.graph.charged c.rt e ≠ some x :=
    fun hx hc => hτ (charged_ofLoop hg.shaped ha hc (loopNodes_ofLoop hx))
  -- what the loop consists of is neither charged, started nor created by the callback
  have hst : ∀ {x}, x ∈ loopNodes τ l calls.length → x ∉ c.graph.stamped c.rt e :=
    fun hx hs => hold hx (stamped_ofLoop hg.shaped ha hs (loopNodes_ofLoop hx))
  have hopen : openNode (c.next env e).rt τ = openNode c.rt τ := by
    unfold openNode
    rw [htask]
  have hmem : openNode c.rt τ ∈ loopNodes τ l calls.length := h.count ▸ openNode_mem h.loops
  refine ⟨by rw [htask, h.inLoop], by rw [htask, h.loops], by rw [htask, h.count], ?_, ?_, ?_,
    ?_, ?_⟩
  · intro x
    have hws : Role.ws τ l ∈ loopNodes τ l calls.length := mem_loopNodes.mpr (.inl rfl)
    rw [← h.entry x]
    simp only [next, Link]
    rw [mem_step_edges ha]
    constructor
    · rintro (⟨hx, -⟩ | hx)
      · exact hx
      · exact absurd (newEdges_ws ha hx).1 (hold hws)
    · intro hx
      -- the one edge that a callback can remove leads to a node of a team thread
      refine .inl ⟨hx, fun hrem => ?_⟩
      cases delivers_of_allows ha with
      | @implicitEnd _ r t _ hact harr =>
        rcases hg.shaped.implicitEnd_node hg.sound hact harr with
          ⟨-, -, hcur, i, hbar, -⟩ | ⟨-, hbar⟩
        · simp [oldEdge, hbar, hcur] at hrem
        · simp [oldEdge, hbar] at hrem
      | @outside _ endpoint => cases endpoint <;> cases hrem
      | _ => cases hrem
  · rw [next, step_label ha, if_neg (hold (mem_loopNodes.mpr (.inl rfl)))]
    exact h.startLabel
  · intro i b hi
    have hlt : i < calls.length := (List.getElem?_eq_some_iff.mp hi).1
    rw [next, step_label ha, if_neg (hold (mem_loopNodes.mpr (.inr ⟨i, hlt, rfl⟩)))]
    exact h.chunkLabel i b hi
  · rw [hopen]
    simp only [next]
    rw [hT.keep (hst hmem) (hold hmem) (hch hmem), ← h.time, loopTime, loopTime]
    refine Finset.sum_congr rfl fun x hx => ?_
    rw [hT.total (hold hx), if_neg (hch hx), add_zero]
  · obtain ⟨rest, h1, h2⟩ := h.papi
    refine ⟨rest ++ newPapi c.rt e, ?_, ?_⟩
    · rw [next, step_papi ha, h1, List.append_assoc]
    · have hnone : (newPapi c.rt e).filter (fun a => a.thread = th) = [] := by
        refine List.filter_eq_nil_iff.mpr fun a ha' => ?_
        simpa [newPapi_thread ha'] using hth
      have hstop : stopLast (c.next env e).rt th τ = stopLast c.rt th τ := by
        unfold stopLast
        rw [htask]
      rw [List.filter_append, hnone, List.append_nil, hstop, h2]

/-- A callback that charges the open node brings the account up to date. -/
theorem Cycle.charge (h : Cycle c0 th τ l lower upper start calls c)
    (ha : c.rt.allows e = true) (hch : c.graph.charged c.rt e = some (openNode c.rt τ)) :
    loopTime (c.next env e).graph τ l calls.length = env.clock c.graph.ticks - start := by
  have hT := step_timed env c.graph ha
  have hold : ∀ {x}, x ∈ loopNodes τ l calls.length → x ∉ c.rt.newRoles e := fun hx hn =>
    newRoles_fresh ha hn (h.created hx)
  have hmem : openNode c.rt τ ∈ loopNodes τ l calls.length := h.count ▸ openNode_mem h.loops
  have hsum : loopTime (c.next env e).graph τ l calls.length
      = ∑ x ∈ loopNodes τ l calls.length, ((c.graph.data x).totalTime +
          if openNode c.rt τ = x then env.clock c.graph.ticks -
            (c.graph.data (openNode c.rt τ)).lastTime else 0) := by
    refine Finset.sum_congr rfl fun x hx => ?_
    simp only [next]
    rw [hT.total (hold hx), hch]
    rcases eq_or_ne (openNode c.rt τ) x with rfl | hxo
    · simp
    · simp [hxo]
  have htime := h.time
  rw [loopTime] at htime
  rw [hsum, Finset.sum_add_distrib, Finset.sum_ite_eq, if_pos hmem, htime]
  ring

/-- A `cb_ext_chunk` call with `last_chunk` set. -/
theorem Cycle.lastChunk (h : Cycle c0 th τ l lower upper start calls c) {lo up : ℤ}
    (ha : c.rt.allows ⟨th, .extChunk τ lo up true⟩ = true) :
    Cycle c0 th τ l lower upper start calls (c.next env ⟨th, .extChunk τ lo up true⟩) := by
  have hT := step_timed env c.graph ha
  have hrt : (c.next env ⟨th, .extChunk τ lo up true⟩).rt = c.rt := rfl
  have hnew : c.rt.newRoles ⟨th, .extChunk τ lo up true⟩ = [] := rfl
  have hst : c.graph.stamped c.rt ⟨th, .extChunk τ lo up true⟩ = [] := rfl
  refine ⟨by rw [hrt, h.inLoop], by rw [hrt, h.loops], by rw [hrt, h.count], ?_, ?_, ?_, ?_, ?_⟩
  · intro x
    rw [← h.entry x]
    simp only [next, Link]
    rw [mem_step_edges ha]
    simp [newEdges, oldEdge]
  · rw [next, step_label ha, hnew, if_neg (by simp)]
    exact h.startLabel
  · intro i b hi
    rw [next, step_label ha, hnew, if_neg (by simp)]
    exact h.chunkLabel i b hi
  · rw [hrt]
    by_cases h0 : (c.rt.task τ).chunks (c.rt.task τ).loops = 0
    · -- the start node is open: its time is brought up to date
      have hch : c.graph.charged c.rt ⟨th, .extChunk τ lo up true⟩ =
          some (openNode c.rt τ) := by
        simp [charged, h0]
      rw [h.charge ha hch, next, hT.charge (by simp [hst]) (by simp [hnew]) hch]
    · have hch : c.graph.charged c.rt ⟨th, .extChunk τ lo up true⟩ = none := by
        simp [charged, h0]
      simp only [next]
      rw [hT.keep (by simp [hst]) (by simp [hnew]) (by simp [hch]), ← h.time, loopTime, loopTime]
      refine Finset.sum_congr rfl fun x hx => ?_
      rw [hT.total (by simp [hnew]), hch]
      simp
  · obtain ⟨rest, h1, h2⟩ := h.papi
    refine ⟨rest, ?_, h2⟩
    rw [next, step_papi ha, h1]
    simp [newPapi]

/-- A `cb_ext_chunk` call that opens a chunk. -/
theorem Cycle.chunk (h : Cycle c0 th τ l lower upper start calls c) {lo up : ℤ}
    (ha : c.rt.allows ⟨th, .extChunk τ lo up false⟩ = true)
    (honce : ∀ k, c.graph.ticks ≤ k →
      k < (c.next env ⟨th, .extChunk τ lo up false⟩).graph.ticks →
      env.clock k = env.clock c.graph.ticks) :
    Cycle c0 th τ l lower upper start (calls ++ [(lo, up)])
      (c.next env ⟨th, .extChunk τ lo up false⟩) := by
  have hT := step_timed env c.graph ha
  have hl := h.loops
  have hcount := h.count
  have htask : (c.next env ⟨th, .extChunk τ lo up false⟩).rt.task τ = { c.rt.task τ with
      chunks := Function.update (c.rt.task τ).chunks l (calls.length + 1) } := by
    simp [next, Runtime.apply, hl, hcount]
  have hnew : c.rt.newRoles ⟨th, .extChunk τ lo up false⟩ = [.chunk τ l calls.length] := by
    simp [newRoles, hl, hcount]
  have hold : ∀ {x}, x ∈ loopNodes τ l calls.length →
      x ∉ c.rt.newRoles ⟨th, .extChunk τ lo up false⟩ := fun hx hn =>
    newRoles_fresh ha hn (h.created hx)
  have hopen : openNode (c.next env ⟨th, .extChunk τ lo up false⟩).rt τ
      = .chunk τ l calls.length := by
    unfold openNode
    rw [htask]
    simp [hl]
  have hch : c.graph.charged c.rt ⟨th, .extChunk τ lo up false⟩ = some (openNode c.rt τ) := by
    simp [charged]
  refine ⟨by rw [htask]; exact h.inLoop, by rw [htask]; exact hl, by simp [htask], ?_, ?_, ?_, ?_,
    ?_⟩
  · intro x
    rw [← h.entry x]
    simp only [next, Link]
    rw [mem_step_edges ha]
    simp [newEdges, oldEdge]
  · rw [next, step_label ha, if_neg (hold (mem_loopNodes.mpr (.inl rfl)))]
    exact h.startLabel
  · intro i b hi
    rw [next, step_label ha, hnew]
    rcases Nat.lt_or_ge i calls.length with hlt | hge
    · have hne : Role.chunk τ l i ≠ .chunk τ l calls.length := by simp [hlt.ne]
      rw [if_neg (by simpa using hne)]
      exact h.chunkLabel i b (by rwa [List.getElem?_append_left hlt] at hi)
    · obtain rfl : i = calls.length := by
        have := (List.getElem?_eq_some_iff.mp hi).1
        simp at this
        omega
      obtain rfl : (lo, up) = b := by simpa using hi
      simp [newLabel]
  · -- the new chunk starts when the account was brought up to date
    obtain ⟨k, hk1, hk2, hlast⟩ := hT.stamp (z := .chunk τ l calls.length)
      (by simp [stamped, hl, hcount])
    have hins : loopNodes τ l (calls ++ [(lo, up)]).length
        = insert (.chunk τ l calls.length) (loopNodes τ l calls.length) := by
      ext x
      simp only [mem_loopNodes, Finset.mem_insert, List.length_append, List.length_singleton,
        Nat.lt_succ_iff_lt_or_eq]
      constructor
      · rintro (rfl | ⟨i, hi | rfl, rfl⟩)
        · exact .inr (.inl rfl)
        · exact .inr (.inr ⟨i, hi, rfl⟩)
        · exact .inl rfl
      · rintro (rfl | rfl | ⟨i, hi, rfl⟩)
        · exact .inr ⟨_, .inr rfl, rfl⟩
        · exact .inl rfl
        · exact .inr ⟨i, .inl hi, rfl⟩
    have hnotin : Role.chunk τ l calls.length ∉ loopNodes τ l calls.length := fun hmem =>
      hold hmem (by simp [hnew])
    have hzero : ((c.next env ⟨th, .extChunk τ lo up false⟩).graph.data
        (.chunk τ l calls.length)).totalTime = 0 := hT.total_new (by simp [hnew])
    rw [hopen, loopTime, hins, Finset.sum_insert hnotin, hzero, zero_add]
    have hacc : loopTime (c.next env ⟨th, .extChunk τ lo up false⟩).graph τ l calls.length
        = env.clock c.graph.ticks - start := h.charge ha hch
    rw [loopTime] at hacc
    rw [hacc, next, hlast, honce k hk1 hk2]
  · obtain ⟨rest, h1, h2⟩ := h.papi
    refine ⟨rest ++ newPapi c.rt ⟨th, .extChunk τ lo up false⟩, ?_, ?_⟩
    · rw [next, step_papi ha, h1, List.append_assoc]
    · have hall : (newPapi c.rt ⟨th, .extChunk τ lo up false⟩).filter (fun a => a.thread = th)
          = newPapi c.rt ⟨th, .extChunk τ lo up false⟩ := by
        refine List.filter_eq_self.mpr fun a ha' => ?_
        simpa using newPapi_thread ha'
      have hstop : stopLast (c.next env ⟨th, .extChunk τ lo up false⟩).rt th τ
          = [⟨th, .stop, .chunk τ l calls.length⟩] := by
        unfold stopLast
        rw [htask]
        simp [hl]
      have hpairs : papiPairs th τ l (calls ++ [(lo, up)]).length
          = papiPairs th τ l calls.length ++
            [⟨th, .start, .chunk τ l calls.length⟩,
              ⟨th, .stop, .chunk τ l calls.length⟩] := by
        simp [papiPairs, List.range_succ]
      rw [List.filter_append, hall, hstop, hpairs, ← h2]
      simp [newPapi, hl, hcount]

/-- The end of the loop. -/
structure Finished (c0 : Config) (th : ThreadId) (τ : TaskId) (l : ℕ) (lower upper : ℤ)
    (time : ℚ) (calls : List (ℤ × ℤ)) (c : Config) : Prop where
  state : (c.rt.task τ).inLoop = false ∧ (c.rt.task τ).loops = l + 1 ∧
    (c.rt.task τ).chunks l = calls.length
  record : c.rt.HasData τ ∧ c.graph.cur τ = .loopSink τ l
  entry : ∀ x, c.graph.Link x (.ws τ l) ↔ x = c0.graph.cur τ
  exits : ∀ x, ¬c.graph.Link (.loopSink τ l) x
  startLabel : c.graph.label (.ws τ l) = ⟨lower, upper, none, none⟩
  chunkLabel : ∀ i b, calls[i]? = some b →
    (c.graph.label (.chunk τ l i)).lower = b.1 ∧ (c.graph.label (.chunk τ l i)).upper = b.2
  time : loopTime c.graph τ l calls.length = time
  papi : ∃ rest, c.graph.papiCalls = c0.graph.papiCalls ++ rest ∧
    rest.filter (fun a => a.thread = th) = papiPairs th τ l calls.length

theorem Cycle.finish (h : Cycle c0 th τ l lower upper start calls c) (hg : c.Good)
    (env : Env) {lo up : ℤ} (ha : c.rt.allows ⟨th, .extLoop .scopeEnd τ lo up⟩ = true) :
    Finished c0 th τ l lower upper (env.clock c.graph.ticks - start) calls
      (c.next env ⟨th, .extLoop .scopeEnd τ lo up⟩) := by
  have hl := h.loops
  have htask : (c.next env ⟨th, .extLoop .scopeEnd τ lo up⟩).rt.task τ
      = { c.rt.task τ with inLoop := false, loops := l + 1 } := by simp [next, Runtime.apply, hl]
  have hact : c.rt.Acts th τ := by
    cases delivers_of_allows ha with
    | loopEnd hact => exact hact
  have hnew : ∀ x, x ∉ c.rt.newRoles ⟨th, .extLoop .scopeEnd τ lo up⟩ :=
    fun x => by simp [newRoles]
  have hadd : ∀ {x y}, (x, y) ∈ c.graph.newEdges c.rt ⟨th, .extLoop .scopeEnd τ lo up⟩ →
      x = .ws τ l ∧ y = .loopSink τ l := by
    intro x y hxy
    simp only [newEdges, hl] at hxy
    split_ifs at hxy
    · simpa using hxy
    · cases hxy
  refine ⟨⟨by rw [htask], by rw [htask], by rw [htask]; exact h.count⟩, ⟨?_, ?_⟩, ?_,
    ?_, ?_, ?_, h.charge ha (by simp [charged]), ?_⟩
  · refine hasData_of_active ?_
    rw [htask]
    exact hact.2
  · exact cur_of_moved ha (by simp [newCur, hl])
  · intro x
    rw [← h.entry x]
    simp only [next, Link]
    rw [mem_step_edges ha]
    constructor
    · rintro (⟨hx, -⟩ | hx)
      · exact hx
      · cases (hadd hx).2
    · exact fun hx => .inl ⟨hx, by simp [oldEdge]⟩
  · -- the sink was pending until now
    intro x hx
    simp only [next, Link] at hx
    rcases (mem_step_edges ha).mp hx with ⟨hx, -⟩ | hx
    · exact hg.shaped.exits hx ⟨h.inLoop, hl.symm⟩
    · cases (hadd hx).1
  · rw [next, step_label ha, if_neg (hnew _)]
    exact h.startLabel
  · intro i b hi
    rw [next, step_label ha, if_neg (hnew _)]
    exact h.chunkLabel i b hi
  · obtain ⟨rest, h1, h2⟩ := h.papi
    refine ⟨rest ++ stopLast c.rt th τ, ?_, ?_⟩
    · rw [next, step_papi ha, h1, List.append_assoc]
      rfl
    · have hall : (stopLast c.rt th τ).filter (fun a => a.thread = th) = stopLast c.rt th τ := by
        refine List.filter_eq_self.mpr fun a ha' => ?_
        have hth : a.thread = (⟨th, .extLoop .scopeEnd τ lo up⟩ : Event).thread :=
          newPapi_thread ha'
        simpa using hth
      rw [List.filter_append, hall, h2]

/-! ### The whole cycle -/

/-- All readings of the clock by one callback agree. -/
def ReadOnce (env : Env) (es : List Event) : Prop :=
  ∀ pre e post s s', es = pre ++ e :: post → Tool.run env pre = some s →
    s.callback env e = some s' → ∀ k, s.ticks ≤ k → k < s'.ticks →
      env.clock k = env.clock s.ticks

theorem ReadOnce.config {es pre post : List Event} (h : ReadOnce env es)
    (hes : es = pre ++ e :: post) (hpre : run env pre = some c) (ha : c.rt.allows e = true)
    (k : ℕ)
    (h1 : c.graph.ticks ≤ k) (h2 : k < (c.next env e).graph.ticks) :
    env.clock k = env.clock c.graph.ticks := by
  have hg := run_good hpre
  have hsim : Simulates env c.rt c.graph e :=
    simulates hg.shaped hg.sound hg.alloc hg.loopsFresh ha
  exact h pre e post c.tool (c.next env e).tool hes (tool_run hpre) hsim.1 k h1 h2

/-- The node was created by a callback of a thread in a part of a run. -/
def MadeBy (env : Env) (pre blk : List Event) (th : ThreadId) (x : Role) : Prop :=
  ∃ m₁ e m₂ c, blk = m₁ ++ e :: m₂ ∧ e.thread = th ∧
    run env (pre ++ m₁) = some c ∧
    x ∈ c.rt.newRoles e

theorem madeBy_nil {pre : List Event} {x : Role} : ¬MadeBy env pre [] th x := by
  rintro ⟨m₁, e, m₂, c, h, -⟩
  simp at h

theorem madeBy_snoc {pre blk : List Event} {x : Role} (hrun : run env (pre ++ blk) = some c) :
    MadeBy env pre (blk ++ [e]) th x ↔
      MadeBy env pre blk th x ∨ e.thread = th ∧ x ∈ c.rt.newRoles e := by
  constructor
  · rintro ⟨m₁, a, m₂, c', h, hth, hc', hx⟩
    rcases List.eq_nil_or_concat m₂ with rfl | ⟨m₂, b, rfl⟩
    · obtain ⟨rfl, rfl⟩ : blk = m₁ ∧ e = a := by simpa using h
      obtain rfl := Option.some.inj (hrun.symm.trans hc')
      exact .inr ⟨hth, hx⟩
    · have h' : blk ++ [e] = (m₁ ++ a :: m₂) ++ [b] := by simpa using h
      exact .inl ⟨m₁, a, m₂, c', (List.append_inj' h' rfl).1, hth, hc', hx⟩
  · rintro (⟨m₁, a, m₂, c', rfl, h⟩ | ⟨hth, hx⟩)
    · exact ⟨m₁, a, m₂ ++ [e], c', by simp, h⟩
    · exact ⟨blk, e, [], c, by simp, hth, hrun, hx⟩

/-- The address was allocated by a callback of a thread in a part of a run. -/
def AddedBy (env : Env) (pre blk : List Event) (th : ThreadId) (n : NodeRef) : Prop :=
  ∃ m₁ e m₂ s s', blk = m₁ ++ e :: m₂ ∧ e.thread = th ∧
    Tool.run env (pre ++ m₁) = some s ∧
    s.callback env e = some s' ∧ s.nextRef ≤ n ∧ n < s'.nextRef

theorem addedBy_iff {pre blk : List Event} {n : NodeRef} (hrun : run env (pre ++ blk) = some c) :
    AddedBy env pre blk th n ↔ ∃ x, MadeBy env pre blk th x ∧ c.graph.addr x = n := by
  -- one callback: the new addresses are those of the new roles
  have key : ∀ {m₁ e m₂ c1}, blk = m₁ ++ e :: m₂ → run env (pre ++ m₁) = some c1 →
      ∃ s', c1.tool.callback env e = some s' ∧ ((c1.tool.nextRef ≤ n ∧ n < s'.nextRef) ↔
        ∃ x ∈ c1.rt.newRoles e, c.graph.addr x = n) := by
    intro m₁ e m₂ c1 hblk hc1
    have hes : pre ++ blk = (pre ++ m₁) ++ e :: m₂ := by simp [hblk]
    rw [hes] at hrun
    obtain ⟨c2, hc2, ha, hnext⟩ := run_split hrun
    obtain rfl := Option.some.inj (hc1.symm.trans hc2)
    have hg := run_good hc1
    have hsim : Simulates env c1.rt c1.graph e :=
      simulates hg.shaped hg.sound hg.alloc hg.loopsFresh ha
    refine ⟨_, hsim.1, ?_⟩
    have horder : (c1.graph.step env c1.rt e).order = _ := step_order ha
    have haddr : ∀ x ∈ c1.rt.newRoles e, c.graph.addr x = (c1.next env e).graph.addr x := by
      intro x hx
      have hmem : x ∈ (c1.next env e).graph.order := by
        rw [next, horder]
        exact List.mem_append_right _ hx
      have hrun' : run env ((pre ++ m₁ ++ [e]) ++ m₂) = some c := by simpa using hrun
      exact (addr_run hnext hrun' hmem).2
    have hidx : ∀ x ∈ c1.rt.newRoles e, (c1.next env e).graph.addr x
        = c1.graph.order.length + (c1.rt.newRoles e).idxOf x := by
      intro x hx
      have hnot : x ∉ c1.graph.order := fun hmem =>
        newRoles_fresh ha hx (hg.shaped.order_iff.mp hmem)
      rw [addr, next, horder, List.idxOf_append_of_notMem hnot]
    have hnd : (c1.rt.newRoles e).Nodup := by
      have := (run_good hnext).alloc.nodup
      rw [next, horder] at this
      exact (List.nodup_append.mp this).2.1
    have hlen : (c1.next env e).graph.order.length
        = c1.graph.order.length + (c1.rt.newRoles e).length := by
      rw [next, horder, List.length_append]
    show c1.graph.order.length ≤ n ∧ n < (c1.next env e).graph.order.length ↔ _
    rw [hlen]
    constructor
    · rintro ⟨h1, h2⟩
      have hi : n - c1.graph.order.length < (c1.rt.newRoles e).length :=
        Nat.sub_lt_left_of_lt_add h1 h2
      refine ⟨(c1.rt.newRoles e).get ⟨_, hi⟩, List.get_mem _ _, ?_⟩
      rw [haddr _ (List.get_mem _ _), hidx _ (List.get_mem _ _), List.get_eq_getElem,
        hnd.idxOf_getElem]
      exact Nat.add_sub_cancel' h1
    · rintro ⟨x, hx, rfl⟩
      rw [haddr x hx, hidx x hx]
      exact ⟨Nat.le_add_right _ _, Nat.add_lt_add_left (List.idxOf_lt_length_of_mem hx) _⟩
  constructor
  · rintro ⟨m₁, e, m₂, s, s', hblk, hth, hs, hs', hn⟩
    have hes : pre ++ blk = (pre ++ m₁) ++ e :: m₂ := by simp [hblk]
    obtain ⟨c1, hc1, -⟩ := run_split (hes ▸ hrun)
    obtain rfl := Option.some.inj (hs.symm.trans (tool_run hc1))
    obtain ⟨s1, hs1, hiff⟩ := key hblk hc1
    obtain rfl := Option.some.inj (hs'.symm.trans hs1)
    obtain ⟨x, hx, hxn⟩ := hiff.mp hn
    exact ⟨x, ⟨m₁, e, m₂, c1, hblk, hth, hc1, hx⟩, hxn⟩
  · rintro ⟨x, ⟨m₁, e, m₂, c1, hblk, hth, hc1, hx⟩, hxn⟩
    obtain ⟨s1, hs1, hiff⟩ := key hblk hc1
    exact ⟨m₁, e, m₂, c1.tool, s1, hblk, hth, tool_run hc1, hs1, hiff.mpr ⟨x, hx, hxn⟩⟩

/-- **From the begin of a loop to any point inside it.** -/
theorem cycle_run {pre mid : List Event} (hpre : run env pre = some c0)
    (hbody : LoopBody th τ mid)
    (honce : ReadOnce env (pre ++ ⟨th, .extLoop .scopeBegin τ lower upper⟩ :: mid))
    (hrun : run env (pre ++ ⟨th, .extLoop .scopeBegin τ lower upper⟩ :: mid) = some c) :
    Cycle c0 th τ (c0.rt.task τ).loops lower upper (env.clock c0.graph.ticks)
        (mid.filterMap (Event.chunkBounds τ)) c ∧
      ∀ x, MadeBy env pre (⟨th, .extLoop .scopeBegin τ lower upper⟩ :: mid) th x ↔
        x = .loopSink τ (c0.rt.task τ).loops ∨
        x ∈ loopNodes τ (c0.rt.task τ).loops (mid.filterMap (Event.chunkBounds τ)).length := by
  -- on the calls of the loop, the last one at the end; others may come in between
  induction mid using List.reverseRecOn generalizing c with
  | nil =>
    obtain ⟨c1, hc1, ha, rfl⟩ := run_snoc.mp hrun
    obtain rfl := Option.some.inj (hpre.symm.trans hc1)
    refine ⟨cycle_begin (run_good hpre) ha (honce.config rfl hpre ha), fun x => ?_⟩
    have hmade :
        MadeBy env pre ([] ++ [⟨th, .extLoop .scopeBegin τ lower upper⟩]) th x ↔ _ :=
      madeBy_snoc (by rwa [List.append_nil])
    rw [List.nil_append] at hmade
    rw [hmade]
    simp only [madeBy_nil, newRoles, List.mem_cons, List.not_mem_nil, or_false, false_or, true_and,
      List.filterMap_nil, List.length_nil, mem_loopNodes, Nat.not_lt_zero, false_and, exists_false]
    tauto
  | append_singleton mid e ih =>
    have hes : pre ++ ⟨th, .extLoop .scopeBegin τ lower upper⟩ :: (mid ++ [e])
        = (pre ++ ⟨th, .extLoop .scopeBegin τ lower upper⟩ :: mid) ++ [e] := by simp
    rw [hes] at hrun honce
    obtain ⟨c1, hc1, ha, rfl⟩ := run_snoc.mp hrun
    have honce' : ReadOnce env (pre ++ ⟨th, .extLoop .scopeBegin τ lower upper⟩ :: mid) := by
      intro p1 a p2 s s' hsplit
      exact honce p1 a (p2 ++ [e]) s s' (by rw [hsplit]; simp)
    obtain ⟨hcyc, hmade⟩ := ih (fun a ha => hbody a (by simp [ha])) honce' hc1
    have hg := run_good hc1
    -- what the thread has made grows by the new roles of its own callbacks
    have hsnoc : ∀ x,
        MadeBy env pre (⟨th, .extLoop .scopeBegin τ lower upper⟩ :: (mid ++ [e])) th x ↔
        (x = .loopSink τ (c0.rt.task τ).loops ∨ x ∈ loopNodes τ (c0.rt.task τ).loops
          (mid.filterMap (Event.chunkBounds τ)).length) ∨
        e.thread = th ∧ x ∈ c1.rt.newRoles e := fun x => (madeBy_snoc hc1).trans (by rw [hmade])
    rw [List.filterMap_append]
    -- the loop body allows a callback of the thread or of the task only if it is a chunk call
    by_cases hown : e.thread = th ∨ τ ∈ e.call.tasks
    · obtain ⟨lo, up, lastChunk, rfl⟩ := hbody e (by simp) hown
      cases lastChunk with
      | true =>
        have hbounds :
            [(⟨th, .extChunk τ lo up true⟩ : Event)].filterMap (Event.chunkBounds τ)
            = [] := by simp [Event.chunkBounds]
        rw [hbounds, List.append_nil]
        refine ⟨hcyc.lastChunk ha, fun x => ?_⟩
        rw [hsnoc x]
        simp [newRoles]
      | false =>
        have hbounds :
            [(⟨th, .extChunk τ lo up false⟩ : Event)].filterMap (Event.chunkBounds τ)
            = [(lo, up)] := by simp [Event.chunkBounds]
        rw [hbounds]
        refine ⟨hcyc.chunk ha (honce.config rfl hc1 ha), fun x => ?_⟩
        rw [hsnoc x]
        simp only [newRoles, hcyc.loops, hcyc.count, Bool.false_eq_true, if_false,
          List.mem_singleton, true_and, mem_loopNodes, List.length_append, List.length_singleton,
          Nat.lt_succ_iff_lt_or_eq]
        constructor
        · rintro ((h | h | ⟨i, hi, h⟩) | h)
          · exact .inl h
          · exact .inr (.inl h)
          · exact .inr (.inr ⟨i, .inl hi, h⟩)
          · exact .inr (.inr ⟨_, .inr rfl, h⟩)
        · rintro (h | h | ⟨i, hi | rfl, h⟩)
          · exact .inl (.inl h)
          · exact .inl (.inr (.inl h))
          · exact .inl (.inr (.inr ⟨i, hi, h⟩))
          · exact .inr h
    · push Not at hown
      have hnone : [e].filterMap (Event.chunkBounds τ) = [] := by
        have hb : e.chunkBounds τ = none := by
          unfold Event.chunkBounds
          split
          · rename_i σ lo up hcall
            refine if_neg ?_
            rintro rfl
            exact hown.2 (by simp [hcall, Call.tasks])
          · rfl
        simp [hb]
      rw [hnone, List.append_nil]
      refine ⟨hcyc.other hg ha hown.1 hown.2, fun x => ?_⟩
      rw [hsnoc x]
      simp [hown.1]

/-- A finished loop in the tool's graph, entered from node `p`: its nodes, and all
edges into and out of them. -/
structure LoopGraph (s : Tool) (p start sink : NodeRef) (chunks : List NodeRef) (lower upper : ℤ)
    (calls : List (ℤ × ℤ)) : Prop where
  nodup : (start :: sink :: chunks).Nodup
  startNode : ∃ nd, s.nodes start = some nd ∧ nd.type = .wsTask ∧ nd.lower = lower ∧
    nd.upper = upper
  sinkNode : ∃ nd, s.nodes sink = some nd ∧ nd.type = .impTask
  chunkNodes : List.Forall₂ (fun n b => ∃ nd, s.nodes n = some nd ∧ nd.type = .chunkTask ∧
    nd.lower = b.1 ∧ nd.upper = b.2) chunks calls
  into_start : ∀ n, s.toGraph.Adj n start ↔ n = p
  from_start : ∀ n, s.toGraph.Adj start n ↔ n ∈ chunks ∨ chunks = [] ∧ n = sink
  into_chunk : ∀ x ∈ chunks, ∀ n, s.toGraph.Adj n x ↔ n = start
  from_chunk : ∀ x ∈ chunks, ∀ n, s.toGraph.Adj x n ↔ n = sink
  into_sink : ∀ n, s.toGraph.Adj n sink ↔ n ∈ chunks ∨ chunks = [] ∧ n = start
  from_sink : ∀ n, ¬s.toGraph.Adj sink n

/-- The addresses of the chunks of a loop, in the order of their creation. -/
def chunkAddrs (g : RoleGraph) (τ : TaskId) (l k : ℕ) : List NodeRef :=
  (List.range k).map fun i => g.addr (.chunk τ l i)

theorem mem_chunkAddrs {g : RoleGraph} {k : ℕ} {n : NodeRef} :
    n ∈ chunkAddrs g τ l k ↔ ∃ i < k, g.addr (.chunk τ l i) = n := by
  simp [chunkAddrs]

theorem chunkAddrs_eq_nil {g : RoleGraph} {k : ℕ} : chunkAddrs g τ l k = [] ↔ k = 0 := by
  simp [chunkAddrs]

section

variable {time : ℚ}

theorem Finished.created (h : Finished c0 th τ l lower upper time calls c) :
    c.rt.Created (.ws τ l) ∧ c.rt.Created (.loopSink τ l) ∧
      ∀ {i}, i < calls.length → c.rt.Created (.chunk τ l i) := by
  obtain ⟨h1, h2, h3⟩ := h.state
  have hlt : l < (c.rt.task τ).begun := by simp [TaskState.begun, h1, h2]
  refine ⟨hlt, hlt, fun {i} hi => ?_⟩
  show i < (c.rt.task τ).chunks l
  omega

/-- The exits of the start node and of the chunks, and the entries of the chunks
and of the sink. -/
theorem Finished.links (h : Finished c0 th τ l lower upper time calls c) {es : List Event}
    (hrun : run env es = some c) :
    (∀ y, c.graph.Link (.ws τ l) y ↔ (∃ i < calls.length, y = .chunk τ l i) ∨
      calls.length = 0 ∧ y = .loopSink τ l) ∧
    (∀ i < calls.length, ∀ y, c.graph.Link (.chunk τ l i) y ↔ y = .loopSink τ l) ∧
    (∀ i < calls.length, ∀ x, c.graph.Link x (.chunk τ l i) ↔ x = .ws τ l) ∧
    ∀ x, c.graph.Link x (.loopSink τ l) ↔ (∃ i < calls.length, x = .chunk τ l i) ∨
      calls.length = 0 ∧ x = .ws τ l := by
  obtain ⟨-, h2, h3⟩ := h.state
  refine ⟨fun y => ?_, fun i hi y => ?_, fun i hi x => ?_, fun x => ?_⟩
  -- the edges inside the loop are a function of the bookkeeping; read it off
  · rw [loopEdge_run hrun (by simp [WithinLoop])]
    cases y with
    | chunk σ l' i => simp [LoopEdge, ← h3]; grind
    | loopSink σ l' => simp [LoopEdge, ← h3, h2]; grind
    | _ => simp [LoopEdge]
  · rw [loopEdge_run hrun (by simp [WithinLoop])]
    cases y with
    | loopSink σ l' => simp [LoopEdge, h3, hi]
    | _ => simp [LoopEdge]
  · rw [loopEdge_run hrun (by cases x <;> simp [WithinLoop])]
    cases x with
    | ws σ l' => simp [LoopEdge]; grind
    | _ => simp [LoopEdge]
  · rw [loopEdge_run hrun (by cases x <;> simp [WithinLoop])]
    cases x with
    | ws σ l' => simp [LoopEdge]; grind
    | chunk σ l' i => simp [LoopEdge]; grind
    | _ => simp [LoopEdge]

/-- The addresses in a finished loop. -/
theorem Finished.loopGraph (h : Finished c0 th τ l lower upper time calls c) {es : List Event}
    (hrun : run env es = some c) :
    LoopGraph c.tool (c.graph.addr (c0.graph.cur τ)) (c.graph.addr (.ws τ l))
      (c.graph.addr (.loopSink τ l)) (chunkAddrs c.graph τ l calls.length) lower upper calls := by
  have hg := run_good hrun
  obtain ⟨hws, hsink, hchunk⟩ := h.created
  obtain ⟨hfrom, hfromChunk, hinto, hintoSink⟩ := h.links hrun
  have hord : ∀ {x}, c.rt.Created x → x ∈ c.graph.order :=
    fun hx => hg.shaped.order_iff.mpr hx
  have hlive : ∀ {x}, c.rt.Created x → ¬c.rt.Dropped x →
      c.tool.nodes (c.graph.addr x) = some (c.graph.node x) := fun hx hd =>
    heap_addr (hord hx) (hg.shaped.live_iff.mpr ⟨hx, hd⟩)
  -- addresses are injective on roles that were created
  have hinj : ∀ {x y}, c.rt.Created x → (c.graph.addr x = c.graph.addr y ↔ x = y) := fun hx =>
    addr_inj (hord hx)
  refine ⟨?_, ⟨_, hlive hws id, hg.alloc.type_eq (hord hws), ?_, ?_⟩,
    ⟨_, hlive hsink id, hg.alloc.type_eq (hord hsink)⟩, ?_, fun n => ?_, fun n => ?_,
    fun n hn m => ?_, fun n hn m => ?_, fun n => ?_, fun n => ?_⟩
  · refine List.nodup_cons.mpr ⟨?_, List.nodup_cons.mpr ⟨?_, ?_⟩⟩
    · simp only [List.mem_cons, mem_chunkAddrs, not_or, not_exists, not_and]
      refine ⟨fun he => ?_, fun i hi he => ?_⟩
      · cases (hinj hws).mp he
      · cases (hinj (hchunk hi)).mp he
    · rw [mem_chunkAddrs]
      rintro ⟨i, hi, he⟩
      cases (hinj (hchunk hi)).mp he
    · refine (List.nodup_map_iff_inj_on List.nodup_range).mpr fun i hi j _ he => ?_
      have hij := (hinj (hchunk (List.mem_range.mp hi))).mp he
      simpa using hij
  · exact congrArg Label.lower h.startLabel
  · exact congrArg Label.upper h.startLabel
  · refine List.forall₂_iff_get.mpr ⟨by simp [chunkAddrs], fun i hi hi' => ?_⟩
    have hlab := h.chunkLabel i calls[i] (List.getElem?_eq_getElem hi')
    simp only [chunkAddrs, List.get_eq_getElem, List.getElem_map, List.getElem_range]
    exact ⟨_, hlive (hchunk hi') id, hg.alloc.type_eq (hord (hchunk hi')), hlab.1, hlab.2⟩
  · rw [hg.adj_to (hord hws)]
    simp only [h.entry]
    constructor
    · rintro ⟨y, rfl, rfl⟩
      rfl
    · rintro rfl
      exact ⟨_, rfl, rfl⟩
  · rw [hg.adj_from (hord hws), mem_chunkAddrs, chunkAddrs_eq_nil]
    simp only [hfrom]
    constructor
    · rintro ⟨y, rfl, ⟨i, hi, rfl⟩ | ⟨h0, rfl⟩⟩
      · exact .inl ⟨i, hi, rfl⟩
      · exact .inr ⟨h0, rfl⟩
    · rintro (⟨i, hi, rfl⟩ | ⟨h0, rfl⟩)
      · exact ⟨_, rfl, .inl ⟨i, hi, rfl⟩⟩
      · exact ⟨_, rfl, .inr ⟨h0, rfl⟩⟩
  · obtain ⟨i, hi, rfl⟩ := mem_chunkAddrs.mp hn
    rw [hg.adj_to (hord (hchunk hi))]
    simp only [hinto i hi]
    constructor
    · rintro ⟨y, rfl, rfl⟩
      rfl
    · rintro rfl
      exact ⟨_, rfl, rfl⟩
  · obtain ⟨i, hi, rfl⟩ := mem_chunkAddrs.mp hn
    rw [hg.adj_from (hord (hchunk hi))]
    simp only [hfromChunk i hi]
    constructor
    · rintro ⟨y, rfl, rfl⟩
      rfl
    · rintro rfl
      exact ⟨_, rfl, rfl⟩
  · rw [hg.adj_to (hord hsink), mem_chunkAddrs, chunkAddrs_eq_nil]
    simp only [hintoSink]
    constructor
    · rintro ⟨y, rfl, ⟨i, hi, rfl⟩ | ⟨h0, rfl⟩⟩
      · exact .inl ⟨i, hi, rfl⟩
      · exact .inr ⟨h0, rfl⟩
    · rintro (⟨i, hi, rfl⟩ | ⟨h0, rfl⟩)
      · exact ⟨_, rfl, .inl ⟨i, hi, rfl⟩⟩
      · exact ⟨_, rfl, .inr ⟨h0, rfl⟩⟩
  · rw [hg.adj_from (hord hsink)]
    rintro ⟨y, -, hy⟩
    exact h.exits y hy

/-- The times of a finished loop. -/
theorem Finished.totalTime (h : Finished c0 th τ l lower upper time calls c) {es : List Event}
    (hrun : run env es = some c) :
    c.tool.toGraph.totalTime (c.graph.addr (.ws τ l)) +
      ((chunkAddrs c.graph τ l calls.length).map c.tool.toGraph.totalTime).sum = time := by
  have hg := run_good hrun
  obtain ⟨hws, -, hchunk⟩ := h.created
  have htime : ∀ {x}, c.rt.Created x → ¬c.rt.Dropped x →
      c.tool.toGraph.totalTime (c.graph.addr x) = (c.graph.data x).totalTime := by
    intro x hx hd
    have hnode : c.tool.toGraph.nodes (c.graph.addr x) = some (c.graph.node x) :=
      heap_addr (hg.shaped.order_iff.mpr hx) (hg.shaped.live_iff.mpr ⟨hx, hd⟩)
    exact Graph.totalTime_eq hnode
  have hnot : Role.ws τ l ∉ (Finset.range calls.length).image (.chunk τ l) := by simp
  have hchunks : (chunkAddrs c.graph τ l calls.length).map c.tool.toGraph.totalTime
      = (List.range calls.length).map fun i => (c.graph.data (.chunk τ l i)).totalTime := by
    rw [chunkAddrs, List.map_map]
    refine List.map_congr_left fun i hi => ?_
    exact htime (hchunk (List.mem_range.mp hi)) id
  rw [← h.time, loopTime, loopNodes, Finset.sum_insert hnot,
    Finset.sum_image (by simp [Set.InjOn]), htime hws id, hchunks]
  rfl

/-- The PAPI calls of the thread during a finished loop. -/
theorem Finished.papiCalls (h : Finished c0 th τ l lower upper time calls c)
    {pre post : List Event} (hpre : run env pre = some c0) (hrun : run env (pre ++ post) = some c) :
    ∃ rest, c.tool.papiCalls = c0.tool.papiCalls ++ rest ∧
      rest.filter (fun a => a.thread = th) = (chunkAddrs c.graph τ l calls.length).flatMap
        fun n => [⟨th, .start, n⟩, ⟨th, .stop, n⟩] := by
  obtain ⟨rest, h1, h2⟩ := h.papi
  refine ⟨rest.map (PapiCall.map c.graph.addr), ?_, ?_⟩
  · show c.graph.papiCalls.map (PapiCall.map c.graph.addr)
      = c0.graph.papiCalls.map (PapiCall.map c0.graph.addr) ++ _
    rw [h1, List.map_append]
    congr 1
    refine List.map_congr_left fun a ha => ?_
    -- the nodes of earlier calls keep their addresses
    have haddr := (addr_run hpre hrun ((run_good hpre).alloc.papi_mem ha)).2
    simp [PapiCall.map, haddr]
  · have hcomm : (rest.map (PapiCall.map c.graph.addr)).filter (fun a => a.thread = th)
        = (rest.filter fun a => a.thread = th).map (PapiCall.map c.graph.addr) := by
      rw [List.filter_map]
      rfl
    rw [hcomm, h2]
    simp [papiPairs, chunkAddrs, List.map_flatMap, List.flatMap_map, PapiCall.map]

end

/-- **The life cycle of a loop.**  Between `cb_ext_loop` begin and end of a task
let its thread, and the callbacks given the task, do nothing but `cb_ext_chunk`
calls, of any bounds and flags; other threads do anything.  Then the nodes that
the thread has added are a start node, a sink and one chunk for each call with
`last_chunk = 0`, joined as `LoopGraph` says; the task is at the sink and out of
the loop; the times of the start node and the chunks add up, without rounding, to
the time that has passed; and the counters have been started and stopped once for each chunk, in
turn. -/
theorem loop_life_cycle (env : Env) {o : Runtime} {pre mid : List Event} {lo up : ℤ}
    (hrun : Runtime.run (pre ++ ⟨th, .extLoop .scopeBegin τ lower upper⟩ ::
      (mid ++ [⟨th, .extLoop .scopeEnd τ lo up⟩])) = some o)
    (hbody : LoopBody th τ mid)
    (honce : ReadOnce env (pre ++ ⟨th, .extLoop .scopeBegin τ lower upper⟩ ::
      (mid ++ [⟨th, .extLoop .scopeEnd τ lo up⟩]))) :
    ∃ s₀ s₁ s td td', Tool.run env pre = some s₀ ∧ s₀.taskData τ = some td ∧
      Tool.run env (pre ++ ⟨th, .extLoop .scopeBegin τ lower upper⟩ :: mid) = some s₁ ∧
      Tool.run env (pre ++ ⟨th, .extLoop .scopeBegin τ lower upper⟩ ::
        (mid ++ [⟨th, .extLoop .scopeEnd τ lo up⟩])) = some s ∧
      s.taskData τ = some td' ∧ ∃ start sink chunks rest,
        (∀ n, AddedBy env pre (⟨th, .extLoop .scopeBegin τ lower upper⟩ ::
          (mid ++ [⟨th, .extLoop .scopeEnd τ lo up⟩])) th n ↔
            n = start ∨ n = sink ∨ n ∈ chunks) ∧
        LoopGraph s td.currTaskNode start sink chunks lower upper
          (mid.filterMap (Event.chunkBounds τ)) ∧
        td'.currTaskNode = sink ∧ td'.currWsData = none ∧
        s.toGraph.totalTime start + (chunks.map s.toGraph.totalTime).sum
          = env.clock s₁.ticks - env.clock s₀.ticks ∧
        s.papiCalls = s₀.papiCalls ++ rest ∧
        rest.filter (fun a => a.thread = th)
          = chunks.flatMap fun n => [⟨th, .start, n⟩, ⟨th, .stop, n⟩] := by
  have hes : pre ++ ⟨th, .extLoop .scopeBegin τ lower upper⟩ ::
      (mid ++ [⟨th, .extLoop .scopeEnd τ lo up⟩])
      = (pre ++ ⟨th, .extLoop .scopeBegin τ lower upper⟩ :: mid) ++
        [⟨th, .extLoop .scopeEnd τ lo up⟩] := by simp
  obtain ⟨c, hc, -⟩ := run_of_runtime env hrun
  have hc' := hc
  rw [hes] at hc'
  obtain ⟨c1, hc1, ha, rfl⟩ := run_snoc.mp hc'
  -- the configurations before the loop, before its end, and after it
  obtain ⟨c0, hc0, hbegin, -⟩ := run_split hc1
  have honce1 : ReadOnce env (pre ++ ⟨th, .extLoop .scopeBegin τ lower upper⟩ :: mid) := by
    intro p1 a p2 s s' hsplit
    exact honce p1 a (p2 ++ [⟨th, .extLoop .scopeEnd τ lo up⟩]) s s'
      (by rw [hes, hsplit]; simp)
  obtain ⟨hcyc, hmade⟩ := cycle_run hc0 hbody honce1 hc1
  have hfin := hcyc.finish (run_good hc1) env ha
  have hd0 : c0.rt.HasData τ := by
    cases delivers_of_allows hbegin with
    | loopBegin _ hact => exact hasData_of_active hact.2
  -- the node before the loop keeps its address
  have hcur0 : (c1.next env ⟨th, .extLoop .scopeEnd τ lo up⟩).graph.addr (c0.graph.cur τ)
      = c0.graph.addr (c0.graph.cur τ) :=
    (addr_run hc0 hc ((run_good hc0).shaped.order_iff.mpr ((run_good hc0).shaped.seat hd0).1)).2
  obtain ⟨rest, hpapi, hpairs⟩ := hfin.papiCalls hc0 hc
  refine ⟨c0.tool, c1.tool, _, _, _, tool_run hc0, taskData_tool hd0, tool_run hc1, tool_run hc,
    taskData_tool hfin.record.1, _, _, _, rest, ?_, hcur0 ▸ hfin.loopGraph hc, ?_, ?_,
    hfin.totalTime hc, hpapi, hpairs⟩
  · intro n
    -- the last callback of the loop makes nothing
    have hall : ∀ x, MadeBy env pre (⟨th, .extLoop .scopeBegin τ lower upper⟩ ::
        (mid ++ [⟨th, .extLoop .scopeEnd τ lo up⟩])) th x ↔
        x = .loopSink τ (c0.rt.task τ).loops ∨
        x ∈ loopNodes τ (c0.rt.task τ).loops (mid.filterMap (Event.chunkBounds τ)).length := by
      intro x
      rw [← hmade x, ← List.cons_append, madeBy_snoc hc1]
      simp [newRoles]
    rw [addedBy_iff hc, mem_chunkAddrs]
    simp only [hall, mem_loopNodes]
    constructor
    · rintro ⟨x, rfl | rfl | ⟨i, hi, rfl⟩, rfl⟩
      · exact .inr (.inl rfl)
      · exact .inl rfl
      · exact .inr (.inr ⟨i, hi, rfl⟩)
    · rintro (rfl | rfl | ⟨i, hi, rfl⟩)
      · exact ⟨_, .inr (.inl rfl), rfl⟩
      · exact ⟨_, .inl rfl, rfl⟩
      · exact ⟨_, .inr (.inr ⟨i, hi, rfl⟩), rfl⟩
  · exact congrArg (Config.graph _).addr hfin.record.2
  · simp [taskRecord, TaskData.map, wsOf, hfin.state.1]

/-- A region with one thread and a loop with a chunk and a call for the last
chunk. -/
def oneChunk : List Event :=
  [⟨0, .threadBegin⟩,
    ⟨0, .taskCreate (.initial 0) (.initial 0) .initial⟩,
    ⟨0, .parallelBegin (.initial 0) 0 1 1 1⟩,
    ⟨0, .implicitTask .scopeBegin 0 (.implicit 0 0) 1 0⟩,
    ⟨0, .extLoop .scopeBegin (.implicit 0 0) 0 9⟩,
    ⟨0, .extChunk (.implicit 0 0) 0 9 false⟩,
    ⟨0, .extChunk (.implicit 0 0) 0 9 true⟩,
    ⟨0, .extLoop .scopeEnd (.implicit 0 0) 0 9⟩]

/-- Two readings of the clock at the same time. -/
def twoReadings : Env := { clock := fun k => ((k + 1) / 2 : ℕ) }

theorem oneChunk_readOnce : ReadOnce twoReadings oneChunk := by
  -- the readings of the clock by each callback
  have hticks : ∀ i < 8, ∀ a ∈ (Tool.run twoReadings (oneChunk.take i)).map Tool.ticks,
      ∀ b ∈ (Tool.run twoReadings (oneChunk.take (i + 1))).map Tool.ticks,
      ∀ k < b, a ≤ k → twoReadings.clock k = twoReadings.clock a := by decide +kernel
  intro pre e post s s' hes hs hs' k h1 h2
  have hlen : pre.length < 8 := by
    have h8 : oneChunk.length = 8 := rfl
    rw [hes, List.length_append, List.length_cons] at h8
    omega
  have htake : oneChunk.take pre.length = pre := by rw [hes, List.take_left]
  have htake' : oneChunk.take (pre.length + 1) = pre ++ [e] := by
    rw [hes, List.take_append]
    simp
  refine hticks _ hlen s.ticks ?_ s'.ticks ?_ k h2 h1
  · rw [htake, hs]
    rfl
  · rw [htake', Tool.run, Tool.runFrom, List.foldlM_append]
    rw [Tool.run, Tool.runFrom] at hs
    simp [hs, hs']

theorem loop_life_cycle_oneChunk :
    ∃ s p start sink chunks, Tool.run twoReadings oneChunk = some s ∧
      LoopGraph s p start sink chunks 0 9 [(0, 9)] ∧
      s.toGraph.totalTime start + (chunks.map s.toGraph.totalTime).sum = 2 := by
  have hrun : (Runtime.run oneChunk).isSome = true := by decide +kernel
  obtain ⟨o, ho⟩ := Option.isSome_iff_exists.mp hrun
  have hbody : LoopBody 0 (.implicit 0 0) ((oneChunk.drop 5).take 2) := by
    intro e he _
    have he : e = ⟨0, .extChunk (.implicit 0 0) 0 9 false⟩ ∨
        e = ⟨0, .extChunk (.implicit 0 0) 0 9 true⟩ := by simpa [oneChunk] using he
    rcases he with rfl | rfl
    · exact ⟨0, 9, false, rfl⟩
    · exact ⟨0, 9, true, rfl⟩
  obtain ⟨s₀, s₁, s, td, td', h₀, -, h₁, hs, -, start, sink, chunks, rest, -, hgraph, -,
    -, htime, -⟩ :=
    @loop_life_cycle 0 (.implicit 0 0) 0 9 twoReadings o (oneChunk.take 4)
      ((oneChunk.drop 5).take 2) 0 9 ho hbody oneChunk_readOnce
  have hticks₀ : (Tool.run twoReadings (oneChunk.take 4)).map Tool.ticks = some 3 := by
    decide +kernel
  have hticks₁ : (Tool.run twoReadings (oneChunk.take 7)).map Tool.ticks = some 7 := by
    decide +kernel
  have ht₀ : s₀.ticks = 3 := by
    rw [h₀] at hticks₀
    exact Option.some.inj hticks₀
  have ht₁ : s₁.ticks = 7 := by
    have h₁ : Tool.run twoReadings (oneChunk.take 7) = some s₁ := h₁
    rw [h₁] at hticks₁
    exact Option.some.inj hticks₁
  refine ⟨s, td.currTaskNode, start, sink, chunks, hs, hgraph, ?_⟩
  rw [htime, ht₀, ht₁]
  norm_num [twoReadings]

end Config

end Tdg
