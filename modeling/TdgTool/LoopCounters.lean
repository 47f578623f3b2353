/-
TdgTool/LoopCounters.lean

Loop counters and the loops they are meant to name.

A chunk is labelled with the counter of the thread that opens it, and the
counter of a thread is the number of loops that the thread has finished since
its `cb_thread_begin` (`loopCounter_eq`).  Threads agree on the counter of a loop
if all of them have taken part in the same number of loops before; a thread
that sits out a region keeps the counter it had, and from then on its chunks are
labelled with the counters of earlier loops (`oneThenTwo`).

`KeepsUp` is the condition on a step: a thread that opens a chunk has finished
as many loops as the run had begun before the loop of the chunk.
-/
import TdgTool.LoopCycle

namespace Tdg

/-! ### The loops of a run -/

/-- A worksharing loop: the `l`-th of a team or of an initial task.  All threads
of a team meet the loops of the region in the same order. -/
inductive LoopInstance
  | team (r : RegionId) (l : ℕ)
  | initial (l : ℕ)
  deriving DecidableEq, Repr

/-- The `l`-th loop that a task executes. -/
def LoopInstance.ofTask : TaskId → ℕ → LoopInstance
  | .implicit r _, l => .team r l
  | _, l => .initial l

/-- The loops that were begun, with the one that a callback begins. -/
def noteLoop (o : Runtime) (e : Event) (loops : List LoopInstance) : List LoopInstance :=
  match e.call with
  | .extLoop .scopeBegin τ _ _ =>
      if .ofTask τ (o.task τ).loops ∈ loops then loops
      else loops ++ [.ofTask τ (o.task τ).loops]
  | _ => loops

/-- The loops of a run in the order in which they were begun, each by the first
thread of its team to begin it. -/
def loopOrder (es : List Event) : List LoopInstance :=
  (es.foldl (fun s e => (s.1.apply e, noteLoop s.1 e s.2)) (Runtime.init, [])).2

/-- The callback is the thread's `cb_thread_begin`. -/
def Event.beginsThread (th : ThreadId) (e : Event) : Bool :=
  match e.call with
  | .threadBegin => e.thread = th
  | _ => false

/-- The callback ends a loop on the thread. -/
def Event.finishesLoop (th : ThreadId) (e : Event) : Bool :=
  match e.call with
  | .extLoop .scopeEnd _ _ _ => e.thread = th
  | _ => false

/-- The number of loops that a thread has finished since its `cb_thread_begin`. -/
def loopsFinished (th : ThreadId) (es : List Event) : ℕ :=
  (es.reverse.takeWhile fun e => !e.beginsThread th).countP (Event.finishesLoop th)

/-- The task for which a callback opens a chunk. -/
def Event.opensChunkOf (e : Event) : Option TaskId :=
  match e.call with
  | .extChunk τ _ _ false => some τ
  | _ => none

/-- A thread that opens a chunk has finished as many loops as the run had begun
before the loop of the chunk. -/
def KeepsUp (pre : List Event) (o : Runtime) (e : Event) : Prop :=
  ∀ τ ∈ e.opensChunkOf,
    loopsFinished e.thread pre = (loopOrder pre).idxOf (.ofTask τ (o.task τ).loops)

instance (pre : List Event) (o : Runtime) (e : Event) : Decidable (KeepsUp pre o e) :=
  inferInstanceAs (Decidable (∀ τ ∈ e.opensChunkOf, _ = _))

/-- Every step of the run keeps up. -/
def KeepUp (es : List Event) : Prop :=
  ∀ pre e post o, es = pre ++ e :: post → Runtime.run pre = some o → KeepsUp pre o e

/-- The node was allocated by a `cb_ext_chunk` call in the loop. -/
def ChunkOf (env : Env) (es : List Event) (I : LoopInstance) (n : NodeRef) : Prop :=
  ∃ pre th τ lower upper lastChunk post o,
    es = pre ++ ⟨th, .extChunk τ lower upper lastChunk⟩ :: post ∧ Runtime.run pre = some o ∧
    I = .ofTask τ (o.task τ).loops ∧
    Config.AddedBy env pre [⟨th, .extChunk τ lower upper lastChunk⟩] th n

/-- The chunks of a loop carry the same counter, and chunks of different loops
carry different ones. -/
def CountersIdentify (env : Env) (es : List Event) (s : Tool) : Prop :=
  ∀ I J m n, ChunkOf env es I m → ChunkOf env es J n →
    ∃ a b, s.nodes m = some a ∧ s.nodes n = some b ∧ (a.loopCounter = b.loopCounter ↔ I = J)

/-! ### Histories grow at the end -/

theorem foldl_run {es : List Event} {o : Runtime} (hrun : Runtime.run es = some o) :
    (es.foldl (fun s e => (s.1.apply e, noteLoop s.1 e s.2)) (Runtime.init, [])).1 = o := by
  induction es using List.reverseRecOn generalizing o with
  | nil => exact Option.some.inj hrun
  | append_singleton es e ih =>
    rw [Runtime.run, List.foldlM_append] at hrun
    obtain ⟨o', ho', hstep⟩ := Option.bind_eq_some_iff.mp hrun
    have hstep : o'.step e = some o := by simpa using hstep
    rw [List.foldl_append]
    show Runtime.apply _ e = o
    rw [ih ho']
    unfold Runtime.step at hstep
    split_ifs at hstep
    exact Option.some.inj hstep

theorem loopOrder_snoc {es : List Event} {o : Runtime} (e : Event)
    (hrun : Runtime.run es = some o) : loopOrder (es ++ [e]) = noteLoop o e (loopOrder es) := by
  rw [loopOrder, List.foldl_append]
  show noteLoop _ e (loopOrder es) = _
  rw [foldl_run hrun]

theorem mem_noteLoop {o : Runtime} {e : Event} {loops : List LoopInstance} {I : LoopInstance}
    (h : I ∈ loops) :
    I ∈ noteLoop o e loops ∧ (noteLoop o e loops).idxOf I = loops.idxOf I := by
  unfold noteLoop
  split
  · split_ifs
    · exact ⟨h, rfl⟩
    · exact ⟨List.mem_append_left _ h, List.idxOf_append_of_mem h⟩
  · exact ⟨h, rfl⟩

theorem loopsFinished_snoc {th : ThreadId} {es : List Event} (e : Event) :
    loopsFinished th (es ++ [e])
      = if e.thread = th then RoleGraph.newCounter e (loopsFinished th es)
        else loopsFinished th es := by
  unfold loopsFinished RoleGraph.newCounter
  rw [List.reverse_append, List.reverse_singleton, List.singleton_append, List.takeWhile_cons]
  obtain ⟨th', call⟩ := e
  rcases eq_or_ne th' th with rfl | hth
  · cases call with
    | extLoop endpoint => cases endpoint <;> simp [Event.beginsThread, Event.finishesLoop]
    | _ => simp [Event.beginsThread, Event.finishesLoop]
  · cases call with
    | extLoop endpoint => cases endpoint <;> simp [Event.beginsThread, Event.finishesLoop, hth]
    | _ => simp [Event.beginsThread, Event.finishesLoop, hth]

namespace Config

open RoleGraph Tdg.Runtime

variable {env : Env} {es : List Event} {c : Config} {τ : TaskId} {l i : ℕ}

/-- **The counter of a thread** is the number of loops it has finished. -/
theorem loopCounter_eq (hrun : run env es = some c) (th : ThreadId) :
    c.graph.loopCounter th = loopsFinished th es := by
  induction es using List.reverseRecOn generalizing c with
  | nil =>
    obtain rfl := Option.some.inj hrun
    rfl
  | append_singleton es e ih =>
    obtain ⟨c', hc', ha, rfl⟩ := run_snoc.mp hrun
    rw [next, step_loopCounter ha, loopsFinished_snoc, ih hc']

/-- Only the begin of a loop creates its start node. -/
theorem newRoles_ws {o : Runtime} {e : Event} (h : .ws τ l ∈ o.newRoles e) :
    ∃ th lower upper, e = ⟨th, .extLoop .scopeBegin τ lower upper⟩ ∧ l = (o.task τ).loops := by
  obtain ⟨th, call⟩ := e
  unfold newRoles at h
  split at h
  case h_6 σ lower upper hcall =>
    obtain rfl : call = _ := hcall
    obtain ⟨rfl, rfl⟩ : τ = σ ∧ l = (o.task σ).loops := by simpa using h
    exact ⟨th, lower, upper, rfl, rfl⟩
  all_goals first | (split_ifs at h <;> simp at h) | simp at h

/-- Only a `cb_ext_chunk` call in a loop creates a chunk of it. -/
theorem newRoles_chunk {o : Runtime} {e : Event} (h : .chunk τ l i ∈ o.newRoles e) :
    ∃ th lower upper, e = ⟨th, .extChunk τ lower upper false⟩ ∧ l = (o.task τ).loops := by
  obtain ⟨th, call⟩ := e
  unfold newRoles at h
  split at h
  case h_7 σ lower upper lastChunk hcall =>
    obtain rfl : call = _ := hcall
    cases lastChunk with
    | true => cases h
    | false =>
      simp only [Bool.false_eq_true, if_false, List.mem_singleton, Role.chunk.injEq] at h
      obtain ⟨rfl, rfl, -⟩ := h
      exact ⟨th, lower, upper, rfl, rfl⟩
  all_goals first | (split_ifs at h <;> simp at h) | simp at h

/-- A loop that a task has begun is in the order. -/
theorem mem_loopOrder (hrun : run env es = some c) (hl : l < (c.rt.task τ).begun) :
    .ofTask τ l ∈ loopOrder es := by
  induction es using List.reverseRecOn generalizing c with
  | nil =>
    obtain rfl := Option.some.inj hrun
    cases hl
  | append_singleton es e ih =>
    obtain ⟨c', hc', ha, rfl⟩ := run_snoc.mp hrun
    have hrt := runtime_of_run hc'
    rw [loopOrder_snoc e hrt]
    by_cases hold : l < (c'.rt.task τ).begun
    · exact (mem_noteLoop (ih hc' hold)).1
    · have hc : (c'.rt.apply e).Created (.ws τ l) := hl
      rcases (created_apply (run_good hc').sound ha).mp hc with h | h
      · exact absurd h hold
      · -- only the begin of the loop creates its start node
        obtain ⟨th, lower, upper, rfl, rfl⟩ := newRoles_ws h
        simp only [noteLoop]
        split_ifs with hmem
        · exact hmem
        · simp

/-! ### Counters and positions -/

/-- Every chunk carries the position of its loop in the order of the loops. -/
def Numbered (es : List Event) (c : Config) : Prop :=
  ∀ τ l i, c.rt.Created (.chunk τ l i) → .ofTask τ l ∈ loopOrder es ∧
    (c.graph.label (.chunk τ l i)).loopCounter = some ((loopOrder es).idxOf (.ofTask τ l))

theorem Numbered.snoc {e : Event} (h : Numbered es c) (hrun : run env es = some c)
    (ha : c.rt.allows e = true) (hkeep : KeepsUp es c.rt e) :
    Numbered (es ++ [e]) (c.next env e) := by
  have hg := run_good hrun
  have hrt := runtime_of_run hrun
  intro τ l i hcr
  rw [loopOrder_snoc e hrt, next, step_label ha]
  rcases (created_apply hg.sound ha).mp hcr with hold | hnew
  · have hnot : .chunk τ l i ∉ c.rt.newRoles e := fun hn => newRoles_fresh ha hn hold
    obtain ⟨hmem, hlab⟩ := h τ l i hold
    rw [if_neg hnot, hlab, (mem_noteLoop hmem).2]
    exact ⟨(mem_noteLoop hmem).1, rfl⟩
  · -- the thread's counter is the position because the thread keeps up
    obtain ⟨th, lower, upper, rfl, rfl⟩ := newRoles_chunk hnew
    have hloop : (c.rt.task τ).inLoop = true := by
      cases delivers_of_allows ha with
      | chunk _ _ hloop => exact hloop
    have hmem : .ofTask τ (c.rt.task τ).loops ∈ loopOrder es :=
      mem_loopOrder hrun (by simp [TaskState.begun, hloop])
    have hkeep : loopsFinished th es = (loopOrder es).idxOf (.ofTask τ (c.rt.task τ).loops) :=
      hkeep τ rfl
    rw [if_pos hnew]
    refine ⟨hmem, ?_⟩
    simp only [newLabel, loopCounter_eq hrun, hkeep, noteLoop]

theorem numbered_run (hrun : run env es = some c) (hkeep : KeepUp es) : Numbered es c := by
  induction es using List.reverseRecOn generalizing c with
  | nil =>
    obtain rfl := Option.some.inj hrun
    intro τ l i hcr
    cases hcr
  | append_singleton es e ih =>
    obtain ⟨c', hc', ha, rfl⟩ := run_snoc.mp hrun
    have hpre : KeepUp es := fun pre a post o hes =>
      hkeep pre a (post ++ [e]) o (by rw [hes]; simp)
    exact (ih hc' hpre).snoc hc' ha (hkeep es e [] c'.rt rfl (runtime_of_run hc'))

/-- A node of a chunk in the tool's graph. -/
theorem chunkOf_role {I : LoopInstance} {n : NodeRef} (hrun : run env es = some c)
    (h : ChunkOf env es I n) : ∃ τ l i, c.rt.Created (.chunk τ l i) ∧ I = .ofTask τ l ∧
      c.graph.addr (.chunk τ l i) = n := by
  obtain ⟨pre, th, τ, lower, upper, lastChunk, post, o, hes, ho, hI, hadd⟩ := h
  rw [hes] at hrun
  obtain ⟨c0, hc0, ha, hc1⟩ := run_split hrun
  obtain rfl := Option.some.inj (ho.symm.trans (runtime_of_run hc0))
  obtain ⟨x, hmade, haddr⟩ := (addedBy_iff hc1).mp hadd
  have hx : x ∈ c0.rt.newRoles ⟨th, .extChunk τ lower upper lastChunk⟩ := by
    have hmade : MadeBy env pre ([] ++ [⟨th, .extChunk τ lower upper lastChunk⟩]) th x := hmade
    rw [madeBy_snoc (by rwa [List.append_nil])] at hmade
    rcases hmade with hnone | hx
    · exact absurd hnone madeBy_nil
    · exact hx.2
  have horder : x ∈ (c0.next env ⟨th, .extChunk τ lower upper lastChunk⟩).graph.order := by
    rw [next, step_order ha]
    exact List.mem_append_right _ hx
  have hes' : pre ++ ⟨th, .extChunk τ lower upper lastChunk⟩ :: post
      = (pre ++ [⟨th, .extChunk τ lower upper lastChunk⟩]) ++ post := by simp
  rw [hes'] at hrun
  obtain ⟨hmem, hkeep⟩ := addr_run hc1 hrun horder
  simp only [newRoles] at hx
  split_ifs at hx
  · cases hx
  · obtain rfl := List.mem_singleton.mp hx
    exact ⟨τ, _, _, (run_good hrun).shaped.order_iff.mp hmem, hI, hkeep.trans haddr⟩

/-- **Loop counters identify loops** in every run in which every thread that
opens a chunk keeps up with the loops of the run. -/
theorem loopCounters_identify (env : Env) {o : Runtime} (hrun : Runtime.run es = some o)
    (hkeep : KeepUp es) : ∃ s, Tool.run env es = some s ∧ CountersIdentify env es s := by
  obtain ⟨c, hc, rfl⟩ := run_of_runtime env hrun
  have hg := run_good hc
  have hnum := numbered_run hc hkeep
  have hnode : ∀ {x}, c.rt.Created x → ¬c.rt.Dropped x →
      c.tool.nodes (c.graph.addr x) = some (c.graph.node x) := fun hx hd =>
    heap_addr (hg.shaped.order_iff.mpr hx) (hg.shaped.live_iff.mpr ⟨hx, hd⟩)
  refine ⟨c.tool, tool_run hc, fun I J m n hm hn => ?_⟩
  obtain ⟨τ, l, i, hx, rfl, rfl⟩ := chunkOf_role hc hm
  obtain ⟨σ, k, j, hy, rfl, rfl⟩ := chunkOf_role hc hn
  refine ⟨_, _, hnode hx id, hnode hy id, ?_⟩
  have hcx : (c.graph.data (.chunk τ l i)).loopCounter = _ := (hnum τ l i hx).2
  have hcy : (c.graph.data (.chunk σ k j)).loopCounter = _ := (hnum σ k j hy).2
  show (c.graph.data (.chunk τ l i)).loopCounter = (c.graph.data (.chunk σ k j)).loopCounter ↔ _
  rw [hcx, hcy, Option.some.injEq, List.idxOf_inj (hnum τ l i hx).1]

/-- A region of two threads with two loops of one chunk for each thread. -/
def twoLoops : List Event :=
  [⟨0, .threadBegin⟩, ⟨1, .threadBegin⟩,
    ⟨0, .taskCreate (.initial 0) (.initial 0) .initial⟩,
    ⟨0, .parallelBegin (.initial 0) 0 2 2 1⟩,
    ⟨0, .implicitTask .scopeBegin 0 (.implicit 0 0) 2 0⟩,
    ⟨1, .implicitTask .scopeBegin 0 (.implicit 0 1) 2 1⟩,
    ⟨0, .extLoop .scopeBegin (.implicit 0 0) 0 7⟩,
    ⟨0, .extChunk (.implicit 0 0) 0 3 false⟩,
    ⟨0, .extLoop .scopeEnd (.implicit 0 0) 0 7⟩,
    ⟨0, .extLoop .scopeBegin (.implicit 0 0) 0 9⟩,
    ⟨1, .extLoop .scopeBegin (.implicit 0 1) 0 7⟩,
    ⟨1, .extChunk (.implicit 0 1) 4 7 false⟩,
    ⟨0, .extChunk (.implicit 0 0) 0 4 false⟩,
    ⟨1, .extLoop .scopeEnd (.implicit 0 1) 0 7⟩,
    ⟨1, .extLoop .scopeBegin (.implicit 0 1) 0 9⟩,
    ⟨1, .extChunk (.implicit 0 1) 5 9 false⟩]

theorem loopCounters_identify_twoLoops :
    ∃ s, Tool.run { clock := fun k => k } twoLoops = some s ∧
      CountersIdentify { clock := fun k => k } twoLoops s := by
  have hrun : (Runtime.run twoLoops).isSome = true := by decide +kernel
  obtain ⟨o, ho⟩ := Option.isSome_iff_exists.mp hrun
  have hkeep : KeepUp twoLoops := by
    refine fun pre e post o hes ho =>
      steps_of_prefixes (fun i hi o ho e he => ?_) pre e post hes o ho
    have hall : ∀ i < twoLoops.length, (Runtime.run (twoLoops.take i)).all (fun o =>
        (twoLoops[i]?).all fun e => decide (KeepsUp (twoLoops.take i) o e)) = true := by
      decide +kernel
    have hi := hall i hi
    rw [Option.mem_def.mp ho, Option.mem_def.mp he] at hi
    simpa using hi
  exact loopCounters_identify { clock := fun k => k } ho hkeep

/-! ### A thread that has missed a region -/

/-- A region of one thread and then a region of two, each with one loop of one
chunk for each thread. -/
def oneThenTwo : List Event :=
  [⟨0, .threadBegin⟩, ⟨1, .threadBegin⟩,
    ⟨0, .taskCreate (.initial 0) (.initial 0) .initial⟩,
    ⟨0, .parallelBegin (.initial 0) 0 1 1 1⟩,
    ⟨0, .implicitTask .scopeBegin 0 (.implicit 0 0) 1 0⟩,
    ⟨0, .extLoop .scopeBegin (.implicit 0 0) 0 7⟩,
    ⟨0, .extChunk (.implicit 0 0) 0 7 false⟩,
    ⟨0, .extLoop .scopeEnd (.implicit 0 0) 0 7⟩,
    ⟨0, .syncRegion .barrier .scopeBegin 0 (.implicit 0 0)⟩,
    ⟨0, .syncRegion .barrier .scopeEnd 0 (.implicit 0 0)⟩,
    ⟨0, .implicitTask .scopeEnd 0 (.implicit 0 0) 1 0⟩,
    ⟨0, .parallelEnd 0 (.initial 0)⟩,
    ⟨0, .parallelBegin (.initial 0) 1 2 2 1⟩,
    ⟨0, .implicitTask .scopeBegin 1 (.implicit 1 0) 2 0⟩,
    ⟨1, .implicitTask .scopeBegin 1 (.implicit 1 1) 2 1⟩,
    ⟨0, .extLoop .scopeBegin (.implicit 1 0) 0 7⟩,
    ⟨1, .extLoop .scopeBegin (.implicit 1 1) 0 7⟩,
    ⟨0, .extChunk (.implicit 1 0) 0 3 false⟩,
    ⟨1, .extChunk (.implicit 1 1) 4 7 false⟩,
    ⟨0, .extLoop .scopeEnd (.implicit 1 0) 0 7⟩,
    ⟨1, .extLoop .scopeEnd (.implicit 1 1) 0 7⟩]

/-- The node that a `cb_ext_chunk` call allocates. -/
theorem chunkOf_of_alloc (env : Env) {pre post : List Event} {th : ThreadId} {lower upper : ℤ}
    {o : Runtime}
    (n : NodeRef) (hes : es = pre ++ ⟨th, .extChunk τ lower upper false⟩ :: post)
    (ho : Runtime.run pre = some o)
    (hn : ((Tool.run env pre).bind fun s =>
      (s.callback env ⟨th, .extChunk τ lower upper false⟩).map fun s' => (s.nextRef, s'.nextRef))
        = some (n, n + 1)) :
    ChunkOf env es (.ofTask τ (o.task τ).loops) n := by
  obtain ⟨s, hs, hn⟩ := Option.bind_eq_some_iff.mp hn
  obtain ⟨s', hs', hn⟩ := Option.map_eq_some_iff.mp hn
  obtain ⟨h1, h2⟩ := Prod.mk.inj hn
  refine ⟨pre, th, τ, lower, upper, false, post, o, hes, ho, rfl, [], _, [], s, s', rfl, rfl, ?_,
    hs', h1.le, ?_⟩
  · rw [List.append_nil, hs]
  · rw [h2]
    exact Nat.lt_succ_self n

/-- The threads of the second region do not agree on the counter of its loop. -/
theorem oneThenTwo_not_identified :
    ∃ s, Tool.run { clock := fun k => k } oneThenTwo = some s ∧
      ¬CountersIdentify { clock := fun k => k } oneThenTwo s := by
  have hread : (Tool.run { clock := fun k => k } oneThenTwo).map (fun s =>
      ((s.nodes 13).map fun a => a.loopCounter, (s.nodes 14).map fun a => a.loopCounter))
      = some (some (some 1), some (some 0)) := by decide +kernel
  obtain ⟨s, hs, hread⟩ := Option.map_eq_some_iff.mp hread
  obtain ⟨hread13, hread14⟩ := Prod.mk.inj hread
  refine ⟨s, hs, fun hid => ?_⟩
  have hloop13 : (Runtime.run (oneThenTwo.take 17)).map (fun o => (o.task (.implicit 1 0)).loops)
      = some 0 := by decide +kernel
  have hloop14 : (Runtime.run (oneThenTwo.take 18)).map (fun o => (o.task (.implicit 1 1)).loops)
      = some 0 := by decide +kernel
  obtain ⟨o13, ho13, hl13⟩ := Option.map_eq_some_iff.mp hloop13
  obtain ⟨o14, ho14, hl14⟩ := Option.map_eq_some_iff.mp hloop14
  have h13 : ChunkOf { clock := fun k => k } oneThenTwo (.team 1 0) 13 := by
    rw [show LoopInstance.team 1 0 = .team 1 (o13.task (.implicit 1 0)).loops by rw [hl13]]
    exact chunkOf_of_alloc _ 13 rfl ho13 (by decide +kernel)
  have h14 : ChunkOf { clock := fun k => k } oneThenTwo (.team 1 0) 14 := by
    rw [show LoopInstance.team 1 0 = .team 1 (o14.task (.implicit 1 1)).loops by rw [hl14]]
    exact chunkOf_of_alloc _ 14 rfl ho14 (by decide +kernel)
  obtain ⟨a, b, ha, hb, hiff⟩ := hid _ _ _ _ h13 h14
  rw [ha] at hread13
  rw [hb] at hread14
  have h1 : a.loopCounter = some 1 := Option.some.inj hread13
  have h0 : b.loopCounter = some 0 := Option.some.inj hread14
  have hab := hiff.mpr rfl
  rw [h1, h0] at hab
  cases hab

end Config

end Tdg
