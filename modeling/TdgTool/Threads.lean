/-
TdgTool/Threads.lean

The intervals charged by one thread.

A thread spends its time on one node, the position of the task that it
executes.  If no task is left inside a loop (`OutsideLoops`), a thread charges
only the position of its task, and every callback that changes the position
starts the new one.  So the charges of a thread follow one another, and the work
is at most the elapsed time of each thread; `Closing` is the condition under
which this includes the last charge, made by `finalize_libtdg`.
-/
import TdgTool.Lib.Intervals
import TdgTool.Accounting
import TdgTool.Branch
import TdgTool.Positions

namespace Tdg

namespace RoleGraph

open Tdg.Runtime

variable {o : Runtime} {g : RoleGraph} {env : Env} {e : Event} {x y : Role} {τ : TaskId}
  {r : RegionId} {th : ThreadId}

/-! ### The invariant -/

/-- What holds of the charges of every thread while no task inside a loop is
left. -/
structure Orderly (o : Runtime) (g : RoleGraph) : Prop where
  loops : LoopsRun o
  busy : ∀ {th τ}, o.Acts th τ → ∀ a ∈ g.charges, a.thread = th →
    a.stop ≤ (g.data (position g o τ)).lastTime
  sequential : g.charges.Pairwise fun a b => a.thread = b.thread → a.stop ≤ b.start

theorem orderly_init : Orderly Runtime.init RoleGraph.init where
  loops := loopsRun_init
  busy := by simp [RoleGraph.init]
  sequential := List.Pairwise.nil

/-- No interval ends after the present. -/
theorem Ledger.stop_le (h : Ledger env o g) (hmono : Monotone env.clock) {a : Charge Role}
    (ha : a ∈ g.charges) : a.stop ≤ env.clock g.ticks := by
  obtain ⟨k, hk, hlast⟩ := h.clocked (h.started ha).1 (h.started ha).2
  calc a.stop ≤ (g.data a.node).lastTime := (h.window ha).2.2
    _ = env.clock k := hlast
    _ ≤ env.clock g.ticks := hmono hk.le

theorem Ledger.stop_le_step (h : Ledger env o g) (hmono : Monotone env.clock)
    (ha : o.allows e = true) {a : Charge Role} (haa : a ∈ (g.step env o e).charges) :
    a.stop ≤ env.clock g.ticks := by
  rcases mem_step_charges ha haa with hold | ⟨x, -, rfl⟩
  · exact h.stop_le hmono hold
  · exact le_rfl

/-- **Every callback keeps the charges of a thread in order.** -/
theorem Orderly.step (h : Orderly o g) (hL : Ledger env o g) (hW : Shaped o g) (hS : o.Sound)
    (hF : ∀ σ, LoopsFresh (o.task σ)) (hmono : Monotone env.clock) (ha : o.allows e = true)
    (hok : OutsideLoops o e) : Orderly (o.apply e) (g.step env o e) := by
  have hT := step_timed env g ha
  refine ⟨h.loops.apply hS ha hok, ?_, ?_⟩
  · intro th τ hact a haa hth
    have hstamp : position (g.step env o e) (o.apply e) τ ∈ g.stamped o e →
        a.stop ≤ ((g.step env o e).data (position (g.step env o e) (o.apply e) τ)).lastTime := by
      intro hst
      obtain ⟨k, hk, -, hlast⟩ := hT.stamp hst
      rw [hlast]
      exact (hL.stop_le_step hmono ha haa).trans (hmono hk)
    rcases mem_step_charges ha haa with hold | ⟨x, hx, rfl⟩
    · rcases position_step (g := g) (hF τ) h.loops ha hact.2 with hst | ⟨hold', hpos⟩
      · exact hstamp hst
      · obtain ⟨hlive, hu⟩ := hW.position_started hold'
        have hle := (hL.lastTime_le hmono ha (hW.live_iff.mp hlive).1 hu).1
        rw [hpos]
        exact (h.busy (acts_of_active hS ha hact hold') a hold hth).trans hle
    · obtain rfl : e.thread = th := hth
      have hnext : position (g.step env o e) (o.apply e) τ ∈ g.stamped o e ∨
          position (g.step env o e) (o.apply e) τ = x := charged_next hF h.loops hS ha hok hx hact
      rcases hnext with hst | hpos
      · exact hstamp hst
      · obtain ⟨hlive, hu⟩ := hW.charged_started ha hx
        rw [hpos]
        exact (hL.lastTime_le hmono ha (hW.live_iff.mp hlive).1 hu).2 hx
  · rw [hT.charges]
    refine List.pairwise_append.mpr ⟨h.sequential, ?_, ?_⟩
    · rcases g.charged o e with - | x <;> simp
    · intro a haa b hb hab
      obtain ⟨x, hx, rfl⟩ := List.mem_map.mp hb
      -- the node that is charged is where the thread has been since its last charge
      obtain ⟨σ, hσ, rfl⟩ := charged_position hS ha hok (by simpa using hx)
      exact h.busy hσ a haa hab

/-! ### One more charge -/

/-- Charging a node that has been started keeps the ledger. -/
theorem Ledger.addTime (h : Ledger env o g) (hmono : Monotone env.clock) (hx : o.Created x)
    (hu : ¬Unstarted o x) : Ledger env o (g.addTime env th x) := by
  obtain ⟨k, hk, hlast⟩ := h.clocked hx hu
  have hle : (g.data x).lastTime ≤ env.clock g.ticks := by
    rw [hlast]
    exact hmono hk.le
  have hkeep : ∀ y, (g.data y).lastTime ≤ ((g.addTime env th x).data y).lastTime := by
    intro y
    rcases eq_or_ne y x with rfl | hyx
    · simpa [NodeData.addTime] using hle
    · simp [hyx]
  refine ⟨?_, ?_, ?_, ?_, ?_⟩
  · intro y hy hyu
    rcases eq_or_ne y x with rfl | hyx
    · exact ⟨g.ticks, by simp, by simp [NodeData.addTime]⟩
    · obtain ⟨j, hj, hlast'⟩ := h.clocked hy hyu
      exact ⟨j, Nat.lt_succ_of_lt hj, by simpa [hyx] using hlast'⟩
  · intro a ha
    rcases List.mem_append.mp ha with ha | ha
    · obtain ⟨h1, h2, h3⟩ := h.window ha
      exact ⟨h1, h2, h3.trans (hkeep _)⟩
    · obtain rfl := List.mem_singleton.mp ha
      refine ⟨?_, hle, by simp [NodeData.addTime]⟩
      show env.clock 0 ≤ (g.data x).lastTime
      rw [hlast]
      exact hmono (Nat.zero_le k)
  · intro a ha
    rcases List.mem_append.mp ha with ha | ha
    · exact h.started ha
    · obtain rfl := List.mem_singleton.mp ha
      exact ⟨hx, hu⟩
  · refine List.pairwise_append.mpr ⟨h.sequential, List.pairwise_singleton _ _, ?_⟩
    intro a ha b hb hab
    obtain rfl := List.mem_singleton.mp hb
    obtain rfl : a.node = x := hab
    exact (h.window ha).2.2
  · intro y hy
    have hold := h.total hy
    simp only [chargesOf, addTime_charges, List.filter_append, List.map_append,
      List.sum_append] at hold ⊢
    rcases eq_or_ne y x with rfl | hyx
    · simp [NodeData.addTime, hold, Charge.length]
    · simp [hyx, Ne.symm hyx, hold]

/-- The work on the live nodes is at most what has been charged. -/
theorem Ledger.live_le (h : Ledger env o g) (hA : Alloc g) (hW : ∀ {x}, x ∈ g.order → o.Created x) :
    ((g.order.filter g.live).map fun x => (g.data x).totalTime).sum
      ≤ (g.charges.map Charge.length).sum := by
  have hsum : ((g.order.filter g.live).map fun x => (g.data x).totalTime).sum
      = ∑ x ∈ (g.order.filter g.live).toFinset, ((g.chargesOf x).map Charge.length).sum := by
    rw [List.sum_toFinset _ (hA.nodup.filter _)]
    refine congrArg List.sum (List.map_congr_left fun x hx => ?_)
    exact h.total (hW (List.mem_of_mem_filter hx))
  rw [hsum]
  exact Intervals.sum_keys_le fun a ha => sub_nonneg.mpr (h.window ha).2.1

/-- What has been charged is at most the elapsed time of each thread. -/
theorem Ledger.charges_le (h : Ledger env o g) {ths : Finset ThreadId} {now : ℚ}
    (hths : ∀ a ∈ g.charges, a.thread ∈ ths) (hnow : ∀ a ∈ g.charges, a.stop ≤ now)
    (hle : env.clock 0 ≤ now)
    (hseq : g.charges.Pairwise fun a b => a.thread = b.thread → a.stop ≤ b.start) :
    (g.charges.map Charge.length).sum ≤ ths.card * (now - env.clock 0) := by
  refine Intervals.sum_le_card_mul hths fun th _ => ?_
  refine Intervals.sum_length_le hle ?_ ?_
  · -- all intervals of the thread
    refine List.Pairwise.imp_of_mem ?_ (hseq.filter _)
    intro a b ha hb hab
    have hath : a.thread = th := by simpa using (List.mem_filter.mp ha).2
    have hbth : b.thread = th := by simpa using (List.mem_filter.mp hb).2
    exact hab (hath.trans hbth.symm)
  · intro a ha
    have ha := List.mem_of_mem_filter ha
    exact ⟨(h.window ha).1, (h.window ha).2.1, hnow a ha⟩

end RoleGraph

/-! ### The threads of a run -/

/-- The threads that make `cb_thread_begin` calls. -/
def threadsOf (es : List Event) : Finset ThreadId :=
  (es.filterMap fun e => match e.call with
    | .threadBegin => some e.thread
    | _ => none).toFinset

/-- Intervals charged on the same thread follow one another. -/
def Follows (charges : List (Charge NodeRef)) : Prop :=
  charges.Pairwise fun a b => a.thread = b.thread → a.stop ≤ b.start

instance (charges : List (Charge NodeRef)) : Decidable (Follows charges) :=
  inferInstanceAs (Decidable (List.Pairwise _ _))

/-- The initial thread executes the initial task, which is not inside a loop and
whose current node is `g_finalNode`. -/
structure Closing (o : Runtime) (s : Tool) (th : ThreadId) : Prop where
  acts : o.Acts th (.initial 0)
  final : ∃ td, s.taskData (.initial 0) = some td ∧ td.currWsData = none ∧
    s.finalNode = some td.currTaskNode

namespace Config

open RoleGraph Tdg.Runtime

variable {env : Env} {es : List Event} {c : Config} {th : ThreadId} {o : Runtime}

theorem threadsOf_snoc {e : Event} (h : th ∈ threadsOf es) : th ∈ threadsOf (es ++ [e]) := by
  simp only [threadsOf, List.filterMap_append, List.mem_toFinset, List.mem_append] at h ⊢
  exact .inl h

/-- Threads that exist have begun. -/
theorem alive_mem_threadsOf (hrun : run env es = some c) (halive : c.rt.alive th = true) :
    th ∈ threadsOf es := by
  induction es using List.reverseRecOn generalizing c with
  | nil =>
    obtain rfl := Option.some.inj hrun
    cases halive
  | append_singleton es e ih =>
    obtain ⟨c', hc', ha, rfl⟩ := run_snoc.mp hrun
    by_cases hold : c'.rt.alive th = true
    · exact threadsOf_snoc (ih hc' hold)
    · -- only its own begin brings a thread to life
      have hbegin : e = ⟨th, .threadBegin⟩ := by
        simp only [next] at halive
        cases delivers_of_allows ha with
        | @threadBegin th' =>
          by_cases hth : th' = th
          · rw [hth]
          · simp [Runtime.apply, Ne.symm hth, hold] at halive
        | @threadEnd th' =>
          by_cases hth : th = th'
          · simp [Runtime.apply, hth] at halive
          · simp [Runtime.apply, hth, hold] at halive
        | @outside _ endpoint => cases endpoint <;> exact absurd halive hold
        | @sync _ kind _ _ _ _ _ hkind =>
          cases kind with
          | barrier => exact absurd rfl hkind
          | taskwait => exact absurd halive hold
          | taskgroup => exact absurd halive hold
        | @chunk _ _ _ _ lastChunk => cases lastChunk <;> exact absurd halive hold
        | _ => exact absurd halive hold
      subst hbegin
      simp [threadsOf]

/-- Threads that charge have begun. -/
theorem charge_mem_threadsOf (hrun : run env es = some c) (hok : Runtime.Throughout OutsideLoops es)
    {a : Charge Role} (ha : a ∈ c.graph.charges) : a.thread ∈ threadsOf es := by
  induction es using List.reverseRecOn generalizing c with
  | nil =>
    obtain rfl := Option.some.inj hrun
    cases ha
  | append_singleton es e ih =>
    obtain ⟨c', hc', hall, rfl⟩ := run_snoc.mp hrun
    have hg := run_good hc'
    have hpre : Runtime.Throughout OutsideLoops es := fun pre b post hes =>
      hok pre b (post ++ [e]) (by rw [hes]; simp)
    rw [next, (step_timed env c'.graph hall).charges] at ha
    refine threadsOf_snoc ?_
    rcases List.mem_append.mp ha with ha | ha
    · exact ih hc' hpre ha
    · obtain ⟨x, hx, rfl⟩ := List.mem_map.mp ha
      obtain ⟨σ, hσ, -⟩ := charged_position hg.sound hall
        (hok es e [] rfl c'.rt (runtime_of_run hc')) (by simpa using hx)
      exact alive_mem_threadsOf hc' (hg.sound.cur_alive hσ.1)

theorem orderly_run (hmono : Monotone env.clock) (hrun : run env es = some c)
    (hok : Runtime.Throughout OutsideLoops es) :
    Orderly c.rt c.graph ∧ Ledger env c.rt c.graph := by
  refine (run_induction_of (C := fun c e => OutsideLoops c.rt e)
    (P := fun c => Orderly c.rt c.graph ∧ Ledger env c.rt c.graph) ⟨orderly_init, ledger_init⟩
    ?_ ?_ hrun).2
  · intro c e hg ha he h
    exact ⟨h.1.step h.2 hg.shaped hg.sound hg.loopsFresh hmono ha he,
      h.2.step hg.shaped hg.sound hmono ha⟩
  · intro pre e post hes c hc
    exact hok pre e post hes c.rt (runtime_of_run hc)

/-- The node that `finalize_libtdg` charges is where the initial thread has been
since its last charge. -/
theorem closing_position (hg : c.Good) (h : Closing c.rt c.tool th) :
    c.graph.finalNode = some (c.graph.cur (.initial 0)) ∧
      position c.graph c.rt (.initial 0) = c.graph.cur (.initial 0) := by
  have hd := hasData_of_active h.acts.2
  obtain ⟨td, htd, hws, hfinal⟩ := h.final
  obtain rfl := Option.some.inj ((taskData_tool hd).symm.trans htd)
  constructor
  · have hf : c.graph.finalNode.map c.graph.addr = some (c.graph.addr (c.graph.cur (.initial 0))) :=
      hfinal
    obtain ⟨x, hx, haddr⟩ := Option.map_eq_some_iff.mp hf
    obtain rfl := (addr_inj (hg.alloc.final_mem hx)).mp haddr
    exact hx
  · refine position_of_outside ?_
    rcases hin : (c.rt.task (.initial 0)).inLoop with - | -
    · rfl
    · simp [taskRecord, TaskData.map, wsOf, hin] at hws

/-- **No time is counted twice.**  If no task inside a loop encounters a region
or is switched away from, the intervals charged by a thread follow one another
in every state of the run.  If `finalize_libtdg` is called when `g_finalNode` is
the current node of the initial task, its charge is no exception, and the work,
added up without rounding, is at most the number of threads times the elapsed
time; the first reading of the clock is that for the root. -/
theorem charges_follow (env : Env) {o : Runtime} (hmono : Monotone env.clock)
    (hrun : Runtime.run es = some o) (hok : Runtime.Throughout OutsideLoops es) :
    ∃ s, Tool.run env es = some s ∧ Follows s.charges ∧
      ∀ th, Closing o s th → ∃ s' tt, s.closeFinalNode env th = some s' ∧ Follows s'.charges ∧
        s'.toGraph.totalTimeInit = some tt ∧
        tt.nodesTotalTime ≤ (threadsOf es).card * (env.clock s.ticks - env.clock 0) := by
  obtain ⟨c, hc, rfl⟩ := run_of_runtime env hrun
  have hg := run_good hc
  obtain ⟨hO, hL⟩ := orderly_run hmono hc hok
  have hfollows : ∀ {T : Tables} {g : RoleGraph},
      (g.charges.Pairwise fun a b => a.thread = b.thread → a.stop ≤ b.start) →
      Follows (realize T g).charges := fun h => List.pairwise_map.mpr h
  refine ⟨c.tool, tool_run hc, hfollows hO.sequential, fun th hclose => ?_⟩
  obtain ⟨hfinal, hpos⟩ := closing_position hg hclose
  -- the state that the metrics see
  set x := c.graph.cur (.initial 0) with hx
  have hclosed : c.graph.closeFinal env th = c.graph.addTime env th x := by
    unfold closeFinal
    rw [hfinal]
  have hd := hasData_of_active hclose.acts.2
  obtain ⟨hcr, hseat⟩ := hg.shaped.seat hd
  have hL' : Ledger env c.rt (c.graph.addTime env th x) :=
    hL.addTime hmono hcr (started_of_seat hseat)
  have hseq : (c.graph.addTime env th x).charges.Pairwise
      fun a b => a.thread = b.thread → a.stop ≤ b.start := by
    refine List.pairwise_append.mpr ⟨hO.sequential, List.pairwise_singleton _ _, ?_⟩
    intro a ha b hb hab
    obtain rfl := List.mem_singleton.mp hb
    have hbusy := hO.busy hclose.acts a ha hab
    rwa [hpos] at hbusy
  have hC := (hg.shaped.closed hg.sound hg.alloc).closeFinal env th
  rw [hclosed] at hC
  obtain ⟨nodes, hnodes, hperm⟩ := nodeList_perm (tables c.rt c.graph) hC.toAlloc
  obtain ⟨tt, htt⟩ := Graph.exists_totalTimeInit hnodes
  refine ⟨_, tt, closeFinalNode_run th hc, ?_, by rw [hclosed]; exact htt, ?_⟩
  · rw [hclosed]
    exact hfollows hseq
  · obtain ⟨nodes', hnodes', hsum, -⟩ := Graph.nodesTotalTime_eq htt
    obtain rfl := Option.some.inj (hnodes.symm.trans hnodes')
    have hlive : (nodes.map fun nd => nd.totalTime).sum
        = (((c.graph.addTime env th x).order.filter (c.graph.addTime env th x).live).map
          fun y => ((c.graph.addTime env th x).data y).totalTime).sum := by
      rw [(hperm.map _).sum_eq, List.map_map]
      rfl
    rw [hsum, hlive]
    refine (hL'.live_le hC.toAlloc fun hy => hg.shaped.order_iff.mp hy).trans ?_
    refine hL'.charges_le ?_ ?_ (hmono (Nat.zero_le _)) hseq
    · intro a ha
      rcases List.mem_append.mp ha with ha | ha
      · exact charge_mem_threadsOf hc hok ha
      · obtain rfl := List.mem_singleton.mp ha
        exact alive_mem_threadsOf hc (hg.sound.cur_alive hclose.acts.1)
    · intro a ha
      rcases List.mem_append.mp ha with ha | ha
      · exact hL.stop_le hmono ha
      · obtain rfl := List.mem_singleton.mp ha
        exact le_rfl

theorem charges_follow_taskInBarrier :
    ∃ s s' tt, Tool.run { clock := fun k => k } taskInBarrier = some s ∧
      s.closeFinalNode { clock := fun k => k } 0 = some s' ∧ Follows s'.charges ∧
      s'.toGraph.totalTimeInit = some tt ∧
      tt.nodesTotalTime ≤ (threadsOf taskInBarrier).card * (s.ticks - 0) := by
  obtain ⟨o, ho, -, -⟩ := taskInBarrier_ended
  have hmono : Monotone (Env.clock { clock := fun k => k }) := fun _ _ h => Nat.cast_le.mpr h
  have hok : Runtime.Throughout OutsideLoops taskInBarrier :=
    throughout_of_check (by decide +kernel)
  obtain ⟨s, hs, -, hclose⟩ := charges_follow { clock := fun k => k } hmono ho hok
  have hacts : o.Acts 0 (.initial 0) := by
    obtain rfl := Option.some.inj ho
    decide
  have hfinal : (Tool.run { clock := fun k => k } taskInBarrier).bind (fun s =>
      (s.taskData (.initial 0)).map fun td =>
        (td.currWsData, decide (s.finalNode = some td.currTaskNode))) = some (none, true) := by
    decide +kernel
  rw [hs] at hfinal
  obtain ⟨td, htd, hread⟩ := Option.map_eq_some_iff.mp hfinal
  obtain ⟨hws, hnode⟩ := Prod.mk.inj hread
  obtain ⟨s', tt, h1, h2, h3, h4⟩ := hclose 0 ⟨hacts, td, htd, hws, of_decide_eq_true hnode⟩
  exact ⟨s, s', tt, hs, h1, h2, h3, by simpa using h4⟩

/-- The encountering node is charged for the start node and the chunk again. -/
theorem regionInChunk_charges_overlap :
    ∃ s, Tool.run { clock := fun k => k } regionInChunk = some s ∧ ¬Follows s.charges := by
  have hread : (Tool.run { clock := fun k => k } regionInChunk).map
      (fun s => decide (Follows s.charges)) = some false := by decide +kernel
  obtain ⟨s, hs, hread⟩ := Option.map_eq_some_iff.mp hread
  exact ⟨s, hs, of_decide_eq_false hread⟩

end Config

end Tdg
