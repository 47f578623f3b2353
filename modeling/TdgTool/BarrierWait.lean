/-
TdgTool/BarrierWait.lean

What is charged while a thread waits at a barrier.

The node for what follows the barrier is created, started and made current when
the thread reaches the barrier, and started again when the thread leaves it.
In between only one callback can charge it: a `cb_task_schedule` that switches
away from the waiting task, because it closes the current node of that task
without looking whether the task is at a barrier.
-/
import TdgTool.Structure
import TdgTool.Times

namespace Tdg

namespace RoleGraph

open Tdg.Runtime

variable {o : Runtime} {g : RoleGraph} {env : Env} {e : Event} {r : RegionId} {t j : ℕ}

/-! ### One callback -/

/-- The callback switches away from the task. -/
def SwitchesFrom (e : Event) (τ : TaskId) : Prop :=
  ∃ prior second, e.call = .taskSchedule τ prior second

/-- The thread has reached its `j`-th barrier and has not left it. -/
structure AtBarrier (o : Runtime) (r : RegionId) (t j : ℕ) : Prop where
  present : (o.task (.implicit r t)).standing ≠ .absent
  team : 1 < (o.region r).requested
  arrived : (o.task (.implicit r t)).arrived = j
  passed : (o.task (.implicit r t)).passed < j

theorem AtBarrier.not_inBody (h : AtBarrier o r t j) : ¬o.InBody (.implicit r t) := by
  intro hb
  have h1 := hb.1
  have h2 := h.arrived
  have h3 := h.passed
  omega

theorem AtBarrier.waiting (h : AtBarrier o r t j) : o.Waiting r t := by
  have h2 := h.arrived
  have h3 := h.passed
  exact ⟨h.team, by omega, h.not_inBody⟩

/-- Nothing but its end ends a wait. -/
theorem AtBarrier.apply (h : AtBarrier o r t j) (hS : o.Sound) (ha : o.allows e = true)
    (he : e.call ≠ .syncRegion .barrier .scopeEnd r (.implicit r t)) :
    AtBarrier (o.apply e) r t j := by
  have hreq := (region_apply_fixed ha (hS.region_present h.present)).2.1
  refine ⟨task_present_apply ha h.present, hreq ▸ h.team, ?_, ?_⟩
  all_goals
    have ht := taskChange ha (.implicit r t)
    generalize (o.apply e).task (.implicit r t) = v at ht
    cases ht with
    | created _ habs => exact absurd habs h.present
    | reached _ _ _ hbody => exact absurd hbody h.not_inBody
    | left hτ hcall =>
      obtain ⟨rfl, rfl⟩ := TaskId.implicit.inj hτ
      exact absurd hcall he
    | _ => first | exact h.arrived | exact h.passed

/-- **The only way to charge the node behind the barrier.** -/
theorem AtBarrier.charged_iff (h : AtBarrier o r t j) (hW : Shaped o g)
    (ha : o.allows e = true) :
    g.charged o e = some (.imp r t j) ↔ SwitchesFrom e (.implicit r t) := by
  -- the node is the current one of no other task, and its own task is not in its body
  have hseat : ∀ {τ}, (o.task τ).standing = .active → g.cur τ = .imp r t j →
      τ = .implicit r t := by
    intro τ hact hcur
    have hs := (hW.seat (hasData_of_active hact)).2
    rw [hcur] at hs
    exact hs.1
  have hopen : ∀ {τ}, openNode o τ ≠ .imp r t j := by
    intro τ
    unfold openNode
    split <;> simp
  constructor
  · intro hx
    cases delivers_of_allows ha with
    | @schedule _ first prior second hact =>
      obtain rfl := hseat hact.2 (Option.some.inj hx)
      exact ⟨prior, second, rfl⟩
    | @implicitEnd _ r' t' _ hact =>
      simp only [charged] at hx
      rcases hb : g.bar (.implicit r' t') with - | b
      · rw [hb] at hx
        obtain ⟨rfl, rfl⟩ := TaskId.implicit.inj (hseat hact.2 (Option.some.inj hx))
        have hpos : 0 < (o.task (.implicit r' t')).arrived := by
          have h1 := h.arrived
          have h2 := h.passed
          omega
        obtain ⟨i, hi, -⟩ := hW.bar_some (hasData_of_active hact.2) h.team hpos
        rw [hb] at hi
        cases hi
      · rw [hb] at hx
        cases hx
    | parallelBegin hact hbody =>
      obtain rfl := hseat hact.2 (Option.some.inj hx)
      exact absurd hbody h.not_inBody
    | barrierBegin hact hbody =>
      simp only [charged] at hx
      split_ifs at hx
      rw [hseat hact.2 (Option.some.inj hx)] at hbody
      exact absurd hbody h.not_inBody
    | loopBegin _ hact hbody =>
      obtain rfl := hseat hact.2 (Option.some.inj hx)
      exact absurd hbody h.not_inBody
    | loopEnd => exact absurd (Option.some.inj hx) hopen
    | chunk =>
      simp only [charged] at hx
      split_ifs at hx
      exact absurd (Option.some.inj hx) hopen
    | @outside _ endpoint => cases endpoint <;> cases hx
    | @sync _ kind _ _ _ _ _ hkind =>
      cases kind with
      | barrier => exact absurd rfl hkind
      | taskwait => cases hx
      | taskgroup => cases hx
    | _ => cases hx
  · rintro ⟨prior, second, hcall⟩
    obtain ⟨th, call⟩ := e
    obtain rfl : call = _ := hcall
    cases delivers_of_allows ha with
    | schedule hact =>
      have hcur := hW.wait (hasData_of_active hact.2) h.waiting
      rw [h.arrived] at hcur
      exact congrArg some hcur

end RoleGraph

namespace Config

open RoleGraph Tdg.Runtime

variable {c c' : Config} {env : Env} {es : List Event} {r : RegionId} {t j : ℕ}

/-! ### The whole wait -/

/-- The first call: the thread is at its next barrier, and at a node to which
nothing has been charged. -/
theorem wait_begin {th : ThreadId} (hg : c.Good)
    (ha : c.rt.allows ⟨th, .syncRegion .barrier .scopeBegin r (.implicit r t)⟩ = true)
    (hreq : 1 < (c.rt.region r).requested)
    (hc' : c.next env ⟨th, .syncRegion .barrier .scopeBegin r (.implicit r t)⟩ = c')
    (hj : (c.rt.task (.implicit r t)).arrived + 1 = j) :
    AtBarrier c'.rt r t j ∧ c'.graph.cur (.implicit r t) = .imp r t j ∧
      .imp r t j ∈ c'.graph.order ∧ ∀ ch ∈ c'.graph.charges, ch.node ≠ .imp r t j := by
  subst hc' hj
  have hnew : .imp r t ((c.rt.task (.implicit r t)).arrived + 1) ∈ c.rt.newRoles
      ⟨th, .syncRegion .barrier .scopeBegin r (.implicit r t)⟩ := by simp [newRoles, hreq]
  have hfresh := newRoles_fresh ha hnew
  refine ⟨?_, cur_of_moved ha (by simp [newCur, hreq]), ?_, ?_⟩
  · cases delivers_of_allows ha with
    | barrierBegin hact hbody =>
      refine ⟨task_present_apply ha (by simp [hact.2]), by simpa [next, Runtime.apply],
        by simp [next, Runtime.apply], ?_⟩
      have := hbody.1
      simp only [next, Runtime.apply, onRegion_task, onTask_task, Function.update_self]
      omega
    | sync _ _ hkind => exact absurd rfl hkind
  · rw [next, step_order ha]
    exact List.mem_append_right _ hnew
  · intro ch hch hnode
    rw [next, (step_timed env c.graph ha).charges] at hch
    rcases List.mem_append.mp hch with hch | hch
    · exact hfresh (hnode ▸ hg.shaped.order_iff.mp (hg.alloc.charge_mem hch))
    · obtain ⟨x, hx, rfl⟩ := List.mem_map.mp hch
      have hlive := (hg.shaped.charged_started ha (by simpa using hx)).1
      exact hfresh (hnode ▸ (hg.shaped.live_iff.mp hlive).1)

/-- The second call charges nothing, and the task is still there. -/
theorem wait_end {th : ThreadId}
    (ha : c.rt.allows ⟨th, .syncRegion .barrier .scopeEnd r (.implicit r t)⟩ = true)
    (hc' : c.next env ⟨th, .syncRegion .barrier .scopeEnd r (.implicit r t)⟩ = c') :
    c'.graph.charges = c.graph.charges ∧ ¬c'.rt.Dropped (.imp r t j) := by
  subst hc'
  constructor
  · have hch : c.graph.charged c.rt ⟨th, .syncRegion .barrier .scopeEnd r (.implicit r t)⟩ = none :=
      rfl
    rw [next, (step_timed env c.graph ha).charges, hch]
    simp
  · intro hdrop
    cases delivers_of_allows ha with
    | barrierEnd hact =>
      have hdone := hdrop.1
      simp [next, Runtime.apply, hact.2] at hdone
    | sync _ _ hkind => exact absurd rfl hkind

/-- The callbacks between the two ends of a wait charge the node behind the
barrier if and only if one of them switches away from the waiting task. -/
theorem wait_charges {pre mid : List Event} (hpre : run env pre = some c)
    (h : AtBarrier c.rt r t j) (hnone : ∀ ch ∈ c.graph.charges, ch.node ≠ .imp r t j)
    (hmid : ∀ e ∈ mid, e.call ≠ .syncRegion .barrier .scopeEnd r (.implicit r t))
    (hrun : run env (pre ++ mid) = some c') :
    AtBarrier c'.rt r t j ∧ ((∀ ch ∈ c'.graph.charges, ch.node ≠ .imp r t j) ↔
      ∀ e ∈ mid, ¬SwitchesFrom e (.implicit r t)) := by
  induction mid using List.reverseRecOn generalizing c' with
  | nil =>
    rw [List.append_nil, hpre] at hrun
    obtain rfl := Option.some.inj hrun
    exact ⟨h, by simpa using hnone⟩
  | append_singleton mid e ih =>
    rw [← List.append_assoc] at hrun
    obtain ⟨c1, hc1, ha, rfl⟩ := run_snoc.mp hrun
    obtain ⟨hat, hiff⟩ := ih (fun e he => hmid e (by simp [he])) hc1
    have hg := run_good hc1
    refine ⟨hat.apply hg.sound ha (hmid e (by simp)), ?_⟩
    have hch := hat.charged_iff hg.shaped ha
    simp only [next, (step_timed env c1.graph ha).charges, List.mem_append, List.mem_map,
      Option.mem_toList, List.mem_singleton]
    constructor
    · intro hno e' he'
      rcases he' with he' | rfl
      · exact hiff.mp (fun ch hc => hno ch (.inl hc)) e' he'
      · intro hsw
        exact hno _ (.inr ⟨_, hch.mpr hsw, rfl⟩) rfl
    · rintro hno ch (hc | ⟨x, hx, rfl⟩)
      · exact hiff.mpr (fun e' he' => hno e' (.inl he')) ch hc
      · rintro rfl
        exact hno e (.inr rfl) (hch.mp hx)

/-- Nothing was charged to the node: no interval, and its total time is 0. -/
def Uncharged (s : Tool) (n : NodeRef) : Prop :=
  (∀ ch ∈ s.charges, ch.node ≠ n) ∧ ∃ nd, s.nodes n = some nd ∧ nd.totalTime = 0

/-- **When waiting is not charged.**  For every run, every nondecreasing clock
and every barrier of a region that asked for more than one thread: nothing is
charged to the node for what follows the barrier until the thread leaves it, if
and only if no `cb_task_schedule` between the two calls switches away from the
waiting task. -/
theorem wait_uncharged_iff (hmono : Monotone env.clock) {o : Runtime}
    (hrun : Runtime.run es = some o) {pre mid post : List Event} {th th' : ThreadId}
    (hes : es = pre ++ ⟨th, .syncRegion .barrier .scopeBegin r (.implicit r t)⟩ ::
      (mid ++ ⟨th', .syncRegion .barrier .scopeEnd r (.implicit r t)⟩ :: post))
    (hmid : ∀ e ∈ mid, e.call ≠ .syncRegion .barrier .scopeEnd r (.implicit r t))
    {s : Tool} {pi : ParallelRegionData NodeRef} {td : TaskData NodeRef}
    (hs : Tool.run env (pre ++ [⟨th, .syncRegion .barrier .scopeBegin r (.implicit r t)⟩])
      = some s)
    (hpi : s.parData r = some pi) (hsize : 1 < pi.teamSize)
    (htd : s.taskData (.implicit r t) = some td) :
    ∃ s', Tool.run env (pre ++ ⟨th, .syncRegion .barrier .scopeBegin r (.implicit r t)⟩ ::
        (mid ++ [⟨th', .syncRegion .barrier .scopeEnd r (.implicit r t)⟩])) = some s' ∧
      (Uncharged s' td.currTaskNode ↔ ∀ e ∈ mid, ¬SwitchesFrom e (.implicit r t)) := by
  subst hes
  obtain ⟨c, hc, rfl⟩ := run_of_runtime env hrun
  obtain ⟨c0, hc0, hab, hc1⟩ := run_split hc
  generalize hb : (⟨th, .syncRegion .barrier .scopeBegin r (.implicit r t)⟩ : Event) = b at *
  generalize hf : (⟨th', .syncRegion .barrier .scopeEnd r (.implicit r t)⟩ : Event) = f at *
  have hsplit : pre ++ b :: (mid ++ f :: post) = (pre ++ [b] ++ mid) ++ f :: post := by simp
  rw [hsplit] at hc
  obtain ⟨c2, hc2, haf, hc3⟩ := run_split hc
  generalize hn1 : c0.next env b = c1 at *
  generalize hn3 : c2.next env f = c3 at *
  obtain rfl := Option.some.inj (hs.symm.trans (tool_run hc1))
  have hg3 := run_good hc3
  -- the state after the first call
  obtain ⟨-, rfl⟩ := parData_tool.mp hpi
  have hreq : 1 < (c0.rt.region r).requested := by
    simpa [← hn1, ← hb, regionRecord, next, Runtime.apply, ParallelRegionData.map] using hsize
  have hd := hasData_of_tool htd
  obtain rfl := Option.some.inj (htd.symm.trans (taskData_tool hd))
  obtain ⟨j, hj⟩ : ∃ j, (c0.rt.task (.implicit r t)).arrived + 1 = j := ⟨_, rfl⟩
  obtain ⟨hat, hcur, hmem1, hnone⟩ := wait_begin (run_good hc0) (hb ▸ hab) hreq (hb ▸ hn1) hj
  obtain ⟨-, hiff⟩ := wait_charges hc1 hat hnone hmid hc2
  -- the second call starts the node again
  obtain ⟨hlast, hkept⟩ := wait_end (j := j) (hf ▸ haf) (hf ▸ hn3)
  have hext : pre ++ b :: (mid ++ [f]) = (pre ++ [b] ++ mid) ++ [f] := by simp
  have hext' : (pre ++ [b] ++ mid) ++ [f] = (pre ++ [b]) ++ (mid ++ [f]) := by simp
  obtain ⟨hmem3, haddr⟩ := addr_run hc1 (hext' ▸ hc3) hmem1
  refine ⟨_, hext ▸ tool_run hc3, ?_⟩
  rw [← hiff]
  change Uncharged _ (c1.graph.addr (c1.graph.cur (.implicit r t))) ↔ _
  rw [hcur, ← haddr, ← hlast]
  have hchg : ∀ ch : Charge Role, ch ∈ c3.graph.charges →
      (c3.graph.addr ch.node = c3.graph.addr (.imp r t j) ↔ ch.node = .imp r t j) :=
    fun ch hch => addr_inj (hg3.alloc.charge_mem hch)
  constructor
  · rintro ⟨hno, -⟩ ch hch hnode
    exact hno _ (List.mem_map.mpr ⟨ch, hch, rfl⟩) ((hchg ch hch).mpr hnode)
  · intro hno
    refine ⟨?_, ?_⟩
    · intro ch hch
      obtain ⟨ch, hch', rfl⟩ := List.mem_map.mp hch
      exact fun hn => hno ch hch' ((hchg ch hch').mp hn)
    · have hcr := hg3.shaped.order_iff.mp hmem3
      have hlive := hg3.shaped.live_iff.mpr ⟨hcr, hkept⟩
      refine ⟨_, hg3.nodes_iff.mpr ⟨_, hlive, rfl, rfl⟩, ?_⟩
      have hempty : c3.graph.chargesOf (.imp r t j) = [] :=
        List.filter_eq_nil_iff.mpr fun ch hch hn => hno ch hch (by simpa using hn)
      change (c3.graph.data (.imp r t j)).totalTime = 0
      rw [(ledger_run hmono hc3).total hcr, hempty]
      rfl

/-- In the sample run thread 0 waits while thread 1 returns to its own task. -/
theorem wait_uncharged_iff_taskInBarrier :
    ∃ s', Tool.run { clock := fun k => k } (taskInBarrier.take 12) = some s' ∧
      (Uncharged s' 7 ↔ ∀ e ∈ (taskInBarrier.take 11).drop 10,
        ¬SwitchesFrom e (.implicit 0 0)) := by
  have hmono : Monotone fun k : ℕ => (k : ℚ) := Nat.mono_cast
  obtain ⟨o, ho, -⟩ := taskInBarrier_ended
  have hread : (Tool.run { clock := fun k => k } (taskInBarrier.take 10)).map (fun s =>
      ((s.parData 0).map (·.teamSize), (s.taskData (.implicit 0 0)).map (·.currTaskNode)))
      = some (some 2, some 7) := by decide +kernel
  obtain ⟨s, hs, hread⟩ := Option.map_eq_some_iff.mp hread
  obtain ⟨hpi, htd⟩ := Prod.mk.inj hread
  obtain ⟨pi, hpi, hsize⟩ := Option.map_eq_some_iff.mp hpi
  obtain ⟨td, htd, hnode⟩ := Option.map_eq_some_iff.mp htd
  have hsplit : taskInBarrier = taskInBarrier.take 9 ++
      ⟨0, .syncRegion .barrier .scopeBegin 0 (.implicit 0 0)⟩ :: ((taskInBarrier.take 11).drop 10 ++
        ⟨0, .syncRegion .barrier .scopeEnd 0 (.implicit 0 0)⟩ :: taskInBarrier.drop 12) := by
    decide
  have h := wait_uncharged_iff hmono ho hsplit (by decide) hs hpi (by omega) htd
  rw [hnode] at h
  exact h

/-- Thread 1 executes a task while it waits, and the time until it does so is
charged to its node behind the barrier. -/
theorem taskInBarrier_wait_charged :
    ∃ s td s', Tool.run { clock := fun k => k } (taskInBarrier.take 8) = some s ∧
      s.taskData (.implicit 0 1) = some td ∧
      Tool.run { clock := fun k => k } (taskInBarrier.take 15) = some s' ∧
      ⟨1, td.currTaskNode, 7, 8⟩ ∈ s'.charges ∧ ¬Uncharged s' td.currTaskNode := by
  have hread : (Tool.run { clock := fun k => k } (taskInBarrier.take 8)).bind
      (fun s => (s.taskData (.implicit 0 1)).map (·.currTaskNode)) = some 6 := by decide +kernel
  obtain ⟨s, hs, hread⟩ := Option.bind_eq_some_iff.mp hread
  obtain ⟨td, htd, hnode⟩ := Option.map_eq_some_iff.mp hread
  have hread' : (Tool.run { clock := fun k => k } (taskInBarrier.take 15)).map (fun s =>
      decide ((⟨1, 6, 7, 8⟩ : Charge NodeRef) ∈ s.charges)) = some true := by decide +kernel
  obtain ⟨s', hs', hread'⟩ := Option.map_eq_some_iff.mp hread'
  have hmem := of_decide_eq_true hread'
  rw [← hnode] at hmem
  exact ⟨s, td, s', hs, htd, hs', hmem, fun hno => hno.1 _ hmem rfl⟩

end Config

end Tdg
