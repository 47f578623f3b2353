/-
TdgTool/Phases.lean

Barrier phases and barrier nodes.

The tool counts the arrivals of a region and starts a new barrier node whenever
the count reaches the team size that was requested.  The runtime may form a
smaller team.  If it forms the team that was requested, the nodes and the
barriers that the team executes correspond one to one; if it forms a smaller
one and the team executes more than one barrier, the second barrier is
represented by the node of the first (`merged`).

`Reached` says which node the tool takes for a barrier, from the records it
keeps before and after the call.
-/
import TdgTool.Structure

namespace Tdg

open Tdg.Runtime RoleGraph Paths Relation

variable {env : Env} {es : List Event} {r : RegionId} {t j : ℕ} {u b : NodeRef} {o : Runtime}
  {e : Event} {c c' : Config} {x y : Role}

/-- The `cb_sync_region` begin call of thread `t` of region `r`. -/
def arrival (th : ThreadId) (r : RegionId) (t : ℕ) : Event :=
  ⟨th, .syncRegion .barrier .scopeBegin r (.implicit r t)⟩

/-- Thread `t` of region `r` makes its begin call for the `j`-th barrier while
`u` is its current node, and the tool represents the barrier by `b`. -/
def Reached (env : Env) (es : List Event) (r : RegionId) (t j : ℕ) (u b : NodeRef) : Prop :=
  ∃ pre th post, es = pre ++ arrival th r t :: post ∧
    (∃ o, Runtime.run pre = some o ∧ (o.task (.implicit r t)).arrived = j) ∧
    (∃ s td, Tool.run env pre = some s ∧ s.taskData (.implicit r t) = some td ∧
      td.currTaskNode = u) ∧
    ∃ s td, Tool.run env (pre ++ [arrival th r t]) = some s ∧
      s.taskData (.implicit r t) = some td ∧ td.currBarrierNode = some b

/-- Different barriers have different nodes, a barrier node is entered only
from the nodes that were current when the threads reached its barrier, and
there is no cycle. -/
structure BarriersApart (env : Env) (es : List Event) (s : Tool) : Prop where
  apart : ∀ {r t j u r' t' j' u' b}, Reached env es r t j u b → Reached env es r' t' j' u' b →
    r = r' ∧ j = j'
  entries : ∀ {b nd}, s.nodes b = some nd → nd.type = .barrier →
    ∃ r j, ∀ u, s.toGraph.Adj u b → ∃ t, Reached env es r t j u b
  acyclic : Acyclic s.toGraph.Adj

/-! ### Barrier calls over roles -/

namespace Config

/-- A call of thread `t` at a barrier of a team, over roles. -/
structure Arrives (env : Env) (es : List Event) (r : RegionId) (t : ℕ) (c : Config) : Prop where
  split : ∃ pre th post, es = pre ++ arrival th r t :: post ∧ run env pre = some c ∧
    c.rt.Acts th (.implicit r t)
  inBody : c.rt.InBody (.implicit r t)
  team : 1 < (c.rt.region r).requested

/-- The barrier node that the tool takes for the barrier. -/
def round (c : Config) (r : RegionId) : Role :=
  .barrier r ((c.rt.region r).arrivals / (c.rt.region r).requested)

theorem Arrives.good {c' : Config} (h : Arrives env es r t c') : c'.Good := by
  obtain ⟨pre, th, post, -, hc, -⟩ := h.split
  exact run_good hc

theorem Arrives.hasData {c' : Config} (h : Arrives env es r t c') :
    c'.rt.HasData (.implicit r t) := by
  obtain ⟨pre, th, post, -, -, hact⟩ := h.split
  exact hasData_of_active hact.2

theorem Arrives.extend {c' : Config} (h : Arrives env es r t c') (e : Event) :
    Arrives env (es ++ [e]) r t c' := by
  obtain ⟨pre, th, post, rfl, hc, hact⟩ := h.split
  exact ⟨⟨pre, th, post ++ [e], by simp, hc, hact⟩, h.inBody, h.team⟩

/-- The last event of a run is a call at a barrier. -/
theorem arrives_last {th : ThreadId} (hc : run env es = some c)
    (ha : c.rt.allows (arrival th r t) = true) (hreq : 1 < (c.rt.region r).requested) :
    Arrives env (es ++ [arrival th r t]) r t c := by
  cases delivers_of_allows ha with
  | barrierBegin hact hbody => exact ⟨⟨es, th, [], rfl, hc, hact⟩, hbody, hreq⟩
  | sync _ _ hkind => exact absurd rfl hkind

/-- The nodes involved in a call at a barrier exist, and keep their addresses. -/
theorem Arrives.addr_eq (h : Arrives env es r t c') (hrun : run env es = some c) :
    c'.graph.cur (.implicit r t) ∈ c.graph.order ∧
      c.graph.addr (c'.graph.cur (.implicit r t)) = c'.graph.addr (c'.graph.cur (.implicit r t)) ∧
      c'.round r ∈ c.graph.order ∧
      ∃ pre th post, es = pre ++ arrival th r t :: post ∧ run env pre = some c' ∧
        run env (pre ++ [arrival th r t]) = some (c'.next env (arrival th r t)) ∧
        c.graph.addr (c'.round r) = (c'.next env (arrival th r t)).graph.addr (c'.round r) := by
  obtain ⟨pre, th, post, rfl, hpre, hact⟩ := h.split
  obtain ⟨c1, hc1, ha, hnext⟩ := run_split hrun
  obtain rfl : c' = c1 := Option.some.inj (hpre.symm.trans hc1)
  have hcur := addr_run hpre hrun (h.good.alloc.live_mem (h.good.shaped.cur_live h.hasData))
  have hround : c'.round r ∈ (c'.next env (arrival th r t)).graph.order := by
    refine (run_good hnext).shaped.order_iff.mpr ?_
    have := Nat.div_mul_le_self (c'.rt.region r).arrivals (c'.rt.region r).requested
    refine ⟨?_, ?_⟩
    · simpa [next, arrival, Runtime.apply] using h.team
    · simpa [next, arrival, Runtime.apply] using Nat.lt_succ_of_le this
  rw [List.append_cons] at hrun
  have := addr_run hnext hrun hround
  exact ⟨hcur.1, hcur.2, this.1, pre, th, post, rfl, hpre, hnext, this.2⟩

/-- What the tool's records say about a barrier call. -/
theorem Arrives.reached (h : Arrives env es r t c') (hrun : run env es = some c) :
    Reached env es r t (c'.rt.task (.implicit r t)).arrived
      (c.graph.addr (c'.graph.cur (.implicit r t))) (c.graph.addr (c'.round r)) := by
  obtain ⟨-, hcur, -, pre, th, post, rfl, hpre, hnext, hround⟩ := h.addr_eq hrun
  have ha : c'.rt.allows (arrival th r t) = true := by
    obtain ⟨c1, hc1, ha, -⟩ := run_split hrun
    obtain rfl : c' = c1 := Option.some.inj (hpre.symm.trans hc1)
    exact ha
  have hd : (c'.next env (arrival th r t)).rt.HasData (.implicit r t) := by
    obtain ⟨h1, h2⟩ := h.hasData
    refine ⟨?_, ?_⟩
    · simpa [next, arrival, Runtime.apply] using h1
    · simpa [next, arrival, Runtime.apply] using h2
  refine ⟨pre, th, post, rfl, ⟨c'.rt, runtime_of_run hpre, rfl⟩,
    ⟨c'.tool, _, tool_run hpre, taskData_tool h.hasData, hcur.symm⟩,
    (c'.next env (arrival th r t)).tool, _, tool_run hnext, taskData_tool hd, ?_⟩
  have hbar : (c'.next env (arrival th r t)).graph.bar (.implicit r t) = some (c'.round r) :=
    bar_of_set ha (newBar_of_reached rfl h.team)
  simp only [taskRecord, TaskData.map, hbar, Option.map_some, hround]

/-- Every barrier call that the tool represents by a node is one of a team. -/
theorem Reached.arrives (h : Reached env es r t j u b) (hrun : run env es = some c) :
    ∃ c', Arrives env es r t c' ∧ (c'.rt.task (.implicit r t)).arrived = j ∧
      c.graph.addr (c'.graph.cur (.implicit r t)) = u ∧ c.graph.addr (c'.round r) = b := by
  obtain ⟨pre, th, post, rfl, ⟨o, ho, hj⟩, ⟨s, td, hs, htd, hu⟩, s', td', hs', htd', hb⟩ := h
  obtain ⟨c', hc', ha, hnext⟩ := run_split hrun
  obtain rfl := Option.some.inj (ho.symm.trans (runtime_of_run hc'))
  obtain rfl := Option.some.inj (hs.symm.trans (tool_run hc'))
  obtain rfl := Option.some.inj (hs'.symm.trans (tool_run hnext))
  have hg := run_good hnext
  have hd : (c'.next env (arrival th r t)).rt.HasData (.implicit r t) := hasData_of_tool htd'
  rw [taskData_tool hd] at htd'
  obtain rfl := Option.some.inj htd'
  -- a team of one has no barrier node
  have hreq : 1 < (c'.rt.region r).requested := by
    by_contra hreq
    have hnone : (c'.next env (arrival th r t)).graph.bar (.implicit r t) = none := by
      refine hg.shaped.bar_none fun r' t' hτ => .inl ?_
      obtain ⟨rfl, rfl⟩ := TaskId.implicit.inj hτ
      simpa [next, arrival, Runtime.apply] using hreq
    simp [taskRecord, TaskData.map, hnone] at hb
  have harr : Arrives env (pre ++ arrival th r t :: post) r t c' := by
    cases delivers_of_allows ha with
    | barrierBegin hact hbody => exact ⟨⟨pre, th, post, rfl, hc', hact⟩, hbody, hreq⟩
    | sync _ _ hkind => exact absurd rfl hkind
  rw [taskData_tool harr.hasData] at htd
  obtain rfl := Option.some.inj htd
  refine ⟨c', harr, hj, ?_, ?_⟩
  · rw [(harr.addr_eq hrun).2.1]
    exact hu
  · have hbar : (c'.next env (arrival th r t)).graph.bar (.implicit r t) = some (c'.round r) :=
      bar_of_set ha (newBar_of_reached rfl hreq)
    have hround : c'.round r ∈ (c'.next env (arrival th r t)).graph.order :=
      hg.shaped.order_iff.mpr (hg.shaped.bar_created hd hbar).1
    rw [List.append_cons] at hrun
    rw [(addr_run hnext hrun hround).2]
    simpa [taskRecord, TaskData.map, hbar] using hb

/-! ### Edges into barrier nodes -/

theorem newEdges_into_barrier {g : RoleGraph} (ha : o.allows e = true) {i : ℕ}
    (hx : (x, .barrier r i) ∈ g.newEdges o e) :
    ∃ th t, e = arrival th r t ∧ x = g.cur (.implicit r t) ∧ 1 < (o.region r).requested ∧
      i = (o.region r).arrivals / (o.region r).requested := by
  cases newEdge_of_mem ha hx with
  | @toBarrier th _ t _ _ _ hreq => exact ⟨th, t, rfl, rfl, hreq, rfl⟩

/-- Every edge into a barrier node comes from a call at the barrier. -/
theorem link_into_barrier (hrun : run env es = some c) {i : ℕ}
    (hx : c.graph.Link x (.barrier r i)) :
    ∃ t c', Arrives env es r t c' ∧ x = c'.graph.cur (.implicit r t) ∧
      .barrier r i = c'.round r := by
  induction es using List.reverseRecOn generalizing c with
  | nil =>
    obtain rfl : Config.init = c := Option.some.inj hrun
    cases hx
  | append_singleton es e ih =>
    obtain ⟨c1, hc1, ha, rfl⟩ := run_snoc.mp hrun
    rcases link_step ha hx with hold | hnew
    · obtain ⟨t, c', harr, hcur, hround⟩ := ih hc1 hold
      exact ⟨t, c', harr.extend e, hcur, hround⟩
    · obtain ⟨th, t, rfl, hcur, hreq, rfl⟩ := newEdges_into_barrier ha hnew
      exact ⟨t, c1, arrives_last hc1 ha hreq, hcur, rfl⟩

/-! ### Complete teams -/

/-- With complete teams the node is the one of the barrier's number. -/
theorem Arrives.round_eq (h : Arrives env es r t c')
    (hteam : ∀ e ∈ es, fullTeamOrSingle e = true) :
    c'.round r = .barrier r (c'.rt.task (.implicit r t)).arrived := by
  obtain ⟨pre, th, post, rfl, hpre, -⟩ := h.split
  have hfull := teams_run hpre fun e he => hteam e (by simp [he])
  rw [round, h.good.sound.arrivals_div (hfull r) h.hasData.present h.inBody]

theorem barriersApart_of_fullTeams (hrun : run env es = some c)
    (hteam : ∀ e ∈ es, fullTeamOrSingle e = true) : BarriersApart env es c.tool := by
  have hg := run_good hrun
  refine ⟨?_, ?_, hg.image.acyclic (acyclic_run hrun (teams_run hrun hteam))⟩
  · intro r t j u r' t' j' u' b h h'
    obtain ⟨c1, h1, rfl, -, rfl⟩ := Reached.arrives h hrun
    obtain ⟨c2, h2, rfl, -, hb⟩ := Reached.arrives h' hrun
    -- with complete teams the round of an arrival is its phase
    have heq := (addr_inj (h2.addr_eq hrun).2.2.1).mp hb
    rw [h1.round_eq hteam, h2.round_eq hteam] at heq
    obtain ⟨rfl, hj⟩ := Role.barrier.inj heq
    exact ⟨rfl, hj.symm⟩
  · intro b nd hnd htype
    obtain ⟨x, hl, rfl, rfl⟩ := hg.nodes_iff.mp hnd
    have hx : x.type = .barrier := (hg.alloc.type_eq (hg.alloc.live_mem hl)).symm.trans htype
    cases x with
    | barrier r i =>
      refine ⟨r, i, fun u hu => ?_⟩
      obtain ⟨y, z, rfl, hz, hyz⟩ := hg.adj_iff.mp hu
      obtain rfl := (addr_inj (hg.alloc.edges_mem hyz).2).mp hz
      obtain ⟨t, c', harr, rfl, hround⟩ := link_into_barrier hrun hyz
      -- and every edge into a barrier node was added by an arrival
      have hi : i = (c'.rt.task (.implicit r t)).arrived := by
        rw [harr.round_eq hteam] at hround
        exact (Role.barrier.inj hround).2
      refine ⟨t, ?_⟩
      rw [hi, ← harr.round_eq hteam]
      exact harr.reached hrun
    | _ => cases hx

/-! ### Smaller teams -/

/-- A region that was begun is still the one that was begun. -/
theorem region_of_mem (hrun : run env es = some c) {th : ThreadId} {parent : TaskId} {q m k : ℕ}
    (he : ⟨th, .parallelBegin parent r q m k⟩ ∈ es) :
    (c.rt.region r).stage ≠ .absent ∧ (c.rt.region r).requested = q ∧
      (c.rt.region r).teamSize = m ∧ (c.rt.region r).barriers = k := by
  induction es using List.reverseRecOn generalizing c with
  | nil => cases he
  | append_singleton es e ih =>
    obtain ⟨c1, hc1, ha, rfl⟩ := run_snoc.mp hrun
    rcases List.mem_append.mp he with he | he
    · obtain ⟨hs, hq, hm, hk⟩ := ih hc1 he
      obtain ⟨-, hq', hm', hk', -⟩ := region_apply_fixed ha hs
      exact ⟨region_present_apply ha hs, hq'.trans hq, hm'.trans hm, hk'.trans hk⟩
    · rw [← List.mem_singleton.mp he]
      simp [next, Runtime.apply]

/-- Every arrival that was counted was a call. -/
theorem arrives_of_lt (hrun : run env es = some c) (hreq : 1 < (c.rt.region r).requested) {a : ℕ}
    (ha : a < (c.rt.region r).arrivals) :
    ∃ t c', Arrives env es r t c' ∧ (c'.rt.region r).arrivals = a ∧
      (c'.rt.region r).requested = (c.rt.region r).requested ∧
      (c'.rt.region r).teamSize = (c.rt.region r).teamSize := by
  induction es using List.reverseRecOn generalizing c with
  | nil =>
    obtain rfl : Config.init = c := Option.some.inj hrun
    cases ha
  | append_singleton es e ih =>
    obtain ⟨c1, hc1, hal, rfl⟩ := run_snoc.mp hrun
    have hr := regionChange hal r
    simp only [next] at ha hreq ⊢
    generalize (c1.rt.apply e).region r = ρ at hr ha hreq
    -- an arrival that was counted before has its call in the run so far
    have hold : a < (c1.rt.region r).arrivals → 1 < (c1.rt.region r).requested →
        ∃ t c', Arrives env (es ++ [e]) r t c' ∧ (c'.rt.region r).arrivals = a ∧
          (c'.rt.region r).requested = (c1.rt.region r).requested ∧
          (c'.rt.region r).teamSize = (c1.rt.region r).teamSize := by
      intro ha hreq
      obtain ⟨t, c', harr, h⟩ := ih hc1 hreq ha
      exact ⟨t, c', harr.extend e, h⟩
    cases hr with
    | same => exact hold ha hreq
    | opened => cases ha
    | ended => exact hold ha hreq
    | @reached t hcall =>
      by_cases hlast : a = (c1.rt.region r).arrivals
      · obtain ⟨th, call⟩ := e
        obtain rfl : call = _ := hcall
        exact ⟨t, c1, arrives_last hc1 hal hreq, hlast.symm, rfl, rfl⟩
      · exact hold (by simp only at ha; omega) hreq

/-- A team that is smaller than requested and has executed two barriers is
given one node for both. -/
theorem merged (hrun : run env es = some c)
    (hlt : (c.rt.region r).teamSize < (c.rt.region r).requested)
    (hpos : 1 ≤ (c.rt.region r).teamSize)
    (harr : 2 * (c.rt.region r).teamSize ≤ (c.rt.region r).arrivals) :
    ∃ t u t' u' b, Reached env es r t 0 u b ∧ Reached env es r t' 1 u' b := by
  have hreq : 1 < (c.rt.region r).requested := by omega
  -- the first call of the region, and the one with as many calls before it as the team is large
  obtain ⟨t, c0, h0, ha0, hq0, hm0⟩ := arrives_of_lt (a := 0) hrun hreq (by omega)
  obtain ⟨t', c1, h1, ha1, hq1, hm1⟩ :=
    arrives_of_lt (a := (c.rt.region r).teamSize) hrun hreq (by omega)
  have hj0 : (c0.rt.task (.implicit r t)).arrived = 0 := by
    have := (h0.good.sound.arrivals_phase h0.hasData.present h0.inBody).1
    rw [ha0, hm0] at this
    have := Nat.le_zero.mp this
    rcases Nat.mul_eq_zero.mp this with h | h
    · omega
    · exact h
  have hj1 : (c1.rt.task (.implicit r t')).arrived = 1 := by
    obtain ⟨hle, hgt⟩ := h1.good.sound.arrivals_phase h1.hasData.present h1.inBody
    rw [ha1, hm1] at hle hgt
    have hup : (c1.rt.task (.implicit r t')).arrived ≤ 1 :=
      Nat.le_of_mul_le_mul_left (by simpa using hle) hpos
    have hlow : 1 < (c1.rt.task (.implicit r t')).arrived + 1 :=
      Nat.lt_of_mul_lt_mul_left (by simpa using hgt)
    omega
  -- both calls fall into the first round of the requested size
  have hround : c0.round r = c1.round r := by
    simp only [round, ha0, ha1, hq1, Nat.zero_div, Nat.div_eq_of_lt hlt]
  have hr0 := h0.reached hrun
  have hr1 := h1.reached hrun
  rw [hj0, hround] at hr0
  rw [hj1] at hr1
  exact ⟨t, _, t', _, _, hr0, hr1⟩

/-- When a region has ended, its threads have reached all its barriers. -/
theorem arrivals_ended (hg : c.Good) (hend : (c.rt.region r).stage = .ended) :
    (c.rt.region r).teamSize * (c.rt.region r).barriers ≤ (c.rt.region r).arrivals := by
  have hT := hg.sound.team r
  rw [hT.arrivals_eq]
  have hall := hT.done_arrived (hT.ended_done hend)
  simpa using Finset.card_nsmul_le_sum (Finset.range (c.rt.region r).teamSize)
    (fun u => (c.rt.team r u).arrived) (c.rt.region r).barriers
    fun u hu => hall u (Finset.mem_range.mp hu)

theorem fullTeams_of_barriersApart (hrun : run env es = some c) (hreg : c.rt.RegionsEnded)
    (hap : BarriersApart env es c.tool) : ∀ e ∈ es, fullTeamOrSingle e = true := by
  rintro ⟨th, call⟩ he
  cases call with
  | parallelBegin parent r q m k =>
    obtain ⟨hs, hq, hm, hk⟩ := region_of_mem hrun he
    have hsizes := ((run_good hrun).sound.team r).sizes hs
    by_contra hbad
    have hbad' : ¬m = q ∧ ¬k = 1 := by simpa [fullTeamOrSingle] using hbad
    have hend : (c.rt.region r).stage = .ended := by
      rcases hst : (c.rt.region r).stage with - | - | -
      · exact absurd hst hs
      · exact absurd hst (hreg r)
      · rfl
    -- an ended region has seen all arrivals at its first two barriers
    have harr : 2 * (c.rt.region r).teamSize ≤ (c.rt.region r).arrivals :=
      calc 2 * (c.rt.region r).teamSize
          = (c.rt.region r).teamSize * 2 := mul_comm _ _
        _ ≤ (c.rt.region r).teamSize * (c.rt.region r).barriers :=
            Nat.mul_le_mul_left _ (by omega)
        _ ≤ (c.rt.region r).arrivals := arrivals_ended (run_good hrun) hend
    obtain ⟨t, u, t', u', b, h0, h1⟩ := merged hrun (by omega) hsizes.1 harr
    have := (hap.apart h0 h1).2
    omega
  | _ => rfl

/-- **When barrier phases stay apart.**  In every run whose regions all get the
team they requested, or execute a single barrier, different barriers have
different nodes, barrier nodes are entered only from their own phase, and there
is no cycle; and once all regions have ended, this holds of no other run. -/
theorem barriersApart_iff (env : Env) (hrun : Runtime.run es = some o) :
    ∃ s, Tool.run env es = some s ∧
      ((∀ e ∈ es, fullTeamOrSingle e = true) → BarriersApart env es s) ∧
      (o.RegionsEnded →
        (BarriersApart env es s ↔ ∀ e ∈ es, fullTeamOrSingle e = true)) := by
  obtain ⟨c, hc, rfl⟩ := run_of_runtime env hrun
  refine ⟨c.tool, tool_run hc, barriersApart_of_fullTeams hc, fun hreg => ⟨?_, ?_⟩⟩
  · exact fullTeams_of_barriersApart hc hreg
  · exact barriersApart_of_fullTeams hc

/-- Two threads are requested, the runtime forms a team of one, and the team
executes two barriers. -/
def shortTeam : List Event :=
  [⟨0, .threadBegin⟩, ⟨0, .taskCreate (.initial 0) (.initial 0) .initial⟩,
    ⟨0, .parallelBegin (.initial 0) 0 2 1 2⟩,
    ⟨0, .implicitTask .scopeBegin 0 (.implicit 0 0) 1 0⟩,
    ⟨0, .syncRegion .barrier .scopeBegin 0 (.implicit 0 0)⟩,
    ⟨0, .syncRegion .barrier .scopeEnd 0 (.implicit 0 0)⟩,
    ⟨0, .syncRegion .barrier .scopeBegin 0 (.implicit 0 0)⟩,
    ⟨0, .syncRegion .barrier .scopeEnd 0 (.implicit 0 0)⟩,
    ⟨0, .implicitTask .scopeEnd 0 (.implicit 0 0) 1 0⟩,
    ⟨0, .parallelEnd 0 (.initial 0)⟩]

theorem shortTeam_ended : ∃ o, Runtime.run shortTeam = some o ∧ o.RegionsEnded := by
  refine ⟨_, rfl, fun r => ?_⟩
  rcases r with - | r
  · decide
  · simp [Runtime.apply, Runtime.init]

theorem barriersApart_iff_taskInBarrier :
    ∃ s, Tool.run { clock := fun k => k } taskInBarrier = some s ∧
      BarriersApart { clock := fun k => k } taskInBarrier s := by
  obtain ⟨o, ho, hreg, -⟩ := taskInBarrier_ended
  obtain ⟨s, hs, -, hiff⟩ := barriersApart_iff { clock := fun k => k } ho
  exact ⟨s, hs, (hiff hreg).mpr (by decide)⟩

/-- The two barriers of the team get one node. -/
theorem shortTeam_not_apart :
    ∃ s, Tool.run { clock := fun k => k } shortTeam = some s ∧
      ¬BarriersApart { clock := fun k => k } shortTeam s := by
  obtain ⟨o, ho, hreg⟩ := shortTeam_ended
  obtain ⟨c, hc, rfl⟩ := run_of_runtime { clock := fun k => k } ho
  refine ⟨c.tool, tool_run hc, fun hap => ?_⟩
  have := fullTeams_of_barriersApart hc hreg hap
  exact absurd this (by decide)

end Config

end Tdg
