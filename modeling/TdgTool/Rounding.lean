/-
TdgTool/Rounding.lean

The times of a run in doubles.

The model adds times exactly.  No callback reads a total time, so whatever the
arithmetic a run charges the same intervals, and only their sums differ.
`Tool.timeIn` adds the intervals charged to a node in the order of the run, as
`Node::addTime` does; `Tool.graphIn` is the graph with these sums.  In exact
arithmetic it is the graph of the model (`graphIn_exact_run`), and
`graphIn .double` is the one that the code builds when all readings are
doubles.
-/
import TdgTool.Metrics
import TdgTool.Times

namespace Tdg

open Doubles

namespace Tool

variable {s s' : Tool} {env : Env} {th : ThreadId} {n : NodeRef}

/-- `_totalTime` of a node, added up in `A`. -/
def timeIn (A : Arith) (s : Tool) (n : NodeRef) : ℚ :=
  A.total Charge.start Charge.stop (s.charges.filter fun c => c.node = n)

/-- The graph with the times added up in `A`. -/
def graphIn (A : Arith) (s : Tool) : Graph where
  nodes := fun n => (s.nodes n).map (Node.onData fun nd => { nd with totalTime := s.timeIn A n })
  graphNodes := s.graphNodes

/-- The total times are the exact sums of the charged intervals. -/
def Summed (s : Tool) : Prop := ∀ n nd, s.nodes n = some nd → nd.totalTime = s.timeIn .exact n

theorem Summed.graphIn (h : s.Summed) : s.graphIn .exact = s.toGraph := by
  have hnodes : (s.graphIn .exact).nodes = s.nodes := by
    funext n
    show (s.nodes n).map _ = s.nodes n
    rcases hn : s.nodes n with - | nd
    · rfl
    · rw [Option.map_some, ← h n nd hn]
      rfl
  show (⟨(s.graphIn .exact).nodes, s.graphNodes⟩ : Graph) = ⟨s.nodes, s.graphNodes⟩
  rw [hnodes]

/-- `addTime` keeps the sums. -/
theorem Summed.addTime (h : s.Summed) (hs : s.addTime env th n = some s') : s'.Summed := by
  obtain ⟨nd, hnd, hs⟩ := Option.bind_eq_some_iff.mp hs
  obtain ⟨s₁, h₁, hs⟩ := Option.bind_eq_some_iff.mp hs
  obtain ⟨g, hg, h₁⟩ := Option.bind_eq_some_iff.mp h₁
  obtain rfl := Option.some.inj h₁
  obtain rfl := Option.some.inj hs
  rw [Graph.modifyNode, hnd] at hg
  obtain rfl := Option.some.inj hg
  intro k nd' hk
  rcases eq_or_ne k n with rfl | hkn
  · -- the node that is charged has one interval more
    have hnd' : nd.onData (fun d => d.addTime (env.clock s.ticks)) = nd' := by simpa using hk
    have hsplit :
        (s.charges ++ [(⟨th, k, nd.lastTime, env.clock s.ticks⟩ : Charge NodeRef)]).filter
        (fun c => c.node = k)
          = (s.charges.filter fun c => c.node = k) ++
            [⟨th, k, nd.lastTime, env.clock s.ticks⟩] := by
      simp
    have hold := h k nd hnd
    rw [timeIn, hsplit, Arith.total_concat, Arith.exact_add, Arith.exact_sub]
    rw [timeIn] at hold
    rw [← hnd', ← hold]
    rfl
  · have hnd' : s.nodes k = some nd' := by simpa [hkn] using hk
    have hsplit :
        (s.charges ++ [(⟨th, n, nd.lastTime, env.clock s.ticks⟩ : Charge NodeRef)]).filter
        (fun c => c.node = k) = s.charges.filter fun c => c.node = k := by
      simp [hkn.symm]
    rw [timeIn, hsplit]
    exact h k nd' hnd'

theorem Summed.closeFinalNode (h : s.Summed) (hs : s.closeFinalNode env th = some s') :
    s'.Summed := by
  unfold Tool.closeFinalNode at hs
  rcases hf : s.finalNode with - | n
  · rw [hf] at hs
    obtain rfl := Option.some.inj hs
    exact h
  · rw [hf] at hs
    exact h.addTime hs

end Tool

namespace Config

open RoleGraph

variable {env : Env} {es : List Event} {c : Config} {o : Runtime}

theorem summed_run (hmono : Monotone env.clock) (hrun : run env es = some c) : c.tool.Summed := by
  intro n nd hn
  have hg := run_good hrun
  obtain ⟨x, hl, rfl, rfl⟩ := hg.nodes_iff.mp hn
  have htotal := (ledger_run hmono hrun).total (hg.shaped.live_iff.mp hl).1
  -- the charges of an address are those of its role
  have hfilter : (c.tool.charges.filter fun a => a.node = c.graph.addr x)
      = (c.graph.chargesOf x).map (Charge.map c.graph.addr) := by
    show ((c.graph.charges.map (Charge.map c.graph.addr)).filter _) = _
    rw [List.filter_map, RoleGraph.chargesOf]
    refine congrArg _ (List.filter_congr fun a ha => ?_)
    exact decide_eq_decide.mpr (addr_inj (hg.alloc.charge_mem ha))
  rw [Tool.timeIn, hfilter, Arith.exact_total, List.map_map]
  exact htotal

/-- **In exact arithmetic the graph of the sums is the graph of the run**, also
when `finalize_libtdg` has closed the final node. -/
theorem graphIn_exact_run (hmono : Monotone env.clock) (hrun : Runtime.run es = some o) :
    ∃ s, Tool.run env es = some s ∧ s.graphIn .exact = s.toGraph ∧
      ∀ th s', s.closeFinalNode env th = some s' → s'.graphIn .exact = s'.toGraph := by
  obtain ⟨c, hc, rfl⟩ := run_of_runtime env hrun
  have hsum := summed_run hmono hc
  exact ⟨c.tool, tool_run hc, hsum.graphIn, fun th s' hs => (hsum.closeFinalNode hs).graphIn⟩

end Config

end Tdg
