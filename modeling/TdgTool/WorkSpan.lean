/-
TdgTool/WorkSpan.lean

The two metrics compared: the critical path (the span) against the total time
(the work), and the length of the critical path against the number of tasks.

A path of an acyclic graph meets no node twice, so its time is at most the sum
over all nodes.  `_critical_path_len` counts the edges of a longest path, one
less than its nodes.
-/
import TdgTool.CriticalPath

namespace Tdg

namespace Graph

variable {g : Graph} {m : NodeRef → Marks} {n : NodeRef} {p : List NodeRef}

/-! ### Sums over the nodes -/

theorem Closed.totalTimeInit (hc : g.Closed) : ∃ tt, g.totalTimeInit = some tt ∧
    tt.nodesTotalTime = ((g.graphNodes.entries.map Prod.snd).map g.totalTime).sum ∧
    tt.nodeTimesArr.length = g.graphNodes.entries.length := by
  obtain ⟨nodes, h1, h2⟩ := nodeList_eq fun a ha => hc.node a.2 ⟨a.1, ha⟩
  obtain ⟨tt, htt⟩ := exists_totalTimeInit h1
  obtain ⟨nodes', h3, h4, h5⟩ := nodesTotalTime_eq htt
  obtain rfl : nodes = nodes' := Option.some.inj (h1.symm.trans h3)
  have htimes : (g.graphNodes.entries.map Prod.snd).map g.totalTime
      = nodes.map fun nd => nd.totalTime := by
    have hread : ∀ k, g.totalTime k = (g.nodes k).elim 0 fun nd => nd.totalTime := by
      intro k
      unfold Graph.totalTime
      rcases g.nodes k with - | nd <;> rfl
    have := congrArg (List.map fun o : Option Node => o.elim 0 fun nd => nd.totalTime) h2
    simpa [List.map_map, Function.comp_def, hread] using this
  refine ⟨tt, htt, by rw [h4, htimes], ?_⟩
  rw [h5.length_eq, ← htimes, List.length_map, List.length_map]

theorem IsPath.nodup (hp : g.IsPath p) (hac : Paths.Acyclic g.Within) : p.Nodup :=
  hac.nodup (List.IsChain.imp_of_mem_imp (fun a _ ha _ hab => ⟨hp.2 a ha, hab⟩) hp.1)

/-- A path takes at most the time of all nodes together. -/
theorem timeOf_le_sum (hc : g.Closed) (hac : Paths.Acyclic g.Within) (hpos : g.NonnegTimes)
    (hp : g.IsPath p) :
    g.timeOf p ≤ ((g.graphNodes.entries.map Prod.snd).map g.totalTime).sum := by
  have hsub : ∀ w ∈ p, w ∈ g.graphNodes.entries.map Prod.snd := by
    intro w hw
    simpa [Present] using hp.2 w hw
  obtain ⟨l, hperm, hl⟩ := List.subperm_of_subset (hp.nodup hac) hsub
  have hnonneg : ∀ t ∈ (g.graphNodes.entries.map Prod.snd).map g.totalTime, 0 ≤ t := by
    intro t ht
    obtain ⟨w, hw, rfl⟩ := List.mem_map.mp ht
    exact hpos.totalTime hc (by simpa [Present] using hw)
  rw [timeOf, ← (hperm.map g.totalTime).sum_eq]
  exact (hl.map g.totalTime).sum_le_sum hnonneg

/-- A path through all nodes takes their whole time, if every node has one
key. -/
theorem timeOf_eq_sum (hkeys : (g.graphNodes.entries.map Prod.snd).Nodup)
    (hac : Paths.Acyclic g.Within) (hp : g.IsPath p) (hall : ∀ n, g.Present n → n ∈ p) :
    g.timeOf p = ((g.graphNodes.entries.map Prod.snd).map g.totalTime).sum := by
  have hperm : p.Perm (g.graphNodes.entries.map Prod.snd) := by
    refine (List.perm_ext_iff_of_nodup (hp.nodup hac) hkeys).mpr fun w => ?_
    have hw : w ∈ g.graphNodes.entries.map Prod.snd ↔ g.Present w := by simp [Present]
    rw [hw]
    exact ⟨hp.2 w, hall w⟩
  exact (hperm.map g.totalTime).sum_eq

/-! ### Work and span -/

/-- What is assumed of a graph to be measured: it is finite, acyclic and not
empty, its edges are mirrored and stay within it, no node has two keys, and no
time is negative.  Nothing is said about the marks. -/
structure Weighted (g : Graph) : Prop where
  closed : g.Closed
  mirrored : g.Mirrored
  acyclic : Paths.Acyclic g.Within
  nonneg : g.NonnegTimes
  nonempty : g.graphNodes.entries ≠ []
  keys : (g.graphNodes.entries.map Prod.snd).Nodup

theorem Weighted.mark (h : g.Weighted) : (g.mark m).Weighted where
  closed := h.closed.mark
  mirrored := h.mirrored.mark
  acyclic := by
    rw [within_mark]
    exact h.acyclic
  nonneg := h.nonneg.mark
  nonempty := h.nonempty
  keys := h.keys

/-- A new critical path metric computes at least the time of every node and at
most the total time, and the total time if the graph is a single chain. -/
def WorkBoundsSpan (g : Graph) : Prop :=
  ∃ g' cp tt, g.getMetric .new = some (g', cp) ∧ g.totalTimeInit = some tt ∧
    (∀ n nd, g.Present n → g.nodes n = some nd → nd.totalTime ≤ cp.timeLen) ∧
    cp.timeLen ≤ tt.nodesTotalTime ∧
    ((∃ p, g.IsPath p ∧ ∀ n, g.Present n → n ∈ p) → cp.timeLen = tt.nodesTotalTime)

/-- Work bounds span on a graph that no metric has marked. -/
theorem Weighted.workBoundsSpan (hg : g.Weighted) (hf : g.Fresh) : g.WorkBoundsSpan := by
  obtain ⟨hc, hm, hac, hpos, hne, hkeys⟩ := hg
  obtain ⟨g', cp, m, post, l, s, q, heq, h⟩ := computeCriticalPath_computed hc hf
  obtain ⟨tt, h1, h2, -⟩ := hc.totalTimeInit
  have hle : cp.timeLen ≤ tt.nodesTotalTime := by
    obtain ⟨h3, h4⟩ := h.isPath_marked hc hm
    rw [← h4, h2]
    exact timeOf_le_sum hc hac hpos h3
  refine ⟨g', cp, tt, getMetric_new.trans heq, h1, ?_, hle, ?_⟩
  · intro n nd hn hnd
    have hpath : g.IsPath [n] := ⟨List.isChain_singleton n, by simpa using hn⟩
    simpa [timeOf, totalTime_eq hnd] using h.timeOf_le hc hm hac hpath (by simp)
  · rintro ⟨p, hp, hall⟩
    obtain ⟨a, ha⟩ := List.exists_mem_of_ne_nil _ hne
    have hp' : p ≠ [] := List.ne_nil_of_mem (hall a.2 ⟨a.1, ha⟩)
    refine le_antisymm hle ?_
    rw [h2, ← timeOf_eq_sum hkeys hac hp hall]
    exact h.timeOf_le hc hm hac hp hp'

/-- On a graph on which the metric computes 0, work bounds span if and only if
no node has taken any time. -/
theorem Weighted.workBoundsSpan_iff_of_zero (hg : g.Weighted)
    (h : g.getMetric .new = some (g, {})) : g.WorkBoundsSpan ↔ g.Idle := by
  constructor
  · rintro ⟨g', cp, tt, h1, -, h2, -⟩
    obtain ⟨-, rfl⟩ := Prod.mk.inj (Option.some.inj (h.symm.trans h1))
    exact h2
  · intro hidle
    obtain ⟨tt, h1, h2, -⟩ := hg.closed.totalTimeInit
    -- times are not negative, so those of an idle graph are all 0
    have hzero : tt.nodesTotalTime = 0 := by
      rw [h2]
      refine List.sum_eq_zero fun t ht => ?_
      obtain ⟨n, hn, rfl⟩ := List.mem_map.mp ht
      have hn : g.Present n := by simpa [Present] using hn
      obtain ⟨nd, hnd⟩ := hg.closed.node n hn
      rw [totalTime_eq hnd]
      exact le_antisymm (hidle n nd hn hnd) (hg.nonneg n nd hn hnd)
    exact ⟨g, {}, tt, h, h1, hidle, hzero.ge, fun _ => hzero.symm⟩

theorem idle_mark : (g.mark m).Idle ↔ g.Idle := by
  constructor
  · intro h n nd hn hnd
    have hle := h n _ hn (nodes_mark hnd)
    exact hle
  · intro h n nd' hn hnd'
    obtain ⟨nd, hnd, rfl⟩ := nodes_mark_iff.mp hnd'
    exact h n nd hn hnd

/-- **When work bounds span.**  After `k` critical path metrics the graph is
still one to be measured, and work bounds span on it if and only if there was
no such metric, or no node has taken any time. -/
theorem workBoundsSpan_iff (hg : g.Weighted) (hf : g.Fresh) (k : ℕ) :
    ∃ g₁, afterCritical k g = some g₁ ∧ g₁.Weighted ∧ (g₁.WorkBoundsSpan ↔ k = 0 ∨ g.Idle) := by
  rcases k with - | k
  · exact ⟨g, rfl, hg, iff_of_true (hg.workBoundsSpan hf) (.inl rfl)⟩
  · obtain ⟨m, h1, h2⟩ := afterCritical_succ hg.closed hf k
    refine ⟨_, h1, hg.mark, ?_⟩
    rw [hg.mark.workBoundsSpan_iff_of_zero h2, idle_mark]
    simp

theorem diamond_weighted : diamond.Weighted :=
  ⟨diamond_closed, diamond_mirrored, diamond_acyclic, diamond_nonneg, by simp [diamond],
    by decide⟩

theorem workBoundsSpan_iff_diamond :
    ∃ g₁, afterCritical 0 diamond = some g₁ ∧ g₁.Weighted ∧ g₁.WorkBoundsSpan := by
  obtain ⟨g₁, h1, h2, h3⟩ := workBoundsSpan_iff diamond_weighted diamond_fresh 0
  exact ⟨g₁, h1, h2, h3.mpr (.inl rfl)⟩

/-- On the sample as the first metric leaves it, the second one computes 0,
although a node has taken the time 3. -/
theorem diamond_marked_zero :
    ∃ g₁ g₂ cp nd, afterCritical 1 diamond = some g₁ ∧ g₁.Weighted ∧
      g₁.getMetric .new = some (g₂, cp) ∧ cp.timeLen = 0 ∧ g₁.Present 2 ∧
      g₁.nodes 2 = some nd ∧ nd.totalTime = 3 ∧ ¬g₁.WorkBoundsSpan := by
  obtain ⟨m, h1, h2⟩ := afterCritical_succ diamond_closed diamond_fresh 0
  have hnode : (diamond.mark m).nodes 2
      = some ((Node.onData fun d => d.mark (m 2))
        { Node.new 2 .impTask 3 with entryEdges := [⟨0, 2⟩], exitEdges := [⟨2, 3⟩] }) := rfl
  have hpres : (diamond.mark m).Present 2 := by simp [Present, diamond]
  refine ⟨_, _, _, _, h1, diamond_weighted.mark, h2, rfl, hpres, hnode, rfl, ?_⟩
  rw [diamond_weighted.mark.workBoundsSpan_iff_of_zero h2]
  intro hidle
  exact absurd (hidle 2 _ hpres hnode) (by norm_num [Node.onData, Node.new, NodeData.mark])

/-! ### Tasks on the critical path -/

/-- A path of an acyclic graph has at most as many nodes as the graph. -/
theorem IsPath.length_le_nodes (hp : g.IsPath p) (hac : Paths.Acyclic g.Within) :
    p.length ≤ g.graphNodes.entries.length := by
  have hsub := List.subperm_of_subset (hp.nodup hac)
    fun w hw => (by simpa [Present] using hp.2 w hw : w ∈ g.graphNodes.entries.map Prod.snd)
  simpa using hsub.length_le

/-- A path through all nodes has at least as many, if every node has one key. -/
theorem nodes_le_length (hkeys : (g.graphNodes.entries.map Prod.snd).Nodup)
    (hall : ∀ n, g.Present n → n ∈ p) : g.graphNodes.entries.length ≤ p.length := by
  have hsub := List.subperm_of_subset hkeys fun w hw => hall w (by simpa [Present] using hw)
  simpa using hsub.length_le

/-- In a graph with a node, 0 is not the greatest number of nodes on a path: the node
alone is a path. -/
theorem not_isGreatest_zero (hne : g.graphNodes.entries ≠ []) :
    ¬IsGreatest {k : ℤ | ∃ p, g.IsPath p ∧ (p.length : ℤ) = k} 0 := by
  intro hmax
  obtain ⟨a, ha⟩ := List.exists_mem_of_ne_nil _ hne
  have hpath : g.IsPath [a.2] := ⟨List.isChain_singleton a.2, by simpa using ⟨a.1, ha⟩⟩
  have hle := hmax.2 ⟨[a.2], hpath, rfl⟩
  simp at hle

/-- **The critical path length is one less than the number of tasks** of a
longest path, on every non-empty acyclic graph that no metric has marked; so it
is never that number, and never the number of tasks of a graph that is a single
chain.  Nor is it on a graph that earlier metrics have marked, where it is 0. -/
theorem len_never_tasks (hc : g.Closed) (hm : g.Mirrored) (hac : Paths.Acyclic g.Within)
    (hf : g.Fresh) (hne : g.graphNodes.entries ≠ []) :
    (∃ g' cp tt, g.getMetric .new = some (g', cp) ∧ g.totalTimeInit = some tt ∧
      IsGreatest {k : ℤ | ∃ p, g.IsPath p ∧ (p.length : ℤ) = k} (cp.len + 1) ∧
      ¬IsGreatest {k : ℤ | ∃ p, g.IsPath p ∧ (p.length : ℤ) = k} cp.len ∧
      ((g.graphNodes.entries.map Prod.snd).Nodup →
        (∃ p, g.IsPath p ∧ ∀ n, g.Present n → n ∈ p) → cp.len ≠ tt.nodeTimesArr.length)) ∧
    ∀ k, ∃ g₁ g' cp tt, afterCritical (k + 1) g = some g₁ ∧
      g₁.getMetric .new = some (g', cp) ∧ g₁.totalTimeInit = some tt ∧
      ¬IsGreatest {k : ℤ | ∃ p, g₁.IsPath p ∧ (p.length : ℤ) = k} cp.len ∧
      cp.len ≠ tt.nodeTimesArr.length := by
  refine ⟨?_, fun k => ?_⟩
  · obtain ⟨g', cp, m, post, l, s, q, heq, h⟩ := computeCriticalPath_computed hc hf
    obtain ⟨tt, h1, -, h2⟩ := hc.totalTimeInit
    have hl : l ≠ [] := by
      obtain ⟨a, ha⟩ := List.exists_mem_of_ne_nil _ hne
      exact List.ne_nil_of_mem (h.sorted.mem_list.mpr ⟨a.1, ha⟩)
    have hmax : IsGreatest {k : ℤ | ∃ p, g.IsPath p ∧ (p.length : ℤ) = k} (cp.len + 1) := by
      refine ⟨h.exists_length hc hm hac hl, ?_⟩
      rintro k ⟨p, hp, rfl⟩
      exact h.length_le hc hm hac hp
    refine ⟨g', cp, tt, getMetric_new.trans heq, h1, hmax, fun hlen => ?_, ?_⟩
    · have := hmax.unique hlen
      omega
    · rintro hkeys ⟨p, hp, hall⟩ hlen
      -- the chain has as many nodes as the graph, and no path has more
      have hcard := nodes_le_length hkeys hall
      have := hmax.2 ⟨p, hp, rfl⟩
      obtain ⟨p', hp', hp''⟩ := hmax.1
      have hle := hp'.length_le_nodes hac
      omega
  · obtain ⟨m, h1, h2⟩ := afterCritical_succ hc hf k
    obtain ⟨tt, h3, -, h4⟩ := (hc.mark (m := m)).totalTimeInit
    refine ⟨_, _, _, tt, h1, h2, h3, not_isGreatest_zero hne, ?_⟩
    have hpos : 0 < g.graphNodes.entries.length := List.length_pos_of_ne_nil hne
    rw [h4, graphNodes_mark]
    exact fun hlen => absurd (Nat.cast_eq_zero.mp hlen.symm) hpos.ne'

theorem len_never_tasks_diamond :
    ∃ g' cp, diamond.getMetric .new = some (g', cp) ∧
      ¬IsGreatest {k : ℤ | ∃ p, diamond.IsPath p ∧ (p.length : ℤ) = k} cp.len := by
  obtain ⟨⟨g', cp, -, h1, -, -, h2, -⟩, -⟩ := len_never_tasks diamond_closed diamond_mirrored
    diamond_acyclic diamond_fresh (by simp [diamond])
  exact ⟨g', cp, h1, h2⟩

/-- The longest path of the sample has three tasks; the metric says 2. -/
theorem diamond_len_two :
    ∃ g' cp, diamond.getMetric .new = some (g', cp) ∧ cp.len = 2 ∧
      ¬IsGreatest {k : ℤ | ∃ p, diamond.IsPath p ∧ (p.length : ℤ) = k} cp.len := by
  have hlen : (diamond.getMetric .new).map (fun r => r.2.len) = some 2 := by decide +kernel
  obtain ⟨⟨g', cp⟩, h1, h2⟩ := Option.map_eq_some_iff.mp hlen
  refine ⟨g', cp, h1, h2, fun hmax => ?_⟩
  have hpath : diamond.IsPath [0, 1, 3] := by
    refine ⟨?_, ?_⟩
    · refine List.isChain_cons_cons.mpr ⟨⟨_, rfl, ⟨0, 1⟩, by simp, rfl⟩, ?_⟩
      exact List.isChain_cons_cons.mpr ⟨⟨_, rfl, ⟨1, 3⟩, by simp, rfl⟩, List.isChain_singleton 3⟩
    · intro n hn
      simp only [List.mem_cons, List.not_mem_nil, or_false] at hn
      obtain rfl | rfl | rfl := hn <;> simp [Present, diamond]
  have hle : (3 : ℤ) ≤ cp.len := hmax.2 ⟨[0, 1, 3], hpath, rfl⟩
  have hlen2 : cp.len = 2 := h2
  omega

end Graph

end Tdg
