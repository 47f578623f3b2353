/-
TdgTool/Stats.lean

What `TotalTimeMetric` prints about the times of the nodes: the statistics of
`compute_stats`, and the entries of `_node_times_arr` that `printMetric` reads
at fixed positions.

`compute_stats` gets the array by reference and leaves it sorted, so the
positions are ranks.  The median is computed once by `compute_stats`, which
averages the two middle entries of an even number of times, and once by
`printMetric`, which reads the upper one; `mediansAgree_iff` says when the two
are the same.
-/
import TdgTool.Metrics
import TdgTool.Lib.Sample

namespace Tdg

open Sample Doubles

/-! ### The lines about the order of the times -/

/-- The entries of `_node_times_arr` that `printMetric` prints. -/
structure OrderLines where
  minTaskTime : ℚ
  maxTaskTime : ℚ
  firstQuartile : ℚ
  secondQuartile : ℚ
  thirdQuartile : ℚ
  deriving DecidableEq, Repr

/-- The last lines of `TotalTimeMetric::printMetric`, printed for a non-empty
array.  Reading beyond the end is `none`. -/
def TotalTime.orderLines (tt : TotalTime) : Option OrderLines := do
  let arr := tt.nodeTimesArr
  let minTaskTime ← arr[0]?
  let maxTaskTime ← arr[arr.length - 1]?
  let firstQuartile ← arr[arr.length / 4]?
  let secondQuartile ← arr[arr.length / 2]?
  let thirdQuartile ← arr[arr.length * 3 / 4]?
  some ⟨minTaskTime, maxTaskTime, firstQuartile, secondQuartile, thirdQuartile⟩

/-- `Median time`. -/
def TotalTime.medianTime (tt : TotalTime) : Option ℚ := tt.stats.map Stats.median

/-- `2nd quartile (median)`. -/
def TotalTime.secondQuartile (tt : TotalTime) : Option ℚ :=
  tt.orderLines.map OrderLines.secondQuartile

/-- The times that `TotalTimeMetric::init` collects. -/
def nodeTimes (nodes : List Node) : List ℚ := nodes.map fun nd => nd.totalTime

/-! ### The array after `init` -/

variable {g : Graph} {nodes : List Node} {tt : TotalTime} {times : List ℚ}

theorem Graph.totalTimeInit_of_ne_nil (hnodes : g.nodeList = some nodes) (hne : nodes ≠ []) :
    ∃ tt, g.totalTimeInit = some tt ∧ tt.stats = some (computeStats (nodeTimes nodes)) ∧
      tt.nodeTimesArr = sort (nodeTimes nodes) := by
  have hpos : 0 < (nodes.map fun nd => nd.totalTime).length := by
    simpa using List.length_pos_iff.mpr hne
  rw [Graph.totalTimeInit, Graph.totalTimeInitIn, hnodes]
  exact ⟨_, rfl, if_pos hpos, by simp only [if_pos hpos]; rfl⟩

/-- The positions that `printMetric` reads, with the length of the array. -/
def readPositions (n : ℕ) : List ℕ := [0, n / 4, n / 2, n * 3 / 4, n - 1]

theorem lt_of_mem_readPositions {n i : ℕ} (hn : 0 < n) (hi : i ∈ readPositions n) : i < n := by
  simp only [readPositions, List.mem_cons, List.not_mem_nil, or_false] at hi
  omega

/-- The positions are in range, so the lines are printed. -/
theorem TotalTime.orderLines_eq (hn : 0 < tt.nodeTimesArr.length) :
    tt.orderLines = some
      { minTaskTime := tt.nodeTimesArr[0]
        maxTaskTime := tt.nodeTimesArr[tt.nodeTimesArr.length - 1]
        firstQuartile := tt.nodeTimesArr[tt.nodeTimesArr.length / 4]
        secondQuartile := tt.nodeTimesArr[tt.nodeTimesArr.length / 2]
        thirdQuartile := tt.nodeTimesArr[tt.nodeTimesArr.length * 3 / 4] } := by
  have hread : ∀ i (hi : i < tt.nodeTimesArr.length), tt.nodeTimesArr[i]? =
      some tt.nodeTimesArr[i] := fun i hi => List.getElem?_eq_getElem hi
  unfold orderLines
  simp only [hread _ (show 0 < tt.nodeTimesArr.length by omega),
    hread _ (show tt.nodeTimesArr.length - 1 < tt.nodeTimesArr.length by omega),
    hread _ (show tt.nodeTimesArr.length / 4 < tt.nodeTimesArr.length by omega),
    hread _ (show tt.nodeTimesArr.length / 2 < tt.nodeTimesArr.length by omega),
    hread _ (show tt.nodeTimesArr.length * 3 / 4 < tt.nodeTimesArr.length by omega)]
  rfl

/-! ### The two medians -/

/-- The median of `compute_stats` is the mean of the two middle entries, which
are one for an odd number of times. -/
theorem computeStats_median (h : times.length / 2 < (sort times).length) :
    (computeStats times).median =
      ((sort times)[times.length / 2] + (sort times)[(times.length - 1) / 2]) / 2 := by
  have hlen : (sort times).length = times.length := length_sort times
  have hlow : (times.length - 1) / 2 < (sort times).length := by omega
  have hupper : (sort times).getD (times.length / 2) 0 = (sort times)[times.length / 2] :=
    List.getD_eq_getElem _ _ h
  show (if times.length % 2 = 0 then ((sort times).getD (times.length / 2) 0 +
    (sort times).getD (times.length / 2 - 1) 0) / 2 else (sort times).getD (times.length / 2) 0) = _
  rw [hupper]
  split
  · have hidx : times.length / 2 - 1 = (times.length - 1) / 2 := by omega
    rw [hidx, List.getD_eq_getElem _ _ hlow]
  · have hidx : (times.length - 1) / 2 = times.length / 2 := by omega
    simp only [hidx]
    ring

/-- What `printMetric` reads at the middle of the array. -/
theorem TotalTime.secondQuartile_eq (hn : 0 < tt.nodeTimesArr.length) :
    tt.secondQuartile = some tt.nodeTimesArr[tt.nodeTimesArr.length / 2] := by
  rw [secondQuartile, orderLines_eq hn]
  rfl

/-- **The two medians are the same if and only if the times have a middle.** -/
theorem mediansAgree_iff (hnodes : g.nodeList = some nodes) (hne : nodes ≠ [])
    (h : g.totalTimeInit = some tt) :
    tt.medianTime = tt.secondQuartile ↔ ∃ v, IsMiddle (nodeTimes nodes) v := by
  obtain ⟨tt', htt, hstats, harr⟩ := Graph.totalTimeInit_of_ne_nil hnodes hne
  obtain rfl := Option.some.inj (htt.symm.trans h)
  have hpos : 0 < (nodeTimes nodes).length := by
    simpa [nodeTimes] using List.length_pos_iff.mpr hne
  have hmid : (nodeTimes nodes).length / 2 < (sort (nodeTimes nodes)).length := by
    rw [length_sort]
    omega
  have hsecond : tt'.secondQuartile
      = some (sort (nodeTimes nodes))[(nodeTimes nodes).length / 2] := by
    rw [TotalTime.secondQuartile_eq (by rw [harr, length_sort]; exact hpos)]
    simp only [harr, length_sort]
  rw [TotalTime.medianTime, hstats, hsecond, Option.map_some, Option.some.injEq,
    computeStats_median hmid]
  -- the mean of the two middle entries is the upper one if they are the same
  constructor
  · intro heq
    exact ⟨_, (isMiddle_iff hmid).mpr ⟨rfl, by linarith⟩⟩
  · rintro ⟨v, hv⟩
    obtain ⟨h1, h2⟩ := (isMiddle_iff hmid).mp hv
    rw [h1, h2]
    ring

/-- A root task that has created an explicit task, with their times. -/
def rootAndTask (rootTime taskTime : ℚ) : Graph where
  nodes := fun n =>
    if n = 0 then some { Node.new 0 .rootTask rootTime with exitEdges := [⟨0, 1⟩] }
    else if n = 1 then some { Node.new 1 .expTask taskTime with entryEdges := [⟨0, 1⟩] }
    else none
  graphNodes := (OrdMap.empty.insert 0 0).insert 1 1

theorem nodeList_rootAndTask (rootTime taskTime : ℚ) :
    ∃ nodes, (rootAndTask rootTime taskTime).nodeList = some nodes ∧ nodes ≠ [] ∧
      nodeTimes nodes = [rootTime, taskTime] :=
  ⟨_, rfl, List.cons_ne_nil _ _, rfl⟩

theorem mediansAgree_rootAndTask :
    ∃ tt, (rootAndTask 1 1).totalTimeInit = some tt ∧ tt.medianTime = tt.secondQuartile := by
  obtain ⟨nodes, hnodes, hne, htimes⟩ := nodeList_rootAndTask 1 1
  obtain ⟨tt, htt, -, -⟩ := Graph.totalTimeInit_of_ne_nil hnodes hne
  refine ⟨tt, htt, (mediansAgree_iff hnodes hne htt).mpr ⟨1, ?_⟩⟩
  rw [htimes]
  decide +kernel

/-- With times 0 and 1 the two lines show 1/2 and 1. -/
theorem rootAndTask_medians :
    ∃ tt, (rootAndTask 0 1).totalTimeInit = some tt ∧ tt.medianTime = some (1 / 2) ∧
      tt.secondQuartile = some 1 ∧ tt.medianTime ≠ tt.secondQuartile := by
  obtain ⟨nodes, hnodes, hne, htimes⟩ := nodeList_rootAndTask 0 1
  obtain ⟨tt, htt, hstats, harr⟩ := Graph.totalTimeInit_of_ne_nil hnodes hne
  have hsort : sort ([0, 1] : List ℚ) = [0, 1] := List.mergeSort_eq_self (· ≤ ·) (by decide)
  rw [htimes] at hstats harr
  rw [hsort] at harr
  have hmedian : tt.medianTime = some (1 / 2) := by
    rw [TotalTime.medianTime, hstats, Option.map_some, computeStats_median (by rw [hsort]; decide)]
    simp [hsort]
  have hsecond : tt.secondQuartile = some 1 := by
    rw [TotalTime.secondQuartile_eq (by rw [harr]; decide)]
    simp [harr]
  refine ⟨tt, htt, hmedian, hsecond, ?_⟩
  rw [hmedian, hsecond]
  norm_num

/-! ### The order statistics of a list of times -/

/-- What the array and the printed values of a list of times are. -/
structure OrderStats (times : List ℚ) (tt : TotalTime) (st : Stats) (lines : OrderLines) :
    Prop where
  sorted : tt.nodeTimesArr.Pairwise (· ≤ ·)
  perm : tt.nodeTimesArr.Perm times
  inRange : ∀ i ∈ readPositions tt.nodeTimesArr.length, i < tt.nodeTimesArr.length
  min_le : lines.minTaskTime ≤ lines.firstQuartile
  first_le : lines.firstQuartile ≤ lines.secondQuartile
  second_le : lines.secondQuartile ≤ lines.thirdQuartile
  third_le : lines.thirdQuartile ≤ lines.maxTaskTime
  bounds : ∀ x ∈ times, lines.minTaskTime ≤ x ∧ x ≤ lines.maxTaskTime
  median : lines.minTaskTime ≤ st.median ∧ st.median ≤ lines.maxTaskTime
  avg : lines.minTaskTime ≤ st.avg ∧ st.avg ≤ lines.maxTaskTime
  variance : times.length * st.variance =
    (times.map fun x => x * x).sum - times.length * (st.avg * st.avg)

theorem computeStats_avg : (computeStats times).avg = times.sum / times.length :=
  congrArg (· / (times.length : ℚ)) (Arith.exact_sum times)

theorem computeStats_variance : (computeStats times).variance =
    (times.map fun x => (x - times.sum / times.length) * (x - times.sum / times.length)).sum /
      times.length := by
  simp only [computeStats, computeStatsIn, Arith.exact_sum, Arith.exact_sub, Arith.exact_mul,
    Arith.exact_div]

/-- The statistics do not depend on the order of the times. -/
theorem computeStats_perm {times' : List ℚ} (h : times.Perm times') :
    computeStats times = computeStats times' := by
  have hlen : times.length = times'.length := h.length_eq
  have hsum : times.sum = times'.sum := h.sum_eq
  have hsort : (times.mergeSort fun a b => a ≤ b) = times'.mergeSort fun a b => a ≤ b :=
    sort_eq_of_perm h
  have hdev : ∀ c : ℚ, (times.map fun x => (x - c) * (x - c)).sum =
      (times'.map fun x => (x - c) * (x - c)).sum := fun c => (h.map _).sum_eq
  simp only [computeStats, computeStatsIn, Arith.exact_sum, Arith.exact_sub, Arith.exact_mul,
    hlen, hsum, hdev, hsort]

theorem orderStats (hnodes : g.nodeList = some nodes) (hne : nodes ≠ []) :
    ∃ tt st lines, g.totalTimeInit = some tt ∧ tt.stats = some st ∧ tt.orderLines = some lines ∧
      OrderStats (nodeTimes nodes) tt st lines := by
  obtain ⟨tt, htt, hstats, harr⟩ := Graph.totalTimeInit_of_ne_nil hnodes hne
  have htimes : nodeTimes nodes ≠ [] := by simpa [nodeTimes] using hne
  generalize nodeTimes nodes = times at hstats harr htimes
  have hlen : tt.nodeTimesArr.length = times.length := by rw [harr, length_sort]
  have hpos : 0 < tt.nodeTimesArr.length := by
    rw [hlen]
    exact List.length_pos_iff.mpr htimes
  have hsorted : tt.nodeTimesArr.Pairwise (· ≤ ·) := harr ▸ pairwise_sort times
  have hperm : tt.nodeTimesArr.Perm times := harr ▸ sort_perm times
  have hbounds : ∀ x ∈ times, tt.nodeTimesArr[0] ≤ x ∧
      x ≤ tt.nodeTimesArr[tt.nodeTimesArr.length - 1] := by
    intro x hx
    obtain ⟨i, hi, rfl⟩ := List.getElem_of_mem (hperm.mem_iff.mpr hx)
    exact ⟨getElem_le_getElem hsorted (Nat.zero_le i) hi hpos,
      getElem_le_getElem hsorted (Nat.le_sub_one_of_lt hi) (Nat.sub_one_lt hpos.ne') hi⟩
  have hmid : times.length / 2 < (sort times).length := by
    rw [length_sort, ← hlen]
    omega
  refine ⟨tt, _, _, htt, hstats, TotalTime.orderLines_eq hpos, ?_⟩
  exact {
    sorted := hsorted
    perm := hperm
    inRange := fun i hi => lt_of_mem_readPositions hpos hi
    min_le := getElem_le_getElem hsorted (Nat.zero_le _) (by omega) hpos
    first_le := getElem_le_getElem hsorted (by omega) (by omega) (by omega)
    second_le := getElem_le_getElem hsorted (by omega) (by omega) (by omega)
    third_le := getElem_le_getElem hsorted (by omega) (by omega) (by omega)
    bounds := hbounds
    median := by
      have h1 := hbounds _ ((sort_perm times).mem_iff.mp (List.getElem_mem hmid))
      have hlow : (times.length - 1) / 2 < (sort times).length := by omega
      have h2 := hbounds _ ((sort_perm times).mem_iff.mp (List.getElem_mem hlow))
      rw [computeStats_median hmid]
      constructor <;> linarith
    avg := by
      rw [computeStats_avg]
      exact mean_mem htimes (fun x hx => (hbounds x hx).1) fun x hx => (hbounds x hx).2
    variance := by
      have hne : (times.length : ℚ) ≠ 0 := by
        exact_mod_cast (List.length_pos_iff.mpr htimes).ne'
      rw [computeStats_avg, computeStats_variance, ← sum_sq_sub_mean htimes]
      exact mul_div_cancel₀ _ hne }

/-- The order of the nodes does not matter to the metric. -/
theorem Graph.totalTimeInit_perm {g' : Graph} {nodes' : List Node}
    (hnodes : g.nodeList = some nodes) (hnodes' : g'.nodeList = some nodes')
    (h : nodes'.Perm nodes) (hne : nodes ≠ []) : g'.totalTimeInit = g.totalTimeInit := by
  have hpos : 0 < (nodes.map fun nd => nd.totalTime).length := by
    simpa using List.length_pos_iff.mpr hne
  have htimes : (nodes'.map fun nd => nd.totalTime).Perm (nodes.map fun nd => nd.totalTime) :=
    h.map _
  have hstats : computeStatsIn .exact _ = computeStatsIn .exact _ := computeStats_perm htimes
  have hkind : ∀ p : Node → Bool, (nodes'.filter p).length = (nodes.filter p).length ∧
      ((nodes'.filter p).map fun nd => nd.totalTime).sum =
        ((nodes.filter p).map fun nd => nd.totalTime).sum := fun p =>
    ⟨(h.filter p).length_eq, ((h.filter p).map _).sum_eq⟩
  rw [totalTimeInit, totalTimeInit, totalTimeInitIn, totalTimeInitIn, hnodes, hnodes']
  simp only [Option.bind_eq_bind, Option.bind_some, htimes.length_eq, if_pos hpos, hstats,
    Arith.exact_sum, (hkind _).1, (hkind _).2]

/-- **The order statistics** are those of the sorted times, and without rounding
they do not depend on the order of the nodes.  (The code counts the nodes in an
`unsigned int`; the positions are those of the code below `2 ^ 32` nodes.) -/
theorem orderStats_spec (hnodes : g.nodeList = some nodes) (hne : nodes ≠ []) :
    ∃ tt st lines, g.totalTimeInit = some tt ∧ tt.stats = some st ∧ tt.orderLines = some lines ∧
      OrderStats (nodeTimes nodes) tt st lines ∧
      ∀ (g' : Graph) (nodes' : List Node), g'.nodeList = some nodes' → nodes'.Perm nodes →
        g'.totalTimeInit = some tt := by
  obtain ⟨tt, st, lines, htt, hst, hlines, hstats⟩ := orderStats hnodes hne
  refine ⟨tt, st, lines, htt, hst, hlines, hstats, fun g' nodes' hnodes' hperm => ?_⟩
  rw [← htt]
  exact Graph.totalTimeInit_perm hnodes hnodes' hperm hne

theorem orderStats_spec_rootAndTask :
    ∃ tt st lines, (rootAndTask 0 1).totalTimeInit = some tt ∧ tt.stats = some st ∧
      tt.orderLines = some lines ∧ OrderStats [0, 1] tt st lines := by
  obtain ⟨nodes, hnodes, hne, htimes⟩ := nodeList_rootAndTask 0 1
  obtain ⟨tt, st, lines, htt, hst, hlines, hstats, -⟩ := orderStats_spec hnodes hne
  exact ⟨tt, st, lines, htt, hst, hlines, htimes ▸ hstats⟩

end Tdg
