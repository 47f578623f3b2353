/-
TdgTool/Finalize.lean

The metrics part of `finalize_libtdg`: build the metrics that were asked for,
initialise all of them, print all of them in order.

The metrics share the graph.  `topoSort` marks the nodes visited and nobody
resets the marks, so a second critical path metric finds no node to visit and
reports a path of time 0 and length 0; and a DOT file shows the critical nodes
only if it is written after the first critical path metric.  `Combines` states
that the metrics do not disturb one another, and `combines_iff` when this is
so.
-/
import TdgTool.CriticalPath
import TdgTool.Dot

namespace Tdg

open Text

/-! ### The metrics -/

/-- The tokens of `TDG_TOOL_METRICS` that `finalize_libtdg` knows. -/
inductive Metric
  | tim
  | cri
  | dot
  | log
  deriving DecidableEq, Repr

/-- A metric object after `init`. -/
inductive MetricObj
  | totalTime (tt : TotalTime)
  | criticalPath (cp : Graph.CriticalPath)
  | dotFile
  | logFile

/-- What a metric prints to the output stream. -/
inductive Report
  | totals (tt : TotalTime)
  | criticalPath (timeLen : ℚ) (len : ℤ)
  deriving DecidableEq, Repr

/-- The graph and the outputs so far: the output stream, `tdg.dot` and
`chunks.log`. -/
structure Printed where
  graph : Graph
  stdout : List Report := []
  dotFile : Option (List Char) := none
  logFile : Option (List Char) := none

namespace Node

/-- The line of a chunk in the log file.  Members that were never set are
written as 0. -/
def logLine (showTime : ℚ → List Char) (nd : Node) : List Char :=
  decimal nd.id ++ "  ".toList ++ showTime nd.totalTime ++ "  ".toList ++
    decimal (nd.threadId.getD 0) ++ "  ".toList ++ decimal (nd.loopCounter.getD 0) ++
    "  [".toList ++ decimal nd.lower ++ ",".toList ++ decimal nd.upper ++ "] ".toList ++
    nd.papiValsToStr " ".toList ++ "\n".toList

end Node

namespace Graph

/-- `LogFileMetric::printMetric`: the text of the file. -/
def printLogFile (g : Graph) (showTime : ℚ → List Char) : Option (List Char) := do
  let nodes ← g.nodeList
  some ((nodes.filter fun nd => nd.type = .chunkTask).flatMap (Node.logLine showTime))

/-- `new` and `Metric::init`. -/
def initMetric (g : Graph) : Metric → Option MetricObj
  | .tim => g.totalTimeInit.map .totalTime
  | .cri => some (.criticalPath .new)
  | .dot => some .dotFile
  | .log => some .logFile

/-- `Metric::printMetric`. -/
def printMetric (showTime : ℚ → List Char) (s : Printed) : MetricObj → Option Printed
  | .totalTime tt => some { s with stdout := s.stdout ++ [.totals tt] }
  | .criticalPath cp => do
      let (g, cp) ← s.graph.getMetric cp
      some { s with graph := g, stdout := s.stdout ++ [.criticalPath cp.timeLen cp.len] }
  | .dotFile => do
      let text ← s.graph.printDotFile showTime
      some { s with dotFile := some text }
  | .logFile => do
      let text ← s.graph.printLogFile showTime
      some { s with logFile := some text }

/-- The metrics part of `finalize_libtdg`. -/
def runMetrics (g : Graph) (showTime : ℚ → List Char) (tokens : List Metric) :
    Option Printed := do
  let metrics ← tokens.mapM g.initMetric
  metrics.foldlM (printMetric showTime) { graph := g }

/-! ### Metrics that do not disturb one another -/

/-- The metrics `tokens` do not disturb one another: every critical path report
is that of the metric alone, the DOT file shows the critical nodes, and the
order of the metrics does not matter. -/
structure Combines (g : Graph) (showTime : ℚ → List Char) (tokens : List Metric) : Prop where
  reports : ∀ out, g.runMetrics showTime tokens = some out → ∀ timeLen len,
    .criticalPath timeLen len ∈ out.stdout →
    ∃ alone, g.runMetrics showTime [.cri] = some alone ∧
      alone.stdout = [.criticalPath timeLen len]
  marked : ∀ out, g.runMetrics showTime tokens = some out → .cri ∈ tokens →
    ∀ text, out.dotFile = some text → ∃ g' cp, g.computeCriticalPath = some (g', cp) ∧
      g'.printDotFile showTime = some text
  perm : ∀ out tokens' out', tokens'.Perm tokens → g.runMetrics showTime tokens = some out →
    g.runMetrics showTime tokens' = some out' →
    out'.stdout.Perm out.stdout ∧ out'.dotFile = out.dotFile ∧ out'.logFile = out.logFile

/-! ### Marks and outputs -/

variable {g : Graph} {m : NodeRef → Marks} {n : NodeRef} {nd : Node}
  {showTime : ℚ → List Char} {tokens : List Metric}

theorem Listed.mark (h : g.Listed) : (g.mark m).Listed where
  ids := by
    intro a ha
    obtain ⟨nd, hnd, hid⟩ := h.ids a ha
    exact ⟨_, nodes_mark hnd, hid⟩
  exits := by
    intro n nd' hn hnd'
    obtain ⟨nd, hnd, rfl⟩ := nodes_mark_iff.mp hnd'
    exact h.exits n nd hn hnd
  single := by
    intro n nd' hn hnd'
    obtain ⟨nd, hnd, rfl⟩ := nodes_mark_iff.mp hnd'
    exact h.single n nd hn hnd

theorem nodeList_mark {ns : List Node} (h : g.nodeList = some ns) :
    ∃ ns', (g.mark m).nodeList = some ns' ∧
      List.Forall₂ (fun nd nd' : Node => ∃ k, nd' = nd.onData fun d => d.mark k) ns ns' := by
  unfold nodeList at h ⊢
  rw [graphNodes_mark]
  generalize g.graphNodes.entries = entries at h ⊢
  induction entries generalizing ns with
  | nil =>
    obtain rfl := Option.some.inj h
    exact ⟨[], rfl, .nil⟩
  | cons a l ih =>
    rw [List.mapM_cons] at h
    obtain ⟨nd, hnd, h⟩ := Option.bind_eq_some_iff.mp h
    obtain ⟨ns₁, hns, h⟩ := Option.bind_eq_some_iff.mp h
    obtain rfl := Option.some.inj h
    obtain ⟨ns', h1, h2⟩ := ih hns
    refine ⟨_ :: ns', ?_, .cons ⟨m a.2, rfl⟩ h2⟩
    rw [List.mapM_cons, nodes_mark hnd, h1]
    rfl

/-- The log file does not show the marks. -/
theorem printLogFile_mark (hc : g.Closed) (showTime : ℚ → List Char) :
    ∃ text, g.printLogFile showTime = some text ∧
      ∀ m, (g.mark m).printLogFile showTime = some text := by
  obtain ⟨ns, hns, -⟩ := nodeList_eq fun a ha => hc.node a.2 ⟨a.1, ha⟩
  refine ⟨_, by rw [printLogFile, hns]; rfl, fun m => ?_⟩
  obtain ⟨ns', hns', hmarks⟩ := nodeList_mark (m := m) hns
  rw [printLogFile, hns']
  refine congrArg some ?_
  clear hns hns'
  induction hmarks with
  | nil => rfl
  | @cons nd nd' ns ns' hnd _ ih =>
    obtain ⟨k, rfl⟩ := hnd
    have htype : (nd.onData fun d => d.mark k).type = nd.type := rfl
    have hline : (nd.onData fun d => d.mark k).logLine showTime = nd.logLine showTime := rfl
    -- only chunks have a line, and a line shows no mark
    by_cases hty : nd.type = .chunkTask
    · simp [hty, htype, hline, ih]
    · simp [hty, htype, ih]

/-- The DOT file shows only the critical flags of the marks. -/
theorem printDotFile_mark (h : g.Listed) (hm : ∀ n nd, g.Present n → g.nodes n = some nd →
    (m n).isCritical = nd.isCritical) :
    (g.mark m).printDotFile showTime = g.printDotFile showTime := by
  have hnode : ∀ n, g.Present n → (g.mark m).printNode showTime n = g.printNode showTime n := by
    intro n hn
    obtain ⟨nd, hnd, -⟩ := h.entry (h.entry_idOf hn)
    have hedge : ∀ v, ((g.mark m).nodes v).bind (fun adj : Node =>
          some (decimal nd.id ++ " -> ".toList ++ decimal adj.id ++ ";\n".toList))
        = (g.nodes v).bind fun adj : Node =>
          some (decimal nd.id ++ " -> ".toList ++ decimal adj.id ++ ";\n".toList) := by
      intro v
      rcases hv : g.nodes v with - | nv
      · simp [mark, hv]
      · rw [nodes_mark hv]
        rfl
    -- of the marks only the critical flag reaches the text of a node
    have hprint : (nd.onData fun d => d.mark (m n)).printToStream showTime
        = nd.printToStream showTime := by
      have hcrit : (nd.onData fun d => d.mark (m n)).isCritical = nd.isCritical := hm n nd hn hnd
      unfold Node.printToStream
      rw [hcrit]
      rfl
    have hexits : (nd.onData fun d => d.mark (m n)).exitEdges = nd.exitEdges := rfl
    have hid : (nd.onData fun d => d.mark (m n)).id = nd.id := rfl
    rw [printNode, printNode, nodes_mark hnd, hnd]
    simp only [Option.bind_eq_bind, Option.bind_some, hexits, hprint, hid, hedge]
  have hlist : ∀ ns : List NodeRef, (∀ n ∈ ns, g.Present n) →
      ns.mapM ((g.mark m).printNode showTime) = ns.mapM (g.printNode showTime) := by
    intro ns hns
    induction ns with
    | nil => rfl
    | cons n ns ih =>
      rw [List.mapM_cons, List.mapM_cons, hnode n (hns n List.mem_cons_self),
        ih fun w hw => hns w (List.mem_cons_of_mem n hw)]
  rw [printDotFile, printDotFile, graphNodes_mark, hlist _ fun n hn => by simpa [Present] using hn]

/-! ### The outputs of a run -/

/-- A graph that may be printed and measured: what the metrics assume of a task
graph. -/
structure Measurable (g : Graph) : Prop where
  closed : g.Closed
  mirrored : g.Mirrored
  acyclic : Paths.Acyclic g.Within
  fresh : g.Fresh
  uncritical : g.Uncritical
  listed : g.Listed

/-- The reports of `k` critical path metrics. -/
def criReports (cp : CriticalPath) : ℕ → List Report
  | 0 => []
  | k + 1 => .criticalPath cp.timeLen cp.len :: List.replicate k (.criticalPath 0 0)

/-- What can be said of the outputs after `tokens`, when the critical path
computation leads to `g'` and `cp`. -/
structure Outcome (g g' : Graph) (cp : CriticalPath) (tt : TotalTime)
    (showTime : ℚ → List Char) (tokens : List Metric) (s : Printed) : Prop where
  graph : s.graph = if .cri ∈ tokens then g' else g
  stdout : s.stdout.Perm
    (List.replicate (tokens.count .tim) (.totals tt) ++ criReports cp (tokens.count .cri))
  dot : .dot ∉ tokens ∧ s.dotFile = none ∨ ∃ a b, tokens = a ++ .dot :: b ∧ .dot ∉ b ∧
    s.dotFile = (if .cri ∈ a then g' else g).printDotFile showTime
  log : s.logFile = if .log ∈ tokens then g.printLogFile showTime else none

section Run

variable {g' : Graph} {cp : CriticalPath} {tt : TotalTime} {s : Printed}

/-- No node leads to another. -/
def Edgeless (g : Graph) : Prop := ∀ u v, g.Present u → ¬g.Adj u v

/-- The graph as the critical path metrics leave it, and what the first of them
finds. -/
structure Settled (g g' : Graph) (cp : CriticalPath) : Prop where
  first : g.computeCriticalPath = some (g', cp)
  second : g'.computeCriticalPath = some (g', {})
  marks : ∃ m, g' = g.mark m
  time_iff : cp.timeLen = 0 ↔ g.Idle
  len_iff : cp.len = 0 ↔ g.Edgeless
  unmarked : g.Idle → ∀ n nd, g.Present n → g'.nodes n = some nd → nd.isCritical = false
  marked : ¬g.Idle → ∃ n nd, g.Present n ∧ g'.nodes n = some nd ∧ nd.isCritical = true

theorem Computed.timeLen_eq_zero_iff {m : NodeRef → Marks} {post l q : List NodeRef} {s : Scan}
    (h : Computed g g' cp m post l s q) (hg : g.Measurable) : cp.timeLen = 0 ↔ g.Idle := by
  constructor
  · intro hzero n nd hn hnd
    -- a single node is a path already
    have hpath : g.IsPath [n] := ⟨List.isChain_singleton n, by simpa using hn⟩
    have hle := h.timeOf_le hg.closed hg.mirrored hg.acyclic hpath (by simp)
    rw [hzero] at hle
    simpa [timeOf, totalTime_eq hnd] using hle
  · intro hidle
    have hle : cp.timeLen ≤ 0 := by
      rw [← h.sum]
      refine (List.sum_le_card_nsmul _ 0 fun t ht => ?_).trans (by simp)
      obtain ⟨n, hn, rfl⟩ := List.mem_map.mp ht
      obtain ⟨nd, hnd⟩ := hg.closed.node n (h.mem n hn)
      rw [totalTime_eq hnd]
      exact hidle n nd (h.mem n hn) hnd
    rcases h.inv.last with ⟨-, hzero⟩ | ⟨x, -, -, h1, h2⟩
    · exact hzero
    · rw [h1] at hle
      exact absurd h2 (not_lt.mpr hle)

theorem Computed.len_eq_zero_iff {m : NodeRef → Marks} {post l q : List NodeRef} {s : Scan}
    (h : Computed g g' cp m post l s q) (hg : g.Measurable) : cp.len = 0 ↔ g.Edgeless := by
  constructor
  · intro hzero u v hu huv
    have hv := hg.closed.present_of_adj hu huv
    -- the ends of an edge are a path of length 1
    have hpath : g.IsPath [u, v] :=
      ⟨List.isChain_cons_cons.mpr ⟨huv, List.isChain_singleton v⟩, by simp [hu, hv]⟩
    have hle := h.length_le hg.closed hg.mirrored hg.acyclic hpath
    rw [hzero] at hle
    simp at hle
  · intro hedge
    rcases h.inv.len_eq with hzero | ⟨x, hx, -⟩
    · exact hzero
    · obtain ⟨p, hp, hlen⟩ := h.exists_length hg.closed hg.mirrored hg.acyclic
        (List.ne_nil_of_mem hx)
      have hnonneg := h.inv.len_nonneg
      obtain - | ⟨a, - | ⟨b, p⟩⟩ := p
      · simp at hlen
        omega
      · simp at hlen
        omega
      · exact absurd (List.isChain_cons_cons.mp hp.1).1 (hedge a b (hp.2 a (by simp)))

theorem Measurable.settled (h : g.Measurable) : ∃ g' cp, Settled g g' cp := by
  obtain ⟨g', cp, m, post, l, s, q, heq, hcomp⟩ := computeCriticalPath_computed h.closed h.fresh
  have htime := hcomp.timeLen_eq_zero_iff h
  have hcrit : ∀ {n nd}, g.Present n → g'.nodes n = some nd → (nd.isCritical = true ↔ n ∈ q) :=
    fun hn hnd => hcomp.isCritical_iff h.closed h.uncritical hn hnd
  have hsum := hcomp.sum
  refine ⟨g', cp, heq, ?_, ⟨_, hcomp.graph⟩, htime, hcomp.len_eq_zero_iff h, ?_, ?_⟩
  · rw [hcomp.graph]
    refine computeCriticalPath_visited h.closed.mark fun n nd' hn hnd' => ?_
    obtain ⟨nd, hnd, rfl⟩ := nodes_mark_iff.mp hnd'
    obtain ⟨vis, hvis, -, rfl⟩ := hcomp.sorted.marks
    exact hvis n hn
  -- no time was improved, so there is no last node to follow back from
  · intro hidle n nd hn hnd
    have hq : q = [] := by
      have htrail := hcomp.trail
      rcases hcomp.inv.last with ⟨hnone, -⟩ | ⟨x, -, -, h1, h2⟩
      · rw [hnone] at htrail
        cases htrail
        rfl
      · rw [← h1, htime.mpr hidle] at h2
        exact absurd h2 (lt_irrefl _)
    refine Bool.eq_false_iff.mpr fun hc => ?_
    have := (hcrit hn hnd).mp hc
    rw [hq] at this
    cases this
  · intro hidle
    -- the trail sums to the time of the path, which is not 0
    obtain - | ⟨n, q⟩ := q
    · exact absurd (htime.mp (by simpa using hsum.symm)) hidle
    · have hn := hcomp.mem n List.mem_cons_self
      obtain ⟨nd, hnd⟩ := h.closed.node n hn
      have hnd' : ∃ nd', g'.nodes n = some nd' := by
        rw [hcomp.graph]
        exact ⟨_, nodes_mark hnd⟩
      obtain ⟨nd', hnd'⟩ := hnd'
      exact ⟨n, nd', hn, hnd', (hcrit hn hnd').mpr List.mem_cons_self⟩

theorem criReports_succ (cp : CriticalPath) (k : ℕ) :
    (criReports cp k ++ [if k = 0 then Report.criticalPath cp.timeLen cp.len
      else .criticalPath 0 0]).Perm (criReports cp (k + 1)) := by
  rcases k with - | k
  · exact .refl _
  · simp only [criReports, Nat.add_eq_zero_iff, one_ne_zero, and_false, if_false, List.cons_append]
    rw [← List.replicate_succ']

/-- **One metric.** -/
theorem Outcome.step (hg : g.Measurable) (hS : Settled g g' cp) (htt : g.totalTimeInit = some tt)
    (htime : ∀ t, '"' ∉ showTime t) (h : Outcome g g' cp tt showTime tokens s) (t : Metric) :
    ∃ obj s', g.initMetric t = some obj ∧ printMetric showTime s obj = some s' ∧
      Outcome g g' cp tt showTime (tokens ++ [t]) s' := by
  obtain ⟨mk, hmk⟩ := hS.marks
  cases t with
  | tim =>
    refine ⟨_, _, by rw [initMetric, htt]; rfl, rfl, ?_, ?_, ?_, ?_⟩
    · simpa using h.graph
    · simp only [List.count_append, List.count_singleton_self]
      rw [List.count_singleton, if_neg (by decide), Nat.add_zero, List.replicate_succ]
      refine (h.stdout.append_right _).trans ?_
      refine (List.perm_append_comm).trans ?_
      simp
    · exact h.dot.imp (fun h1 => ⟨by simp [h1.1], h1.2⟩) fun ⟨a, b, h1, h2, h3⟩ =>
        ⟨a, b ++ [.tim], by simp [h1], by simp [h2], h3⟩
    · simpa using h.log
  | cri =>
    -- the first metric computes the path, the later ones find all nodes visited
    have hcomp : ∃ r, s.graph.getMetric .new = some (g', r) ∧
        (.criticalPath r.timeLen r.len : Report)
          = if tokens.count .cri = 0 then .criticalPath cp.timeLen cp.len
            else .criticalPath 0 0 := by
      rw [getMetric_new, h.graph]
      by_cases hcri : .cri ∈ tokens
      · have hpos : ¬tokens.count .cri = 0 := by simpa [List.count_eq_zero] using hcri
        exact ⟨{}, by rw [if_pos hcri]; exact hS.second, by rw [if_neg hpos]⟩
      · have hzero : tokens.count .cri = 0 := by simpa [List.count_eq_zero] using hcri
        exact ⟨cp, by rw [if_neg hcri]; exact hS.first, by rw [if_pos hzero]⟩
    obtain ⟨r, h1, h2⟩ := hcomp
    refine ⟨_, _, rfl, by rw [printMetric, h1]; rfl, ?_, ?_, ?_, ?_⟩
    · simp
    · simp only [List.count_append, List.count_singleton_self]
      rw [List.count_singleton, if_neg (by decide), Nat.add_zero, h2]
      refine (h.stdout.append_right _).trans ?_
      rw [List.append_assoc]
      exact List.Perm.append_left _ (criReports_succ cp _)
    · exact h.dot.imp (fun h1 => ⟨by simp [h1.1], h1.2⟩) fun ⟨a, b, h1, h2, h3⟩ =>
        ⟨a, b ++ [.cri], by simp [h1], by simp [h2], h3⟩
    · simpa using h.log
  | dot =>
    -- the file is overwritten, with the flags that are set by now
    have htext : ∃ text, s.graph.printDotFile showTime = some text := by
      rw [h.graph]
      split_ifs
      · rw [hmk]
        obtain ⟨text, htext, -⟩ := read_printDotFile hg.listed.mark htime
        exact ⟨text, htext⟩
      · obtain ⟨text, htext, -⟩ := read_printDotFile hg.listed htime
        exact ⟨text, htext⟩
    obtain ⟨text, htext⟩ := htext
    refine ⟨_, _, rfl, by rw [printMetric, htext]; rfl, ?_, ?_, ?_, ?_⟩
    · simpa using h.graph
    · simpa [List.count_singleton] using h.stdout
    · exact .inr ⟨tokens, [], rfl, by simp, by rw [← h.graph]; exact htext.symm⟩
    · simpa using h.log
  | log =>
    obtain ⟨text, hlog, hlog'⟩ := printLogFile_mark hg.closed showTime
    have htext : s.graph.printLogFile showTime = some text := by
      rw [h.graph, hmk]
      split_ifs
      · exact hlog' mk
      · exact hlog
    refine ⟨_, _, rfl, by rw [printMetric, htext]; rfl, ?_, ?_, ?_, ?_⟩
    · simpa using h.graph
    · simpa [List.count_singleton] using h.stdout
    · exact h.dot.imp (fun h1 => ⟨by simp [h1.1], h1.2⟩) fun ⟨a, b, h1, h2, h3⟩ =>
        ⟨a, b ++ [.log], by simp [h1], by simp [h2], h3⟩
    · simp [hlog]

/-- **All metrics.** -/
theorem runMetrics_outcome (hg : g.Measurable) (hS : Settled g g' cp)
    (htt : g.totalTimeInit = some tt) (htime : ∀ t, '"' ∉ showTime t) (tokens : List Metric) :
    ∃ out, g.runMetrics showTime tokens = some out ∧
      Outcome g g' cp tt showTime tokens out := by
  have hrun : ∃ objs out, tokens.mapM g.initMetric = some objs ∧
      objs.foldlM (printMetric showTime) { graph := g } = some out ∧
      Outcome g g' cp tt showTime tokens out := by
    -- from the front: what is printed depends on the metrics before
    induction tokens using List.reverseRecOn with
    | nil =>
      exact ⟨[], { graph := g }, rfl, rfl, rfl, .refl _, .inl ⟨by simp, rfl⟩, rfl⟩
    | append_singleton tokens t ih =>
      obtain ⟨objs, out, h1, h2, h3⟩ := ih
      obtain ⟨obj, out', h4, h5, h6⟩ := h3.step hg hS htt htime t
      refine ⟨objs ++ [obj], out', ?_, ?_, h6⟩
      · simp [List.mapM_append, h1, h4]
      · simp [List.foldlM_append, h2, h5]
  obtain ⟨objs, out, h1, h2, h3⟩ := hrun
  exact ⟨out, by rw [runMetrics, h1]; exact h2, h3⟩

/-! ### When the metrics combine -/

/-- The texts of the DOT file before and after the critical path metric. -/
theorem Settled.dot_eq_iff (hS : Settled g g' cp) (hg : g.Measurable)
    (htime : ∀ t, '"' ∉ showTime t) :
    g'.printDotFile showTime = g.printDotFile showTime ↔ g.Idle := by
  obtain ⟨mk, hmk⟩ := hS.marks
  constructor
  · intro heq
    by_contra hidle
    obtain ⟨n, nd', hn, hnd', hcrit⟩ := hS.marked hidle
    have hL' : g'.Listed := hmk ▸ hg.listed.mark
    obtain ⟨text, h1, h2⟩ := read_printDotFile hg.listed htime
    obtain ⟨text', h3, h4⟩ := read_printDotFile hL' htime
    obtain rfl : text' = text := Option.some.inj (h3.symm.trans (heq.trans h1))
    have hsts : g'.stmts = g.stmts := Option.some.inj (h4.symm.trans h2)
    have hn' : g'.Present n := by
      rw [hmk]
      exact hn
    -- the same text has the same node statements, and before the metric none is critical
    have hmem : .node (g'.idOf n) nd'.type true ∈ g.stmts := by
      rw [← hsts]
      exact hL'.mem_node.mpr ⟨n, nd', hL'.entry_idOf hn', hnd', rfl, hcrit⟩
    obtain ⟨k, nd, hk, hnd, -, hcrit'⟩ := hg.listed.mem_node.mp hmem
    rw [hg.uncritical k nd ⟨_, hk⟩ hnd] at hcrit'
    cases hcrit'
  · intro hidle
    rw [hmk]
    refine printDotFile_mark hg.listed fun n nd hn hnd => ?_
    have hnd' : g'.nodes n = some (nd.onData fun d => d.mark (mk n)) := by
      rw [hmk]
      exact nodes_mark hnd
    rw [hg.uncritical n nd hn hnd]
    exact hS.unmarked hidle n _ hn hnd'

/-- The report of a critical path metric is the first one, or that of a metric
behind another one. -/
theorem Outcome.mem_criticalPath (h : Outcome g g' cp tt showTime tokens s) {timeLen : ℚ}
    {len : ℤ} : .criticalPath timeLen len ∈ s.stdout ↔
      0 < tokens.count .cri ∧ timeLen = cp.timeLen ∧ len = cp.len ∨
      1 < tokens.count .cri ∧ timeLen = 0 ∧ len = 0 := by
  rw [h.stdout.mem_iff, List.mem_append]
  have htot : Report.criticalPath timeLen len
      ∉ List.replicate (tokens.count .tim) (Report.totals tt) := by
    intro hmem
    cases List.eq_of_mem_replicate hmem
  obtain ⟨k, hk⟩ : ∃ k, tokens.count .cri = k := ⟨_, rfl⟩
  rw [hk]
  -- the first of the metrics reports the path, and the others 0
  rcases k with - | k
  · simp [criReports, htot]
  · simp only [htot, false_or, criReports, List.mem_cons, List.mem_replicate,
      Report.criticalPath.injEq]
    constructor
    · rintro (⟨h1, h2⟩ | ⟨h1, h2, h3⟩)
      · exact .inl ⟨by omega, h1, h2⟩
      · exact .inr ⟨by omega, h2, h3⟩
    · rintro (⟨-, h1, h2⟩ | ⟨h1, h2, h3⟩)
      · exact .inl ⟨h1, h2⟩
      · exact .inr ⟨by omega, h2, h3⟩

/-- The DOT file that is left. -/
theorem Outcome.dotFile_eq (h : Outcome g g' cp tt showTime tokens s)
    (hcond : .cri ∉ tokens ∨ .dot ∉ tokens ∨
      g'.printDotFile showTime = g.printDotFile showTime) :
    s.dotFile = if .dot ∈ tokens then g.printDotFile showTime else none := by
  rcases h.dot with ⟨h1, h2⟩ | ⟨a, b, rfl, -, h2⟩
  · rw [if_neg h1, h2]
  · have hdot : Metric.dot ∈ a ++ .dot :: b := by simp
    rw [if_pos hdot, h2]
    rcases hcond with hcri | hno | htext
    · rw [if_neg fun hmem => hcri (List.mem_append_left _ hmem)]
    · exact absurd hdot hno
    · split_ifs
      · exact htext
      · rfl

/-- A DOT file written last shows the critical nodes. -/
theorem Outcome.dotFile_last (h : Outcome g g' cp tt showTime (tokens ++ [.dot]) s)
    (hcri : .cri ∈ tokens) : s.dotFile = g'.printDotFile showTime := by
  rcases h.dot with ⟨h1, -⟩ | ⟨a, b, h1, h2, h3⟩
  · exact absurd (by simp) h1
  · rcases List.eq_nil_or_concat b with rfl | ⟨b, z, rfl⟩
    · obtain ⟨rfl, -⟩ := List.append_inj' h1 rfl
      rw [h3, if_pos hcri]
    · have hsplit : tokens ++ [.dot] = (a ++ .dot :: b) ++ [z] := by simpa using h1
      obtain ⟨-, hz⟩ := List.append_inj' hsplit rfl
      obtain rfl : .dot = z := by simpa using hz
      exact absurd (by simp) h2

/-- A DOT file written before any critical path metric does not. -/
theorem Outcome.dotFile_first (h : Outcome g g' cp tt showTime tokens s) (hdot : .dot ∈ tokens)
    (hpair : tokens.Pairwise fun x y => x = .cri → y ≠ .dot) :
    s.dotFile = g.printDotFile showTime := by
  rcases h.dot with ⟨h1, -⟩ | ⟨a, b, rfl, -, h3⟩
  · exact absurd hdot h1
  · have hcri : .cri ∉ a := fun hmem =>
      (List.pairwise_append.mp hpair).2.2 .cri hmem .dot List.mem_cons_self rfl rfl
    rw [h3, if_neg hcri]

theorem early_pairwise (tokens : List Metric) :
    (tokens.filter (fun t => t = .dot) ++ tokens.filter fun t => !decide (t = .dot)).Pairwise
      fun x y => x = .cri → y ≠ .dot := by
  refine List.pairwise_append.mpr ⟨?_, ?_, ?_⟩
  · refine List.pairwise_of_forall_mem_list fun x hx y _ hcri => ?_
    have hx' : x = .dot := by simpa using (List.mem_filter.mp hx).2
    rw [hx'] at hcri
    cases hcri
  · refine List.pairwise_of_forall_mem_list fun x _ y hy _ => ?_
    simpa using (List.mem_filter.mp hy).2
  · intro x hx y _ hcri
    have hx' : x = .dot := by simpa using (List.mem_filter.mp hx).2
    rw [hx'] at hcri
    cases hcri

/-- **When the metrics do not disturb one another.**  Every list of metrics
runs.  Its metrics combine if and only if it has at most one critical path
metric (or the graph has no edges and no times), and it does not have both a
critical path and a DOT file metric (or the graph has no times). -/
theorem combines_iff (hg : g.Measurable)
    (htime : ∀ t, '"' ∉ showTime t ∧ '\n' ∉ showTime t) (tokens : List Metric) :
    (∀ tokens' : List Metric, ∃ out, g.runMetrics showTime tokens' = some out) ∧
      (g.Combines showTime tokens ↔
        (tokens.count .cri ≤ 1 ∨ g.Idle ∧ g.Edgeless) ∧
        (.cri ∉ tokens ∨ .dot ∉ tokens ∨ g.Idle)) := by
  have hquote := fun t => (htime t).1
  obtain ⟨g', cp, hS⟩ := hg.settled
  obtain ⟨tt, htt⟩ : ∃ tt, g.totalTimeInit = some tt := by
    obtain ⟨nodes, hnodes, -⟩ := nodeList_eq fun a ha => hg.closed.node a.2 ⟨a.1, ha⟩
    exact exists_totalTimeInit hnodes
  have hrun := runMetrics_outcome hg hS htt hquote
  have hout : ∀ {tokens out}, g.runMetrics showTime tokens = some out →
      Outcome g g' cp tt showTime tokens out := by
    intro tokens out h
    obtain ⟨out', h1, h2⟩ := hrun tokens
    rwa [Option.some.inj (h.symm.trans h1)]
  obtain ⟨alone, halone, houta⟩ := hrun [.cri]
  have hstdout : alone.stdout = [.criticalPath cp.timeLen cp.len] := by
    simpa [criReports] using houta.stdout
  refine ⟨fun tokens' => (hrun tokens').imp fun _ h => h.1, fun hC => ⟨?_, ?_⟩, ?_⟩
  · -- a second critical path metric reports 0 and 0
    by_contra hcond
    obtain ⟨hcount, hgraph⟩ := not_or.mp hcond
    obtain ⟨out, h1, h2⟩ := hrun tokens
    obtain ⟨alone', h3, h4⟩ := hC.reports out h1 0 0
      (h2.mem_criticalPath.mpr (.inr ⟨by omega, rfl, rfl⟩))
    obtain rfl : alone = alone' := Option.some.inj (halone.symm.trans h3)
    rw [hstdout] at h4
    simp only [List.cons.injEq, Report.criticalPath.injEq, and_true] at h4
    exact hgraph ⟨hS.time_iff.mp h4.1, hS.len_iff.mp h4.2⟩
  · -- with the DOT file first, and with the critical path first
    by_contra hcond
    obtain ⟨hcri, hcond⟩ := not_or.mp hcond
    obtain ⟨hdot, hidle⟩ := not_or.mp hcond
    have hcri := not_not.mp hcri
    have hdot := not_not.mp hdot
    obtain ⟨out, h1, -⟩ := hrun tokens
    obtain ⟨late, h2, h3⟩ := hrun (tokens.erase .dot ++ [.dot])
    obtain ⟨early, h4, h5⟩ :=
      hrun (tokens.filter (fun t => t = .dot) ++ tokens.filter fun t => !decide (t = .dot))
    have hlate := (hC.perm out _ late (List.perm_append_singleton _ _ |>.trans
      (List.perm_cons_erase hdot).symm) h1 h2).2.1
    have hearly := (hC.perm out _ early (List.filter_append_perm _ tokens) h1 h4).2.1
    rw [h3.dotFile_last (by simpa [List.mem_erase_of_ne] using hcri)] at hlate
    rw [h5.dotFile_first (by simpa using hdot) (early_pairwise tokens)] at hearly
    exact hidle ((hS.dot_eq_iff hg hquote).mp (hlate.trans hearly.symm))
  · rintro ⟨hcount, hboth⟩
    have htext : .cri ∉ tokens ∨ .dot ∉ tokens ∨
        g'.printDotFile showTime = g.printDotFile showTime :=
      hboth.imp_right fun h => h.imp_right (hS.dot_eq_iff hg hquote).mpr
    refine ⟨?_, ?_, ?_⟩
    · intro out h1 timeLen len hmem
      refine ⟨alone, halone, ?_⟩
      rw [hstdout]
      rcases (hout h1).mem_criticalPath.mp hmem with ⟨-, rfl, rfl⟩ | ⟨h2, rfl, rfl⟩
      · rfl
      · obtain ⟨h3, h4⟩ := hcount.resolve_left (by omega)
        rw [hS.time_iff.mpr h3, hS.len_iff.mpr h4]
    · intro out h1 hcri text hdot
      refine ⟨g', cp, hS.first, ?_⟩
      have hfile := (hout h1).dotFile_eq htext
      by_cases hmem : .dot ∈ tokens
      · rw [if_pos hmem, hdot] at hfile
        rw [((htext.resolve_left fun h => h hcri).resolve_left fun h => h hmem), ← hfile]
      · rw [if_neg hmem, hdot] at hfile
        cases hfile
    · intro out tokens' out' hperm h1 h2
      have htext' : .cri ∉ tokens' ∨ .dot ∉ tokens' ∨
          g'.printDotFile showTime = g.printDotFile showTime := by
        rw [hperm.mem_iff, hperm.mem_iff]
        exact htext
      refine ⟨?_, ?_, ?_⟩
      · refine (hout h2).stdout.trans (List.Perm.trans ?_ (hout h1).stdout.symm)
        rw [hperm.count_eq, hperm.count_eq]
      · rw [(hout h2).dotFile_eq htext', (hout h1).dotFile_eq htext]
        simp only [hperm.mem_iff]
      · rw [(hout h2).log, (hout h1).log]
        simp only [hperm.mem_iff]

theorem diamond_measurable : diamond.Measurable :=
  ⟨diamond_closed, diamond_mirrored, diamond_acyclic, diamond_fresh, diamond_uncritical,
    diamond_listed⟩

theorem combines_iff_diamond : diamond.Combines (fun t => decimal t.num) [.tim, .cri] :=
  (combines_iff diamond_measurable
    (fun _ => ⟨notMem_decimal (by decide) (by decide), notMem_decimal (by decide) (by decide)⟩)
    [.tim, .cri]).2.mpr ⟨.inl (by decide), .inr (.inl (by decide))⟩

/-- The second of two critical path metrics reports time 0 and length 0. -/
theorem diamond_cri_cri :
    (diamond.runMetrics (fun t => decimal t.num) [.cri, .cri]).map (fun out => out.stdout)
        = some [.criticalPath 5 2, .criticalPath 0 0] ∧
      ¬diamond.Combines (fun t => decimal t.num) [.cri, .cri] := by
  have htwo : (diamond.runMetrics (fun t => decimal t.num) [.cri, .cri]).map (fun out => out.stdout)
      = some [.criticalPath 5 2, .criticalPath 0 0] := by decide +kernel
  have hone : (diamond.runMetrics (fun t => decimal t.num) [.cri]).map (fun out => out.stdout)
      = some [.criticalPath 5 2] := by decide +kernel
  refine ⟨htwo, fun hC => ?_⟩
  obtain ⟨out, h1, h2⟩ := Option.map_eq_some_iff.mp htwo
  obtain ⟨alone, h3, h4⟩ := hC.reports out h1 0 0 (by rw [h2]; simp)
  rw [h3, Option.map_some, h4] at hone
  simp at hone

end Run

end Graph

end Tdg
