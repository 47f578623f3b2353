/-
TdgTool/Selection.lean

Which metrics `finalize_libtdg` runs for a value of `TDG_TOOL_METRICS`.

`new Metric*[num_metrics]` leaves the slots unassigned (`none`), the tests of
the construction loop assign the slots of the known tokens, and the three loops
behind it use every slot.  A token that is not known leaves its slot as it is,
so the loops are safe for lists of known tokens only (`safeFor_iff`).  For
these the outcome is that of `Graph.runMetrics` (`finalizeMetrics_of_slots`).
-/
import TdgTool.Finalize
import TdgTool.Tokens

namespace Tdg

open Text

/-! ### The construction loop -/

namespace Metric

/-- The token that asks for a metric. -/
def name : Metric → List Char
  | .tim => "tim".toList
  | .cri => "cri".toList
  | .dot => "dot".toList
  | .log => "log".toList

/-- The known tokens. -/
def names : List (List Char) := [tim.name, cri.name, dot.name, log.name]

theorem mem_names {token : List Char} : token ∈ names ↔ ∃ m, name m = token := by
  constructor
  · intro h
    simp only [names, List.mem_cons, List.not_mem_nil, or_false] at h
    rcases h with h | h | h | h <;> exact ⟨_, h.symm⟩
  · rintro ⟨m, rfl⟩
    cases m <;> simp [names]

end Metric

/-- One round of the construction loop: four tests, none of which excludes
another, and no default. -/
def assignSlot (slot : Option Metric) (token : List Char) : Option Metric :=
  let slot := if token = "tim".toList then some .tim else slot
  let slot := if token = "cri".toList then some .cri else slot
  let slot := if token = "dot".toList then some .dot else slot
  let slot := if token = "log".toList then some .log else slot
  slot

/-- `g_metrics` behind the construction loop.  `parse_tokens` never returns so
many tokens that the counters of the loops matter. -/
def slots (tokens : List (List Char)) : List (Option Metric) := tokens.map (assignSlot none)

/-! ### The use of the slots -/

/-- The ways in which the metrics part of `finalize_libtdg` can go wrong:
`parse_tokens` fails, an unassigned slot is used, or a metric fails on the
graph. -/
inductive Misuse
  | parse (fault : Fault)
  | unassigned
  | graph
  deriving DecidableEq, Repr

/-- The result of a metric on the graph. -/
def Misuse.ofOption {α : Type} : Option α → Except Misuse α
  | some a => .ok a
  | none => .error .graph

/-- `g_metrics[i]->init`. -/
def Graph.initSlot (g : Graph) : Option Metric → Except Misuse MetricObj
  | none => .error .unassigned
  | some m => Misuse.ofOption (g.initMetric m)

/-- The metrics part of `finalize_libtdg`.  The loops that print and delete the
metrics use the slots that the first loop has initialised. -/
def Graph.finalizeMetrics (g : Graph) (showTime : ℚ → List Char) (metricsEnv : Option StdString) :
    Except Misuse Printed := do
  let tokensV ← (parseTokens metricsEnv []).mapError Misuse.parse
  let metrics ← (slots tokensV).mapM g.initSlot
  Misuse.ofOption (metrics.foldlM (Graph.printMetric showTime) { graph := g })

/-! ### Known and unknown tokens -/

@[simp] theorem assignSlot_name (m : Metric) : assignSlot none m.name = some m := by
  cases m <;> decide

theorem assignSlot_eq_none {token : List Char} (h : token ∉ Metric.names) :
    assignSlot none token = none := by
  simp only [Metric.names, List.mem_cons, List.not_mem_nil, or_false, not_or] at h
  obtain ⟨htim, hcri, hdot, hlog⟩ := h
  simp only [Metric.name] at htim hcri hdot hlog
  simp only [assignSlot, if_neg htim, if_neg hcri, if_neg hdot, if_neg hlog]

/-- Every slot holds the metric that its token asks for. -/
theorem slots_eq_iff {tokens : List (List Char)} {ms : List Metric} :
    slots tokens = ms.map some ↔ tokens = ms.map Metric.name := by
  constructor
  · intro h
    induction tokens generalizing ms with
    | nil =>
      obtain rfl : ms = [] := by simpa [slots] using h
      rfl
    | cons token tokens ih =>
      rcases ms with - | ⟨m, ms⟩
      · simp [slots] at h
      · obtain ⟨hslot, hrest⟩ := List.cons.inj h
        by_cases hknown : token ∈ Metric.names
        · obtain ⟨m', rfl⟩ := Metric.mem_names.mp hknown
          rw [assignSlot_name] at hslot
          rw [Option.some.inj hslot, ih hrest, List.map_cons]
        · rw [assignSlot_eq_none hknown] at hslot
          cases hslot
  · rintro rfl
    simp [slots]

/-- A list of known tokens is a list of metrics. -/
theorem exists_metrics {tokens : List (List Char)} (h : ∀ token ∈ tokens, token ∈ Metric.names) :
    ∃ ms : List Metric, ms.map Metric.name = tokens := by
  induction tokens with
  | nil => exact ⟨[], rfl⟩
  | cons token tokens ih =>
    obtain ⟨m, rfl⟩ := Metric.mem_names.mp (h token List.mem_cons_self)
    obtain ⟨ms, rfl⟩ := ih fun t ht => h t (List.mem_cons_of_mem _ ht)
    exact ⟨m :: ms, rfl⟩

/-- **With all slots assigned the run is that of the metrics.** -/
theorem Graph.finalizeMetrics_of_slots {metricsEnv : Option StdString}
    {tokens : List (List Char)} {ms : List Metric} (g : Graph) (showTime : ℚ → List Char)
    (hparse : parseTokens metricsEnv [] = .ok tokens) (hslots : slots tokens = ms.map some) :
    g.finalizeMetrics showTime metricsEnv = Misuse.ofOption (g.runMetrics showTime ms) := by
  have hinit : (ms.map some).mapM g.initSlot = Misuse.ofOption (ms.mapM g.initMetric) := by
    clear hslots
    induction ms with
    | nil => rfl
    | cons m ms ih =>
      rw [List.map_cons, List.mapM_cons, List.mapM_cons, ih, Graph.initSlot]
      cases g.initMetric m with
      | none => rfl
      | some o => cases ms.mapM g.initMetric <;> rfl
  unfold Graph.finalizeMetrics Graph.runMetrics
  rw [hparse]
  show (do
    let metrics ← (slots tokens).mapM g.initSlot
    Misuse.ofOption (metrics.foldlM (Graph.printMetric showTime) { graph := g })) = _
  rw [hslots, hinit]
  cases ms.mapM g.initMetric <;> rfl

/-- On a graph whose nodes exist every metric can be initialised. -/
theorem Graph.exists_initMetric {g : Graph} (hg : ∃ ns, g.nodeList = some ns) (m : Metric) :
    ∃ o, g.initMetric m = some o := by
  obtain ⟨ns, hns⟩ := hg
  cases m with
  | tim =>
    obtain ⟨tt, htt⟩ := exists_totalTimeInit hns
    exact ⟨.totalTime tt, by rw [Graph.initMetric, htt]; rfl⟩
  | cri => exact ⟨_, rfl⟩
  | dot => exact ⟨_, rfl⟩
  | log => exact ⟨_, rfl⟩

/-- **An unknown token makes the first loop use an unassigned slot.** -/
theorem Graph.finalizeMetrics_of_unknown {metricsEnv : Option StdString}
    {tokens : List (List Char)} {token : List Char} {g : Graph} (showTime : ℚ → List Char)
    (hg : ∃ ns, g.nodeList = some ns) (hparse : parseTokens metricsEnv [] = .ok tokens)
    (hmem : token ∈ tokens) (hunknown : token ∉ Metric.names) :
    g.finalizeMetrics showTime metricsEnv = .error .unassigned := by
  have hinit : (slots tokens).mapM g.initSlot = .error .unassigned := by
    clear hparse
    induction tokens with
    | nil => exact absurd hmem List.not_mem_nil
    | cons t tokens ih =>
      rw [slots, List.map_cons, List.mapM_cons]
      by_cases hknown : t ∈ Metric.names
      · obtain ⟨m, rfl⟩ := Metric.mem_names.mp hknown
        obtain ⟨o, ho⟩ := exists_initMetric hg m
        have hne : token ≠ m.name := fun h => hunknown (h ▸ hknown)
        have hrest := ih ((List.mem_cons.mp hmem).resolve_left hne)
        rw [slots] at hrest
        rw [assignSlot_name, hrest, initSlot, ho]
        rfl
      · rw [assignSlot_eq_none hknown]
        rfl
  unfold Graph.finalizeMetrics
  rw [hparse]
  show (do
    let metrics ← (slots tokens).mapM g.initSlot
    Misuse.ofOption (metrics.foldlM (Graph.printMetric showTime) { graph := g })) = _
  rw [hinit]
  rfl

/-! ### When the metrics are safe -/

/-- The comma-separated fields of the environment string. -/
def envFields (envVar : Option StdString) : List (List Char) := (envText envVar).splitOn ','

/-- The number of tokens `parse_tokens` counts. -/
def envNumTokens : Option StdString → ℕ
  | none => 0
  | some s => s.numTokens

/-- `finalize_libtdg` is safe: all slots are assigned, and they hold one metric
for each known field of the string, in order. -/
def SafeFor (metricsEnv : Option StdString) : Prop :=
  ∃ tokens, ∃ ms : List Metric, parseTokens metricsEnv [] = .ok tokens ∧
    slots tokens = ms.map some ∧
    ms.map Metric.name = (envFields metricsEnv).filter fun token => token ∈ Metric.names

theorem parseTokens_env (envVar : Option StdString) :
    parseTokens envVar [] = if envNumTokens envVar < 2 ^ 31 then
      .ok ((envFields envVar).take (envNumTokens envVar)) else .error .overflow := by
  cases envVar with
  | none => rfl
  | some s => exact (parseTokens_eq s []).trans (by rw [List.nil_append]; rfl)

theorem SafeFor.counted {metricsEnv : Option StdString} (h : SafeFor metricsEnv) :
    envNumTokens metricsEnv < 2 ^ 31 ∧
      (∀ token ∈ (envFields metricsEnv).take (envNumTokens metricsEnv), token ∈ Metric.names) ∧
      ∀ token ∈ (envFields metricsEnv).drop (envNumTokens metricsEnv), token ∉ Metric.names := by
  obtain ⟨tokens, ms, hparse, hslots, hfilter⟩ := h
  rw [parseTokens_env] at hparse
  split at hparse
  · next hnum =>
    obtain rfl := Except.ok.inj hparse
    have htake := slots_eq_iff.mp hslots
    have hknown : ∀ token ∈ (envFields metricsEnv).take (envNumTokens metricsEnv),
        token ∈ Metric.names := by
      intro token ht
      rw [htake] at ht
      obtain ⟨m, -, rfl⟩ := List.mem_map.mp ht
      exact Metric.mem_names.mpr ⟨m, rfl⟩
    -- the counted fields are all the known ones, so none is left behind them
    have hall : ((envFields metricsEnv).take (envNumTokens metricsEnv)).filter
        (fun token => token ∈ Metric.names) =
        (envFields metricsEnv).take (envNumTokens metricsEnv) :=
      List.filter_eq_self.mpr fun token ht => decide_eq_true (hknown token ht)
    rw [← htake] at hfilter
    nth_rewrite 2 [← List.take_append_drop (envNumTokens metricsEnv) (envFields metricsEnv)]
      at hfilter
    rw [List.filter_append, hall, List.self_eq_append_right, List.filter_eq_nil_iff] at hfilter
    exact ⟨hnum, hknown, fun token ht hk => hfilter token ht (decide_eq_true hk)⟩
  · cases hparse

/-- **Finalization is safe if and only if the counted fields are all known, and
no other field is.** -/
theorem safeFor_iff (metricsEnv : Option StdString) :
    SafeFor metricsEnv ↔ envNumTokens metricsEnv < 2 ^ 31 ∧
      (∀ token ∈ (envFields metricsEnv).take (envNumTokens metricsEnv), token ∈ Metric.names) ∧
      ∀ token ∈ (envFields metricsEnv).drop (envNumTokens metricsEnv), token ∉ Metric.names := by
  refine ⟨SafeFor.counted, fun ⟨hnum, hknown, hrest⟩ => ?_⟩
  obtain ⟨ms, hms⟩ := exists_metrics hknown
  refine ⟨_, ms, by rw [parseTokens_env, if_pos hnum], slots_eq_iff.mpr hms.symm, ?_⟩
  have hall : ((envFields metricsEnv).take (envNumTokens metricsEnv)).filter
      (fun token => token ∈ Metric.names) = ms.map Metric.name := by
    rw [hms]
    exact List.filter_eq_self.mpr fun token ht => decide_eq_true (hknown token ht)
  have hnone : ((envFields metricsEnv).drop (envNumTokens metricsEnv)).filter
      (fun token => token ∈ Metric.names) = [] :=
    List.filter_eq_nil_iff.mpr fun token ht hk => hrest token ht (of_decide_eq_true hk)
  nth_rewrite 1 [← List.take_append_drop (envNumTokens metricsEnv) (envFields metricsEnv)]
  rw [List.filter_append, hall, hnone, List.append_nil]

/-- A stray comma behind a known token. -/
def trailingComma : StdString := ⟨"tim,".toList, by decide⟩

/-- The empty token behind the comma gets a slot that nothing assigns. -/
theorem trailingComma_not_safe :
    parseTokens (some trailingComma) [] = .ok ["tim".toList, []] ∧
      slots ["tim".toList, []] = [some .tim, none] ∧ ¬ SafeFor (some trailingComma) := by
  refine ⟨by decide, by decide, fun h => ?_⟩
  have hempty : ([] : List Char) ∈
      (envFields (some trailingComma)).take (envNumTokens (some trailingComma)) := by decide
  exact absurd (h.counted.2.1 [] hempty) (by decide)

end Tdg
