/-
TdgTool/Skeleton.lean

The skeleton of the role graph: nodes, edges, and where tasks are.

A callback does three things to the skeleton: it creates `newRoles`, adds
`newEdges`, and moves one task (`newCur`); the end of an implicit task may also
remove a node.  The lemmas `step_order`, `step_live`, `step_cur`, `step_bar`
and `mem_step_edges` say so once, for all callbacks, and every structural
invariant is proved from them.

`Shaped` is the first of these invariants.
-/
import TdgTool.Shape

namespace Tdg

namespace RoleGraph

open Tdg.Runtime

variable {o : Runtime} {g : RoleGraph} {env : Env} {e : Event} {x y : Role} {τ : TaskId}
  {r : RegionId} {th : ThreadId}

/-! ### The effect of a callback on the skeleton -/

/-- The edges that a callback adds. -/
def newEdges (g : RoleGraph) (o : Runtime) (e : Event) : List (Role × Role) :=
  match e.call with
  | .implicitTask .scopeBegin r _ _ threadNum =>
      [(g.cur (o.region r).parent, .imp r threadNum 0)]
  | .implicitTask .scopeEnd r _ _ threadNum =>
      match g.bar (.implicit r threadNum) with
      | some b => if threadNum = 0 then [(b, .sink r)] else []
      | none => [(g.cur (.implicit r threadNum), .sink r)]
  | .taskCreate parent (.explicit n) .explicit => [(g.cur parent, .exp n)]
  | .syncRegion .barrier .scopeBegin r (.implicit _ t) =>
      if 1 < (o.region r).requested then
        [(g.cur (.implicit r t),
            .barrier r ((o.region r).arrivals / (o.region r).requested)),
          (.barrier r ((o.region r).arrivals / (o.region r).requested),
            .imp r t ((o.task (.implicit r t)).arrived + 1))]
      else []
  | .extLoop .scopeBegin τ _ _ => [(g.cur τ, .ws τ (o.task τ).loops)]
  | .extLoop .scopeEnd τ _ _ =>
      if (o.task τ).chunks (o.task τ).loops = 0 then
        [(.ws τ (o.task τ).loops, .loopSink τ (o.task τ).loops)]
      else []
  | .extChunk τ _ _ lastChunk =>
      if lastChunk then []
      else
        [(.ws τ (o.task τ).loops, .chunk τ (o.task τ).loops ((o.task τ).chunks (o.task τ).loops)),
          (.chunk τ (o.task τ).loops ((o.task τ).chunks (o.task τ).loops),
            .loopSink τ (o.task τ).loops)]
  | _ => []

/-- The callbacks that add an edge, with what they require, and the edge. -/
inductive NewEdge (o : Runtime) (g : RoleGraph) : Event → Role → Role → Prop
  | implicitBegin {th : ThreadId} {r : RegionId} {t : ℕ}
      (hopen : (o.region r).stage = .opened)
      (habs : (o.task (.implicit r t)).standing = .absent) :
      NewEdge o g ⟨th, .implicitTask .scopeBegin r (.implicit r t) (o.region r).teamSize t⟩
        (g.cur (o.region r).parent) (.imp r t 0)
  | sinkOfBarrier {th : ThreadId} {r : RegionId} {m : ℕ} {b : Role}
      (hact : o.Acts th (.implicit r 0))
      (harr : (o.task (.implicit r 0)).arrived = (o.region r).barriers)
      (hall : o.AllArrived r (o.region r).barriers) (hbar : g.bar (.implicit r 0) = some b) :
      NewEdge o g ⟨th, .implicitTask .scopeEnd r (.implicit r 0) m 0⟩ b (.sink r)
  | sinkOfThread {th : ThreadId} {r : RegionId} {t m : ℕ} (hact : o.Acts th (.implicit r t))
      (harr : (o.task (.implicit r t)).arrived = (o.region r).barriers)
      (hbar : g.bar (.implicit r t) = none) :
      NewEdge o g ⟨th, .implicitTask .scopeEnd r (.implicit r t) m t⟩
        (g.cur (.implicit r t)) (.sink r)
  | explicit {th : ThreadId} {parent : TaskId} {n : ℕ} (hact : o.Acts th parent)
      (hbody : o.InBody parent) :
      NewEdge o g ⟨th, .taskCreate parent (.explicit n) .explicit⟩ (g.cur parent) (.exp n)
  | toBarrier {th : ThreadId} {r : RegionId} {t : ℕ} (hact : o.Acts th (.implicit r t))
      (hbody : o.InBody (.implicit r t)) (hloop : (o.task (.implicit r t)).inLoop = false)
      (hreq : 1 < (o.region r).requested) :
      NewEdge o g ⟨th, .syncRegion .barrier .scopeBegin r (.implicit r t)⟩
        (g.cur (.implicit r t)) (.barrier r ((o.region r).arrivals / (o.region r).requested))
  | ofBarrier {th : ThreadId} {r : RegionId} {t : ℕ} (hact : o.Acts th (.implicit r t))
      (hbody : o.InBody (.implicit r t)) (hreq : 1 < (o.region r).requested) :
      NewEdge o g ⟨th, .syncRegion .barrier .scopeBegin r (.implicit r t)⟩
        (.barrier r ((o.region r).arrivals / (o.region r).requested))
        (.imp r t ((o.task (.implicit r t)).arrived + 1))
  | loopBegin {th : ThreadId} {τ : TaskId} {lower upper : ℤ} (hact : o.Acts th τ)
      (hbody : o.InBody τ) (hloop : (o.task τ).inLoop = false) :
      NewEdge o g ⟨th, .extLoop .scopeBegin τ lower upper⟩ (g.cur τ) (.ws τ (o.task τ).loops)
  | emptyLoop {th : ThreadId} {τ : TaskId} {lower upper : ℤ}
      (hloop : (o.task τ).inLoop = true)
      (hnone : (o.task τ).chunks (o.task τ).loops = 0) :
      NewEdge o g ⟨th, .extLoop .scopeEnd τ lower upper⟩ (.ws τ (o.task τ).loops)
        (.loopSink τ (o.task τ).loops)
  | toChunk {th : ThreadId} {τ : TaskId} {lower upper : ℤ} (hloop : (o.task τ).inLoop = true) :
      NewEdge o g ⟨th, .extChunk τ lower upper false⟩ (.ws τ (o.task τ).loops)
        (.chunk τ (o.task τ).loops ((o.task τ).chunks (o.task τ).loops))
  | ofChunk {th : ThreadId} {τ : TaskId} {lower upper : ℤ} (hloop : (o.task τ).inLoop = true) :
      NewEdge o g ⟨th, .extChunk τ lower upper false⟩
        (.chunk τ (o.task τ).loops ((o.task τ).chunks (o.task τ).loops))
        (.loopSink τ (o.task τ).loops)

/-- An edge that a callback adds is one of the kinds of `NewEdge`. -/
theorem newEdge_of_mem (ha : o.allows e = true) (hxy : (x, y) ∈ g.newEdges o e) :
    NewEdge o g e x y := by
  cases delivers_of_allows ha with
  | @implicitBegin _ r t hopen _ habs =>
    obtain ⟨rfl, rfl⟩ : x = g.cur (o.region r).parent ∧ y = .imp r t 0 := by
      simpa [newEdges] using hxy
    exact .implicitBegin hopen habs
  | @implicitEnd _ r t _ hact harr hall =>
    rcases hbar : g.bar (.implicit r t) with - | b
    · obtain ⟨rfl, rfl⟩ : x = g.cur (.implicit r t) ∧ y = .sink r := by
        simpa [newEdges, hbar] using hxy
      exact .sinkOfThread hact harr hbar
    · -- thread 0 alone connects the last barrier to the sink
      simp only [newEdges, hbar] at hxy
      split_ifs at hxy with h0
      · subst h0
        obtain ⟨rfl, rfl⟩ : x = b ∧ y = .sink r := by simpa using hxy
        exact .sinkOfBarrier hact harr hall hbar
      · cases hxy
  | @explicit _ parent n hact hbody =>
    obtain ⟨rfl, rfl⟩ : x = g.cur parent ∧ y = .exp n := by simpa [newEdges] using hxy
    exact .explicit hact hbody
  | @barrierBegin _ r t hact hbody hloop =>
    simp only [newEdges] at hxy
    split_ifs at hxy with hreq
    · simp only [List.mem_cons, Prod.mk.injEq, List.not_mem_nil, or_false] at hxy
      rcases hxy with ⟨rfl, rfl⟩ | ⟨rfl, rfl⟩
      · exact .toBarrier hact hbody hloop hreq
      · exact .ofBarrier hact hbody hreq
    · cases hxy
  | @loopBegin _ τ _ _ _ hact hbody hloop =>
    obtain ⟨rfl, rfl⟩ : x = g.cur τ ∧ y = .ws τ (o.task τ).loops := by
      simpa [newEdges] using hxy
    exact .loopBegin hact hbody hloop
  | @loopEnd _ τ _ _ _ _ hloop =>
    simp only [newEdges] at hxy
    split_ifs at hxy with hnone
    · obtain ⟨rfl, rfl⟩ : x = .ws τ (o.task τ).loops ∧ y = .loopSink τ (o.task τ).loops := by
        simpa using hxy
      exact .emptyLoop hloop hnone
    · cases hxy
  | @chunk _ τ _ _ lastChunk _ _ hloop =>
    cases lastChunk with
    | true => cases hxy
    | false =>
      simp only [newEdges, List.mem_cons, Prod.mk.injEq, List.not_mem_nil, or_false,
        Bool.false_eq_true, if_false] at hxy
      rcases hxy with ⟨rfl, rfl⟩ | ⟨rfl, rfl⟩
      · exact .toChunk hloop
      · exact .ofChunk hloop
  | @outside _ endpoint => cases endpoint <;> cases hxy
  | @sync _ kind _ _ _ _ _ hkind =>
    cases kind with
    | barrier => exact absurd rfl hkind
    | taskwait => cases hxy
    | taskgroup => cases hxy
  | _ => cases hxy

/-- The edge that a callback removes, together with its target. -/
def oldEdge (g : RoleGraph) (e : Event) : Option (Role × Role) :=
  match e.call with
  | .implicitTask .scopeEnd r _ _ threadNum =>
      (g.bar (.implicit r threadNum)).map fun b => (b, g.cur (.implicit r threadNum))
  | _ => none

/-! Closing the open node of a loop is a matter of times. -/

@[simp] theorem closeOpen_order : (g.closeOpen env th o τ).order = g.order := by
  unfold closeOpen; split <;> rfl

@[simp] theorem closeOpen_live : (g.closeOpen env th o τ).live = g.live := by
  unfold closeOpen; split <;> rfl

@[simp] theorem closeOpen_edges : (g.closeOpen env th o τ).edges = g.edges := by
  unfold closeOpen; split <;> rfl

@[simp] theorem closeOpen_cur : (g.closeOpen env th o τ).cur = g.cur := by
  unfold closeOpen; split <;> rfl

@[simp] theorem closeOpen_bar : (g.closeOpen env th o τ).bar = g.bar := by
  unfold closeOpen; split <;> rfl

@[simp] theorem closeOpen_loopCounter :
    (g.closeOpen env th o τ).loopCounter = g.loopCounter := by
  unfold closeOpen; split <;> rfl

/-- A callback creates the nodes of `newRoles`, in this order. -/
theorem step_order (ha : o.allows e = true) :
    (g.step env o e).order = g.order ++ o.newRoles e := by
  cases delivers_of_allows ha with
  | threadBegin => simp [RoleGraph.step, newRoles]
  | threadEnd => simp [RoleGraph.step, newRoles]
  | initial => simp [RoleGraph.step, newRoles, createInitial]
  | explicit => simp [RoleGraph.step, newRoles, createExplicit, createBelow]
  | schedule => simp [RoleGraph.step, newRoles, RoleGraph.schedule]
  | parallelBegin => simp [RoleGraph.step, newRoles, RoleGraph.parallelBegin]
  | parallelEnd => simp [RoleGraph.step, newRoles, RoleGraph.parallelEnd]
  | implicitBegin => simp [RoleGraph.step, newRoles, RoleGraph.implicitBegin, createBelow]
  | @implicitEnd _ r t =>
    simp only [RoleGraph.step, newRoles, RoleGraph.implicitEnd]
    rcases g.bar (.implicit r t) with - | b
    · simp
    · split_ifs <;> simp
  | @barrierBegin _ r t =>
    simp only [RoleGraph.step, newRoles]
    split_ifs with hreq h0
    · simp [RoleGraph.barrierBegin, RoleGraph.reachBarrier, h0, createBelow]
    · simp [RoleGraph.barrierBegin, RoleGraph.reachBarrier, h0, createBelow]
    · simp
  | barrierEnd =>
    simp only [RoleGraph.step, newRoles]
    split_ifs <;> simp
  | @outside _ endpoint => cases endpoint <;> simp [RoleGraph.step, newRoles]
  | @sync _ kind _ _ _ _ _ hkind =>
    cases kind with
    | barrier => exact absurd rfl hkind
    | taskwait => simp [RoleGraph.step, newRoles]
    | taskgroup => simp [RoleGraph.step, newRoles]
  | loopBegin => simp [RoleGraph.step, newRoles, RoleGraph.loopBegin, createBelow]
  | loopEnd =>
    simp only [RoleGraph.step, newRoles, RoleGraph.loopEnd]
    split_ifs <;> simp
  | @chunk _ τ _ _ lastChunk =>
    simp only [RoleGraph.step, newRoles, RoleGraph.chunk, chunkOpen, createBelow]
    split_ifs <;> simp

/-- The nodes after a callback: the ones from before and the new ones, except the end of the old
edge. -/
theorem step_live (ha : o.allows e = true) :
    (g.step env o e).live x = true ↔
      (g.live x = true ∨ x ∈ o.newRoles e) ∧ ∀ b, g.oldEdge e ≠ some (b, x) := by
  cases delivers_of_allows ha with
  | threadBegin => simp [RoleGraph.step, newRoles, oldEdge]
  | threadEnd => simp [RoleGraph.step, newRoles, oldEdge]
  | initial =>
    simp [RoleGraph.step, newRoles, oldEdge, createInitial, Function.update_apply, or_comm]
  | explicit =>
    simp [RoleGraph.step, newRoles, oldEdge, createExplicit, createBelow, Function.update_apply,
      or_comm]
  | schedule => simp [RoleGraph.step, newRoles, oldEdge, RoleGraph.schedule]
  | parallelBegin =>
    simp [RoleGraph.step, newRoles, oldEdge, RoleGraph.parallelBegin, Function.update_apply,
      or_comm]
  | parallelEnd => simp [RoleGraph.step, newRoles, oldEdge, RoleGraph.parallelEnd]
  | implicitBegin =>
    simp [RoleGraph.step, newRoles, oldEdge, RoleGraph.implicitBegin, createBelow,
      Function.update_apply, or_comm]
  | @implicitEnd _ r t =>
    simp only [RoleGraph.step, newRoles, oldEdge, RoleGraph.implicitEnd]
    rcases g.bar (.implicit r t) with - | b
    · simp
    -- the only callback that makes a node die, and only behind a barrier
    · by_cases hx : x = g.cur (.implicit r t)
      · split_ifs <;> simp [hx]
      · have hx' : ¬g.cur (.implicit r t) = x := fun e => hx e.symm
        split_ifs <;> simp [hx, hx']
  | @barrierBegin _ r t =>
    simp only [RoleGraph.step, newRoles, oldEdge]
    -- the first arrival creates two nodes, the others one
    split_ifs with hreq h0
    · simp [RoleGraph.barrierBegin, RoleGraph.reachBarrier, h0, createBelow,
        Function.update_apply]
      tauto
    · simp [RoleGraph.barrierBegin, RoleGraph.reachBarrier, h0, createBelow,
        Function.update_apply, or_comm]
    · simp
  | barrierEnd =>
    simp only [RoleGraph.step, newRoles, oldEdge]
    split_ifs <;> simp
  | @outside _ endpoint => cases endpoint <;> simp [RoleGraph.step, newRoles, oldEdge]
  | @sync _ kind _ _ _ _ _ hkind =>
    cases kind with
    | barrier => exact absurd rfl hkind
    | taskwait => simp [RoleGraph.step, newRoles, oldEdge]
    | taskgroup => simp [RoleGraph.step, newRoles, oldEdge]
  | loopBegin =>
    simp [RoleGraph.step, newRoles, oldEdge, RoleGraph.loopBegin, createBelow,
      Function.update_apply]
    tauto
  | loopEnd =>
    simp only [RoleGraph.step, newRoles, oldEdge, RoleGraph.loopEnd]
    split_ifs <;> simp
  | @chunk _ τ _ _ lastChunk =>
    simp only [RoleGraph.step, newRoles, oldEdge, RoleGraph.chunk, chunkOpen, createBelow]
    split_ifs <;> simp [Function.update_apply, or_comm]

/-- A callback moves at most one task. -/
theorem step_cur (ha : o.allows e = true) :
    (g.step env o e).cur =
      match o.newCur e with
      | some (τ, x) => Function.update g.cur τ x
      | none => g.cur := by
  cases delivers_of_allows ha with
  | threadBegin => rfl
  | threadEnd => rfl
  | initial => rfl
  | explicit => rfl
  | schedule => rfl
  | parallelBegin => rfl
  | parallelEnd => rfl
  | implicitBegin => rfl
  | @implicitEnd _ r t =>
    -- the record is deleted with the task, so nobody reads where it was
    simp only [RoleGraph.step, newCur, RoleGraph.implicitEnd]
    rcases g.bar (.implicit r t) with - | b
    · simp
    · split_ifs <;> simp
  | @barrierBegin _ r t =>
    simp only [RoleGraph.step, newCur]
    split_ifs with hreq
    · simp only [RoleGraph.barrierBegin, RoleGraph.reachBarrier]
      split_ifs <;> rfl
    · rfl
  | barrierEnd =>
    simp only [RoleGraph.step, newCur]
    split_ifs <;> rfl
  | @outside _ endpoint => cases endpoint <;> rfl
  | @sync _ kind _ _ _ _ _ hkind =>
    cases kind with
    | barrier => exact absurd rfl hkind
    | taskwait => rfl
    | taskgroup => rfl
  | loopBegin => rfl
  | loopEnd =>
    simp only [RoleGraph.step, newCur, RoleGraph.loopEnd]
    split_ifs <;> simp
  | @chunk _ τ _ _ lastChunk =>
    simp only [RoleGraph.step, newCur, RoleGraph.chunk, chunkOpen, createBelow]
    split_ifs <;> simp

/-- A callback sets the barrier node of at most one task. -/
theorem step_bar (ha : o.allows e = true) :
    (g.step env o e).bar =
      match o.newBar e with
      | some (τ, b) => Function.update g.bar τ b
      | none => g.bar := by
  cases delivers_of_allows ha with
  | threadBegin => rfl
  | threadEnd => rfl
  | initial => rfl
  | explicit => rfl
  | schedule => rfl
  | parallelBegin => rfl
  | parallelEnd => rfl
  | implicitBegin => rfl
  | @implicitEnd _ r t =>
    simp only [RoleGraph.step, newBar, RoleGraph.implicitEnd]
    rcases g.bar (.implicit r t) with - | b
    · simp
    · split_ifs <;> simp
  | @barrierBegin _ r t =>
    simp only [RoleGraph.step, newBar]
    split_ifs with hreq
    · simp only [RoleGraph.barrierBegin, RoleGraph.reachBarrier]
      split_ifs <;> rfl
    · rfl
  | barrierEnd =>
    simp only [RoleGraph.step, newBar]
    split_ifs <;> rfl
  | @outside _ endpoint => cases endpoint <;> rfl
  | @sync _ kind _ _ _ _ _ hkind =>
    cases kind with
    | barrier => exact absurd rfl hkind
    | taskwait => rfl
    | taskgroup => rfl
  | loopBegin => rfl
  | loopEnd =>
    simp only [RoleGraph.step, newBar, RoleGraph.loopEnd]
    split_ifs <;> simp
  | @chunk _ τ _ _ lastChunk =>
    simp only [RoleGraph.step, newBar, RoleGraph.chunk, chunkOpen, createBelow]
    split_ifs <;> simp

theorem mem_createBelow_edges {p : Role} {a : Role × Role} :
    a ∈ (g.createBelow env p x).edges ↔ a ∈ g.edges ∨ a = (p, x) :=
  mem_connect_edges

/-- The edges after a callback. -/
theorem mem_step_edges (ha : o.allows e = true) {a : Role × Role} :
    a ∈ (g.step env o e).edges ↔
      a ∈ g.edges ∧ g.oldEdge e ≠ some a ∨ a ∈ g.newEdges o e := by
  cases delivers_of_allows ha with
  | threadBegin => simp [RoleGraph.step, newEdges, oldEdge]
  | threadEnd => simp [RoleGraph.step, newEdges, oldEdge]
  | initial => simp [RoleGraph.step, newEdges, oldEdge, createInitial]
  | explicit =>
    simp only [RoleGraph.step, newEdges, oldEdge, createExplicit, setCur_edges,
      mem_createBelow_edges]
    simp
  | schedule => simp [RoleGraph.step, newEdges, oldEdge, RoleGraph.schedule]
  | parallelBegin => simp [RoleGraph.step, newEdges, oldEdge, RoleGraph.parallelBegin]
  | parallelEnd => simp [RoleGraph.step, newEdges, oldEdge, RoleGraph.parallelEnd]
  | implicitBegin =>
    simp only [RoleGraph.step, newEdges, oldEdge, RoleGraph.implicitBegin, setBar_edges,
      setCur_edges, mem_createBelow_edges]
    simp
  | @implicitEnd _ r t =>
    simp only [RoleGraph.step, newEdges, oldEdge, RoleGraph.implicitEnd]
    rcases g.bar (.implicit r t) with - | b
    · simp only [mem_connect_edges]
      simp
    -- the edge into the dropped node goes; thread 0 adds the one to the sink
    · have hc : (b, g.cur (.implicit r t)) = a ↔ a = (b, g.cur (.implicit r t)) := eq_comm
      split_ifs
      · simp only [mem_connect_edges]
        simp [hc]
      · simp [hc]
  | @barrierBegin _ r t =>
    simp only [RoleGraph.step, newEdges, oldEdge]
    split_ifs with hreq
    · simp only [RoleGraph.barrierBegin, RoleGraph.reachBarrier, setBar_edges, setCur_edges,
        mem_createBelow_edges]
      -- the first arrival's edge comes from creating the barrier node, the later ones' from
      -- `connect`
      split_ifs
      · simp only [mem_createBelow_edges]
        simp [or_assoc]
      · simp only [mem_connect_edges]
        simp [or_assoc]
    · simp
  | barrierEnd =>
    simp only [RoleGraph.step, newEdges, oldEdge]
    split_ifs <;> simp
  | @outside _ endpoint => cases endpoint <;> simp [RoleGraph.step, newEdges, oldEdge]
  | @sync _ kind _ _ _ _ _ hkind =>
    cases kind with
    | barrier => exact absurd rfl hkind
    | taskwait => simp [RoleGraph.step, newEdges, oldEdge]
    | taskgroup => simp [RoleGraph.step, newEdges, oldEdge]
  | loopBegin =>
    simp only [RoleGraph.step, newEdges, oldEdge, RoleGraph.loopBegin, create_edges, onData_edges,
      mem_createBelow_edges]
    simp
  | loopEnd =>
    simp only [RoleGraph.step, newEdges, oldEdge, RoleGraph.loopEnd]
    split_ifs
    · simp only [setLoopCounter_edges, setCur_edges, setLastTime_edges, mem_connect_edges]
      simp
    · simp
  | @chunk _ τ _ _ lastChunk =>
    simp only [RoleGraph.step, newEdges, oldEdge, RoleGraph.chunk]
    split_ifs
    · simp
    · simp
    · simp only [chunkOpen, startPapi_edges, onData_edges, mem_connect_edges,
        mem_createBelow_edges]
      simp [or_assoc]

/-- There is an edge. -/
def Link (g : RoleGraph) (x y : Role) : Prop := (x, y) ∈ g.edges

/-- A link is old or new. -/
theorem link_step (ha : o.allows e = true) (h : (g.step env o e).Link x y) :
    g.Link x y ∨ (x, y) ∈ g.newEdges o e :=
  ((mem_step_edges ha).mp h).imp And.left id

/-! ### The shape of the graph -/

/-- What holds of the skeleton between callbacks. -/
structure Shaped (o : Runtime) (g : RoleGraph) : Prop where
  order_iff : ∀ {x}, x ∈ g.order ↔ o.Created x
  live_iff : ∀ {x}, g.live x = true ↔ o.Created x ∧ ¬o.Dropped x
  seat : ∀ {τ}, o.HasData τ → o.Created (g.cur τ) ∧ o.Seat τ (g.cur τ)
  wait : ∀ {r t}, o.HasData (.implicit r t) → o.Waiting r t →
    g.cur (.implicit r t) = .imp r t (o.task (.implicit r t)).arrived
  bar_some : ∀ {r t}, o.HasData (.implicit r t) → 1 < (o.region r).requested →
    0 < (o.task (.implicit r t)).arrived →
    ∃ i, g.bar (.implicit r t) = some (.barrier r i) ∧ o.Created (.barrier r i)
  bar_none : ∀ {τ}, (∀ r t, τ = .implicit r t →
    (o.region r).requested ≤ 1 ∨ (o.task τ).arrived = 0) → g.bar τ = none
  exits : ∀ {x y}, (x, y) ∈ g.edges → ¬o.Pending x
  entry : ∀ {x r t j}, (x, .imp r t j) ∈ g.edges → 0 < j → o.HasData (.implicit r t) →
    j = (o.task (.implicit r t)).arrived → g.bar (.implicit r t) = some x

theorem shaped_init : Shaped Runtime.init RoleGraph.init where
  order_iff := by
    intro x
    cases x <;> simp [RoleGraph.init, Created, Runtime.init, TaskState.begun]
  live_iff := by
    intro x
    cases x <;> simp [RoleGraph.init, Created, Runtime.init, TaskState.begun]
  seat := fun {τ} h => absurd rfl h.present
  wait := fun h => absurd rfl h.present
  bar_some := fun h => absurd rfl h.present
  bar_none := fun _ => rfl
  exits := by simp [RoleGraph.init]
  entry := by simp [RoleGraph.init]

/-- A task with a record is at a live node. -/
theorem Shaped.cur_live (h : Shaped o g) (hd : o.HasData τ) : g.live (g.cur τ) = true := by
  obtain ⟨hc, hs⟩ := h.seat hd
  exact h.live_iff.mpr ⟨hc, hs.not_dropped hd⟩

/-- The end of an implicit task removes the node behind the last barrier, if
the team has barriers. -/
theorem Shaped.implicitEnd_node (h : Shaped o g) (hS : o.Sound) {t : ℕ}
    (hact : o.Acts th (.implicit r t))
    (harr : (o.task (.implicit r t)).arrived = (o.region r).barriers) :
    1 < (o.region r).requested ∧ o.Waiting r t ∧
      g.cur (.implicit r t) = .imp r t (o.task (.implicit r t)).arrived ∧
      (∃ i, g.bar (.implicit r t) = some (.barrier r i) ∧ o.Created (.barrier r i)) ∨
    (o.region r).requested ≤ 1 ∧ g.bar (.implicit r t) = none := by
  have hd := hasData_of_active hact.2
  have hk := ((hS.team r).sizes (hS.region_present hd.present)).2.2
  -- `_team_size` decides: a team of one has no barrier nodes
  by_cases hreq : 1 < (o.region r).requested
  · have hw : o.Waiting r t := by
      refine ⟨hreq, by omega, fun hb => ?_⟩
      have := hb.2
      omega
    exact .inl ⟨hreq, hw, h.wait hd hw, h.bar_some hd hreq (by omega)⟩
  · refine .inr ⟨by omega, h.bar_none ?_⟩
    intro r' t' hτ
    obtain ⟨rfl, rfl⟩ := TaskId.implicit.inj hτ
    exact .inl (by omega)

/-- The last barrier of a task that ends is a barrier node of its region. -/
theorem Shaped.barrier_of_end (h : Shaped o g) (hS : o.Sound) {t : ℕ} {b : Role}
    (hact : o.Acts th (.implicit r t))
    (harr : (o.task (.implicit r t)).arrived = (o.region r).barriers)
    (hbar : g.bar (.implicit r t) = some b) :
    ∃ i, b = .barrier r i ∧ o.Created (.barrier r i) := by
  rcases h.implicitEnd_node hS hact harr with ⟨-, -, -, i, hi, hc⟩ | ⟨-, hnone⟩
  · rw [hbar] at hi
    exact ⟨i, Option.some.inj hi, hc⟩
  · rw [hbar] at hnone
    cases hnone

/-- A task that ends without a barrier is alone in its team. -/
theorem Shaped.alone_of_end (h : Shaped o g) (hS : o.Sound) {t : ℕ}
    (hact : o.Acts th (.implicit r t))
    (harr : (o.task (.implicit r t)).arrived = (o.region r).barriers)
    (hbar : g.bar (.implicit r t) = none) : (o.region r).requested ≤ 1 ∧ t = 0 := by
  rcases h.implicitEnd_node hS hact harr with ⟨-, -, -, i, hi, -⟩ | ⟨hreq, -⟩
  · rw [hbar] at hi
    cases hi
  · have hd := hasData_of_active hact.2
    have hlt := (hS.team r).thread_lt hd.present
    have hsize := ((hS.team r).sizes (hS.region_present hd.present)).2.1
    exact ⟨hreq, by omega⟩

/-- The nodes created so far are those that the runtime has asked for. -/
theorem Shaped.order_step (h : Shaped o g) (hS : o.Sound) (ha : o.allows e = true) :
    x ∈ (g.step env o e).order ↔ (o.apply e).Created x := by
  rw [step_order ha, List.mem_append, h.order_iff, created_apply hS ha]

/-- What is dropped is what was dropped before and the node removed now. -/
theorem Shaped.dropped_apply (h : Shaped o g) (hS : o.Sound) (ha : o.allows e = true) :
    (o.apply e).Dropped x ↔ o.Dropped x ∨ ∃ b, g.oldEdge e = some (b, x) := by
  constructor
  · intro hdrop
    cases x with
    | imp r t j =>
      obtain ⟨hdone, hreq, hj⟩ := hdrop
      -- the task was done already, or this callback ends it
      rcases done_of_apply ha hdone with hd | ⟨hend, hpres, hnew⟩
      · have hpres : (o.task (.implicit r t)).standing ≠ .absent := by simp [hd]
        rw [task_apply_of_done ha hd] at hj
        rw [(region_apply_fixed ha (hS.region_present hpres)).2.1] at hreq
        exact .inl ⟨hd, hreq, hj⟩
      · rw [hnew] at hj
        rw [(region_apply_fixed ha (hS.region_present hpres)).2.1] at hreq
        cases hend with
        | implicit =>
          cases delivers_of_allows ha with
          | implicitEnd hact harr =>
            -- it stood behind its last barrier, which is the node that goes
            rcases h.implicitEnd_node hS hact harr with ⟨-, -, hcur, i, hbar, -⟩ | ⟨hone, -⟩
            · exact .inr ⟨.barrier r i, by simp [oldEdge, hbar, hcur, hj]⟩
            · omega
    | _ => exact hdrop.elim
  · rintro (hdrop | ⟨b, hb⟩)
    · cases x with
      | imp r t j =>
        obtain ⟨hdone, hreq, hj⟩ := hdrop
        -- a task that is done stays as it is, and so does the size of its team
        have hpres : (o.task (.implicit r t)).standing ≠ .absent := by simp [hdone]
        simp only [Dropped, task_apply_of_done ha hdone,
          (region_apply_fixed ha (hS.region_present hpres)).2.1]
        exact ⟨hdone, hreq, hj⟩
      | _ => exact hdrop
    · cases delivers_of_allows ha with
      | @implicitEnd _ r t _ hact harr =>
        rcases h.implicitEnd_node hS hact harr with ⟨hreq, -, hcur, i, hbar, -⟩ | ⟨-, hbar⟩
        · obtain rfl : Role.imp r t (o.task (.implicit r t)).arrived = x := by
            simp only [oldEdge, hbar, hcur, Option.map_some, Option.some.injEq,
              Prod.mk.injEq] at hb
            exact hb.2
          refine ⟨by simp [Runtime.apply], ?_, by simp [Runtime.apply]⟩
          simpa [Runtime.apply] using hreq
        · simp [oldEdge, hbar] at hb
      | @outside _ endpoint => cases endpoint <;> cases hb
      | _ => cases hb

/-- The nodes in the graph are those created and not dropped. -/
theorem Shaped.live_step (h : Shaped o g) (hS : o.Sound) (ha : o.allows e = true) :
    (g.step env o e).live x = true ↔ (o.apply e).Created x ∧ ¬(o.apply e).Dropped x := by
  -- a role that is created now cannot have been dropped before
  have hnew : x ∈ o.newRoles e → ¬o.Dropped x := by
    intro hx hdrop
    cases x with
    | imp r t j =>
      exact newRoles_fresh ha hx ⟨by simp [hdrop.1], .inr ⟨hdrop.2.1, hdrop.2.2.le⟩⟩
    | _ => exact hdrop
  rw [step_live ha, h.live_iff, created_apply hS ha, h.dropped_apply hS ha]
  constructor
  · rintro ⟨⟨hc, hd⟩ | hx, hold⟩
    · exact ⟨.inl hc, fun hd' => hd'.elim hd fun ⟨b, hb⟩ => hold b hb⟩
    · exact ⟨.inr hx, fun hd' => hd'.elim (hnew hx) fun ⟨b, hb⟩ => hold b hb⟩
  · rintro ⟨hc, hd⟩
    refine ⟨hc.imp (fun hc => ⟨hc, fun hd' => hd (.inl hd')⟩) id, fun b hb => hd (.inr ⟨b, hb⟩)⟩

theorem Shaped.cur_of_not_moved (ha : o.allows e = true) (hn : ∀ x, o.newCur e ≠ some (τ, x)) :
    (g.step env o e).cur τ = g.cur τ := by
  rw [step_cur ha]
  rcases hc : o.newCur e with - | ⟨σ, y⟩
  · rfl
  · have hne : τ ≠ σ := by
      rintro rfl
      exact hn y hc
    simp [hne]

theorem cur_of_moved (ha : o.allows e = true) (hn : o.newCur e = some (τ, x)) :
    (g.step env o e).cur τ = x := by
  rw [step_cur ha, hn]
  simp

/-- The current node of a task stays one of its seats. -/
theorem Shaped.seat_step (h : Shaped o g) (hS : o.Sound) (ha : o.allows e = true)
    (hd : (o.apply e).HasData τ) :
    (o.apply e).Created ((g.step env o e).cur τ) ∧ (o.apply e).Seat τ ((g.step env o e).cur τ) := by
  -- a moved task is at its new node; the others stay, and keep their seats
  by_cases hn : ∃ x, o.newCur e = some (τ, x)
  · obtain ⟨x, hx⟩ := hn
    rw [cur_of_moved ha hx]
    exact seat_new hS ha hx
  · have hn' : ∀ x, o.newCur e ≠ some (τ, x) := fun x hx => hn ⟨x, hx⟩
    rw [Shaped.cur_of_not_moved ha hn']
    have hd' := hasData_of_apply ha hd (not_creates_of_not_moved hn')
    obtain ⟨hc, hs⟩ := h.seat hd'
    exact ⟨(created_apply hS ha).mpr (.inl hc), seat_keep hS ha hd' hn' hs⟩

/-- A waiting thread stays on its node behind the barrier. -/
theorem Shaped.wait_step (h : Shaped o g) (hS : o.Sound) (ha : o.allows e = true) {t : ℕ}
    (hd : (o.apply e).HasData (.implicit r t)) (hw : (o.apply e).Waiting r t) :
    (g.step env o e).cur (.implicit r t)
      = .imp r t ((o.apply e).task (.implicit r t)).arrived := by
  -- of the callbacks that move a task only the arrival at a barrier makes it wait
  by_cases hn : ∃ x, o.newCur e = some (.implicit r t, x)
  · obtain ⟨x, hx⟩ := hn
    rw [cur_of_moved ha hx]
    obtain ⟨-, harr, hbody⟩ := hw
    generalize hτ : TaskId.implicit r t = σ at hx
    cases moves_of_newCur ha hx with
    | initial => cases hτ
    | explicit => cases hτ
    | implicitBegin =>
      obtain ⟨rfl, rfl⟩ := TaskId.implicit.inj hτ
      simp [Runtime.apply] at harr
    | parallelEnd _ hfork =>
      rw [← hτ] at hfork
      have hpres : (o.task (.implicit r t)).standing ≠ .absent := by simp [hfork]
      have hk := (region_apply_fixed ha (hS.region_present hpres)).2.2.2.1
      refine absurd ?_ hbody
      have hb : o.InBody (.implicit r t) := hS.forked_inBody hfork
      simp only [InBody, hk]
      simpa [Runtime.apply, ← hτ, InBody] using hb
    | barrierBegin =>
      obtain ⟨rfl, rfl⟩ := TaskId.implicit.inj hτ
      simp [Runtime.apply]
    | loopEnd _ hb =>
      subst hτ
      refine absurd ?_ hbody
      simpa [Runtime.apply, InBody] using hb
  · have hn' : ∀ x, o.newCur e ≠ some (.implicit r t, x) := fun x hx => hn ⟨x, hx⟩
    have hd' := hasData_of_apply ha hd (not_creates_of_not_moved hn')
    -- not moved: it waited before, at the same node
    have hreq : 1 < (o.region r).requested := by
      rw [← (region_apply_fixed ha (hS.region_present hd'.present)).2.1]
      exact hw.1
    have harr := arrived_of_not_moved ha hd'.present hn' rfl hreq
    have hp : o.Pending (.imp r t (o.task (.implicit r t)).arrived) :=
      pending_of_apply hS ha ⟨hd'.present, .inr ⟨hreq, le_rfl⟩⟩ ⟨hw, harr.symm⟩
    rw [Shaped.cur_of_not_moved ha hn', harr, h.wait hd' hp.1]

/-- Reaching a barrier sets the barrier node to the one of the phase. -/
theorem newBar_of_reached {t : ℕ}
    (hcall : e.call = .syncRegion .barrier .scopeBegin r (.implicit r t))
    (hreq : 1 < (o.region r).requested) :
    o.newBar e = some (.implicit r t,
      some (.barrier r ((o.region r).arrivals / (o.region r).requested))) := by
  simp [newBar, hcall, hreq]

theorem bar_of_not_set (ha : o.allows e = true) (hn : ∀ b, o.newBar e ≠ some (τ, b)) :
    (g.step env o e).bar τ = g.bar τ := by
  rw [step_bar ha]
  rcases hc : o.newBar e with - | ⟨σ, b⟩
  · rfl
  · have hne : τ ≠ σ := by
      rintro rfl
      exact hn b hc
    simp [hne]

theorem bar_of_set (ha : o.allows e = true) {b : Option Role} (hn : o.newBar e = some (τ, b)) :
    (g.step env o e).bar τ = b := by
  rw [step_bar ha, hn]
  simp

/-- The barrier of a task is set when it is created, and when it reaches one. -/
theorem newBar_cases (ha : o.allows e = true) {b : Option Role}
    (hn : o.newBar e = some (τ, b)) :
    Creates e τ ∧ b = none ∨
      ∃ r t, τ = .implicit r t ∧ 1 < (o.region r).requested ∧
        e.call = .syncRegion .barrier .scopeBegin r (.implicit r t) ∧
        b = some (.barrier r ((o.region r).arrivals / (o.region r).requested)) := by
  cases delivers_of_allows ha with
  | @implicitBegin _ r t =>
    obtain ⟨rfl, rfl⟩ : TaskId.implicit r t = τ ∧ none = b := by simpa [newBar] using hn
    exact .inl ⟨.implicit, rfl⟩
  | @barrierBegin _ r t =>
    simp only [newBar] at hn
    split_ifs at hn with hreq
    obtain ⟨rfl, rfl⟩ := Prod.mk.inj (Option.some.inj hn)
    exact .inr ⟨r, t, rfl, hreq, rfl, rfl⟩
  | @outside _ endpoint => cases endpoint <;> cases hn
  | @sync _ kind _ _ _ _ _ hkind =>
    cases kind with
    | barrier => exact absurd rfl hkind
    | taskwait => cases hn
    | taskgroup => cases hn
  | _ => cases hn

theorem Shaped.bar_some_step (h : Shaped o g) (hS : o.Sound) (ha : o.allows e = true) {t : ℕ}
    (hd : (o.apply e).HasData (.implicit r t)) (hreq : 1 < ((o.apply e).region r).requested)
    (harr : 0 < ((o.apply e).task (.implicit r t)).arrived) :
    ∃ i, (g.step env o e).bar (.implicit r t) = some (.barrier r i) ∧
      (o.apply e).Created (.barrier r i) := by
  by_cases hn : ∃ b, o.newBar e = some (.implicit r t, b)
  · obtain ⟨b, hb⟩ := hn
    rw [bar_of_set ha hb]
    rcases newBar_cases ha hb with ⟨hcr, -⟩ | ⟨r', t', hτ, -, hcall, rfl⟩
    · cases hcr with
      | implicit => simp [Runtime.apply] at harr
    · obtain ⟨rfl, rfl⟩ := TaskId.implicit.inj hτ
      -- the barrier of the current round exists once somebody has arrived in it
      refine ⟨_, rfl, hreq, ?_⟩
      have := Nat.div_mul_le_self (o.region r).arrivals (o.region r).requested
      simp only [Runtime.apply, hcall, onRegion_region, Function.update_self]
      simpa using Nat.lt_succ_of_le this
  · have hn' : ∀ b, o.newBar e ≠ some (.implicit r t, b) := fun b hb => hn ⟨b, hb⟩
    have hncr : ¬Creates e (.implicit r t) := by
      intro hcr
      cases hcr with
      | implicit => exact hn' none rfl
    have hd' := hasData_of_apply ha hd hncr
    have hq := (region_apply_fixed ha (hS.region_present hd'.present)).2.1
    rw [hq] at hreq
    rw [bar_of_not_set ha hn']
    rcases arrived_apply ha hd'.present with hsame | ⟨r', t', hτ, hcall, -⟩
    · rw [hsame] at harr
      obtain ⟨i, hi, hc⟩ := h.bar_some hd' hreq harr
      exact ⟨i, hi, (created_apply hS ha).mpr (.inl hc)⟩
    · obtain ⟨rfl, rfl⟩ := TaskId.implicit.inj hτ
      exact absurd (newBar_of_reached hcall hreq) (hn' _)

theorem Shaped.bar_none_step (h : Shaped o g) (hS : o.Sound) (ha : o.allows e = true)
    (hone : ∀ r t, τ = .implicit r t → ((o.apply e).region r).requested ≤ 1 ∨
      ((o.apply e).task τ).arrived = 0) : (g.step env o e).bar τ = none := by
  by_cases hn : ∃ b, o.newBar e = some (τ, b)
  · obtain ⟨b, hb⟩ := hn
    rw [bar_of_set ha hb]
    rcases newBar_cases ha hb with ⟨-, rfl⟩ | ⟨r, t, rfl, hreq, hcall, rfl⟩
    · rfl
    · obtain ⟨th, c⟩ := e
      obtain rfl : c = _ := hcall
      rcases hone _ _ rfl with h1 | h1
      · simp [Runtime.apply] at h1
        omega
      · simp [Runtime.apply] at h1
  · have hn' : ∀ b, o.newBar e ≠ some (τ, b) := fun b hb => hn ⟨b, hb⟩
    rw [bar_of_not_set ha hn']
    refine h.bar_none ?_
    rintro r t rfl
    by_cases hpres : (o.task (.implicit r t)).standing = .absent
    · exact .inr (by rw [hS.fresh hpres])
    · have hq := (region_apply_fixed ha (hS.region_present hpres)).2.1
      rcases hone r t rfl with h1 | h1
      · exact .inl (by rwa [hq] at h1)
      · rcases arrived_apply ha hpres with hsame | ⟨-, -, -, -, hsucc⟩
        · exact .inr (by rwa [hsame] at h1)
        · omega

/-- Every edge that a callback adds leaves a node whose time has come. -/
theorem Shaped.newEdges_source (h : Shaped o g) (hS : o.Sound) (ha : o.allows e = true)
    (hxy : (x, y) ∈ g.newEdges o e) : ¬(o.apply e).Pending x := by
  -- the current node of a task in its body
  have hcur : ∀ {τ}, o.HasData τ → o.InBody τ → ¬(o.apply e).Pending (g.cur τ) := by
    intro τ hd hb hp
    obtain ⟨hc, hs⟩ := h.seat hd
    exact hs.not_pending hb (pending_of_apply hS ha hc hp)
  cases newEdge_of_mem ha hxy with
  | implicitBegin hopen =>
    have hf := hS.opened_parent hopen
    exact hcur (hasData_of_forked hf) (hS.forked_inBody hf)
  | sinkOfBarrier hact harr _ hbar =>
    -- behind a barrier the edge leaves the barrier node, which is never pending
    obtain ⟨i, rfl, -⟩ := h.barrier_of_end hS hact harr hbar
    exact id
  | @sinkOfThread _ r t _ hact harr hbar =>
    obtain ⟨hreq, -⟩ := h.alone_of_end hS hact harr hbar
    have hd := hasData_of_active hact.2
    obtain ⟨hc, hs⟩ := h.seat hd
    intro hp
    have hp' := pending_of_apply hS ha hc hp
    -- a team of one: each seat of the task in turn, none of them pending
    generalize g.cur (.implicit r t) = z at hs hp'
    cases z with
    | imp r' t' j =>
      obtain ⟨hτ, -⟩ := hs
      obtain ⟨rfl, rfl⟩ := TaskId.implicit.inj hτ
      have := hp'.1.1
      omega
    | sink r' =>
      have := hs.1
      simp only [Pending] at hp'
      rw [hp'] at this
      cases this
    | loopSink σ l =>
      obtain ⟨rfl, hl⟩ := hs
      have := hp'.2
      omega
    | _ => exact hp'
  | explicit hact hbody => exact hcur (hasData_of_active hact.2) hbody
  | toBarrier hact hbody => exact hcur (hasData_of_active hact.2) hbody
  | loopBegin hact hbody => exact hcur (hasData_of_active hact.2) hbody
  | ofBarrier => exact id
  | emptyLoop => exact id
  | toChunk => exact id
  | ofChunk => exact id

/-- A node that is not left yet has no exits. -/
theorem Shaped.exits_step (h : Shaped o g) (hS : o.Sound) (hA : Alloc g)
    (ha : o.allows e = true) (hxy : (x, y) ∈ (g.step env o e).edges) :
    ¬(o.apply e).Pending x := by
  rcases (mem_step_edges ha).mp hxy with ⟨hold, -⟩ | hnew
  · intro hp
    have hc := (h.live_iff.mp (hA.edges_live hold).1).1
    exact h.exits hold (pending_of_apply hS ha hc hp)
  · exact h.newEdges_source hS ha hnew

/-- An edge that a callback adds and that leads to a node of a team thread
behind a barrier comes from the barrier. -/
theorem newEdges_imp (ha : o.allows e = true) {t j : ℕ}
    (hxy : (x, .imp r t j) ∈ g.newEdges o e) (hj : 0 < j) :
    e.call = .syncRegion .barrier .scopeBegin r (.implicit r t) ∧
      o.newBar e = some (.implicit r t, some x) := by
  -- the only other edge into such a node has index 0, from the beginning of the task
  cases newEdge_of_mem ha hxy with
  | implicitBegin => omega
  | ofBarrier _ _ hreq => exact ⟨rfl, by simp [newBar, hreq]⟩

/-- The node behind a barrier has one entry, from the barrier node that its task has noted. -/
theorem Shaped.entry_step (h : Shaped o g) (hA : Alloc g)
    (ha : o.allows e = true) {t j : ℕ} (hxy : (x, .imp r t j) ∈ (g.step env o e).edges)
    (hj : 0 < j) (hd : (o.apply e).HasData (.implicit r t))
    (harr : j = ((o.apply e).task (.implicit r t)).arrived) :
    (g.step env o e).bar (.implicit r t) = some x := by
  rcases (mem_step_edges ha).mp hxy with ⟨hold, -⟩ | hnew
  · -- the node was there before, so this callback is not the one that created it
    obtain ⟨hpres, hj'⟩ := (h.live_iff.mp (hA.edges_live hold).2).1
    have hncr : ¬Creates e (.implicit r t) := by
      intro hcr
      cases hcr with
      | implicit =>
        cases delivers_of_allows ha with
        | implicitBegin _ _ habs => exact hpres habs
    have hd' := hasData_of_apply ha hd hncr
    have hsame : ((o.apply e).task (.implicit r t)).arrived
        = (o.task (.implicit r t)).arrived := by
      rcases arrived_apply ha hpres with hs | ⟨-, -, -, -, hs⟩
      · exact hs
      · omega
    have hn : ∀ b, o.newBar e ≠ some (.implicit r t, b) := by
      intro b hb
      rcases newBar_cases ha hb with ⟨hcr, -⟩ | ⟨r', t', hτ, -, hcall, -⟩
      · exact hncr hcr
      · obtain ⟨rfl, rfl⟩ := TaskId.implicit.inj hτ
        obtain ⟨th, c⟩ := e
        obtain rfl : c = _ := hcall
        simp [Runtime.apply] at hsame
    rw [bar_of_not_set ha hn]
    exact h.entry hold hj hd' (by omega)
  · exact bar_of_set ha (newEdges_imp ha hnew hj).2

/-- **Every callback keeps the shape of the graph.** -/
theorem Shaped.step (h : Shaped o g) (hS : o.Sound) (hA : Alloc g) (ha : o.allows e = true) :
    Shaped (o.apply e) (g.step env o e) where
  order_iff := h.order_step hS ha
  live_iff := h.live_step hS ha
  seat := h.seat_step hS ha
  wait := h.wait_step hS ha
  bar_some := h.bar_some_step hS ha
  bar_none := h.bar_none_step hS ha
  exits := h.exits_step hS hA ha
  entry := h.entry_step hA ha

end RoleGraph

end Tdg
