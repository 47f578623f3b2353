/-
TdgTool/Precedence.lean

When an edge of the graph is a precedence.

A node is ahead (`Ahead`) until its time comes, and settled (`Settled`) when no
task will spend time on it any more.  `Ordered` is the invariant: an edge leaves
a settled node, or its target is still ahead.  So when a node is started,
everything that leads to it is settled, and all time charged to that has ended.

Three things in the tool can break this: a team that is smaller than requested,
a task switch inside a barrier, and a task that starts while its creator still
spends time on the node that it was created from.  `Careful` is the condition on
a callback that rules out the last two; a task inside a loop is not left either.
-/
import TdgTool.Threads
import TdgTool.Labels

namespace Tdg

namespace Runtime

variable {o : Runtime} {e : Event} {τ : TaskId} {r : RegionId} {th : ThreadId} {x : Role}

/-! ### Nodes whose time has not come -/

/-- A task that may spend time again where it is. -/
def Ongoing (o : Runtime) (τ : TaskId) : Prop :=
  (o.task τ).standing = .active ∨ (o.task τ).standing.isSuspended = true

instance (o : Runtime) (τ : TaskId) : Decidable (o.Ongoing τ) :=
  inferInstanceAs (Decidable (_ ∨ _))

/-- A node whose time has not come: a pending one, a task that has not started,
or a barrier that some thread has yet to reach. -/
def Ahead (o : Runtime) : Role → Prop
  | .exp n => (o.task (.explicit n)).standing = .ready
  | .barrier r i => ¬o.AllArrived r (i + 1)
  | x => o.Pending x

/-- The node behind the last barrier of a team, which is never used. -/
def Spare (o : Runtime) : Role → Prop
  | .imp r _ j => 1 < (o.region r).requested ∧ j = (o.region r).barriers
  | _ => False

theorem Ongoing.hasData (h : o.Ongoing τ) : o.HasData τ := by
  rcases h with h | h
  · exact hasData_of_active h
  · refine hasData_of_present ?_ ?_ <;>
      · intro hs
        rw [hs] at h
        cases h

theorem Ongoing.not_ready (h : o.Ongoing τ) : (o.task τ).standing ≠ .ready := by
  intro hs
  rcases h with h | h <;> rw [hs] at h <;> cases h

/-- A task becomes ready when it is created. -/
theorem ready_of_newStanding (ha : o.allows e = true) (h : newStanding o e τ = .ready) :
    (o.task τ).standing = .ready ∨ (o.task τ).standing = .absent ∧
      ∃ n, τ = .explicit n ∧ o.newCur e = some (τ, .exp n) := by
  cases delivers_of_allows ha with
  | @explicit _ _ n _ _ habs =>
    simp only [newStanding] at h
    split_ifs at h with hτ
    · subst hτ
      exact .inr ⟨habs, n, rfl, rfl⟩
    · exact .inl h
  | schedule | initial | parallelBegin | parallelEnd | implicitBegin | implicitEnd =>
    simp only [newStanding] at h
    split_ifs at h
    exact .inl h
  | @outside _ endpoint => cases endpoint <;> exact .inl h
  | @sync _ kind _ _ _ _ _ hkind =>
    cases kind with
    | barrier => exact absurd rfl hkind
    | taskwait => exact .inl h
    | taskgroup => exact .inl h
  | _ => exact .inl h

/-- A task that has not started starts when a thread takes it up. -/
theorem started_of_ready (ha : o.allows e = true) (hr : (o.task τ).standing = .ready)
    (hn : newStanding o e τ ≠ .ready) : ∃ first prior, e.call = .taskSchedule first prior τ := by
  -- any other callback changes the standing of a task that is not ready
  have hother : ∀ {σ s}, (o.task σ).standing ≠ .ready →
      (if τ = σ then s else (o.task τ).standing) = .ready := by
    intro σ s hσ
    rw [if_neg, hr]
    rintro rfl
    exact hσ hr
  cases delivers_of_allows ha with
  | @schedule _ first prior second hact =>
    simp only [newStanding] at hn
    split_ifs at hn with h2 h1
    · exact ⟨first, prior, by rw [h2]⟩
    · rw [h1, hact.2] at hr
      cases hr
    · rw [h1, hact.2] at hr
      cases hr
    · exact absurd hr hn
  | initial _ _ habs => exact absurd (hother (by simp [habs])) hn
  | explicit _ _ habs => exact absurd (hother (by simp [habs])) hn
  | parallelBegin hact => exact absurd (hother (by simp [hact.2])) hn
  | parallelEnd _ _ hfork => exact absurd (hother (by simp [hfork])) hn
  | implicitBegin _ _ habs => exact absurd (hother (by simp [habs])) hn
  | implicitEnd hact => exact absurd (hother (by simp [hact.2])) hn
  | @outside _ endpoint => cases endpoint <;> exact absurd hr hn
  | @sync _ kind _ _ _ _ _ hkind =>
    cases kind with
    | barrier => exact absurd rfl hkind
    | taskwait => exact absurd hr hn
    | taskgroup => exact absurd hr hn
  | _ => exact absurd hr hn

/-- Once all threads have reached a barrier, they have reached it. -/
theorem allArrived_apply (hS : o.Sound) (ha : o.allows e = true) {j : ℕ}
    (hpres : (o.region r).stage ≠ .absent) (h : o.AllArrived r j) : (o.apply e).AllArrived r j := by
  intro t ht
  rw [(region_apply_fixed ha hpres).2.2.1] at ht
  have hold := h t ht
  by_cases habs : (o.task (.implicit r t)).standing = .absent
  · rw [hS.fresh habs] at hold
    exact hold.trans (Nat.zero_le _)
  · rcases arrived_apply ha habs with hs | ⟨-, -, -, -, hs⟩
    · rw [hs]
      exact hold
    · rw [hs]
      exact hold.trans (Nat.le_succ _)

/-- A barrier node belongs to a region that exists. -/
theorem Sound.barrier_present (hS : o.Sound) {i : ℕ} (hc : o.Created (.barrier r i)) :
    (o.region r).stage ≠ .absent := by
  intro hs
  have hlt : 1 < (o.region r).requested := hc.1
  rw [((hS.team r).absent hs).1] at hlt
  exact absurd hlt (by simp)

/-- A region with a thread before its last barrier is open. -/
theorem Sound.opened_of_lt (hS : o.Sound) {t : ℕ}
    (hpres : (o.task (.implicit r t)).standing ≠ .absent)
    (hlt : (o.task (.implicit r t)).arrived < (o.region r).barriers) :
    (o.region r).stage = .opened := by
  have hT := hS.team r
  rcases hs : (o.region r).stage with - | - | -
  · exact absurd hs (hS.region_present hpres)
  · rfl
  · have hall := hT.done_arrived (hT.ended_done hs) t (hT.thread_lt hpres)
    exact absurd hlt (Nat.not_lt.mpr hall)

/-- **The time of a node comes once.** -/
theorem ahead_of_apply (hS : o.Sound) (ha : o.allows e = true) (hc : o.Created x)
    (h : (o.apply e).Ahead x) : o.Ahead x := by
  cases x with
  | exp n =>
    have hready : newStanding o e (.explicit n) = .ready := (standing_apply ha _).symm.trans h
    exact (ready_of_newStanding ha hready).resolve_right fun hn => hc hn.1
  | barrier r i => exact fun hall => h (allArrived_apply hS ha (hS.barrier_present hc) hall)
  | root => exact pending_of_apply (x := .root) hS ha hc h
  | sink r => exact pending_of_apply (x := .sink r) hS ha hc h
  | imp r t j => exact pending_of_apply (x := .imp r t j) hS ha hc h
  | ws τ l => exact pending_of_apply (x := .ws τ l) hS ha hc h
  | loopSink τ l => exact pending_of_apply (x := .loopSink τ l) hS ha hc h
  | chunk τ l c => exact pending_of_apply (x := .chunk τ l c) hS ha hc h

/-- A spare node is one from the start. -/
theorem spare_apply (hS : o.Sound) (ha : o.allows e = true) (hc : o.Created x) :
    (o.apply e).Spare x ↔ o.Spare x := by
  cases x with
  | imp r t j =>
    obtain ⟨-, h1, -, h2, -⟩ := region_apply_fixed ha (hS.region_present hc.1)
    simp only [Spare, h1, h2]
  | _ => exact Iff.rfl

end Runtime

namespace RoleGraph

open Tdg.Runtime Relation

variable {o : Runtime} {g : RoleGraph} {env : Env} {e : Event} {x y z : Role} {τ σ : TaskId}
  {r : RegionId} {th : ThreadId}

/-! ### Positions, again -/

/-- Tasks are at different nodes. -/
theorem seat_inj (h1 : o.Seat σ x) (h2 : o.Seat τ x) : σ = τ := by
  cases x with
  | root => exact Eq.trans h1 (Eq.symm h2)
  | exp n => exact Eq.trans h1 (Eq.symm h2)
  | sink r => exact h1.2.symm.trans h2.2
  | imp r t j => exact h1.1.trans h2.1.symm
  | loopSink υ l => exact h1.1.symm.trans h2.1
  | _ => exact h1.elim

/-- The nodes of the loop that a task is in. -/
theorem openNode_cases (o : Runtime) (τ : TaskId) :
    openNode o τ = .ws τ (o.task τ).loops ∨ ∃ c, openNode o τ = .chunk τ (o.task τ).loops c := by
  unfold openNode
  rcases (o.task τ).chunks (o.task τ).loops with - | c
  · exact .inl rfl
  · exact .inr ⟨c, rfl⟩

/-- A task at a start node or a chunk is inside that loop. -/
theorem Shaped.inside_of_position (hW : Shaped o g) (hd : o.HasData τ) {l : ℕ}
    (hx : position g o τ = .ws σ l ∨ ∃ c, position g o τ = .chunk σ l c) :
    τ = σ ∧ l = (o.task τ).loops ∧ (o.task τ).inLoop = true := by
  by_cases hin : (o.task τ).inLoop = true
  · rw [position_of_inside hin] at hx
    rcases openNode_cases o τ with h | ⟨c, h⟩ <;> rw [h] at hx
    · obtain ⟨rfl, rfl⟩ : τ = σ ∧ (o.task τ).loops = l := by simpa using hx
      exact ⟨rfl, rfl, hin⟩
    · obtain ⟨rfl, rfl⟩ : τ = σ ∧ (o.task τ).loops = l := by simpa using hx
      exact ⟨rfl, rfl, hin⟩
  · rw [position_of_outside (by simpa using hin)] at hx
    have hs := (hW.seat hd).2
    rcases hx with hx | ⟨c, hx⟩
    · rw [hx] at hs
      exact hs.elim
    · rw [hx] at hs
      exact hs.elim

/-- **Tasks are at different positions.** -/
theorem Shaped.position_inj (hW : Shaped o g) (h1 : o.HasData σ) (h2 : o.HasData τ)
    (heq : position g o σ = position g o τ) : σ = τ := by
  by_cases hin : (o.task τ).inLoop = true
  · rw [position_of_inside hin] at heq
    rcases openNode_cases o τ with h | ⟨c, h⟩
    · exact (hW.inside_of_position h1 (.inl (heq.trans h))).1
    · exact (hW.inside_of_position h1 (.inr ⟨c, heq.trans h⟩)).1
  · by_cases hin' : (o.task σ).inLoop = true
    · rw [position_of_inside hin'] at heq
      rcases openNode_cases o σ with h | ⟨c, h⟩
      · exact (hW.inside_of_position h2 (.inl (heq.symm.trans h))).1.symm
      · exact (hW.inside_of_position h2 (.inr ⟨c, heq.symm.trans h⟩)).1.symm
    · rw [position_of_outside (by simpa using hin'), position_of_outside (by simpa using hin)]
        at heq
      exact seat_inj (hW.seat h1).2 (heq ▸ (hW.seat h2).2)

/-- A task is moved to a new node, or to one whose time has not come. -/
theorem newPosition_ahead (ha : o.allows e = true) (hn : newPosition o e = some (τ, x))
    (hc : o.Created x) : o.Ahead x := by
  have hnew : x ∉ o.newRoles e := fun hx => newRoles_fresh ha hx hc
  -- only the two sinks were created before a task is moved there, and they are ahead
  cases delivers_of_allows ha with
  | initial =>
    obtain ⟨-, rfl⟩ := Prod.mk.inj (Option.some.inj hn)
    exact absurd (by simp [newRoles]) hnew
  | explicit =>
    obtain ⟨-, rfl⟩ := Prod.mk.inj (Option.some.inj hn)
    exact absurd (by simp [newRoles]) hnew
  | implicitBegin =>
    obtain ⟨-, rfl⟩ := Prod.mk.inj (Option.some.inj hn)
    exact absurd (by simp [newRoles]) hnew
  | parallelEnd hopen =>
    obtain ⟨-, rfl⟩ := Prod.mk.inj (Option.some.inj hn)
    exact hopen
  | @barrierBegin _ r t =>
    have hcur : (if 1 < (o.region r).requested then
        some (.implicit r t, Role.imp r t ((o.task (.implicit r t)).arrived + 1)) else none)
        = some (τ, x) := hn
    split_ifs at hcur with hreq
    obtain ⟨-, rfl⟩ := Prod.mk.inj (Option.some.inj hcur)
    exact absurd (by simp [newRoles, hreq]) hnew
  | loopBegin =>
    obtain ⟨-, rfl⟩ := Prod.mk.inj (Option.some.inj hn)
    exact absurd (by simp [newRoles]) hnew
  | loopEnd _ _ hloop =>
    obtain ⟨-, rfl⟩ := Prod.mk.inj (Option.some.inj hn)
    exact ⟨hloop, rfl⟩
  | @chunk _ _ _ _ lastChunk =>
    cases lastChunk with
    | true => cases hn
    | false =>
      obtain ⟨-, rfl⟩ := Prod.mk.inj (Option.some.inj hn)
      exact absurd (by simp [newRoles]) hnew
  | @outside _ endpoint => cases endpoint <;> cases hn
  | @sync _ kind _ _ _ _ _ hkind =>
    cases kind with
    | barrier => exact absurd rfl hkind
    | taskwait => cases hn
    | taskgroup => cases hn
  | _ => cases hn

/-- No task is at a barrier node. -/
theorem Shaped.position_ne_barrier (hW : Shaped o g) (hd : o.HasData τ) {i : ℕ} :
    position g o τ ≠ .barrier r i := by
  intro hx
  rcases hin : (o.task τ).inLoop with - | -
  · have hs := (hW.seat hd).2
    rw [position_of_outside hin] at hx
    rw [hx] at hs
    exact hs
  · rw [position_of_inside hin] at hx
    rcases openNode_cases o τ with h | ⟨c, h⟩ <;> rw [h] at hx <;> cases hx

/-- Only a thread at a barrier is at a node whose time has not come. -/
theorem Shaped.waiting_of_ahead (hW : Shaped o g) (hd : o.HasData τ)
    (hr : (o.task τ).standing ≠ .ready) (h : o.Ahead (g.cur τ)) :
    ∃ r t, τ = .implicit r t ∧ o.Waiting r t ∧
      g.cur τ = .imp r t (o.task (.implicit r t)).arrived := by
  have hs := (hW.seat hd).2
  generalize g.cur τ = x at hs h
  -- seat by seat: a task is at a sink only when the region or the loop has ended
  cases x with
  | exp n =>
    obtain rfl : τ = .explicit n := hs
    exact absurd h hr
  | sink r =>
    have hopen : (o.region r).stage = .opened := h
    rw [hs.1] at hopen
    cases hopen
  | imp r t j =>
    obtain ⟨hw, rfl⟩ : o.Waiting r t ∧ j = (o.task (.implicit r t)).arrived := h
    exact ⟨r, t, hs.1, hw, rfl⟩
  | loopSink σ l =>
    obtain ⟨rfl, hl⟩ := hs
    have heq : l = (o.task σ).loops := h.2
    omega
  | barrier r i => exact hs.elim
  | _ => exact h.elim

/-- The node of a task in its body has begun. -/
theorem Shaped.cur_begun (hW : Shaped o g) (hd : o.HasData τ)
    (hr : (o.task τ).standing ≠ .ready) (hbody : o.InBody τ) : ¬o.Ahead (g.cur τ) := by
  intro h
  obtain ⟨r, t, rfl, hw, -⟩ := hW.waiting_of_ahead hd hr h
  exact hw.2.2 hbody

/-! ### The invariant -/

/-- No task will spend time on the node any more. -/
def Settled (g : RoleGraph) (o : Runtime) (x : Role) : Prop :=
  ¬o.Ahead x ∧ ∀ τ, o.Ongoing τ → position g o τ ≠ x

/-- The source of an edge need not be settled while its target is ahead. -/
def Loose (o : Runtime) (x : Role) : Role → Prop
  | .exp n => o.Ahead (.exp n) ∧ ¬o.Ahead x
  | .imp r t j => o.Ahead (.imp r t j)
  | .loopSink τ l => o.Ahead (.loopSink τ l)
  | _ => False

theorem Loose.ahead (h : Loose o x y) : o.Ahead y := by
  cases y with
  | exp n => exact h.1
  | imp r t j => exact h
  | loopSink τ l => exact h
  | _ => exact h.elim

/-- What holds of edges and charges while every callback is careful. -/
structure Ordered (o : Runtime) (g : RoleGraph) : Prop where
  loops : LoopsRun o
  ready : ∀ {τ}, (o.task τ).standing = .ready → ∃ n, τ = .explicit n ∧ g.cur τ = .exp n
  closed : ∀ {x y}, g.Link x y → Settled g o x ∨ Loose o x y
  unspent : ∀ {a}, a ∈ g.charges →
    (∀ r i, a.node ≠ .barrier r i) ∧ (o.Ahead a.node → o.Spare a.node)
  started : ∀ {x y}, TransGen g.Link x y → ¬o.Ahead y → (∀ r i, y ≠ .barrier r i) →
    ∀ a ∈ g.charges, a.node = x → a.stop ≤ (g.data y).lastTime
  ordered : ∀ {x y}, TransGen g.Link x y → ¬o.Spare y → ∀ a ∈ g.charges, a.node = x →
    ∀ b ∈ g.charges, b.node = y → a.stop ≤ b.start

theorem ordered_init : Ordered Runtime.init RoleGraph.init where
  loops := loopsRun_init
  ready := by
    intro τ h
    cases h
  closed := by
    intro x y h
    cases h
  unspent := by simp [RoleGraph.init]
  started := by simp [RoleGraph.init]
  ordered := by simp [RoleGraph.init]

/-- Everything that leads to a node that has begun is settled. -/
theorem Ordered.settled (h : Ordered o g) (hxy : TransGen g.Link x y) (hy : ¬o.Ahead y) :
    Settled g o x := by
  have hlink : ∀ {x y}, g.Link x y → ¬o.Ahead y → Settled g o x := fun hxy hy =>
    (h.closed hxy).resolve_right fun hl => hy hl.ahead
  induction hxy using TransGen.head_induction_on with
  | single hxy => exact hlink hxy hy
  | head hxw _ ih => exact hlink hxw ih.1

/-! ### Careful callbacks -/

/-- A condition on a callback: no task inside a loop is left; in a team of two
or more a thread is not taken away from a barrier other than the last one; and a
task does not start while a task that goes on, other than one that ends here, is
at a node with an edge to it. -/
structure Careful (o : Runtime) (g : RoleGraph) (e : Event) : Prop where
  outside : OutsideLoops o e
  wait : ∀ {r t prior second}, e.call = .taskSchedule (.implicit r t) prior second →
    1 < (o.region r).requested →
    o.InBody (.implicit r t) ∨ (o.task (.implicit r t)).arrived = (o.region r).barriers
  start : ∀ {first prior n}, e.call = .taskSchedule first prior (.explicit n) →
    (o.task (.explicit n)).standing = .ready →
    ∀ σ, o.Ongoing σ → g.Link (position g o σ) (.exp n) → σ = first ∧ Terminates prior

/-- A task that is charged is in its body, or is switched away from, or belongs
to a team of one. -/
theorem Shaped.charged_inBody (hW : Shaped o g) (hS : o.Sound) (ha : o.allows e = true)
    (hτ : o.Acts e.thread τ) (hx : g.charged o e = some x) :
    o.InBody τ ∨ (∃ prior second, e.call = .taskSchedule τ prior second) ∨
      ∃ r t, τ = .implicit r t ∧ (o.region r).requested ≤ 1 := by
  -- the thread executes one task
  have hsame : ∀ {σ}, o.Acts e.thread σ → σ = τ := fun hσ =>
    Option.some.inj (hσ.1.symm.trans hτ.1)
  cases delivers_of_allows ha with
  | @implicitEnd _ r t _ hact harr =>
    refine .inr (.inr ⟨r, t, (hsame hact).symm, ?_⟩)
    rcases hW.implicitEnd_node hS hact harr with ⟨-, -, -, i, hbar, -⟩ | ⟨hreq, -⟩
    · simp [charged, hbar] at hx
    · exact hreq
  | schedule hact => exact .inr (.inl ⟨_, _, by rw [hsame hact]⟩)
  | parallelBegin hact hbody => exact .inl (hsame hact ▸ hbody)
  | barrierBegin hact hbody => exact .inl (hsame hact ▸ hbody)
  | loopBegin _ hact hbody => exact .inl (hsame hact ▸ hbody)
  | loopEnd hact hbody => exact .inl (hsame hact ▸ hbody)
  | chunk hact hbody => exact .inl (hsame hact ▸ hbody)
  | @outside _ endpoint => cases endpoint <;> cases hx
  | @sync _ kind _ _ _ _ _ hkind =>
    cases kind with
    | barrier => exact absurd rfl hkind
    | taskwait => cases hx
    | taskgroup => cases hx
  | _ => cases hx

/-- A charged node has begun, or is the spare node of its thread. -/
theorem Careful.charged (hc : Careful o g e) (hW : Shaped o g) (hS : o.Sound)
    (ha : o.allows e = true) (hx : g.charged o e = some x) :
    (∀ r i, x ≠ .barrier r i) ∧ (o.Ahead x → o.Spare x) := by
  obtain ⟨τ, hτ, rfl⟩ := charged_position hS ha hc.outside hx
  have hd := hasData_of_active hτ.2
  refine ⟨fun r i => hW.position_ne_barrier hd, fun hahead => ?_⟩
  rcases hin : (o.task τ).inLoop with - | -
  · rw [position_of_outside hin] at hahead ⊢
    obtain ⟨r, t, rfl, hw, hcur⟩ := hW.waiting_of_ahead hd (by simp [hτ.2]) hahead
    rw [hcur]
    refine ⟨hw.1, ?_⟩
    rcases hW.charged_inBody hS ha hτ hx with hbody | ⟨prior, second, hcall⟩ | ⟨r', t', heq, hone⟩
    · exact absurd hbody hw.2.2
    · exact (hc.wait hcall hw.1).resolve_left hw.2.2
    · obtain ⟨rfl, rfl⟩ := TaskId.implicit.inj heq
      exact absurd hw.1 (Nat.not_lt.mpr hone)
  · rw [position_of_inside hin] at hahead
    rcases openNode_cases o τ with h | ⟨c, h⟩ <;> rw [h] at hahead <;> exact hahead.elim

/-! ### Settled nodes stay settled -/

/-- A task that goes on after a callback went on before it, is moved by it, or
starts with it. -/
theorem ongoing_cases (ha : o.allows e = true) (h : (o.apply e).Ongoing τ) :
    o.Ongoing τ ∨ (∃ x, newPosition o e = some (τ, x)) ∨ (o.task τ).standing = .ready := by
  unfold Ongoing at h
  rw [standing_apply ha] at h
  rcases standing_cases ha τ with hs | hx | hs | ⟨r, hs⟩ | ⟨first, prior, second, hcall, hτ⟩
  · rw [hs] at h
    exact .inl h
  · exact .inr (.inl hx)
  · rw [hs] at h
    exact absurd h (by simp [Standing.isSuspended])
  · rw [hs] at h
    exact absurd h (by simp [Standing.isSuspended])
  · obtain ⟨th, call⟩ := e
    obtain rfl : call = _ := hcall
    cases delivers_of_allows ha with
    | schedule hact hmay =>
      -- taken up now: it was suspended, and so it went on, or it had not started
      rcases hτ with rfl | ⟨rfl, -⟩
      · rcases hmay with hready | hsusp | ⟨-, hsusp⟩
        · exact .inr (.inr hready)
        · exact .inl (.inr (by rw [hsusp]; rfl))
        · exact .inl (.inr hsusp)
      · exact .inl (.inl hact.2)

/-- A node that has begun is settled after a callback if every task on it that
goes on is moved. -/
theorem Ordered.settled_of (h : Ordered o g) (hS : o.Sound) (hF : ∀ σ, LoopsFresh (o.task σ))
    (ha : o.allows e = true) (hc : o.Created x) (hx : ¬o.Ahead x)
    (hmove : ∀ τ, o.Ongoing τ → (o.apply e).Ongoing τ → position g o τ = x →
      ∃ z, newPosition o e = some (τ, z)) : Settled (g.step env o e) (o.apply e) x := by
  refine ⟨fun hx' => hx (ahead_of_apply hS ha hc hx'), fun τ hτ heq => ?_⟩
  by_cases hn : ∃ z, newPosition o e = some (τ, z)
  · obtain ⟨z, hz⟩ := hn
    rw [position_new (hF τ) h.loops ha hz] at heq
    exact hx (newPosition_ahead ha (heq ▸ hz) hc)
  · have hstay : position g o τ = x := by
      rw [← heq, position_keep ha fun z hz => hn ⟨z, hz⟩]
    rcases ongoing_cases ha hτ with hold | hz | hready
    · exact hn (hmove τ hold hτ hstay)
    · exact hn hz
    · -- a task that starts here was not on a node that has begun
      obtain ⟨n, rfl, hcur⟩ := h.ready hready
      rw [position_of_outside (h.loops.outside (by simp [hready])), hcur] at hstay
      subst hstay
      exact hx hready

theorem Ordered.settled_apply (h : Ordered o g) (hS : o.Sound) (hF : ∀ σ, LoopsFresh (o.task σ))
    (ha : o.allows e = true) (hc : o.Created x) (hx : Settled g o x) :
    Settled (g.step env o e) (o.apply e) x :=
  h.settled_of hS hF ha hc hx.1 fun τ hτ _ hpos => absurd hpos (hx.2 τ hτ)

/-! ### Edges -/

/-- The nodes of a loop have begun. -/
theorem created_ws (hloop : (o.task τ).inLoop = true) : o.Created (.ws τ (o.task τ).loops) := by
  simp [Created, TaskState.begun, hloop]

/-- The barriers of a team are numbered below the number that it executes. -/
theorem barrier_lt (hS : o.Sound) {i : ℕ} (hc : o.Created (.barrier r i)) :
    i < (o.region r).barriers := by
  have hT := hS.team r
  have hsize := (hT.sizes (hS.barrier_present hc)).2.1
  have hle : (o.region r).arrivals ≤ (o.region r).barriers * (o.region r).requested := by
    rw [hT.arrivals_eq]
    calc ∑ t ∈ Finset.range (o.region r).teamSize, (o.team r t).arrived
        ≤ ∑ _t ∈ Finset.range (o.region r).teamSize, (o.region r).barriers :=
          Finset.sum_le_sum fun t _ => hT.arrived_le_barriers t
      _ = (o.region r).barriers * (o.region r).teamSize := by simp [mul_comm]
      _ ≤ (o.region r).barriers * (o.region r).requested := Nat.mul_le_mul_left _ hsize
  exact Nat.lt_of_mul_lt_mul_right (hc.2.trans_le hle)

/-- The node behind a barrier that a thread reaches is pending. -/
theorem pending_arrival {t : ℕ} (hbody : o.InBody (.implicit r t))
    (hreq : 1 < (o.region r).requested) :
    (o.apply ⟨th, .syncRegion .barrier .scopeBegin r (.implicit r t)⟩).Pending
      (.imp r t ((o.task (.implicit r t)).arrived + 1)) := by
  have hpas := hbody.1
  refine ⟨⟨?_, ?_, fun hb => ?_⟩, ?_⟩
  · simpa [Runtime.apply] using hreq
  · simp [Runtime.apply]
  · have hb1 := hb.1
    simp [Runtime.apply] at hb1
    omega
  · simp [Runtime.apply]

/-- The sink of a loop stays ahead when a chunk begins. -/
theorem pending_chunk {lower upper : ℤ} (hloop : (o.task τ).inLoop = true) :
    (o.apply ⟨th, .extChunk τ lower upper false⟩).Pending (.loopSink τ (o.task τ).loops) := by
  refine ⟨?_, ?_⟩
  · simpa [Runtime.apply] using hloop
  · simp [Runtime.apply]

/-- An edge that is added leaves a settled node, or its target is ahead. -/
theorem Ordered.newEdges_closed (h : Ordered o g) (hW : Shaped o g) (hS : o.Sound)
    (hF : ∀ σ, LoopsFresh (o.task σ)) (hW' : Shaped (o.apply e) (g.step env o e))
    (ha : o.allows e = true) (hxy : (x, y) ∈ g.newEdges o e) :
    Settled (g.step env o e) (o.apply e) x ∨ Loose (o.apply e) x y := by
  -- the node of a task in its body, which is moved or does not go on
  have hcur : ∀ {τ}, o.HasData τ → (o.task τ).standing ≠ .ready → o.InBody τ →
      (o.task τ).inLoop = false →
      (o.Ongoing τ → (o.apply e).Ongoing τ → ∃ z, newPosition o e = some (τ, z)) →
      Settled (g.step env o e) (o.apply e) (g.cur τ) := by
    intro τ hd hr hbody hin hmove
    refine h.settled_of hS hF ha (hW.seat hd).1 (hW.cur_begun hd hr hbody) fun σ hσ hσ' hpos => ?_
    obtain rfl : σ = τ := hW.position_inj hσ.hasData hd (by rw [hpos, position_of_outside hin])
    exact hmove hσ hσ'
  -- the start node of a loop, whose task moves on
  have hws : ∀ {τ}, (o.task τ).inLoop = true → (∃ z, newPosition o e = some (τ, z)) →
      Settled (g.step env o e) (o.apply e) (.ws τ (o.task τ).loops) := by
    intro τ hin hmove
    refine h.settled_of hS hF ha (created_ws hin) id fun σ hσ _ hpos => ?_
    obtain ⟨rfl, -⟩ := hW.inside_of_position hσ.hasData (.inl hpos)
    exact hmove
  cases newEdge_of_mem ha hxy with
  | implicitBegin hopen =>
    have hf := hS.opened_parent hopen
    refine .inl (hcur (hasData_of_forked hf) (by simp [hf]) (hS.forked_inBody hf)
      (h.loops.outside (by simp [hf])) fun hon => ?_)
    simp [Ongoing, hf, Standing.isSuspended] at hon
  | sinkOfBarrier hact harr hall hbar =>
    obtain ⟨i, rfl, hc⟩ := hW.barrier_of_end hS hact harr hbar
    refine .inl ⟨not_not_intro ?_, fun τ hτ => hW'.position_ne_barrier hτ.hasData⟩
    have hlt := barrier_lt hS hc
    exact allArrived_apply hS ha (hS.barrier_present hc) fun u hu => hlt.trans_le (hall u hu)
  | @sinkOfThread _ r t _ hact harr hbar =>
    obtain ⟨hreq, -⟩ := hW.alone_of_end hS hact harr hbar
    have hd := hasData_of_active hact.2
    refine .inl (h.settled_of hS hF ha (hW.seat hd).1 (fun hahead => ?_)
      fun σ hσ hσ' hpos => ?_)
    · obtain ⟨r', t', hτ, hw, -⟩ := hW.waiting_of_ahead hd (by simp [hact.2]) hahead
      obtain ⟨rfl, rfl⟩ := TaskId.implicit.inj hτ
      have := hw.1
      omega
    · rw [← position_of_outside (g := g) (hS.outside_of_arrived harr)] at hpos
      obtain rfl := hW.position_inj hσ.hasData hd hpos
      simp [Ongoing, standing_apply ha, newStanding, Standing.isSuspended] at hσ'
  | @explicit _ parent n hact hbody =>
    have hd := hasData_of_active hact.2
    refine .inr ⟨?_, fun hahead => ?_⟩
    · show ((o.apply _).task (.explicit n)).standing = .ready
      rw [standing_apply ha]
      simp [newStanding]
    · exact hW.cur_begun hd (by simp [hact.2]) hbody (ahead_of_apply hS ha (hW.seat hd).1 hahead)
  | toBarrier hact hbody hloop hreq =>
    refine .inl (hcur (hasData_of_active hact.2) (by simp [hact.2]) hbody hloop fun _ _ => ?_)
    exact ⟨_, newPosition_of_newCur (by simp [newCur, hreq]; rfl)⟩
  | ofBarrier _ hbody hreq => exact .inr (pending_arrival hbody hreq)
  | loopBegin hact hbody hloop =>
    exact .inl (hcur (hasData_of_active hact.2) (by simp [hact.2]) hbody hloop
      fun _ _ => ⟨_, rfl⟩)
  | emptyLoop hloop => exact .inl (hws hloop ⟨_, rfl⟩)
  | toChunk hloop => exact .inl (hws hloop ⟨_, rfl⟩)
  | ofChunk hloop => exact .inr (pending_chunk hloop)

/-- A thread leaves a barrier for the next phase when its whole team has reached
it. -/
theorem left_of_pending (hS : o.Sound) (ha : o.allows e = true) {t j : ℕ}
    (hc : o.Created (.imp r t j)) (hp : o.Pending (.imp r t j))
    (hp' : ¬(o.apply e).Pending (.imp r t j)) :
    e.call = .syncRegion .barrier .scopeEnd r (.implicit r t) ∧ o.Acts e.thread (.implicit r t) ∧
      o.AllArrived r j ∧ (o.region r).stage = .opened := by
  obtain ⟨⟨hreq, harr, hbody⟩, rfl⟩ := hp
  obtain ⟨-, hq, -, hk, -⟩ := region_apply_fixed ha (hS.region_present hc.1)
  simp only [Pending, Waiting, InBody, hq, hk] at hp'
  have ht := taskChange ha (.implicit r t)
  generalize (o.apply e).task (.implicit r t) = v at ht hp'
  cases ht with
  | created _ habs => exact absurd habs hc.1
  | reached _ _ _ hb => exact absurd hb hbody
  | left hτ hcall hact _ hall =>
    obtain ⟨rfl, rfl⟩ := TaskId.implicit.inj hτ
    refine ⟨hcall, hact, hall, ?_⟩
    have hlt : (o.task (.implicit r t)).arrived < (o.region r).barriers := by
      by_contra hlt
      exact hp' ⟨⟨hreq, harr, fun hb => hlt hb.2⟩, rfl⟩
    exact hS.opened_of_lt hc.1 hlt
  | _ => exact absurd ⟨⟨hreq, harr, hbody⟩, rfl⟩ hp'

/-- A loop's sink is reached when the loop ends. -/
theorem left_of_inLoop (hS : o.Sound) (ha : o.allows e = true) {l : ℕ}
    (hp : o.Pending (.loopSink τ l)) (hp' : ¬(o.apply e).Pending (.loopSink τ l)) :
    newPosition o e = some (τ, .loopSink τ l) := by
  obtain ⟨hin, rfl⟩ := hp
  simp only [Pending] at hp'
  have ht := taskChange ha τ
  generalize (o.apply e).task τ = v at ht hp'
  cases ht with
  | loopEnd _ _ _ hcall => simp [newPosition, newCur, hcall]
  | created _ habs =>
    rw [hS.fresh habs] at hin
    cases hin
  | loopBegin _ _ hloop =>
    rw [hin] at hloop
    cases hloop
  | _ => exact absurd ⟨hin, rfl⟩ hp'

/-- What holds of the edges of a graph that was built with complete teams. -/
structure Regular (o : Runtime) (g : RoleGraph) : Prop where
  teams : ∀ r, FullTeam (o.region r)
  phases : PhaseExits o g
  loopEdges : ∀ {x y}, WithinLoop x y → (g.Link x y ↔ LoopEdge o x y)

/-- An edge that is kept leaves a settled node, or its target is ahead. -/
theorem Ordered.oldEdges_closed (h : Ordered o g) (hR : Regular o g) (hW : Shaped o g)
    (hS : o.Sound) (hA : Alloc g) (hF : ∀ σ, LoopsFresh (o.task σ))
    (hW' : Shaped (o.apply e) (g.step env o e)) (ha : o.allows e = true) (hC : Careful o g e)
    (hxy : g.Link x y) : Settled (g.step env o e) (o.apply e) x ∨ Loose (o.apply e) x y := by
  have hcx : o.Created x := (hW.live_iff.mp (hA.edges_live hxy).1).1
  have hcy : o.Created y := (hW.live_iff.mp (hA.edges_live hxy).2).1
  rcases h.closed hxy with hset | hloose
  · exact .inl (h.settled_apply hS hF ha hcx hset)
  by_cases hahead : (o.apply e).Ahead y
  · -- the target is still ahead
    refine .inr ?_
    cases y with
    | exp n => exact ⟨hahead, fun hx => hloose.2 (ahead_of_apply hS ha hcx hx)⟩
    | imp r t j => exact hahead
    | loopSink τ l => exact hahead
    | _ => exact hloose
  · refine .inl ?_
    cases y with
    | exp n =>
      have hready : (o.task (.explicit n)).standing = .ready := hloose.1
      have hstart : newStanding o e (.explicit n) ≠ .ready := by
        rw [← standing_apply ha]
        exact hahead
      obtain ⟨first, prior, hcall⟩ := started_of_ready ha hready hstart
      refine h.settled_of hS hF ha hcx hloose.2 fun σ hσ hσ' hpos => ?_
      subst hpos
      -- the task at the source ends with this callback
      obtain ⟨rfl, hterm⟩ := hC.start hcall hready σ hσ hxy
      have hne : σ ≠ .explicit n := by
        rintro rfl
        exact hσ.not_ready hready
      have hdone : newStanding o e σ = .done := by simp [newStanding, hcall, hne, hterm]
      rw [← standing_apply ha] at hdone
      simp [Ongoing, hdone, Standing.isSuspended] at hσ'
    | imp r t j =>
      obtain ⟨hcall, hact, hall, -⟩ := left_of_pending hS ha hcy hloose hahead
      have hd := hasData_of_active hact.2
      obtain ⟨⟨hreq, harr, -⟩, hj⟩ : o.Waiting r t ∧ j = (o.task (.implicit r t)).arrived := hloose
      obtain ⟨i, hbar, hc⟩ := hW.bar_some hd hreq (by omega)
      obtain rfl : Role.barrier r i = x :=
        Option.some.inj (hbar.symm.trans (hW.entry hxy (by omega) hd hj))
      have hi : j = i + 1 := by
        rcases hR.phases (hR.teams r) hxy with heq | ⟨u, heq⟩
        · cases heq
        · exact (Role.imp.inj heq).2.2
      refine ⟨not_not_intro ?_, fun τ hτ => hW'.position_ne_barrier hτ.hasData⟩
      rw [← hi]
      exact allArrived_apply hS ha (hS.barrier_present hc) hall
    | loopSink τ l =>
      have hmove := left_of_inLoop hS ha hloose hahead
      have hedge := (hR.loopEdges (y := .loopSink τ l) (by cases x <;> trivial)).mp hxy
      have hl : l = (o.task τ).loops := (show o.Pending (.loopSink τ l) from hloose).2
      cases x with
      | ws σ k =>
        have hlt : k < (o.task σ).loops := hedge.2.2.1
        obtain ⟨rfl, rfl, -⟩ := hedge
        omega
      | chunk σ k c =>
        obtain ⟨rfl, rfl, -⟩ := hedge
        refine h.settled_of hS hF ha hcx id fun υ hυ _ hpos => ?_
        obtain ⟨rfl, -⟩ := hW.inside_of_position hυ.hasData (.inr ⟨c, hpos⟩)
        exact ⟨_, hmove⟩
      | _ => exact hedge.elim
    | _ => exact hloose.elim

/-! ### Paths after a callback -/

/-- Behind a barrier that a thread reaches everything is still pending. -/
theorem Shaped.pending_behind_arrival (hW : Shaped o g) (hS : o.Sound) (hA : Alloc g)
    (hR : Regular o g) {t : ℕ} (hact : o.Acts th (.implicit r t))
    (hbody : o.InBody (.implicit r t)) (hreq : 1 < (o.region r).requested)
    (ha : o.allows ⟨th, .syncRegion .barrier .scopeBegin r (.implicit r t)⟩ = true)
    (hz : g.Link (.barrier r ((o.region r).arrivals / (o.region r).requested)) z) :
    (o.apply ⟨th, .syncRegion .barrier .scopeBegin r (.implicit r t)⟩).Ahead z := by
  have hpres : (o.task (.implicit r t)).standing ≠ .absent := by simp [hact.2]
  have hcz : o.Created z := (hW.live_iff.mp (hA.edges_live hz).2).1
  rw [hS.arrivals_div (hR.teams r) hpres hbody] at hz
  have hp := pending_behind hS hR.phases hW hA (hR.teams r) hpres hbody hreq hz
  rcases hR.phases (hR.teams r) hz with rfl | ⟨u, rfl⟩
  · show ((o.apply _).region r).stage = .opened
    have hopen : (o.region r).stage = .opened := hp
    simpa [Runtime.apply] using hopen
  · by_contra hp'
    obtain ⟨hcall, -⟩ := left_of_pending hS ha hcz hp hp'
    cases hcall

/-- No edge that is added leads to the current node of a task. -/
theorem Shaped.newEdges_not_cur (hW : Shaped o g) (hS : o.Sound) (ha : o.allows e = true)
    (hd : o.HasData τ) : (x, g.cur τ) ∉ g.newEdges o e := by
  intro hxy
  obtain ⟨hc, hs⟩ := hW.seat hd
  have hold : g.cur τ ∉ o.newRoles e := fun hn => newRoles_fresh ha hn hc
  generalize g.cur τ = y at hxy hs hold
  -- the target is created with the edge, or it is a sink that tasks cannot be at yet
  cases newEdge_of_mem ha hxy with
  | implicitBegin => exact hold (by simp [newRoles])
  | @sinkOfBarrier _ r _ _ hact =>
    have hopen := hS.opened_of_zero hact.2
    have hend : (o.region r).stage = .ended := hs.1
    rw [hopen] at hend
    cases hend
  | @sinkOfThread _ r _ _ hact harr hbar =>
    obtain ⟨-, rfl⟩ := hW.alone_of_end hS hact harr hbar
    have hopen := hS.opened_of_zero hact.2
    have hend : (o.region r).stage = .ended := hs.1
    rw [hopen] at hend
    cases hend
  | explicit => exact hold (by simp [newRoles])
  | toBarrier => exact hs
  | ofBarrier _ _ hreq => exact hold (by simp [newRoles, hreq])
  | loopBegin => exact hold (by simp [newRoles])
  | emptyLoop =>
    obtain ⟨rfl, hlt⟩ := hs
    omega
  | toChunk => exact hold (by simp [newRoles])
  | ofChunk =>
    obtain ⟨rfl, hlt⟩ := hs
    omega

/-- What a node with a new entry leads to is ahead. -/
theorem Shaped.newEdges_exit (hW : Shaped o g) (hS : o.Sound) (hA : Alloc g) (hR : Regular o g)
    (ha : o.allows e = true) (hxy : (x, y) ∈ g.newEdges o e)
    (hyz : (g.step env o e).Link y z) : (o.apply e).Ahead z := by
  rcases link_step ha hyz with hold | hnew
  · -- a new node has no old edges, and a pending one has none either
    have hfresh : y ∉ o.newRoles e := fun hn =>
      newRoles_fresh ha hn (hW.live_iff.mp (hA.edges_live hold).1).1
    have hpending : ¬o.Pending y := hW.exits hold
    cases newEdge_of_mem ha hxy with
    | implicitBegin => exact absurd (by simp [newRoles]) hfresh
    | sinkOfBarrier hact => exact absurd (hS.opened_of_zero hact.2) hpending
    | sinkOfThread hact harr hbar =>
      obtain ⟨-, rfl⟩ := hW.alone_of_end hS hact harr hbar
      exact absurd (hS.opened_of_zero hact.2) hpending
    | explicit => exact absurd (by simp [newRoles]) hfresh
    | toBarrier hact hbody _ hreq =>
      exact hW.pending_behind_arrival hS hA hR hact hbody hreq ha hold
    | ofBarrier _ _ hreq => exact absurd (by simp [newRoles, hreq]) hfresh
    | loopBegin => exact absurd (by simp [newRoles]) hfresh
    | emptyLoop hloop => exact absurd ⟨hloop, rfl⟩ hpending
    | toChunk => exact absurd (by simp [newRoles]) hfresh
    | ofChunk hloop => exact absurd ⟨hloop, rfl⟩ hpending
  · -- of two new edges in a row the second leaves the node that the first one creates
    have hcur : ∀ {τ}, o.HasData τ → y ≠ g.cur τ := by
      rintro τ hd rfl
      exact hW.newEdges_not_cur hS ha hd hxy
    cases newEdge_of_mem ha hnew with
    | implicitBegin hopen => exact absurd rfl (hcur (hasData_of_forked (hS.opened_parent hopen)))
    | sinkOfBarrier hact harr _ hbar =>
      obtain ⟨i, rfl, -⟩ := hW.barrier_of_end hS hact harr hbar
      cases newEdge_of_mem ha hxy
    | sinkOfThread hact => exact absurd rfl (hcur (hasData_of_active hact.2))
    | explicit hact => exact absurd rfl (hcur (hasData_of_active hact.2))
    | toBarrier hact => exact absurd rfl (hcur (hasData_of_active hact.2))
    | ofBarrier _ hbody hreq => exact pending_arrival hbody hreq
    | loopBegin hact => exact absurd rfl (hcur (hasData_of_active hact.2))
    | emptyLoop => cases newEdge_of_mem ha hxy
    | toChunk => cases newEdge_of_mem ha hxy
    | ofChunk hloop => exact pending_chunk hloop

/-- The target of a new edge is started, or it is ahead or a barrier. -/
theorem newEdges_target (hW : Shaped o g) (hS : o.Sound) (ha : o.allows e = true)
    (hxy : (x, y) ∈ g.newEdges o e) :
    (o.apply e).Ahead y ∨ (∃ r i, y = .barrier r i) ∨
      y ∈ g.stamped o e ∧ (o.Created y → o.Ahead y) := by
  have hnew : y ∈ o.newRoles e → o.Created y → o.Ahead y := fun hn hc =>
    absurd hc (newRoles_fresh ha hn)
  cases newEdge_of_mem ha hxy with
  | implicitBegin => exact .inr (.inr ⟨by simp [stamped], hnew (by simp [newRoles])⟩)
  | sinkOfBarrier hact => exact .inl (hS.opened_of_zero hact.2)
  | sinkOfThread hact harr hbar =>
    -- a team of one has thread 0 only, and its region is open until it has ended
    obtain ⟨-, rfl⟩ := hW.alone_of_end hS hact harr hbar
    exact .inl (hS.opened_of_zero hact.2)
  | explicit => exact .inr (.inr ⟨by simp [stamped], hnew (by simp [newRoles])⟩)
  | toBarrier => exact .inr (.inl ⟨_, _, rfl⟩)
  | ofBarrier _ _ hreq =>
    exact .inr (.inr ⟨by simp [stamped, hreq], hnew (by simp [newRoles, hreq])⟩)
  | loopBegin => exact .inr (.inr ⟨by simp [stamped], hnew (by simp [newRoles])⟩)
  | emptyLoop hloop => exact .inr (.inr ⟨by simp [stamped], fun _ => ⟨hloop, rfl⟩⟩)
  | toChunk => exact .inr (.inr ⟨by simp [stamped], hnew (by simp [newRoles])⟩)
  -- an edge into the sink of the loop, which is ahead until the loop ends
  | ofChunk hloop => exact .inl (pending_chunk hloop)

/-- A node whose time comes is started. -/
theorem Ordered.stamped_of_ahead (h : Ordered o g) (hW : Shaped o g) (hS : o.Sound)
    (ha : o.allows e = true) (hc : o.Created x) (hx : o.Ahead x) (hx' : ¬(o.apply e).Ahead x)
    (hne : ∀ r i, x ≠ .barrier r i) : x ∈ g.stamped o e := by
  -- each kind of node that can be ahead has one callback that ends this, and it starts the node
  cases x with
  | exp n =>
    have hstart : newStanding o e (.explicit n) ≠ .ready := by
      rw [← standing_apply ha]
      exact hx'
    obtain ⟨first, prior, hcall⟩ := started_of_ready ha hx hstart
    obtain ⟨m, hm, hcur⟩ := h.ready hx
    obtain rfl := TaskId.explicit.inj hm
    simp [stamped, hcall, hcur]
  | sink r =>
    have hr := regionChange ha r
    have hopen : (o.region r).stage = .opened := hx
    have hclosed : ((o.apply e).region r).stage ≠ .opened := hx'
    generalize (o.apply e).region r = ρ at hr hclosed
    cases hr with
    | opened => exact absurd rfl hclosed
    | ended hcall => simp [stamped, hcall]
    | same => exact absurd hopen hclosed
    | reached => exact absurd hopen hclosed
  | imp r t j =>
    obtain ⟨hcall, hact, -, hopen⟩ := left_of_pending hS ha hc hx hx'
    obtain ⟨hw, rfl⟩ : o.Waiting r t ∧ j = (o.task (.implicit r t)).arrived := hx
    have hcur := hW.wait (hasData_of_active hact.2) hw
    simp [stamped, hcall, hopen, hw.1, hcur]
  | loopSink τ l => exact newPosition_stamped (left_of_inLoop hS ha hx hx')
  | barrier r i => exact absurd rfl (hne r i)
  | _ => exact hx.elim

/-- **Paths after a callback.**  A path is an old one, or its end is ahead, or a
barrier, or started by the callback. -/
theorem transGen_step (hW : Shaped o g) (hS : o.Sound) (hA : Alloc g) (hR : Regular o g)
    (ha : o.allows e = true)
    (hclosed : ∀ {x y}, (g.step env o e).Link x y →
      Settled (g.step env o e) (o.apply e) x ∨ Loose (o.apply e) x y)
    (hxy : TransGen (g.step env o e).Link x y) :
    TransGen g.Link x y ∨ (o.apply e).Ahead y ∨ (∃ r i, y = .barrier r i) ∨
      y ∈ g.stamped o e ∧ (o.Created y → o.Ahead y) := by
  -- on the path from its end: old edges up to the first new one, which is the last
  have hcases : TransGen g.Link x y ∨ (o.apply e).Ahead y ∨ ∃ w, (w, y) ∈ g.newEdges o e := by
    induction hxy with
    | single hxy =>
      rcases link_step ha hxy with hold | hnew
      · exact .inl (.single hold)
      · exact .inr (.inr ⟨_, hnew⟩)
    | tail _ hwy ih =>
      rcases ih with ih | hahead | ⟨v, hvw⟩
      · rcases link_step ha hwy with hold | hnew
        · exact .inl (ih.tail hold)
        · exact .inr (.inr ⟨_, hnew⟩)
      · rcases hclosed hwy with hset | hloose
        · exact absurd hahead hset.1
        · exact .inr (.inl hloose.ahead)
      · exact .inr (.inl (hW.newEdges_exit hS hA hR ha hvw hwy))
  rcases hcases with hold | hahead | ⟨w, hw⟩
  · exact .inl hold
  · exact .inr (.inl hahead)
  · exact .inr (newEdges_target hW hS ha hw)

/-! ### The step -/

/-- A task that has not started is at its own node. -/
theorem ready_step (hR : ∀ {τ}, (o.task τ).standing = .ready →
    ∃ n, τ = .explicit n ∧ g.cur τ = .exp n) (ha : o.allows e = true)
    (hr : ((o.apply e).task τ).standing = .ready) :
    ∃ n, τ = .explicit n ∧ (g.step env o e).cur τ = .exp n := by
  rw [standing_apply ha] at hr
  rcases ready_of_newStanding ha hr with hold | ⟨-, n, rfl, hcur⟩
  · obtain ⟨n, rfl, hcur⟩ := hR hold
    refine ⟨n, rfl, ?_⟩
    rw [Shaped.cur_of_not_moved ha fun x hn => ?_, hcur]
    rcases moved_standing ha hn with hs | hs | ⟨r, -, hs⟩ <;> rw [hold] at hs <;> cases hs
  · exact ⟨n, rfl, cur_of_moved ha hcur⟩

/-- A settled node is not charged. -/
theorem Settled.not_charged (hx : Settled g o x) (hS : o.Sound) (ha : o.allows e = true)
    (hok : OutsideLoops o e) : g.charged o e ≠ some x := by
  intro hch
  obtain ⟨τ, hτ, heq⟩ := charged_position hS ha hok hch
  exact hx.2 τ (.inl hτ.2) heq.symm

/-- **Careful callbacks keep edges precedences.** -/
theorem Ordered.step (h : Ordered o g) (hL : Ledger env o g) (hR : Regular o g) (hW : Shaped o g)
    (hS : o.Sound) (hA : Alloc g) (hF : ∀ σ, LoopsFresh (o.task σ)) (hmono : Monotone env.clock)
    (ha : o.allows e = true) (hC : Careful o g e) :
    Ordered (o.apply e) (g.step env o e) := by
  have hT := step_timed env g ha
  have hW' : Shaped (o.apply e) (g.step env o e) := hW.step hS hA ha
  have hclosed : ∀ {x y}, (g.step env o e).Link x y →
      Settled (g.step env o e) (o.apply e) x ∨ Loose (o.apply e) x y := by
    intro x y hxy
    rcases link_step ha hxy with hold | hnew
    · exact h.oldEdges_closed hR hW hS hA hF hW' ha hC hold
    · exact h.newEdges_closed hW hS hF hW' ha hnew
  have hpath : ∀ {x y}, TransGen (g.step env o e).Link x y → TransGen g.Link x y ∨
      (o.apply e).Ahead y ∨ (∃ r i, y = .barrier r i) ∨
      y ∈ g.stamped o e ∧ (o.Created y → o.Ahead y) := transGen_step hW hS hA hR ha hclosed
  have hcreated : ∀ {x y}, TransGen g.Link x y → o.Created y := by
    intro x y hxy
    obtain ⟨w, -, hwy⟩ := TransGen.tail'_iff.mp hxy
    exact (hW.live_iff.mp (hA.edges_live hwy).2).1
  -- the charge of this callback
  have hcharge : ∀ {x}, g.charged o e = some x → o.Created x ∧
      (∀ r i, x ≠ .barrier r i) ∧ (o.Ahead x → o.Spare x) := by
    intro x hx
    exact ⟨(hW.live_iff.mp (hW.charged_started ha hx).1).1, hC.charged hW hS ha hx⟩
  have hunspent : ∀ {a}, a ∈ (g.step env o e).charges → o.Created a.node ∧
      (∀ r i, a.node ≠ .barrier r i) ∧ (o.Ahead a.node → o.Spare a.node) := by
    intro a haa
    rcases mem_step_charges ha haa with hold | ⟨x, hx, rfl⟩
    · exact ⟨(hL.started hold).1, h.unspent hold⟩
    · exact hcharge hx
  refine ⟨h.loops.apply hS ha hC.outside, ready_step h.ready ha, hclosed, ?_, ?_, ?_⟩
  · intro a haa
    obtain ⟨hc, hne, hspare⟩ := hunspent haa
    exact ⟨hne, fun hx => (spare_apply hS ha hc).mpr (hspare (ahead_of_apply hS ha hc hx))⟩
  · intro x y hxy hy hne a haa hax
    have hstamp : y ∈ g.stamped o e → a.stop ≤ ((g.step env o e).data y).lastTime := by
      intro hst
      obtain ⟨k, hk, -, hlast⟩ := hT.stamp hst
      rw [hlast]
      exact (hL.stop_le_step hmono ha haa).trans (hmono hk)
    rcases hpath hxy with hold | hahead | ⟨r, i, rfl⟩ | ⟨hst, -⟩
    · have hcy := hcreated hold
      by_cases hyo : o.Ahead y
      · exact hstamp (h.stamped_of_ahead hW hS ha hcy hyo hy hne)
      · have hu : ¬Unstarted o y := by
          intro hu
          cases y with
          | sink r => exact hyo hu
          | loopSink τ l => exact hyo hu
          | _ => exact hu
        rcases mem_step_charges ha haa with ha' | ⟨z, hz, rfl⟩
        · exact (h.started hold hyo hne a ha' hax).trans (hL.lastTime_le hmono ha hcy hu).1
        · -- a node that leads to `y` is not charged any more
          obtain rfl : z = x := hax
          exact absurd hz ((h.settled hold hyo).not_charged hS ha hC.outside)
    · exact absurd hahead hy
    · exact absurd rfl (hne r i)
    · exact hstamp hst
  · intro x y hxy hsp a haa hax b hb hby
    obtain ⟨hcb, hneb, hspareb⟩ := hunspent hb
    rw [hby] at hcb hneb hspareb
    -- the target has been charged, so its time has come
    have hyo : ¬o.Ahead y := fun hy => hsp ((spare_apply hS ha hcb).mpr (hspareb hy))
    have hold : TransGen g.Link x y := by
      rcases hpath hxy with hold | hahead | ⟨r, i, rfl⟩ | ⟨-, hst⟩
      · exact hold
      · exact absurd (ahead_of_apply hS ha hcb hahead) hyo
      · exact absurd rfl (hneb r i)
      · exact absurd (hst hcb) hyo
    have ha' : a ∈ g.charges := by
      rcases mem_step_charges ha haa with ha' | ⟨z, hz, rfl⟩
      · exact ha'
      · obtain rfl : z = x := hax
        exact absurd hz ((h.settled hold hyo).not_charged hS ha hC.outside)
    rcases mem_step_charges ha hb with hb' | ⟨z, hz, rfl⟩
    · exact h.ordered hold (fun hs => hsp ((spare_apply hS ha hcb).mpr hs)) a ha' hax b hb' hby
    · obtain rfl : z = y := hby
      exact h.started hold hyo hneb a ha' hax

end RoleGraph

namespace Config

open RoleGraph Tdg.Runtime

variable {c : Config} {env : Env} {es : List Event}

theorem regular_run (hrun : run env es = some c) (hfull : FullTeams c.rt) :
    Regular c.rt c.graph where
  teams := hfull
  phases := phaseExits_run hrun
  loopEdges := loopEdge_run hrun

/-- **The order of every run** whose callbacks are careful. -/
theorem ordered_run (hmono : Monotone env.clock) (hrun : run env es = some c)
    (hteam : ∀ e ∈ es, fullTeamOrSingle e = true)
    (hC : Throughout env (fun c e => c.rt.allows e = true → Careful c.rt c.graph e) es) :
    Ordered c.rt c.graph := by
  induction es using List.reverseRecOn generalizing c with
  | nil =>
    obtain rfl : Config.init = c := Option.some.inj hrun
    exact ordered_init
  | append_singleton es e ih =>
    obtain ⟨c', hc', ha, rfl⟩ := run_snoc.mp hrun
    have hg := run_good hc'
    have hteam' : ∀ e ∈ es, fullTeamOrSingle e = true := fun e he => hteam e (by simp [he])
    have hpre : Throughout env (fun c e => c.rt.allows e = true → Careful c.rt c.graph e) es := by
      intro pre b post hes
      refine hC pre b (post ++ [e]) ?_
      rw [hes]
      simp
    exact (ih hc' hteam' hpre).step (ledger_run hmono hc')
      (regular_run hc' (teams_run hc' hteam')) hg.shaped hg.sound hg.alloc hg.loopsFresh hmono ha
      (hC es e [] rfl c' hc' ha)

end Config

end Tdg
