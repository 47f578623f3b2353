/-
TdgTool/Tasks.lean

Edges as precedences in runs with explicit tasks.

The node of an explicit task hangs below the node of its creator, which goes on
after `cb_task_create`.  `Deferred` is the condition on a callback that keeps the
edge a precedence: a task starts only when no task that goes on is at a node with
an edge to it.  All other edges are precedences whatever the schedule is, and
whatever teams are formed: nothing is charged to a barrier node, and the source
of every other edge is left before its target is started.  `Edgewise` is the
invariant.  For paths, which pass through barrier nodes, this is not enough; that
is the subject of `Precedence`.
-/
import TdgTool.Span

namespace Tdg

namespace Runtime

variable {o : Runtime} {e : Event} {τ : TaskId} {r : RegionId} {x : Role}

/-! ### Programs without loops -/

/-- A callback of a program without worksharing loops. -/
def noLoop (e : Event) : Bool :=
  match e.call with
  | .extLoop _ _ _ _ => false
  | .extChunk _ _ _ _ => false
  | _ => true

/-- No task is inside a loop. -/
def LoopFree (o : Runtime) : Prop := ∀ τ, (o.task τ).inLoop = false

theorem LoopFree.apply (h : LoopFree o) (ha : o.allows e = true) (he : noLoop e = true) :
    LoopFree (o.apply e) := by
  intro τ
  have ht := taskChange ha τ
  generalize (o.apply e).task τ = v at ht
  cases ht with
  | created => rfl
  | loopBegin _ _ _ _ hcall => simp [noLoop, hcall] at he
  | loopEnd => rfl
  | _ => exact h τ

theorem LoopFree.outside (h : LoopFree o) : OutsideLoops o e := fun τ _ => h τ

/-- A node that has not begun: a task that has not started, or the sink of a
region that has not ended. -/
def Unbegun (o : Runtime) : Role → Prop
  | .exp n => (o.task (.explicit n)).standing = .ready
  | .sink r => (o.region r).stage = .opened
  | _ => False

/-- A node begins once. -/
theorem unbegun_of_apply (hS : o.Sound) (ha : o.allows e = true) (hc : o.Created x)
    (h : (o.apply e).Unbegun x) : o.Unbegun x := by
  cases x with
  | exp n => exact ahead_of_apply (x := .exp n) hS ha hc h
  | sink r => exact pending_of_apply (x := .sink r) hS ha hc h
  | _ => exact h

end Runtime

namespace RoleGraph

open Tdg.Runtime

variable {o : Runtime} {g : RoleGraph} {env : Env} {e : Event} {x y z : Role} {τ σ : TaskId}
  {r : RegionId} {th : ThreadId}

/-- A node that is neither a barrier nor unbegun. -/
theorem Shaped.cur_unbegun (hW : Shaped o g) (hd : o.HasData τ)
    (hr : (o.task τ).standing ≠ .ready) : ¬o.Unbegun (g.cur τ) := by
  have hs := (hW.seat hd).2
  generalize g.cur τ = x at hs
  cases x with
  | exp n =>
    obtain rfl : τ = .explicit n := hs
    exact hr
  | sink r =>
    intro hu
    have hend := hs.1
    rw [show (o.region r).stage = .opened from hu] at hend
    cases hend
  | _ => exact id

/-- The task that a callback charges. -/
theorem charged_cur (hF : LoopFree o) (hS : o.Sound) (ha : o.allows e = true)
    (hx : g.charged o e = some x) : ∃ τ, o.Acts e.thread τ ∧ x = g.cur τ := by
  obtain ⟨τ, hτ, rfl⟩ := charged_position hS ha hF.outside hx
  exact ⟨τ, hτ, position_of_outside (hF τ)⟩

/-! ### The invariant -/

/-- No task will spend time on the node any more. -/
def Vacant (g : RoleGraph) (o : Runtime) (x : Role) : Prop :=
  ¬o.Unbegun x ∧ ∀ τ, o.Ongoing τ → g.cur τ ≠ x

/-- An edge whose source is not yet left: to a task that has not started. -/
def Hanging (o : Runtime) (x : Role) : Role → Prop
  | .exp n => o.Unbegun (.exp n) ∧ ¬o.Unbegun x
  | _ => False

theorem Hanging.unbegun (h : Hanging o x y) : o.Unbegun y := by
  cases y with
  | exp n => exact h.1
  | _ => exact h.elim

/-- What holds of edges and charges while tasks start behind what leads to
them. -/
structure Edgewise (o : Runtime) (g : RoleGraph) : Prop where
  loopFree : LoopFree o
  ready : ∀ {τ}, (o.task τ).standing = .ready → ∃ n, τ = .explicit n ∧ g.cur τ = .exp n
  left : ∀ {x y}, g.Link x y → Vacant g o x ∨ Hanging o x y
  unspent : ∀ {a}, a ∈ g.charges → (∀ r i, a.node ≠ .barrier r i) ∧ ¬o.Unbegun a.node
  started : ∀ {x y}, g.Link x y → ¬o.Unbegun y → (∀ r i, y ≠ .barrier r i) →
    ∀ a ∈ g.charges, a.node = x → a.stop ≤ (g.data y).lastTime
  before : ∀ {x y}, g.Link x y → g.Before x y

theorem edgewise_init : Edgewise Runtime.init RoleGraph.init where
  loopFree := fun _ => rfl
  ready := by
    intro τ h
    cases h
  left := by
    intro x y h
    cases h
  unspent := by simp [RoleGraph.init]
  started := by simp [RoleGraph.init]
  before := by
    intro x y h
    cases h

/-- Tasks start behind what leads to them: no task that goes on, other than one
that ends here, is at a node with an edge to the node of the task. -/
def Deferred (o : Runtime) (g : RoleGraph) (e : Event) : Prop :=
  ∀ first prior n, e.call = .taskSchedule first prior (.explicit n) →
    (o.task (.explicit n)).standing = .ready →
    ∀ σ, o.Ongoing σ → g.Link (g.cur σ) (.exp n) → σ = first ∧ Terminates prior

/-! ### Vacant nodes -/

/-- A task is moved to a new node, or to one that has not begun. -/
theorem newCur_unbegun (hF : LoopFree o) (ha : o.allows e = true)
    (hn : o.newCur e = some (τ, x)) (hc : o.Created x) : o.Unbegun x := by
  have hnew : x ∉ o.newRoles e := fun hx => newRoles_fresh ha hx hc
  cases moves_of_newCur ha hn with
  | initial => exact absurd (by simp [newRoles]) hnew
  | explicit => exact absurd (by simp [newRoles]) hnew
  | implicitBegin => exact absurd (by simp [newRoles]) hnew
  | parallelEnd hopen => exact hopen
  | barrierBegin _ _ hreq => exact absurd (by simp [newRoles, hreq]) hnew
  | loopEnd _ _ hloop =>
    rw [hF] at hloop
    cases hloop

/-- Barrier nodes are vacant. -/
theorem Shaped.vacant_barrier (hW : Shaped o g) {i : ℕ} : Vacant g o (.barrier r i) := by
  refine ⟨id, fun τ hτ heq => ?_⟩
  have hs := (hW.seat hτ.hasData).2
  rw [heq] at hs
  exact hs

/-- A node that has begun is vacant after a callback if every task on it that
goes on is moved. -/
theorem Edgewise.vacant_of (h : Edgewise o g) (hS : o.Sound) (ha : o.allows e = true)
    (he : noLoop e = true) (hc : o.Created x) (hx : ¬o.Unbegun x)
    (hmove : ∀ τ, o.Ongoing τ → (o.apply e).Ongoing τ → g.cur τ = x →
      ∃ z, o.newCur e = some (τ, z)) : Vacant (g.step env o e) (o.apply e) x := by
  refine ⟨fun hu => hx (unbegun_of_apply hS ha hc hu), fun τ hτ heq => ?_⟩
  by_cases hn : ∃ z, o.newCur e = some (τ, z)
  · obtain ⟨z, hz⟩ := hn
    rw [cur_of_moved ha hz] at heq
    subst heq
    exact hx (newCur_unbegun h.loopFree ha hz hc)
  · have hstay : g.cur τ = x := by
      rw [← heq, Shaped.cur_of_not_moved ha fun z hz => hn ⟨z, hz⟩]
    rcases ongoing_cases ha hτ with hold | ⟨z, hz⟩ | hready
    · exact hn (hmove τ hold hτ hstay)
    · -- without loops, positions are current nodes
      unfold newPosition at hz
      split at hz
      · rename_i hcall
        simp [noLoop, hcall] at he
      · rename_i hcall
        simp [noLoop, hcall] at he
      · exact hn ⟨z, hz⟩
    · -- a task that starts here was not on a node that has begun
      obtain ⟨n, rfl, hcur⟩ := h.ready hready
      rw [hcur] at hstay
      subst hstay
      exact hx hready

/-! ### Edges -/

/-- An edge that is added leaves a vacant node, or hangs. -/
theorem Edgewise.newEdges_left (h : Edgewise o g) (hW : Shaped o g) (hS : o.Sound)
    (hW' : Shaped (o.apply e) (g.step env o e)) (ha : o.allows e = true) (he : noLoop e = true)
    (hxy : (x, y) ∈ g.newEdges o e) :
    Vacant (g.step env o e) (o.apply e) x ∨ Hanging (o.apply e) x y := by
  -- the node of a task that is moved or does not go on
  have hcur : ∀ {τ}, o.HasData τ → (o.task τ).standing ≠ .ready →
      ((o.apply e).Ongoing τ → ∃ z, o.newCur e = some (τ, z)) →
      Vacant (g.step env o e) (o.apply e) (g.cur τ) := by
    intro τ hd hr hmove
    refine h.vacant_of hS ha he (hW.seat hd).1 (hW.cur_unbegun hd hr) fun σ hσ hσ' heq => ?_
    have hseat := (hW.seat hσ.hasData).2
    rw [heq] at hseat
    obtain rfl := seat_inj hseat (hW.seat hd).2
    exact hmove hσ'
  cases newEdge_of_mem ha hxy with
  | @implicitBegin _ r t hopen habs =>
    have hf := hS.opened_parent hopen
    refine .inl (hcur (hasData_of_forked hf) (by simp [hf]) fun hon => ?_)
    have hne : (o.region r).parent ≠ .implicit r t := by
      intro heq
      rw [heq, habs] at hf
      cases hf
    unfold Ongoing at hon
    rw [standing_apply ha] at hon
    simp [newStanding, hne, hf, Standing.isSuspended] at hon
  | sinkOfBarrier hact harr _ hbar =>
    obtain ⟨i, rfl, -⟩ := hW.barrier_of_end hS hact harr hbar
    exact .inl hW'.vacant_barrier
  | sinkOfThread hact =>
    refine .inl (hcur (hasData_of_active hact.2) (by simp [hact.2]) fun hon => ?_)
    unfold Ongoing at hon
    rw [standing_apply ha] at hon
    simp [newStanding, Standing.isSuspended] at hon
  | @explicit _ parent n hact hbody =>
    have hd := hasData_of_active hact.2
    refine .inr ⟨?_, fun hu => ?_⟩
    · show ((o.apply _).task (.explicit n)).standing = .ready
      rw [standing_apply ha]
      simp [newStanding]
    · exact hW.cur_unbegun hd (by simp [hact.2]) (unbegun_of_apply hS ha (hW.seat hd).1 hu)
  | toBarrier hact _ _ hreq =>
    exact .inl (hcur (hasData_of_active hact.2) (by simp [hact.2]) fun _ =>
      ⟨_, by simp [newCur, hreq]; rfl⟩)
  | ofBarrier => exact .inl hW'.vacant_barrier
  | loopBegin => cases he
  | emptyLoop => cases he
  | toChunk => cases he
  | ofChunk => cases he

/-- An edge that is kept leaves a vacant node, or hangs. -/
theorem Edgewise.oldEdges_left (h : Edgewise o g) (hW : Shaped o g) (hS : o.Sound) (hA : Alloc g)
    (ha : o.allows e = true) (he : noLoop e = true) (hD : Deferred o g e) (hxy : g.Link x y) :
    Vacant (g.step env o e) (o.apply e) x ∨ Hanging (o.apply e) x y := by
  have hcx : o.Created x := (hW.live_iff.mp (hA.edges_live hxy).1).1
  rcases h.left hxy with hv | hh
  · exact .inl (h.vacant_of hS ha he hcx hv.1 fun τ hτ _ heq => absurd heq (hv.2 τ hτ))
  · cases y with
    | exp n =>
      obtain ⟨hready, hx⟩ := hh
      by_cases hready' : (o.apply e).Unbegun (.exp n)
      · exact .inr ⟨hready', fun hu => hx (unbegun_of_apply hS ha hcx hu)⟩
      · -- the task starts
        have hstart : newStanding o e (.explicit n) ≠ .ready := by
          rw [← standing_apply ha]
          exact hready'
        obtain ⟨first, prior, hcall⟩ := started_of_ready ha hready hstart
        refine .inl (h.vacant_of hS ha he hcx hx fun σ hσ hσ' heq => ?_)
        subst heq
        obtain ⟨rfl, hterm⟩ := hD _ _ _ hcall hready σ hσ hxy
        have hne : σ ≠ .explicit n := by
          rintro rfl
          exact hσ.not_ready hready
        have hdone : newStanding o e σ = .done := by simp [newStanding, hcall, hne, hterm]
        rw [← standing_apply ha] at hdone
        simp [Ongoing, hdone, Standing.isSuspended] at hσ'
    | _ => exact hh.elim

/-- The target of an added edge is a barrier, or it is started and was not there
before, or it has not begun. -/
theorem newEdges_begin (hW : Shaped o g) (hS : o.Sound) (ha : o.allows e = true)
    (he : noLoop e = true) (hxy : (x, y) ∈ g.newEdges o e) :
    (∃ r i, y = .barrier r i) ∨ y ∈ g.stamped o e ∧ ¬o.Created y ∨
      o.Unbegun y ∧ (o.apply e).Unbegun y := by
  have hnew : y ∈ o.newRoles e → ¬o.Created y := newRoles_fresh ha
  cases newEdge_of_mem ha hxy with
  | implicitBegin => exact .inr (.inl ⟨by simp [stamped], hnew (by simp [newRoles])⟩)
  | sinkOfBarrier hact =>
    have hopen := hS.opened_of_zero hact.2
    exact .inr (.inr ⟨hopen, hopen⟩)
  | sinkOfThread hact harr hbar =>
    obtain ⟨-, rfl⟩ := hW.alone_of_end hS hact harr hbar
    have hopen := hS.opened_of_zero hact.2
    exact .inr (.inr ⟨hopen, hopen⟩)
  | explicit => exact .inr (.inl ⟨by simp [stamped], hnew (by simp [newRoles])⟩)
  | toBarrier => exact .inl ⟨_, _, rfl⟩
  | ofBarrier _ _ hreq =>
    exact .inr (.inl ⟨by simp [stamped, hreq], hnew (by simp [newRoles, hreq])⟩)
  | loopBegin => cases he
  | emptyLoop => cases he
  | toChunk => cases he
  | ofChunk => cases he

/-- A node that begins is started. -/
theorem Edgewise.stamped_of_unbegun (h : Edgewise o g) (ha : o.allows e = true)
    (hx : o.Unbegun x) (hx' : ¬(o.apply e).Unbegun x) : x ∈ g.stamped o e := by
  cases x with
  | exp n =>
    have hstart : newStanding o e (.explicit n) ≠ .ready := by
      rw [← standing_apply ha]
      exact hx'
    obtain ⟨first, prior, hcall⟩ := started_of_ready ha hx hstart
    obtain ⟨m, hm, hcur⟩ := h.ready hx
    obtain rfl := TaskId.explicit.inj hm
    simp [stamped, hcall, hcur]
  | sink r =>
    have hr := regionChange ha r
    have hopen : (o.region r).stage = .opened := hx
    have hclosed : ((o.apply e).region r).stage ≠ .opened := hx'
    generalize (o.apply e).region r = ρ at hr hclosed
    cases hr with
    | opened => exact absurd rfl hclosed
    | ended hcall => simp [stamped, hcall]
    | same => exact absurd hopen hclosed
    | reached => exact absurd hopen hclosed
  | _ => exact hx.elim

/-! ### The step -/

/-- A node that leads to one that has begun is not charged. -/
theorem Edgewise.not_charged (h : Edgewise o g) (hS : o.Sound) (ha : o.allows e = true)
    (hxy : g.Link x y) (hy : ¬o.Unbegun y) : g.charged o e ≠ some x := by
  intro hch
  obtain ⟨τ, hτ, rfl⟩ := charged_cur h.loopFree hS ha hch
  rcases h.left hxy with hv | hh
  · exact hv.2 τ (.inl hτ.2) rfl
  · exact hy hh.unbegun

/-- **Every callback keeps edges precedences**, if it starts a task only behind
what leads to it. -/
theorem Edgewise.step (h : Edgewise o g) (hL : Ledger env o g) (hW : Shaped o g) (hS : o.Sound)
    (hA : Alloc g) (hmono : Monotone env.clock) (ha : o.allows e = true) (he : noLoop e = true)
    (hD : Deferred o g e) : Edgewise (o.apply e) (g.step env o e) := by
  have hT := step_timed env g ha
  have hW' : Shaped (o.apply e) (g.step env o e) := hW.step hS hA ha
  -- the charge of this callback
  have hcharge : ∀ {x}, g.charged o e = some x → o.Created x ∧
      (∀ r i, x ≠ .barrier r i) ∧ ¬o.Unbegun x := by
    intro x hx
    obtain ⟨τ, hτ, rfl⟩ := charged_cur h.loopFree hS ha hx
    have hd := hasData_of_active hτ.2
    refine ⟨(hW.seat hd).1, fun r i heq => ?_, hW.cur_unbegun hd (by simp [hτ.2])⟩
    exact hW.vacant_barrier.2 τ (.inl hτ.2) heq
  have hunspent : ∀ {a}, a ∈ (g.step env o e).charges → o.Created a.node ∧
      (∀ r i, a.node ≠ .barrier r i) ∧ ¬o.Unbegun a.node := by
    intro a haa
    rcases mem_step_charges ha haa with hold | ⟨x, hx, rfl⟩
    · exact ⟨(hL.started hold).1, h.unspent hold⟩
    · exact hcharge hx
  have hcreated : ∀ {x y}, g.Link x y → o.Created y := fun hxy =>
    (hW.live_iff.mp (hA.edges_live hxy).2).1
  refine ⟨h.loopFree.apply ha he, ready_step h.ready ha, fun hxy => ?_, fun haa => ?_, ?_, ?_⟩
  · rcases link_step ha hxy with hold | hnew
    · exact h.oldEdges_left hW hS hA ha he hD hold
    · exact h.newEdges_left hW hS hW' ha he hnew
  · obtain ⟨hc, hne, hu⟩ := hunspent haa
    exact ⟨hne, fun hx => hu (unbegun_of_apply hS ha hc hx)⟩
  · intro x y hxy hy hne a haa hax
    have hstamp : y ∈ g.stamped o e → a.stop ≤ ((g.step env o e).data y).lastTime := by
      intro hst
      obtain ⟨k, hk, -, hlast⟩ := hT.stamp hst
      rw [hlast]
      exact (hL.stop_le_step hmono ha haa).trans (hmono hk)
    rcases link_step ha hxy with hold | hnew
    · by_cases hyo : o.Unbegun y
      · exact hstamp (h.stamped_of_unbegun ha hyo hy)
      · rcases mem_step_charges ha haa with ha' | ⟨z, hz, rfl⟩
        · have hu : ¬Unstarted o y := by
            intro hu
            cases y with
            | sink r => exact hyo hu
            | loopSink τ l => exact absurd hu.1 (by simp [h.loopFree τ])
            | _ => exact hu
          exact (h.started hold hyo hne a ha' hax).trans
            (hL.lastTime_le hmono ha (hcreated hold) hu).1
        · obtain rfl : z = x := hax
          exact absurd hz (h.not_charged hS ha hold hyo)
    · rcases newEdges_begin hW hS ha he hnew with ⟨r, i, rfl⟩ | ⟨hst, -⟩ | ⟨-, hu⟩
      · exact absurd rfl (hne r i)
      · exact hstamp hst
      · exact absurd hu hy
  · intro x y hxy a haa hax b hb hby
    obtain ⟨hcb, hneb, hub⟩ := hunspent hb
    rw [hby] at hcb hneb hub
    have hold : g.Link x y := by
      rcases link_step ha hxy with hold | hnew
      · exact hold
      · rcases newEdges_begin hW hS ha he hnew with ⟨r, i, rfl⟩ | ⟨-, hc⟩ | ⟨hu, -⟩
        · exact absurd rfl (hneb r i)
        · exact absurd hcb hc
        · exact absurd hu hub
    have ha' : a ∈ g.charges := by
      rcases mem_step_charges ha haa with ha' | ⟨z, hz, rfl⟩
      · exact ha'
      · obtain rfl : z = x := hax
        exact absurd hz (h.not_charged hS ha hold hub)
    rcases mem_step_charges ha hb with hb' | ⟨z, hz, rfl⟩
    · exact h.before hold a ha' hax b hb' hby
    · obtain rfl : z = y := hby
      exact h.started hold hub hneb a ha' hax

/-- One more charge where a task is keeps edges precedences. -/
theorem Edgewise.before_addTime (h : Edgewise o g) (hW : Shaped o g) (hon : o.Ongoing τ)
    (hxy : g.Link x y) : (g.addTime env th (g.cur τ)).Before x y := by
  have hd := hon.hasData
  have hcur := hW.cur_unbegun hd hon.not_ready
  -- what the node of the task leads to has not begun
  have hbehind : x = g.cur τ → o.Unbegun y := by
    rintro rfl
    rcases h.left hxy with hv | hh
    · exact absurd rfl (hv.2 τ hon)
    · exact hh.unbegun
  intro a ha hax b hb hby
  rcases List.mem_append.mp ha with ha | ha
  · rcases List.mem_append.mp hb with hb | hb
    · exact h.before hxy a ha hax b hb hby
    · obtain rfl := List.mem_singleton.mp hb
      obtain rfl : g.cur τ = y := hby
      refine h.started hxy hcur (fun r i heq => ?_) a ha hax
      exact hW.vacant_barrier.2 τ hon heq
  · obtain rfl := List.mem_singleton.mp ha
    have hu := hbehind hax.symm
    rcases List.mem_append.mp hb with hb | hb
    · exact absurd (hby ▸ hu) (h.unspent hb).2
    · obtain rfl := List.mem_singleton.mp hb
      obtain rfl : g.cur τ = y := hby
      exact absurd hu hcur

end RoleGraph

/-! ### Runs -/

/-- Every edge is a precedence: what is charged to its source ends before what
is charged to its target begins. -/
def Precedences (s : Tool) : Prop :=
  ∀ u v, s.toGraph.Adj u v → ∀ a ∈ s.charges, a.node = u → ∀ b ∈ s.charges, b.node = v →
    a.stop ≤ b.start

/-- A thread that takes up a task that has not started does so when no task that
goes on is at a node with an edge to the node of the task, other than one that
ends here. -/
def StartsBehind (o : Runtime) (s : Tool) (e : Event) : Prop :=
  ∀ first prior n, e.call = .taskSchedule first prior (.explicit n) →
    (o.task (.explicit n)).standing = .ready →
    ∀ σ td td', o.Ongoing σ → s.taskData σ = some td → s.taskData (.explicit n) = some td' →
      s.toGraph.Adj td.currTaskNode td'.currTaskNode → σ = first ∧ Runtime.Terminates prior

/-- Every task of the run starts behind what leads to it. -/
def StartBehind (env : Env) (es : List Event) : Prop :=
  ∀ pre e post, es = pre ++ e :: post → ∀ o s, Runtime.run pre = some o →
    Tool.run env pre = some s → StartsBehind o s e

/-- An implicit task at the last barrier of its team, or of a team of one. -/
def Runtime.AtLast (o : Runtime) : TaskId → Prop
  | .implicit r t => (o.region r).requested ≤ 1 ∨
      (o.task (.implicit r t)).arrived = (o.region r).barriers
  | _ => False

instance (o : Runtime) : (τ : TaskId) → Decidable (o.AtLast τ)
  | .implicit _ _ => inferInstanceAs (Decidable (_ ∨ _))
  | .initial _ => inferInstanceAs (Decidable False)
  | .explicit _ => inferInstanceAs (Decidable False)

/-- A thread is not taken away from a barrier, other than the last one of its
team. -/
def StaysAtBarrier (o : Runtime) (e : Event) : Prop :=
  ∀ τ ∈ Runtime.leaves e, o.InBody τ ∨ o.AtLast τ

instance (o : Runtime) (e : Event) : Decidable (StaysAtBarrier o e) :=
  inferInstanceAs (Decidable (∀ τ ∈ Runtime.leaves e, _ ∨ _))

theorem StartBehind.prefix {env : Env} {pre post : List Event} {e : Event}
    (h : StartBehind env (pre ++ e :: post)) : StartBehind env pre := by
  intro pre' e' post' hes
  refine h pre' e' (post' ++ e :: post) ?_
  rw [hes]
  simp

namespace Config

open RoleGraph Tdg.Runtime

variable {c : Config} {env : Env} {es : List Event} {e : Event} {o : Runtime}

theorem deferred_of_tool (hg : c.Good) (h : Edgewise c.rt c.graph)
    (hst : StartsBehind c.rt c.tool e) : Deferred c.rt c.graph e := by
  intro first prior n hcall hready σ hσ hlink
  obtain ⟨m, hm, hcur⟩ := h.ready hready
  obtain rfl := TaskId.explicit.inj hm
  have hd : c.rt.HasData (.explicit n) := hasData_of_present (by simp [hready]) (by simp [hready])
  refine hst first prior n hcall hready σ _ _ hσ (taskData_tool hσ.hasData) (taskData_tool hd) ?_
  refine hg.adj_iff.mpr ⟨c.graph.cur σ, .exp n, rfl, ?_, hlink⟩
  rw [← hcur]
  rfl

/-- **The edges of every run** whose tasks start behind what leads to them. -/
theorem edgewise_run (hmono : Monotone env.clock) (hrun : run env es = some c)
    (hloop : ∀ e ∈ es, noLoop e = true) (hstart : StartBehind env es) :
    Edgewise c.rt c.graph := by
  induction es using List.reverseRecOn generalizing c with
  | nil =>
    obtain rfl : Config.init = c := Option.some.inj hrun
    exact edgewise_init
  | append_singleton es e ih =>
    obtain ⟨c', hc', ha, rfl⟩ := run_snoc.mp hrun
    have hg := run_good hc'
    have h := ih hc' (fun e he => hloop e (by simp [he])) hstart.prefix
    exact h.step (ledger_run hmono hc') hg.shaped hg.sound hg.alloc hmono ha
      (hloop e (by simp)) (deferred_of_tool hg h
        (hstart es e [] rfl c'.rt c'.tool (runtime_of_run hc') (tool_run hc')))

/-- Its callbacks are careful, if no thread is taken away from a barrier. -/
theorem careful_run (hmono : Monotone env.clock) (hrun : run env es = some c)
    (hloop : ∀ e ∈ es, noLoop e = true) (hstart : StartBehind env es)
    (hstay : Runtime.Throughout StaysAtBarrier es) :
    Throughout env (fun c e => c.rt.allows e = true → Careful c.rt c.graph e) es := by
  rintro pre e post rfl c' hc' ha
  have h := edgewise_run hmono hc' (fun e he => hloop e (by simp [he])) hstart.prefix
  have hD := deferred_of_tool (run_good hc') h
    (hstart pre e post rfl c'.rt c'.tool (runtime_of_run hc') (tool_run hc'))
  refine ⟨h.loopFree.outside, fun hcall => ?_, fun hcall hready σ hσ hlink => ?_⟩
  · intro hreq
    have hor := hstay pre e post rfl c'.rt (runtime_of_run hc') _ (by rw [leaves, hcall]; rfl)
    exact hor.imp_right fun hlast => hlast.resolve_left (Nat.not_le.mpr hreq)
  · rw [position_of_outside (h.loopFree σ)] at hlink
    exact hD _ _ _ hcall hready σ hσ hlink

/-- Once all tasks have ended, the spare nodes are gone. -/
theorem not_spare_of_done (hg : c.Good) (hdone : c.rt.TasksDone) {x : Role}
    (hx : c.graph.live x = true) : ¬c.rt.Spare x := by
  intro hsp
  obtain ⟨hc, hnd⟩ := hg.shaped.live_iff.mp hx
  cases x with
  | imp r t j =>
    obtain ⟨hreq, rfl⟩ : 1 < (c.rt.region r).requested ∧ j = (c.rt.region r).barriers := hsp
    have hend := (hdone.2 (.implicit r t) (by simp)).resolve_left hc.1
    have hT := hg.sound.team r
    have hle := hT.done_arrived hend t (hT.thread_lt hc.1)
    have hge := hT.arrived_le_barriers t
    exact hnd ⟨hend, hreq, le_antisymm hle hge⟩
  | _ => exact hsp

/-- **When edges are precedences.**  In a run without loops in which every task
starts behind what leads to it, every edge is a precedence, whatever teams are
formed, and also after the charge of `finalize_libtdg`.  If in addition teams are
complete and no thread is taken away from a barrier other than the last one of
its team, then after everything has ended no path takes more than the elapsed
time, when the charged intervals are added up without rounding. -/
theorem edges_precede (env : Env) (hmono : Monotone env.clock) (hrun : Runtime.run es = some o)
    (hloop : ∀ e ∈ es, noLoop e = true) (hstart : StartBehind env es) :
    ∃ s, Tool.run env es = some s ∧ Precedences s ∧
      (∀ th, Closing o s th → ∃ s', s.closeFinalNode env th = some s' ∧ Precedences s') ∧
      ((∀ e ∈ es, fullTeamOrSingle e = true) → Runtime.Throughout StaysAtBarrier es →
        o.RegionsEnded → o.TasksDone →
        (∀ p, s.toGraph.IsPath p → s.toGraph.timeOf p ≤ env.clock s.ticks - env.clock 0) ∧
        ∀ th s', Closing o s th → s.closeFinalNode env th = some s' → ∀ p, s'.toGraph.IsPath p →
          s'.toGraph.timeOf p ≤ env.clock s.ticks - env.clock 0) := by
  obtain ⟨c, hc, rfl⟩ := run_of_runtime env hrun
  have hg := run_good hc
  have hL := ledger_run hmono hc
  have h := edgewise_run hmono hc hloop hstart
  -- from roles to addresses
  have hread : ∀ {g : RoleGraph}, Alloc g → (∀ {x y}, g.Link x y → g.Before x y) →
      Precedences (realize (tables c.rt c.graph) g) := by
    rintro g hA hbefore u v huv a ha hau b hb hbv
    obtain ⟨x, y, rfl, rfl, hxy⟩ := hA.adj_iff.mp huv
    obtain ⟨a, ha', rfl⟩ := List.mem_map.mp ha
    obtain ⟨b, hb', rfl⟩ := List.mem_map.mp hb
    refine hbefore hxy a ha' ((addr_inj (hA.charge_mem ha')).mp hau) b hb' ?_
    exact (addr_inj (hA.charge_mem hb')).mp hbv
  have hclosed : ∀ th, Alloc (c.graph.closeFinal env th) := fun th =>
    ((hg.shaped.closed hg.sound hg.alloc).closeFinal env th).toAlloc
  refine ⟨c.tool, tool_run hc, hread hg.alloc h.before, fun th hclose => ?_,
    fun hteam hstay hend hdone => ?_⟩
  · obtain ⟨hfinal, -⟩ := closing_position hg hclose
    refine ⟨_, closeFinalNode_run th hc, hread (hclosed th) fun hxy => ?_⟩
    unfold closeFinal at hxy ⊢
    simp only [hfinal] at hxy ⊢
    exact h.before_addTime hg.shaped (.inl hclose.acts.2) hxy
  · have hO := ordered_run hmono hc hteam (careful_run hmono hc hloop hstart hstay)
    have hsp : ∀ a ∈ c.graph.charges, c.graph.live a.node = true → ¬c.rt.Spare a.node :=
      fun a _ hl => not_spare_of_done hg hdone hl
    refine ⟨fun p hp => ?_, fun th s' hclose hs' p hp => ?_⟩
    · exact hO.timeOf_le hL hg.shaped hg.alloc hmono hsp hp
    · obtain ⟨hfinal, -⟩ := closing_position hg hclose
      have hhome : Home c.rt c.graph := by
        intro x hx
        obtain rfl := Option.some.inj (hfinal.symm.trans hx)
        exact ⟨rfl, .inl hclose.acts.2, h.loopFree _⟩
      obtain rfl := Option.some.inj ((closeFinalNode_run th hc).symm.trans hs')
      exact hO.timeOf_closeFinal_le hL hg.shaped hg.sound hg.alloc hmono hsp hhome hp

/-- A region of two threads; an explicit task of thread 0 is executed by thread 1
when both are at the last barrier. -/
def taskAfterBarrier : List Event :=
  [⟨0, .threadBegin⟩, ⟨1, .threadBegin⟩,
    ⟨0, .taskCreate (.initial 0) (.initial 0) .initial⟩,
    ⟨0, .parallelBegin (.initial 0) 0 2 2 1⟩,
    ⟨0, .implicitTask .scopeBegin 0 (.implicit 0 0) 2 0⟩,
    ⟨1, .implicitTask .scopeBegin 0 (.implicit 0 1) 2 1⟩,
    ⟨0, .taskCreate (.implicit 0 0) (.explicit 0) .explicit⟩,
    ⟨0, .syncRegion .barrier .scopeBegin 0 (.implicit 0 0)⟩,
    ⟨1, .syncRegion .barrier .scopeBegin 0 (.implicit 0 1)⟩,
    ⟨1, .taskSchedule (.implicit 0 1) .others (.explicit 0)⟩,
    ⟨1, .taskSchedule (.explicit 0) .complete (.implicit 0 1)⟩,
    ⟨0, .syncRegion .barrier .scopeEnd 0 (.implicit 0 0)⟩,
    ⟨0, .implicitTask .scopeEnd 0 (.implicit 0 0) 2 0⟩,
    ⟨0, .parallelEnd 0 (.initial 0)⟩,
    ⟨1, .syncRegion .barrier .scopeEnd 0 (.implicit 0 1)⟩,
    ⟨1, .implicitTask .scopeEnd 0 (.implicit 0 1) 2 1⟩]

/-- The task that a thread takes up. -/
def takenUp (e : Event) : Option TaskId :=
  match e.call with
  | .taskSchedule _ _ second => some second
  | _ => none

/-- When the task starts, no thread is at the node that it was created from. -/
theorem taskAfterBarrier_startBehind : StartBehind { clock := fun k => k } taskAfterBarrier := by
  intro pre e post hes o s ho hs first prior n hcall hready σ td td' hσ htd htd' hadj
  exfalso
  -- the task is scheduled once
  have hlen : pre.length = 9 := by
    have hget : taskAfterBarrier[pre.length]? = some e := by rw [hes]; simp
    have hall : ∀ i < taskAfterBarrier.length, i ≠ 9 → ∀ e ∈ taskAfterBarrier[i]?,
        (takenUp e).all (fun τ => !τ.isExplicit) = true := by decide
    by_contra hne
    have hlt : pre.length < taskAfterBarrier.length := by rw [hes]; simp
    have hno := hall pre.length hlt hne e hget
    rw [takenUp, hcall] at hno
    cases hno
  have hpre : pre = taskAfterBarrier.take 9 := by rw [← hlen, hes, List.take_left]
  have he : e = ⟨1, .taskSchedule (.implicit 0 1) .others (.explicit 0)⟩ := by
    have hget : taskAfterBarrier[pre.length]? = some e := by rw [hes]; simp
    rw [hlen] at hget
    exact (Option.some.inj hget).symm
  subst he
  obtain ⟨-, -, rfl⟩ : first = .implicit 0 1 ∧ prior = .others ∧ n = 0 := by
    cases hcall
    exact ⟨rfl, rfl, rfl⟩
  subst hpre
  -- nobody is where the task comes from
  have hteam : ∀ t < 2, (Tool.run { clock := fun k => k } (taskAfterBarrier.take 9)).all (fun s =>
      (s.taskData (.implicit 0 t)).all fun td => (s.taskData (.explicit 0)).all fun td' =>
        decide (td'.currTaskNode ∉ s.toGraph.targets td.currTaskNode)) = true := by decide +kernel
  have hnot : ∀ t < 2, σ ≠ .implicit 0 t := by
    rintro t ht rfl
    have hall := hteam t ht
    rw [hs, Option.all_some, htd, Option.all_some, htd', Option.all_some] at hall
    exact of_decide_eq_true hall (Graph.mem_targets.mpr hadj)
  obtain rfl := Option.some.inj ho
  rcases σ with i | ⟨r, t⟩ | n
  · rcases i with - | i
    · exact absurd hσ (by decide)
    · rcases hσ with h | h <;> cases h
  · rcases r with - | r
    · rcases t with - | - | t
      · exact hnot 0 (by decide) rfl
      · exact hnot 1 (by decide) rfl
      · rcases hσ with h | h <;> cases h
    · rcases hσ with h | h <;> cases h
  · rcases n with - | n
    · exact absurd hσ (by decide)
    · rcases hσ with h | h <;> cases h

theorem taskAfterBarrier_ended :
    ∃ o, Runtime.run taskAfterBarrier = some o ∧ o.RegionsEnded ∧ o.TasksDone := by
  refine ⟨_, rfl, ?_, by decide, ?_⟩
  · intro r
    rcases r with - | r
    · decide
    · simp [Runtime.apply, Runtime.init]
  · intro τ hτ
    rcases τ with i | ⟨r, t⟩ | n
    · rcases i with - | i
      · exact absurd rfl hτ
      · exact .inl rfl
    · rcases r with - | r
      · rcases t with - | - | t
        · decide
        · decide
        · exact .inl rfl
      · exact .inl rfl
    · rcases n with - | n
      · decide
      · exact .inl rfl

theorem edges_precede_taskAfterBarrier :
    ∃ s, Tool.run { clock := fun k => k } taskAfterBarrier = some s ∧ Precedences s ∧
      ∀ p, s.toGraph.IsPath p → s.toGraph.timeOf p ≤ s.ticks := by
  obtain ⟨o, ho, hend, hdone⟩ := taskAfterBarrier_ended
  have hmono : Monotone (Env.clock { clock := fun k => k }) := fun _ _ h => Nat.cast_le.mpr h
  have hstay : Runtime.Throughout StaysAtBarrier taskAfterBarrier :=
    throughout_of_check (by decide +kernel)
  obtain ⟨s, hs, hpre, -, hpath⟩ := edges_precede { clock := fun k => k } hmono ho (by decide)
    taskAfterBarrier_startBehind
  refine ⟨s, hs, hpre, fun p hp => ?_⟩
  simpa using (hpath (by decide) hstay hend hdone).1 p hp

/-- The task of thread 0 starts while thread 0 still spends time on the node that
it was created from. -/
theorem taskInBarrier_not_precedences :
    ∃ s, Tool.run { clock := fun k => k } taskInBarrier = some s ∧ ¬Precedences s := by
  have hread : (Tool.run { clock := fun k => k } taskInBarrier).map (fun s =>
      decide (4 ∈ s.toGraph.targets 2 ∧ (∃ a ∈ s.charges, ∃ b ∈ s.charges,
        a.node = 2 ∧ b.node = 4 ∧ b.start < a.stop))) = some true := by decide +kernel
  obtain ⟨s, hs, hread⟩ := Option.map_eq_some_iff.mp hread
  obtain ⟨hadj, a, ha, b, hb, hau, hbv, hlt⟩ := of_decide_eq_true hread
  refine ⟨s, hs, fun hp => ?_⟩
  have hle := hp 2 4 (Graph.mem_targets.mp hadj) a ha hau b hb hbv
  exact absurd hle (not_le.mpr hlt)

end Config

end Tdg
