/-
TdgTool/Positions.lean

Where the time of a task is spent.

The position of a task is the open node of the loop that it is in, or else its
current node.  `newPosition` says which task a callback moves and where to, and
`newStanding` what it does to the standing of a task.  As long as a task that is
inside a loop neither encounters a region nor is switched away from
(`OutsideLoops`), a callback charges only the position of the task on its thread.
-/
import TdgTool.Times

namespace Tdg

namespace Runtime

variable {o : Runtime} {e : Event} {τ : TaskId} {r : RegionId} {th : ThreadId}

/-! ### Tasks inside loops -/

/-- The task that a callback takes the thread away from. -/
def leaves (e : Event) : Option TaskId :=
  match e.call with
  | .parallelBegin parent _ _ _ _ => some parent
  | .taskSchedule first _ _ => some first
  | _ => none

/-- A task that is inside a loop neither encounters a region nor is switched
away from. -/
def OutsideLoops (o : Runtime) (e : Event) : Prop := ∀ τ ∈ leaves e, (o.task τ).inLoop = false

instance (o : Runtime) (e : Event) : Decidable (OutsideLoops o e) :=
  inferInstanceAs (Decidable (∀ τ ∈ leaves e, _ = _))

/-- Only running tasks are inside loops. -/
def LoopsRun (o : Runtime) : Prop := ∀ τ, (o.task τ).inLoop = true → (o.task τ).standing = .active

theorem LoopsRun.outside (h : LoopsRun o) (hs : (o.task τ).standing ≠ .active) :
    (o.task τ).inLoop = false := by
  rcases hin : (o.task τ).inLoop with - | -
  · rfl
  · exact absurd (h τ hin) hs

/-- A callback changes what its own thread executes. -/
theorem cur_of_ne (ha : o.allows e = true) (hne : th ≠ e.thread) :
    (o.apply e).cur th = o.cur th := by
  cases delivers_of_allows ha with
  | @outside _ endpoint => cases endpoint <;> rfl
  | @sync _ kind _ _ _ _ _ hkind =>
    cases kind with
    | barrier => exact absurd rfl hkind
    | taskwait => rfl
    | taskgroup => rfl
  | @chunk _ _ _ _ lastChunk => cases lastChunk <;> rfl
  | initial => exact Function.update_of_ne hne _ _
  | implicitBegin => exact Function.update_of_ne hne _ _
  | implicitEnd => exact Function.update_of_ne hne _ _
  | schedule => exact Function.update_of_ne hne _ _
  | _ => rfl

/-- A task that may be taken up is not running. -/
theorem MayResume.not_active (h : o.MayResume th τ) : (o.task τ).standing ≠ .active := by
  intro hs
  rcases h with h | h | ⟨-, h⟩ <;> rw [hs] at h <;> cases h

/-- The standing of a task after a callback. -/
def newStanding (o : Runtime) (e : Event) (τ : TaskId) : Standing :=
  match e.call with
  | .taskCreate _ new .initial => if τ = new then .active else (o.task τ).standing
  | .taskCreate _ (.explicit n) .explicit =>
      if τ = .explicit n then .ready else (o.task τ).standing
  | .taskSchedule first prior second =>
      if τ = second then .active
      else if τ = first then if Terminates prior then .done else .suspended e.thread
      else (o.task τ).standing
  | .parallelBegin parent r _ _ _ => if τ = parent then .forked r else (o.task τ).standing
  | .parallelEnd _ task => if τ = task then .active else (o.task τ).standing
  | .implicitTask .scopeBegin _ task _ _ => if τ = task then .active else (o.task τ).standing
  | .implicitTask .scopeEnd _ task _ _ => if τ = task then .done else (o.task τ).standing
  | _ => (o.task τ).standing

theorem standing_apply (ha : o.allows e = true) (τ : TaskId) :
    ((o.apply e).task τ).standing = newStanding o e τ := by
  -- one task changes
  have hone : ∀ {σ v s}, v.standing = s → (Function.update o.task σ v τ).standing
      = if τ = σ then s else (o.task τ).standing := by
    rintro σ v s rfl
    rcases eq_or_ne τ σ with rfl | hτ
    · simp
    · simp [hτ]
  have hkeep : ∀ {σ v}, v.standing = (o.task σ).standing →
      (Function.update o.task σ v τ).standing = (o.task τ).standing := by
    intro σ v hv
    rw [hone hv]
    split_ifs with hτ
    · rw [hτ]
    · rfl
  cases delivers_of_allows ha with
  | @schedule _ first prior second =>
    simp only [Runtime.apply, newStanding, setCur_task, onTask_task]
    rcases eq_or_ne τ second with rfl | h2
    · simp
    · rw [Function.update_of_ne h2, if_neg h2]
      exact hone rfl
  | initial => exact hone rfl
  | explicit => exact hone rfl
  | parallelBegin => exact hone rfl
  | parallelEnd => exact hone rfl
  | implicitBegin => exact hone rfl
  | implicitEnd => exact hone rfl
  | barrierBegin => exact hkeep rfl
  | barrierEnd => exact hkeep rfl
  | loopBegin => exact hkeep rfl
  | loopEnd => exact hkeep rfl
  | @chunk _ _ _ _ lastChunk =>
    cases lastChunk with
    | true => rfl
    | false => exact hkeep rfl
  | @outside _ endpoint => cases endpoint <;> rfl
  | @sync _ kind _ _ _ _ _ hkind =>
    cases kind with
    | barrier => exact absurd rfl hkind
    | taskwait => rfl
    | taskgroup => rfl
  | _ => rfl

theorem loopsRun_init : LoopsRun Runtime.init := by
  intro τ h
  cases h

/-- One task changes. -/
theorem LoopsRun.update (h : LoopsRun o) {σ : TaskId} {v : TaskState}
    (hv : v.inLoop = true → v.standing = .active) :
    (Function.update o.task σ v τ).inLoop = true →
      (Function.update o.task σ v τ).standing = .active := by
  rcases eq_or_ne τ σ with rfl | hτ
  · simpa using hv
  · simpa [hτ] using h τ

theorem LoopsRun.apply (h : LoopsRun o) (hS : o.Sound) (ha : o.allows e = true)
    (hok : OutsideLoops o e) : LoopsRun (o.apply e) := by
  intro τ
  cases delivers_of_allows ha with
  | @schedule _ first prior second hact hmay =>
    -- a suspended task is outside its loops, and so is the one that is left
    have hsecond : (o.task second).inLoop = false :=
      h.outside hmay.not_active
    have hfirst : (o.task first).inLoop = false := hok first rfl
    simp only [Runtime.apply, setCur_task, onTask_task]
    intro hin
    rcases eq_or_ne τ second with rfl | h2
    · simp
    · rw [Function.update_of_ne h2] at hin ⊢
      rcases eq_or_ne τ first with rfl | h1
      · simp [hfirst] at hin
      · rw [Function.update_of_ne h1] at hin ⊢
        exact h τ hin
  | initial => exact h.update (by simp)
  | explicit => exact h.update (by simp)
  | @parallelBegin _ parent =>
    have hpar : (o.task parent).inLoop = false := hok parent rfl
    exact h.update (by simp [hpar])
  | parallelEnd => exact h.update (by simp)
  | implicitBegin => exact h.update (by simp)
  | implicitEnd _ harr => exact h.update (by simp [hS.outside_of_arrived harr])
  | barrierBegin hact => exact h.update (by simp [hact.2])
  | barrierEnd hact => exact h.update (by simp [hact.2])
  | loopBegin _ hact => exact h.update (by simp [hact.2])
  | loopEnd => exact h.update (by simp)
  | @chunk _ _ _ _ lastChunk hact =>
    cases lastChunk with
    | true => exact h τ
    | false => exact h.update (by simp [hact.2])
  | @outside _ endpoint => cases endpoint <;> exact h τ
  | @sync _ kind _ _ _ _ _ hkind =>
    cases kind with
    | barrier => exact absurd rfl hkind
    | taskwait => exact h τ
    | taskgroup => exact h τ
  | _ => exact h τ

end Runtime

namespace RoleGraph

open Tdg.Runtime

variable {o : Runtime} {g : RoleGraph} {env : Env} {e : Event} {x y : Role} {τ : TaskId}
  {r : RegionId} {th : ThreadId}

/-! ### Positions -/

/-- The node that the time of a task is spent on. -/
def position (g : RoleGraph) (o : Runtime) (τ : TaskId) : Role :=
  if (o.task τ).inLoop = true then openNode o τ else g.cur τ

theorem position_of_outside (h : (o.task τ).inLoop = false) : position g o τ = g.cur τ := by
  simp [position, h]

theorem position_of_inside (h : (o.task τ).inLoop = true) : position g o τ = openNode o τ := by
  simp [position, h]

/-- A callback charges the position of the task on its thread. -/
theorem charged_position (hS : o.Sound) (ha : o.allows e = true) (hok : OutsideLoops o e)
    (hx : g.charged o e = some x) : ∃ τ, o.Acts e.thread τ ∧ x = position g o τ := by
  -- outside a loop the position is the current node
  have hcur : ∀ {τ}, (o.task τ).inLoop = false → g.cur τ = x → x = position g o τ := by
    rintro τ hout rfl
    exact (position_of_outside hout).symm
  cases delivers_of_allows ha with
  | @implicitEnd _ r t _ hact harr =>
    simp only [charged] at hx
    split at hx
    · cases hx
    · exact ⟨_, hact, hcur (hS.outside_of_arrived harr) (Option.some.inj hx)⟩
  | parallelBegin hact => exact ⟨_, hact, hcur (hok _ rfl) (Option.some.inj hx)⟩
  | schedule hact => exact ⟨_, hact, hcur (hok _ rfl) (Option.some.inj hx)⟩
  | barrierBegin hact _ hloop =>
    simp only [charged] at hx
    split_ifs at hx
    exact ⟨_, hact, hcur hloop (Option.some.inj hx)⟩
  | loopBegin _ hact _ hloop => exact ⟨_, hact, hcur hloop (Option.some.inj hx)⟩
  | loopEnd hact _ hloop =>
    exact ⟨_, hact, ((position_of_inside hloop).trans (Option.some.inj hx)).symm⟩
  | chunk hact _ hloop =>
    simp only [charged] at hx
    split_ifs at hx
    exact ⟨_, hact, ((position_of_inside hloop).trans (Option.some.inj hx)).symm⟩
  | @outside _ endpoint => cases endpoint <;> cases hx
  | @sync _ kind _ _ _ _ _ hkind =>
    cases kind with
    | barrier => exact absurd rfl hkind
    | taskwait => cases hx
    | taskgroup => cases hx
  | _ => cases hx

/-- The task whose position a callback changes, and the new one. -/
def newPosition (o : Runtime) (e : Event) : Option (TaskId × Role) :=
  match e.call with
  | .extLoop .scopeBegin τ _ _ => some (τ, .ws τ (o.task τ).loops)
  | .extChunk τ _ _ lastChunk =>
      if lastChunk then none
      else some (τ, .chunk τ (o.task τ).loops ((o.task τ).chunks (o.task τ).loops))
  | _ => o.newCur e

theorem position_congr {o' : Runtime} {g' : RoleGraph} (h1 : (o'.task τ).inLoop = (o.task τ).inLoop)
    (h2 : (o'.task τ).loops = (o.task τ).loops) (h3 : (o'.task τ).chunks = (o.task τ).chunks)
    (h4 : g'.cur τ = g.cur τ) : position g' o' τ = position g o τ := by
  unfold position openNode
  rw [h1, h2, h3, h4]

theorem newPosition_of_newCur (hn : o.newCur e = some (τ, x)) : newPosition o e = some (τ, x) := by
  unfold newPosition
  split
  · rename_i hcall
    simp [newCur, hcall] at hn
  · rename_i hcall
    simp [newCur, hcall] at hn
  · exact hn

/-- A callback keeps the position of the tasks that it does not move. -/
theorem position_keep (ha : o.allows e = true) (hn : ∀ x, newPosition o e ≠ some (τ, x)) :
    position (g.step env o e) (o.apply e) τ = position g o τ := by
  have hno : ∀ x, o.newCur e ≠ some (τ, x) := fun x hx => hn x (newPosition_of_newCur hx)
  have hcur : (g.step env o e).cur τ = g.cur τ := Shaped.cur_of_not_moved ha hno
  have ht := taskChange ha τ
  generalize hv : (o.apply e).task τ = v at ht
  cases ht with
  | created hcall =>
    obtain ⟨x, hx⟩ := newCur_of_creates hcall
    exact absurd hx (hno x)
  | loopBegin _ _ _ _ hcall =>
    exact absurd (by simp [newPosition, hcall]) (hn (.ws τ (o.task τ).loops))
  | loopEnd _ _ _ hcall =>
    exact absurd (by simp [newPosition, newCur, hcall]) (hn (.loopSink τ (o.task τ).loops))
  | chunk _ _ _ hcall =>
    exact absurd (by simp [newPosition, hcall])
      (hn (.chunk τ (o.task τ).loops ((o.task τ).chunks (o.task τ).loops)))
  | _ => exact position_congr (by rw [hv]) (by rw [hv]) (by rw [hv]) hcur

/-- A callback moves a task to its new position. -/
theorem position_new (hF : LoopsFresh (o.task τ)) (h : LoopsRun o) (ha : o.allows e = true)
    (hn : newPosition o e = some (τ, x)) :
    position (g.step env o e) (o.apply e) τ = x := by
  have hcur : o.newCur e = some (τ, x) → ((o.apply e).task τ).inLoop = false →
      position (g.step env o e) (o.apply e) τ = x := by
    intro hn hout
    rw [position_of_outside hout]
    exact cur_of_moved ha hn
  cases delivers_of_allows ha with
  | initial =>
    obtain ⟨rfl, rfl⟩ := Prod.mk.inj (Option.some.inj hn)
    exact hcur rfl (by simp [Runtime.apply])
  | explicit =>
    obtain ⟨rfl, rfl⟩ := Prod.mk.inj (Option.some.inj hn)
    exact hcur rfl (by simp [Runtime.apply])
  | implicitBegin =>
    obtain ⟨rfl, rfl⟩ := Prod.mk.inj (Option.some.inj hn)
    exact hcur rfl (by simp [Runtime.apply])
  | parallelEnd _ _ hfork =>
    obtain ⟨rfl, rfl⟩ := Prod.mk.inj (Option.some.inj hn)
    have hout := h.outside (by rw [hfork]; simp)
    exact hcur rfl (by simpa [Runtime.apply] using hout)
  | @barrierBegin _ r t _ _ hloop =>
    have hnew : (if 1 < (o.region r).requested then
        some (.implicit r t, Role.imp r t ((o.task (.implicit r t)).arrived + 1)) else none)
        = some (τ, x) := hn
    split_ifs at hnew
    obtain ⟨rfl, -⟩ := Prod.mk.inj (Option.some.inj hnew)
    exact hcur hn (by simpa [Runtime.apply] using hloop)
  | @loopBegin _ σ _ _ _ _ _ hloop =>
    obtain ⟨rfl, rfl⟩ := Prod.mk.inj (Option.some.inj hn)
    -- a loop that begins is open at its start node
    have hnone : (o.task σ).chunks (o.task σ).loops = 0 :=
      hF _ (by simp [TaskState.begun, hloop])
    rw [position_of_inside (by simp [Runtime.apply]), openNode]
    simp [Runtime.apply, hnone]
  | loopEnd =>
    obtain ⟨rfl, rfl⟩ := Prod.mk.inj (Option.some.inj hn)
    exact hcur rfl (by simp [Runtime.apply])
  | @chunk _ _ _ _ lastChunk _ _ hloop =>
    cases lastChunk with
    | true => cases hn
    | false =>
      obtain ⟨rfl, rfl⟩ := Prod.mk.inj (Option.some.inj hn)
      rw [position_of_inside (by simpa [Runtime.apply] using hloop), openNode]
      simp [Runtime.apply]
  | @outside _ endpoint => cases endpoint <;> cases hn
  | @sync _ kind _ _ _ _ _ hkind =>
    cases kind with
    | barrier => exact absurd rfl hkind
    | taskwait => cases hn
    | taskgroup => cases hn
  | _ => cases hn

/-- The new position of a task is started. -/
theorem newPosition_stamped (hn : newPosition o e = some (τ, x)) : x ∈ g.stamped o e := by
  unfold newPosition newCur at hn
  unfold stamped
  split at hn
  · rename_i hcall
    obtain ⟨rfl, rfl⟩ := Prod.mk.inj (Option.some.inj hn)
    simp [hcall]
  · rename_i hcall
    split_ifs at hn with hlast
    obtain ⟨rfl, rfl⟩ := Prod.mk.inj (Option.some.inj hn)
    simp [hcall, hlast]
  · split at hn <;> rename_i hcall <;> try cases hn <;> simp [hcall]
    split_ifs at hn with hreq
    obtain ⟨rfl, rfl⟩ := Prod.mk.inj (Option.some.inj hn)
    simp [hcall, hreq]

/-- What a callback does to the standing of a task. -/
theorem standing_cases (ha : o.allows e = true) (τ : TaskId) :
    newStanding o e τ = (o.task τ).standing ∨ (∃ x, newPosition o e = some (τ, x)) ∨
      newStanding o e τ = .done ∨ (∃ r, newStanding o e τ = .forked r) ∨
      ∃ first prior second, e.call = .taskSchedule first prior second ∧ (τ = second ∨
        τ = first ∧ newStanding o e τ = .suspended e.thread) := by
  cases delivers_of_allows ha with
  | schedule =>
    simp only [newStanding]
    -- taken up, ended, suspended, or another task
    split_ifs with h2 h1 hterm
    · exact .inr (.inr (.inr (.inr ⟨_, _, _, rfl, .inl h2⟩)))
    · exact .inr (.inr (.inl rfl))
    · exact .inr (.inr (.inr (.inr ⟨_, _, _, rfl, .inr ⟨h1, rfl⟩⟩)))
    · exact .inl rfl
  | initial =>
    simp only [newStanding]
    split_ifs with hτ
    · subst hτ
      exact .inr (.inl ⟨_, rfl⟩)
    · exact .inl rfl
  | explicit =>
    simp only [newStanding]
    split_ifs with hτ
    · subst hτ
      exact .inr (.inl ⟨_, rfl⟩)
    · exact .inl rfl
  | parallelBegin =>
    simp only [newStanding]
    split_ifs
    · exact .inr (.inr (.inr (.inl ⟨_, rfl⟩)))
    · exact .inl rfl
  | parallelEnd =>
    simp only [newStanding]
    split_ifs with hτ
    · subst hτ
      exact .inr (.inl ⟨_, rfl⟩)
    · exact .inl rfl
  | implicitBegin =>
    simp only [newStanding]
    split_ifs with hτ
    · subst hτ
      exact .inr (.inl ⟨_, rfl⟩)
    · exact .inl rfl
  | implicitEnd =>
    simp only [newStanding]
    split_ifs
    · exact .inr (.inr (.inl rfl))
    · exact .inl rfl
  | @outside _ endpoint => cases endpoint <;> exact .inl rfl
  | @sync _ kind _ _ _ _ _ hkind =>
    cases kind with
    | barrier => exact absurd rfl hkind
    | taskwait => exact .inl rfl
    | taskgroup => exact .inl rfl
  | _ => exact .inl rfl

/-- **A running task is started anew or stays where it is.** -/
theorem position_step (hF : LoopsFresh (o.task τ)) (h : LoopsRun o)
    (ha : o.allows e = true) (hact : ((o.apply e).task τ).standing = .active) :
    position (g.step env o e) (o.apply e) τ ∈ g.stamped o e ∨
      (o.task τ).standing = .active ∧
        position (g.step env o e) (o.apply e) τ = position g o τ := by
  by_cases hn : ∃ x, newPosition o e = some (τ, x)
  · obtain ⟨x, hx⟩ := hn
    rw [position_new hF h ha hx]
    exact .inl (newPosition_stamped hx)
  · push Not at hn
    rw [position_keep ha hn]
    by_cases hold : (o.task τ).standing = .active
    · exact .inr ⟨hold, rfl⟩
    · -- the task is taken up, and was not inside a loop
      rw [standing_apply ha] at hact
      rcases standing_cases ha τ with
        hs | ⟨x, hx⟩ | hs | ⟨r, hs⟩ | ⟨first, prior, second, hcall, hτ⟩
      · exact absurd (hs.symm.trans hact) hold
      · exact absurd hx (hn x)
      · rw [hact] at hs
        cases hs
      · rw [hact] at hs
        cases hs
      · rcases hτ with rfl | ⟨-, hs⟩
        · rw [position_of_outside (h.outside hold)]
          exact .inl (by simp [stamped, hcall])
        · rw [hact] at hs
          cases hs

/-- A task that was running before a callback and is the one that a thread
executes after it was that before it. -/
theorem acts_of_active (hS : o.Sound) (ha : o.allows e = true) (hact : (o.apply e).Acts th τ)
    (hold : (o.task τ).standing = .active) : o.Acts th τ := by
  have hother : th ≠ e.thread → (o.apply e).cur th = o.cur th := fun hne => cur_of_ne ha hne
  refine ⟨?_, hold⟩
  rcases eq_or_ne th e.thread with rfl | hth
  · cases delivers_of_allows ha with
    | initial hn hidle habs =>
      obtain rfl : .initial 0 = τ := by simpa [Runtime.apply] using hact.1
      rw [hold] at habs
      cases habs
    | @implicitBegin _ r t _ _ habs =>
      obtain rfl : .implicit r t = τ := by simpa [Runtime.apply] using hact.1
      rw [hold] at habs
      cases habs
    | @implicitEnd _ r t _ hacts =>
      have hcur : (if t = 0 then some (o.region r).parent else none) = some τ := by
        simpa [Runtime.apply] using hact.1
      split_ifs at hcur with ht
      -- the encountering task waits for the end of the region
      subst ht
      obtain rfl := Option.some.inj hcur
      rw [hS.opened_parent (hS.opened_of_zero hacts.2)] at hold
      cases hold
    | @schedule _ _ _ second _ hmay =>
      obtain rfl : second = τ := by simpa [Runtime.apply] using hact.1
      exact absurd hold hmay.not_active
    | @outside _ endpoint => cases endpoint <;> exact hact.1
    | @sync _ kind _ _ _ _ _ hkind =>
      cases kind with
      | barrier => exact absurd rfl hkind
      | taskwait => exact hact.1
      | taskgroup => exact hact.1
    | @chunk _ _ _ _ lastChunk => cases lastChunk <;> exact hact.1
    | _ => exact hact.1
  · rw [← hother hth]
    exact hact.1

/-- After a callback that charges, the task on its thread is started anew, or
it is in the start node of a loop and that has been charged. -/
theorem charged_next (hL : ∀ σ, LoopsFresh (o.task σ)) (h : LoopsRun o) (hS : o.Sound)
    (ha : o.allows e = true) (hok : OutsideLoops o e) (hx : g.charged o e = some x)
    (hact : (o.apply e).Acts e.thread τ) :
    position (g.step env o e) (o.apply e) τ ∈ g.stamped o e ∨
      position (g.step env o e) (o.apply e) τ = x := by
  refine (position_step (hL τ) h ha hact.2).imp_right fun ⟨hold, hpos⟩ => ?_
  obtain ⟨σ, hσ, rfl⟩ := charged_position hS ha hok hx
  have hτ := acts_of_active hS ha hact hold
  obtain rfl : σ = τ := Option.some.inj (hσ.1.symm.trans hτ.1)
  exact hpos

/-- The position of a running task is a node that has been started. -/
theorem Shaped.position_started (hW : Shaped o g) (hact : (o.task τ).standing = .active) :
    g.live (position g o τ) = true ∧ ¬Unstarted o (position g o τ) := by
  by_cases hin : (o.task τ).inLoop = true
  · rw [position_of_inside hin]
    exact hW.openNode_live hin
  · have hd := hasData_of_active hact
    rw [position_of_outside (by simpa using hin)]
    exact ⟨hW.cur_live hd, started_of_seat (hW.seat hd).2⟩

end RoleGraph

end Tdg
