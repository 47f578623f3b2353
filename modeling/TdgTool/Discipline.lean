/-
TdgTool/Discipline.lean

Invariants of the runtime's bookkeeping, kept by every callback it delivers.

`TeamSound` is about one region and its team, as plain data: how many barriers
each thread has reached and left, and what follows from the barrier rule (no
thread has left a barrier that another has not reached).  `Sound` collects it
for all regions together with the link between a region and the task that
waits for it.

The result that the tool depends on is `arrivals_div`: when a thread of a team
that is complete, or that executes a single barrier, is about to arrive at its
`j`-th barrier, the region has had between `j * m` and `(j + 1) * m - 1`
arrivals, so that the tool's round number is the phase number.
-/
import TdgTool.Runtime

namespace Tdg

/-! ### One region and its team -/

/-- What holds of a region `ρ` and its team, thread by thread. -/
structure TeamSound (ρ : RegionState) (team : ℕ → TaskState) : Prop where
  absent : ρ.stage = .absent → ρ = {} ∧ ∀ t, (team t).standing = .absent
  fresh : ∀ {t}, (team t).standing = .absent → team t = {}
  thread_lt : ∀ {t}, (team t).standing ≠ .absent → t < ρ.teamSize
  sizes : ρ.stage ≠ .absent →
    1 ≤ ρ.teamSize ∧ ρ.teamSize ≤ ρ.requested ∧ 1 ≤ ρ.barriers
  passed_le : ∀ t, (team t).passed ≤ (team t).arrived
  arrived_le : ∀ t, (team t).arrived ≤ (team t).passed + 1
  arrived_le_barriers : ∀ t, (team t).arrived ≤ ρ.barriers
  inLoop_body : ∀ {t}, (team t).inLoop = true →
    (team t).passed = (team t).arrived ∧ (team t).arrived < ρ.barriers
  forked_body : ∀ {t r}, (team t).standing = .forked r →
    (team t).passed = (team t).arrived ∧ (team t).arrived < ρ.barriers
  ended_done : ρ.stage = .ended → (team 0).standing = .done
  done_arrived : ∀ {t}, (team t).standing = .done →
    ∀ t' < ρ.teamSize, ρ.barriers ≤ (team t').arrived
  passed_le_arrived : ∀ t, ∀ t' < ρ.teamSize, (team t).passed ≤ (team t').arrived
  arrivals_eq : ρ.arrivals = ∑ t ∈ Finset.range ρ.teamSize, (team t).arrived

namespace TeamSound

variable {ρ : RegionState} {team : ℕ → TaskState} {t : ℕ} {v : TaskState}

theorem init : TeamSound {} fun _ => {} where
  absent := by simp
  fresh := by simp
  thread_lt := by simp
  sizes := by simp
  passed_le := by simp
  arrived_le := by simp
  arrived_le_barriers := by simp
  inLoop_body := by simp
  forked_body := by simp
  ended_done := by simp
  done_arrived := by simp
  passed_le_arrived := by simp
  arrivals_eq := by simp

/-- A step of a thread that is not about barriers. -/
theorem update (h : TeamSound ρ team) (ht : t < ρ.teamSize) (hstage : ρ.stage ≠ .absent)
    (hs : v.standing ≠ .absent) (ha : v.arrived = (team t).arrived)
    (hp : v.passed = (team t).passed)
    (hl : v.inLoop = true → v.passed = v.arrived ∧ v.arrived < ρ.barriers)
    (hf : ∀ r, v.standing = .forked r → v.passed = v.arrived ∧ v.arrived < ρ.barriers)
    (hd : v.standing = .done → ∀ t' < ρ.teamSize, ρ.barriers ≤ (team t').arrived)
    (hd' : (team t).standing = .done → v.standing = .done) :
    TeamSound ρ (Function.update team t v) := by
  -- barriers read `arrived` and `passed` only, and these stay
  have harr : ∀ u, (Function.update team t v u).arrived = (team u).arrived := by
    intro u
    by_cases hu : u = t
    · simp [hu, ha]
    · simp [hu]
  have hpas : ∀ u, (Function.update team t v u).passed = (team u).passed := by
    intro u
    by_cases hu : u = t
    · simp [hu, hp]
    · simp [hu]
  refine ⟨fun e => absurd e hstage, ?_, ?_, h.sizes, ?_, ?_, ?_, ?_, ?_, ?_, ?_, ?_, ?_⟩
  · intro u hu
    rcases eq_or_ne u t with rfl | e
    · simp only [Function.update_self] at hu
      exact absurd hu hs
    · simp only [Function.update_of_ne e] at hu ⊢
      exact h.fresh hu
  · intro u hu
    by_cases e : u = t
    · rwa [e]
    · simp only [Function.update_of_ne e] at hu
      exact h.thread_lt hu
  · intro u
    rw [harr, hpas]
    exact h.passed_le u
  · intro u
    rw [harr, hpas]
    exact h.arrived_le u
  · intro u
    rw [harr]
    exact h.arrived_le_barriers u
  · intro u hu
    rcases eq_or_ne u t with rfl | e
    · simp only [Function.update_self] at hu ⊢
      exact hl hu
    · simp only [Function.update_of_ne e] at hu ⊢
      exact h.inLoop_body hu
  · intro u r hu
    rcases eq_or_ne u t with rfl | e
    · simp only [Function.update_self] at hu ⊢
      exact hf r hu
    · simp only [Function.update_of_ne e] at hu ⊢
      exact h.forked_body hu
  -- the end of the region rests on thread 0 having ended
  · intro hended
    have h0 := h.ended_done hended
    rcases eq_or_ne 0 t with rfl | e
    · simpa using hd' h0
    · simpa [e] using h0
  · intro u hu t' ht'
    rw [harr]
    rcases eq_or_ne u t with rfl | e
    · simp only [Function.update_self] at hu
      exact hd hu t' ht'
    · simp only [Function.update_of_ne e] at hu
      exact h.done_arrived hu t' ht'
  · intro u t' ht'
    rw [harr, hpas]
    exact h.passed_le_arrived u t' ht'
  · rw [h.arrivals_eq]
    exact Finset.sum_congr rfl fun u _ => (harr u).symm

/-- A thread reaches its next barrier. -/
theorem arrive (h : TeamSound ρ team) (ht : t < ρ.teamSize) (hstage : ρ.stage ≠ .absent)
    (hs : (team t).standing = .active) (hb : (team t).passed = (team t).arrived)
    (hlt : (team t).arrived < ρ.barriers) (hl : (team t).inLoop = false) :
    TeamSound { ρ with arrivals := ρ.arrivals + 1 }
      (Function.update team t { team t with arrived := (team t).arrived + 1 }) := by
  -- the other fields of the thread stay; the number of arrivals only grows
  have hle : ∀ u, (team u).arrived
      ≤ (Function.update team t { team t with arrived := (team t).arrived + 1 } u).arrived := by
    intro u
    rcases eq_or_ne u t with rfl | hu
    · simp
    · simp [hu]
  have hpas : ∀ u, (Function.update team t
      { team t with arrived := (team t).arrived + 1 } u).passed = (team u).passed := by
    intro u
    rcases eq_or_ne u t with rfl | hu
    · simp
    · simp [hu]
  have hsta : ∀ u, (Function.update team t
      { team t with arrived := (team t).arrived + 1 } u).standing = (team u).standing := by
    intro u
    rcases eq_or_ne u t with rfl | hu
    · simp
    · simp [hu]
  refine ⟨fun e => absurd e hstage, ?_, ?_, h.sizes, ?_, ?_, ?_, ?_, ?_, ?_, ?_, ?_, ?_⟩
  · intro u hu
    rw [hsta] at hu
    have e : u ≠ t := by
      rintro rfl
      rw [hs] at hu
      cases hu
    simpa [e] using h.fresh hu
  · intro u hu
    rw [hsta] at hu
    exact h.thread_lt hu
  · intro u
    rw [hpas]
    exact (h.passed_le u).trans (hle u)
  · intro u
    rw [hpas]
    rcases eq_or_ne u t with rfl | e
    · simp [hb]
    · simpa [e] using h.arrived_le u
  · intro u
    rcases eq_or_ne u t with rfl | e
    · simpa using hlt
    · simpa [e] using h.arrived_le_barriers u
  · intro u hu
    rcases eq_or_ne u t with rfl | e
    · simp [hl] at hu
    · simp only [Function.update_of_ne e] at hu ⊢
      exact h.inLoop_body hu
  -- an active thread is not the one that waits for an inner region
  · intro u r hu
    rw [hsta] at hu
    have e : u ≠ t := by
      rintro rfl
      rw [hs] at hu
      cases hu
    simpa [e] using h.forked_body hu
  · intro he
    rw [hsta]
    exact h.ended_done he
  · intro u hu t' ht'
    rw [hsta] at hu
    exact (h.done_arrived hu t' ht').trans (hle t')
  · intro u t' ht'
    rw [hpas]
    exact (h.passed_le_arrived u t' ht').trans (hle t')
  -- the sum over the team grows by one, in the summand of `t`
  · have hmem : t ∈ Finset.range ρ.teamSize := Finset.mem_range.mpr ht
    have hrest : ∀ u ∈ (Finset.range ρ.teamSize).erase t, (Function.update team t
        { team t with arrived := (team t).arrived + 1 } u).arrived = (team u).arrived := by
      intro u hu
      simp [Finset.ne_of_mem_erase hu]
    rw [← Finset.add_sum_erase _ _ hmem, Finset.sum_congr rfl hrest]
    simp only [Function.update_self, h.arrivals_eq]
    rw [← Finset.add_sum_erase _ _ hmem]
    omega

/-- A thread leaves a barrier that its whole team has reached. -/
theorem pass (h : TeamSound ρ team) (hs : (team t).standing = .active)
    (hlt : (team t).passed < (team t).arrived)
    (hall : ∀ t' < ρ.teamSize, (team t).arrived ≤ (team t').arrived) :
    TeamSound ρ (Function.update team t { team t with passed := (team t).passed + 1 }) := by
  -- a thread is behind by at most one barrier, so it catches up
  have hnew : (team t).passed + 1 = (team t).arrived := by
    have := h.arrived_le t
    omega
  have harr : ∀ u, (Function.update team t
      { team t with passed := (team t).passed + 1 } u).arrived = (team u).arrived := by
    intro u
    rcases eq_or_ne u t with rfl | hu
    · simp
    · simp [hu]
  have hsta : ∀ u, (Function.update team t
      { team t with passed := (team t).passed + 1 } u).standing = (team u).standing := by
    intro u
    rcases eq_or_ne u t with rfl | hu
    · simp
    · simp [hu]
  refine ⟨?_, ?_, ?_, h.sizes, ?_, ?_, ?_, ?_, ?_, ?_, ?_, ?_, ?_⟩
  · intro e
    have := (h.absent e).2 t
    rw [hs] at this
    cases this
  · intro u hu
    rw [hsta] at hu
    have e : u ≠ t := by
      rintro rfl
      rw [hs] at hu
      cases hu
    simpa [e] using h.fresh hu
  · intro u hu
    rw [hsta] at hu
    exact h.thread_lt hu
  · intro u
    rcases eq_or_ne u t with rfl | e
    · simp [hnew]
    · simpa [e] using h.passed_le u
  · intro u
    rcases eq_or_ne u t with rfl | e
    · simp only [Function.update_self]
      omega
    · simpa [e] using h.arrived_le u
  · intro u
    rw [harr]
    exact h.arrived_le_barriers u
  · intro u hu
    rcases eq_or_ne u t with rfl | e
    · simp only [Function.update_self] at hu
      have := h.inLoop_body hu
      omega
    · simp only [Function.update_of_ne e] at hu ⊢
      exact h.inLoop_body hu
  · intro u r hu
    rw [hsta] at hu
    have e : u ≠ t := by
      rintro rfl
      rw [hs] at hu
      cases hu
    simpa [e] using h.forked_body hu
  · intro he
    rw [hsta]
    exact h.ended_done he
  · intro u hu t' ht'
    rw [hsta] at hu
    rw [harr]
    exact h.done_arrived hu t' ht'
  · intro u t' ht'
    rw [harr]
    rcases eq_or_ne u t with rfl | e
    -- nobody can have left a barrier that another has not reached: this is the guard
    · simpa [hnew] using hall t' ht'
    · simpa [e] using h.passed_le_arrived u t' ht'
  · rw [h.arrivals_eq]
    exact Finset.sum_congr rfl fun u _ => (harr u).symm

end TeamSound

/-! ### The whole runtime -/

/-- The loops a task has begun. -/
def TaskState.begun (v : TaskState) : ℕ := v.loops + v.inLoop.toNat

namespace Runtime

variable {o : Runtime} {th : ThreadId} {τ : TaskId} {r : RegionId}

/-- The implicit tasks of a region. -/
def team (o : Runtime) (r : RegionId) : ℕ → TaskState := fun t => o.task (.implicit r t)

/-- What holds of the bookkeeping after every sequence of callbacks. -/
structure Sound (o : Runtime) : Prop where
  team : ∀ r, TeamSound (o.region r) (o.team r)
  fresh : ∀ {τ}, (o.task τ).standing = .absent → o.task τ = {}
  cur_alive : ∀ {th τ}, o.cur th = some τ → o.alive th = true
  forked_region : ∀ {τ r}, (o.task τ).standing = .forked r →
    (o.region r).stage = .opened ∧ (o.region r).parent = τ
  opened_parent : ∀ {r}, (o.region r).stage = .opened →
    (o.task (o.region r).parent).standing = .forked r
  initial_first : (o.task (.initial 0)).standing = .absent →
    (∀ τ, (o.task τ).standing = .absent) ∧ ∀ r, (o.region r).stage = .absent
  one_initial : ∀ {i}, (o.task (.initial i)).standing ≠ .absent → i = 0
  home_implicit : ∀ {r t}, (o.task (.implicit r t)).standing ≠ .absent →
    (o.task (.implicit r t)).home = some r

theorem sound_init : init.Sound where
  team := fun _ => TeamSound.init
  fresh := fun _ => rfl
  cur_alive := by simp [init]
  forked_region := by simp [init]
  opened_parent := by simp [init]
  initial_first := by simp [init]
  one_initial := by simp [init]
  home_implicit := by simp [init]

/-- A change of one task that is not about barriers and not a creation. -/
structure Benign (o : Runtime) (τ : TaskId) (v : TaskState) : Prop where
  present : (o.task τ).standing ≠ .absent
  not_done : (o.task τ).standing ≠ .done
  standing : v.standing ≠ .absent
  arrived : v.arrived = (o.task τ).arrived
  passed : v.passed = (o.task τ).passed
  home : v.home = (o.task τ).home
  inLoop : v.inLoop = true → (o.task τ).inLoop = true ∨ o.InBody τ
  forked : ∀ {r}, v.standing = .forked r → o.InBody τ
  done : v.standing = .done → ∀ {r t}, τ = .implicit r t → o.AllArrived r (o.region r).barriers

@[simp] theorem team_onRegion (f : RegionState → RegionState) :
    (o.onRegion r f).team = o.team := rfl

@[simp] theorem team_setCur (τ' : Option TaskId) : (o.setCur th τ').team = o.team := rfl

theorem team_onTask_self {t : ℕ} (f : TaskState → TaskState) :
    (o.onTask (.implicit r t) f).team r
      = Function.update (o.team r) t (f (o.team r t)) := by
  funext u
  rcases eq_or_ne u t with rfl | e
  · simp [team]
  · have : TaskId.implicit r u ≠ .implicit r t := fun h => e (TaskId.implicit.inj h).2
    simp [team, e]

theorem team_onTask_of_ne (f : TaskState → TaskState) (h : ∀ t, τ ≠ .implicit r t) :
    (o.onTask τ f).team r = o.team r := by
  funext u
  simp [team, (h u).symm]

theorem Sound.team_benign (h : o.Sound) {f : TaskState → TaskState}
    (hb : o.Benign τ (f (o.task τ))) (r : RegionId) :
    TeamSound (o.region r) ((o.onTask τ f).team r) := by
  -- a task that is not on the team does not concern it
  by_cases hτ : ∃ t, τ = .implicit r t
  · obtain ⟨t, rfl⟩ := hτ
    have ht := (h.team r).thread_lt hb.present
    have harr : (f (o.team r t)).arrived = (o.task (.implicit r t)).arrived := hb.arrived
    have hpas : (f (o.team r t)).passed = (o.task (.implicit r t)).passed := hb.passed
    rw [team_onTask_self]
    refine (h.team r).update ht ?_ hb.standing harr hpas ?_ ?_ ?_ ?_
    · intro e
      exact hb.present (((h.team r).absent e).2 t)
    · intro hl
      have hbody : o.InBody (.implicit r t) :=
        (hb.inLoop hl).elim (fun hl => (h.team r).inLoop_body hl) id
      rw [harr, hpas]
      exact hbody
    · intro r' hf
      rw [harr, hpas]
      exact hb.forked hf
    · intro hd
      exact hb.done hd rfl
    · intro hd
      exact absurd hd hb.not_done
  · rw [team_onTask_of_ne f fun t e => hτ ⟨t, e⟩]
    exact h.team r

/-- `Sound` without the link between regions and their encountering tasks is
kept by a benign change. -/
theorem Sound.benign (h : o.Sound) {f : TaskState → TaskState}
    (hb : o.Benign τ (f (o.task τ)))
    (hf : ∀ {r}, (f (o.task τ)).standing = .forked r ↔ (o.task τ).standing = .forked r) :
    (o.onTask τ f).Sound := by
  have hstand : ∀ {σ r}, ((o.onTask τ f).task σ).standing = .forked r ↔
      (o.task σ).standing = .forked r := by
    intro σ r
    rcases eq_or_ne σ τ with rfl | e
    · simpa using hf
    · simp [e]
  -- the change neither creates a task nor lets one fork or return
  have habs : ∀ {σ}, ((o.onTask τ f).task σ).standing = .absent ↔
      (o.task σ).standing = .absent := by
    intro σ
    rcases eq_or_ne σ τ with rfl | e
    · simp [hb.standing, hb.present]
    · simp [e]
  refine ⟨h.team_benign hb, ?_, h.cur_alive, ?_, ?_, ?_, ?_, ?_⟩
  · intro σ hσ
    have e : σ ≠ τ := by
      rintro rfl
      exact hb.present (habs.mp hσ)
    simpa [e] using h.fresh (habs.mp hσ)
  · intro σ r hσ
    exact h.forked_region (hstand.mp hσ)
  · intro r hr
    exact hstand.mpr (h.opened_parent hr)
  · intro h0
    obtain ⟨h1, h2⟩ := h.initial_first (habs.mp h0)
    exact ⟨fun σ => habs.mpr (h1 σ), h2⟩
  · intro i hi
    exact h.one_initial fun e => hi (habs.mpr e)
  · intro r t ht
    have hhome := h.home_implicit fun e => ht (habs.mpr e)
    rcases eq_or_ne (TaskId.implicit r t) τ with rfl | e
    · simpa [hb.home] using hhome
    · simpa [e] using hhome

theorem Sound.setCur (h : o.Sound) {τ' : Option TaskId} (ha : τ' ≠ none → o.alive th = true) :
    (o.setCur th τ').Sound :=
  { h with
    team := h.team
    cur_alive := by
      intro th' σ hσ
      rcases eq_or_ne th' th with rfl | e
      · exact ha (by
          simp only [setCur_cur, Function.update_self] at hσ
          simp [hσ])
      · simp only [setCur_cur, Function.update_of_ne e] at hσ
        exact h.cur_alive hσ }

/-- A task that acts is present, not done and on a live thread. -/
theorem Sound.acts (h : o.Sound) (ha : o.Acts th τ) :
    (o.task τ).standing ≠ .absent ∧ (o.task τ).standing ≠ .done ∧
      (∀ r, (o.task τ).standing ≠ .forked r) ∧ o.alive th = true := by
  rw [ha.2]
  simp [h.cur_alive ha.1]

theorem MayResume.standing (h : o.MayResume th τ) : (o.task τ).standing ≠ .absent ∧
    (o.task τ).standing ≠ .done ∧ (o.task τ).standing ≠ .active ∧
      ∀ r, (o.task τ).standing ≠ .forked r := by
  refine ⟨?_, ?_, ?_, fun r => ?_⟩ <;> intro e <;>
    simp [MayResume, e, Standing.isSuspended] at h

/-! ### Every callback keeps the invariants -/

/-- A task is created: the initial one, an explicit one, or an implicit one of
an opened region. -/
theorem Sound.create (h : o.Sound) {v : TaskState} (habs : (o.task τ).standing = .absent)
    (hv : v = { standing := v.standing, home := v.home })
    (hs : v.standing = .active ∨ v.standing = .ready)
    (hinit : (o.task (.initial 0)).standing ≠ .absent ∨ τ = .initial 0)
    (hone : ∀ i, τ = .initial i → i = 0)
    (himp : ∀ r t, τ = .implicit r t →
      (o.region r).stage = .opened ∧ t < (o.region r).teamSize ∧ v.home = some r) :
    (o.onTask τ fun _ => v).Sound := by
  -- all counters of a new task are zero
  have harr : v.arrived = 0 := by rw [hv]
  have hpas : v.passed = 0 := by rw [hv]
  have hloop : v.inLoop = false := by rw [hv]
  have hnf : ∀ r, v.standing ≠ .forked r := by
    intro r e
    rcases hs with hs | hs <;> rw [hs] at e <;> cases e
  have hna : v.standing ≠ .absent := by
    intro e
    rcases hs with hs | hs <;> rw [hs] at e <;> cases e
  have hstand : ∀ {σ r}, ((o.onTask τ fun _ => v).task σ).standing = .forked r ↔
      (o.task σ).standing = .forked r := by
    intro σ r
    rcases eq_or_ne σ τ with rfl | e
    · simp [hnf, habs]
    · simp [e]
  refine ⟨?_, ?_, h.cur_alive, ?_, ?_, ?_, ?_, ?_⟩
  · intro r
    by_cases hτ : ∃ t, τ = .implicit r t
    · obtain ⟨t, rfl⟩ := hτ
      obtain ⟨hopen, hlt, -⟩ := himp r t rfl
      have hempty : o.team r t = {} := h.fresh habs
      rw [team_onTask_self]
      refine (h.team r).update hlt (by simp [hopen]) hna ?_ ?_ ?_ ?_ ?_ ?_
      · rw [harr, hempty]
      · rw [hpas, hempty]
      · intro e
        rw [hloop] at e
        cases e
      · intro r' e
        exact absurd e (hnf r')
      · intro e
        rcases hs with hs | hs <;> rw [hs] at e <;> cases e
      · intro e
        rw [hempty] at e
        cases e
    · rw [team_onTask_of_ne _ fun t e => hτ ⟨t, e⟩]
      exact h.team r
  · intro σ hσ
    rcases eq_or_ne σ τ with rfl | e
    · simp only [onTask_task, Function.update_self] at hσ
      exact absurd hσ hna
    · simp only [onTask_task, Function.update_of_ne e] at hσ ⊢
      exact h.fresh hσ
  · intro σ r hσ
    exact h.forked_region (hstand.mp hσ)
  · intro r hr
    exact hstand.mpr (h.opened_parent hr)
  · intro h0
    -- nothing exists before the initial task, which is the first to be created
    rcases hinit with hinit | rfl
    · rcases eq_or_ne (TaskId.initial 0) τ with rfl | e
      · simp only [onTask_task, Function.update_self] at h0
        exact absurd h0 hna
      · simp only [onTask_task, Function.update_of_ne e] at h0
        exact absurd h0 hinit
    · simp only [onTask_task, Function.update_self] at h0
      exact absurd h0 hna
  · intro i hi
    by_cases e : TaskId.initial i = τ
    · exact hone i e.symm
    · simp only [onTask_task, Function.update_of_ne e] at hi
      exact h.one_initial hi
  · intro r t ht
    rcases eq_or_ne (TaskId.implicit r t) τ with rfl | e
    · simpa using (himp r t rfl).2.2
    · simp only [onTask_task, Function.update_of_ne e] at ht ⊢
      exact h.home_implicit ht

theorem Sound.initial_present (h : o.Sound) (hτ : (o.task τ).standing ≠ .absent) :
    (o.task (.initial 0)).standing ≠ .absent := by
  intro h0
  exact hτ ((h.initial_first h0).1 τ)

theorem Sound.schedule (h : o.Sound) {first second : TaskId} {prior : TaskStatus}
    (ha : o.allows ⟨th, .taskSchedule first prior second⟩ = true) :
    (o.apply ⟨th, .taskSchedule first prior second⟩).Sound := by
  simp only [allows, decide_eq_true_eq] at ha
  obtain ⟨hact, hres, hterm⟩ := ha
  have hfirst := hact.2
  have hne : second ≠ first := by
    rintro rfl
    rcases hres with e | e | ⟨-, e⟩ <;> rw [hfirst] at e <;> cases e
  -- two benign changes: the first task is left, the second is taken up
  have h1 : (o.onTask first fun τ => { τ with
      standing := if Terminates prior then .done else .suspended th }).Sound := by
    refine h.benign ?_ ?_
    · refine ⟨by simp [hfirst], by simp [hfirst], ?_, rfl, rfl, rfl, .inl, ?_, ?_⟩
      · simp only
        split <;> simp
      · intro r e
        simp only at e
        split at e <;> cases e
      · rintro e r t rfl
        simp only at e
        split at e
        -- only explicit tasks end here, so the barriers of a team are not at stake
        · rename_i ht
          have := hterm ht
          cases this
        · cases e
    · intro r
      simp only [hfirst]
      split <;> simp
  have hsame : ((o.onTask first fun τ => { τ with
      standing := if Terminates prior then .done else .suspended th }).task second)
        = o.task second := by simp [hne]
  have h2 := h1.benign (τ := second) (f := fun τ => { τ with standing := .active }) ?_ ?_
  · exact h2.setCur fun _ => (h.cur_alive hact.1 : o.alive th = true)
  · refine ⟨?_, ?_, by simp, rfl, rfl, rfl, .inl, by simp, by simp⟩
    · rw [hsame]
      rcases hres with e | e | ⟨-, e⟩
      · simp [e]
      · simp [e]
      · intro e'
        rw [e'] at e
        cases e
    · rw [hsame]
      rcases hres with e | e | ⟨-, e⟩
      · simp [e]
      · simp [e]
      · intro e'
        rw [e'] at e
        cases e
  · intro r
    rw [hsame]
    rcases hres with e | e | ⟨-, e⟩
    · simp [e]
    · simp [e]
    · constructor
      · simp
      · intro e'
        rw [e'] at e
        cases e

theorem Sound.parallelBegin (h : o.Sound) {parent : TaskId} {q m k : ℕ}
    (ha : o.allows ⟨th, .parallelBegin parent r q m k⟩ = true) :
    (o.apply ⟨th, .parallelBegin parent r q m k⟩).Sound := by
  simp only [allows, decide_eq_true_eq] at ha
  obtain ⟨hact, hbody, habs, hm, hq, hk⟩ := ha
  have hfork : o.Benign parent { o.task parent with standing := .forked r } :=
    ⟨by simp [hact.2], by simp [hact.2], by simp, rfl, rfl, rfl, .inl, fun _ => hbody, by simp⟩
  have hteam := h.team_benign (f := fun τ => { τ with standing := .forked r }) hfork
  -- the encountering task is not on the new team, which has no members yet
  have hnot : ∀ t, parent ≠ .implicit r t := by
    rintro t rfl
    have hgone := ((h.team r).absent habs).2 t
    have hhere : (o.team r t).standing = .active := hact.2
    rw [hhere] at hgone
    cases hgone
  have hnofork : ∀ {σ}, (o.task σ).standing ≠ .forked r := by
    intro σ hσ
    rw [(h.forked_region hσ).1] at habs
    cases habs
  have habs' : ∀ {σ}, ((o.apply ⟨th, .parallelBegin parent r q m k⟩).task σ).standing = .absent ↔
      (o.task σ).standing = .absent := by
    intro σ
    rcases eq_or_ne σ parent with rfl | e
    · simp [apply, hact.2]
    · simp [apply, e]
  refine ⟨?_, ?_, h.cur_alive, ?_, ?_, ?_, ?_, ?_⟩
  · intro r'
    rcases eq_or_ne r' r with rfl | e
    · have hempty : o.team r' = fun _ => {} := by
        funext t
        exact h.fresh (((h.team r').absent habs).2 t)
      have : (o.apply ⟨th, .parallelBegin parent r' q m k⟩).team r' = fun _ => {} := by
        rw [← hempty]
        simp only [apply, team_onRegion]
        exact team_onTask_of_ne _ hnot
      rw [this]
      simp only [apply, onRegion_region, Function.update_self]
      -- the team is empty, and its sizes are those that the guard has checked
      refine ⟨by simp, by simp, by simp, ?_, by simp, by simp, by simp, by simp, by simp, by simp,
        by simp, by simp, by simp⟩
      intro _
      exact ⟨hm, hq, hk⟩
    · have := hteam r'
      simpa [apply, e] using this
  · intro σ hσ
    rw [habs'] at hσ
    have e : σ ≠ parent := by
      rintro rfl
      rw [hact.2] at hσ
      cases hσ
    simpa [apply, e] using h.fresh hσ
  · intro σ r' hσ
    rcases eq_or_ne σ parent with rfl | e
    · simp only [apply, onRegion_task, onTask_task, Function.update_self,
        Standing.forked.injEq] at hσ
      subst hσ
      simp [apply]
    · have hσ' : (o.task σ).standing = .forked r' := by simpa [apply, e] using hσ
      -- no task can have waited for `r` before it was begun
      have hr' : r' ≠ r := by
        rintro rfl
        exact hnofork hσ'
      simpa [apply, hr'] using h.forked_region hσ'
  · intro r' hr'
    rcases eq_or_ne r' r with rfl | e
    · simp [apply]
    · have hopen : (o.region r').stage = .opened := by simpa [apply, e] using hr'
      have hp := h.opened_parent hopen
      have hne : (o.region r').parent ≠ parent := by
        intro e'
        rw [e', hact.2] at hp
        cases hp
      simpa [apply, e, hne] using hp
  · intro h0
    have hp : (o.task parent).standing ≠ .absent := by simp [hact.2]
    exact absurd (habs'.mp h0) (h.initial_present hp)
  · intro i hi
    exact h.one_initial fun e => hi (habs'.mpr e)
  · intro r' t ht
    have := h.home_implicit fun e => ht (habs'.mpr e)
    by_cases e : TaskId.implicit r' t = parent
    · rw [← e]
      simpa [apply] using this
    · simpa [apply, e] using this

theorem Sound.parallelEnd (h : o.Sound) {task : TaskId}
    (ha : o.allows ⟨th, .parallelEnd r task⟩ = true) :
    (o.apply ⟨th, .parallelEnd r task⟩).Sound := by
  simp only [allows, decide_eq_true_eq] at ha
  obtain ⟨hopen, rfl, hcur, hfork, hmaster, hall⟩ := ha
  set p := (o.region r).parent with hp
  have hact : o.Benign p { o.task p with standing := .active } :=
    ⟨by simp [hfork], by simp [hfork], by simp, rfl, rfl, rfl, .inl, by simp, by simp⟩
  have hteam := h.team_benign (f := fun τ => { τ with standing := .active }) hact
  have habs' : ∀ {σ}, ((o.apply ⟨th, .parallelEnd r p⟩).task σ).standing = .absent ↔
      (o.task σ).standing = .absent := by
    intro σ
    rcases eq_or_ne σ p with rfl | e
    · simp [apply, hfork]
    · simp [apply, e]
  refine ⟨?_, ?_, h.cur_alive, ?_, ?_, ?_, ?_, ?_⟩
  · intro r'
    rcases eq_or_ne r' r with rfl | e
    · have := hteam r'
      -- thread 0 is done, so it is not the task that waits
      have hne : p ≠ .implicit r' 0 := by
        intro e'
        rw [e', hmaster] at hfork
        cases hfork
      have h0 : ((o.onTask p fun τ => { τ with standing := .active }).team r' 0).standing
          = .done := by
        simpa [Runtime.team, hne.symm] using hmaster
      simp only [apply, onRegion_region, Function.update_self, onTask_region]
      exact { this with
        absent := by simp
        sizes := fun _ => this.sizes (by simp [hopen])
        ended_done := fun _ => h0 }
    · have := hteam r'
      simpa [apply, e] using this
  · intro σ hσ
    rw [habs'] at hσ
    have e : σ ≠ p := by
      rintro rfl
      rw [hfork] at hσ
      cases hσ
    simpa [apply, e] using h.fresh hσ
  · intro σ r' hσ
    have e : σ ≠ p := by
      rintro rfl
      simp [apply] at hσ
    have hσ' : (o.task σ).standing = .forked r' := by simpa [apply, e] using hσ
    -- a task waits for one region at a time, and a region for one task
    have hr' : r' ≠ r := by
      rintro rfl
      exact e (h.forked_region hσ').2.symm
    simpa [apply, hr'] using h.forked_region hσ'
  · intro r' hr'
    have e : r' ≠ r := by
      rintro rfl
      simp [apply] at hr'
    have hopen' : (o.region r').stage = .opened := by simpa [apply, e] using hr'
    have hq := h.opened_parent hopen'
    have hne : (o.region r').parent ≠ p := by
      intro e'
      rw [e', hfork] at hq
      exact e (Standing.forked.inj hq).symm
    simpa [apply, e, hne] using hq
  · intro h0
    have hpres : (o.task p).standing ≠ .absent := by simp [hfork]
    exact absurd (habs'.mp h0) (h.initial_present hpres)
  · intro i hi
    exact h.one_initial fun e => hi (habs'.mpr e)
  · intro r' t ht
    have := h.home_implicit fun e => ht (habs'.mpr e)
    by_cases e : TaskId.implicit r' t = p
    · rw [← e]
      simpa [apply] using this
    · simpa [apply, e] using this

theorem Sound.implicitEnd (h : o.Sound) {task : TaskId} {m t : ℕ}
    (ha : o.allows ⟨th, .implicitTask .scopeEnd r task m t⟩ = true) :
    (o.apply ⟨th, .implicitTask .scopeEnd r task m t⟩).Sound := by
  simp only [allows, decide_eq_true_eq] at ha
  obtain ⟨rfl, hact, harr, hall⟩ := ha
  have h1 : (o.onTask (.implicit r t) fun τ => { τ with standing := .done }).Sound := by
    refine h.benign ?_ ?_
    · refine ⟨by simp [hact.2], by simp [hact.2], by simp, rfl, rfl, rfl, .inl, by simp, ?_⟩
      intro _ r' t' e
      obtain ⟨rfl, rfl⟩ := TaskId.implicit.inj e
      exact hall
    · intro r'
      simp [hact.2]
  exact h1.setCur fun _ => h.cur_alive hact.1

/-- A barrier begin of an implicit task. -/
theorem Sound.barrierBegin (h : o.Sound) {t : ℕ} (hact : o.Acts th (.implicit r t))
    (hbody : o.InBody (.implicit r t)) (hloop : (o.task (.implicit r t)).inLoop = false) :
    ((o.onTask (.implicit r t) fun τ => { τ with arrived := τ.arrived + 1 }).onRegion r
      fun ρ => { ρ with arrivals := ρ.arrivals + 1 }).Sound := by
  -- only the counts of one thread and of its region change
  have hstand : ∀ σ, ((o.onTask (.implicit r t) fun τ =>
      { τ with arrived := τ.arrived + 1 }).task σ).standing = (o.task σ).standing := by
    intro σ
    by_cases e : σ = .implicit r t
    · simp [e]
    · simp [e]
  have hpres : (o.task (.implicit r t)).standing ≠ .absent := by simp [hact.2]
  have hstage : (o.region r).stage ≠ .absent := fun e => hpres (((h.team r).absent e).2 t)
  refine ⟨?_, ?_, h.cur_alive, ?_, ?_, ?_, ?_, ?_⟩
  · intro r'
    rcases eq_or_ne r' r with rfl | e
    · rw [team_onRegion, team_onTask_self]
      simp only [onRegion_region, Function.update_self, onTask_region]
      -- the one place where the guard of `cb_sync_region` begin is needed
      exact (h.team r').arrive ((h.team r').thread_lt hpres) hstage hact.2 hbody.1 hbody.2 hloop
    · rw [team_onRegion, team_onTask_of_ne _ fun u e' => e (TaskId.implicit.inj e').1.symm]
      simpa [e] using h.team r'
  · intro σ hσ
    have hσ' : (o.task σ).standing = .absent := (hstand σ).symm.trans hσ
    have e : σ ≠ .implicit r t := by
      rintro rfl
      exact hpres hσ'
    simpa [e] using h.fresh hσ'
  · intro σ r' hσ
    have hf := h.forked_region ((hstand σ).symm.trans hσ)
    rcases eq_or_ne r' r with rfl | e
    · simpa using hf
    · simpa [e] using hf
  · intro r' hr'
    have hopen : (o.region r').stage = .opened := by
      rcases eq_or_ne r' r with rfl | e
      · simpa using hr'
      · simpa [e] using hr'
    have hparent :
        (((o.onTask (.implicit r t) fun τ => { τ with arrived := τ.arrived + 1 }).onRegion
          r fun ρ => { ρ with arrivals := ρ.arrivals + 1 }).region r').parent
            = (o.region r').parent := by
      rcases eq_or_ne r' r with rfl | e
      · simp
      · simp [e]
    rw [hparent]
    exact (hstand _).trans (h.opened_parent hopen)
  · intro h0
    exact absurd ((hstand _).symm.trans h0) (h.initial_present hpres)
  · intro i hi
    exact h.one_initial fun e => hi ((hstand _).trans e)
  · intro r' t' ht
    have := h.home_implicit fun e => ht ((hstand _).trans e)
    by_cases e : TaskId.implicit r' t' = .implicit r t
    · rw [e] at this ⊢
      simpa using this
    · simpa [e] using this

/-- A barrier end of an implicit task. -/
theorem Sound.barrierEnd (h : o.Sound) {t : ℕ} (hact : o.Acts th (.implicit r t))
    (hlt : (o.task (.implicit r t)).passed < (o.task (.implicit r t)).arrived)
    (hall : o.AllArrived r (o.task (.implicit r t)).arrived) :
    (o.onTask (.implicit r t) fun τ => { τ with passed := τ.passed + 1 }).Sound := by
  have hstand : ∀ σ, ((o.onTask (.implicit r t) fun τ =>
      { τ with passed := τ.passed + 1 }).task σ).standing = (o.task σ).standing := by
    intro σ
    by_cases e : σ = .implicit r t
    · simp [e]
    · simp [e]
  have hpres : (o.task (.implicit r t)).standing ≠ .absent := by simp [hact.2]
  refine ⟨?_, ?_, h.cur_alive, ?_, ?_, ?_, ?_, ?_⟩
  · intro r'
    rcases eq_or_ne r' r with rfl | e
    · rw [team_onTask_self]
      exact (h.team r').pass hact.2 hlt hall
    · rw [team_onTask_of_ne _ fun u e' => e (TaskId.implicit.inj e').1.symm]
      exact h.team r'
  · intro σ hσ
    have hσ' : (o.task σ).standing = .absent := (hstand σ).symm.trans hσ
    have e : σ ≠ .implicit r t := by
      rintro rfl
      exact hpres hσ'
    simpa [e] using h.fresh hσ'
  · intro σ r' hσ
    exact h.forked_region ((hstand σ).symm.trans hσ)
  · intro r' hr'
    exact (hstand _).trans (h.opened_parent hr')
  · intro h0
    exact absurd ((hstand _).symm.trans h0) (h.initial_present hpres)
  · intro i hi
    exact h.one_initial fun e => hi ((hstand _).trans e)
  · intro r' t' ht
    have := h.home_implicit fun e => ht ((hstand _).trans e)
    by_cases e : TaskId.implicit r' t' = .implicit r t
    · rw [e] at this ⊢
      simpa using this
    · simpa [e] using this

/-- A change of the loop counters of an acting task. -/
theorem Sound.loopStep (h : o.Sound) (hact : o.Acts th τ) (hbody : o.InBody τ)
    (f : TaskState → TaskState)
    (hf : ∀ v, (f v).standing = v.standing ∧ (f v).arrived = v.arrived ∧
      (f v).passed = v.passed ∧ (f v).home = v.home) : (o.onTask τ f).Sound := by
  refine h.benign ?_ ?_
  · refine ⟨by simp [hact.2], by simp [hact.2], ?_, (hf _).2.1, (hf _).2.2.1, (hf _).2.2.2,
      fun _ => .inr hbody, fun _ => hbody, ?_⟩
    · rw [(hf _).1, hact.2]
      simp
    · rw [(hf _).1, hact.2]
      intro e
      cases e
  · intro r
    rw [(hf _).1]

theorem Sound.implicitBegin (h : o.Sound) {task : TaskId} {m t : ℕ}
    (ha : o.allows ⟨th, .implicitTask .scopeBegin r task m t⟩ = true) :
    (o.apply ⟨th, .implicitTask .scopeBegin r task m t⟩).Sound := by
  simp only [allows, decide_eq_true_eq] at ha
  obtain ⟨rfl, hopen, hlt, -, habs, hjoin⟩ := ha
  have hpres : (o.task (o.region r).parent).standing ≠ .absent := by
    simp [h.opened_parent hopen]
  have h1 : (o.onTask (.implicit r t) fun _ => { standing := .active, home := some r }).Sound := by
    refine h.create habs rfl (.inl rfl) (.inl (h.initial_present hpres)) (by simp) ?_
    intro r' t' e
    obtain ⟨rfl, rfl⟩ := TaskId.implicit.inj e
    exact ⟨hopen, hlt, rfl⟩
  refine h1.setCur fun _ => ?_
  unfold MayJoin at hjoin
  split at hjoin
  · exact h.cur_alive hjoin.1
  · exact hjoin.1

theorem Sound.taskCreate (h : o.Sound) {parent new : TaskId} {type : TaskType}
    (ha : o.allows ⟨th, .taskCreate parent new type⟩ = true) :
    (o.apply ⟨th, .taskCreate parent new type⟩).Sound := by
  unfold allows at ha
  split at ha <;> rename_i hc <;> try cases hc
  · obtain ⟨rfl, halive, hcur, habs⟩ := of_decide_eq_true ha
    have h1 : (o.onTask (.initial 0) fun _ => { standing := .active }).Sound :=
      h.create habs rfl (.inl rfl) (.inr rfl) (by rintro i ⟨⟩; rfl) (by simp)
    exact h1.setCur fun _ => halive
  · obtain ⟨hact, -, habs⟩ := of_decide_eq_true ha
    exact h.create habs rfl (.inr rfl)
      (.inl (h.initial_present (by simp [hact.2] : (o.task parent).standing ≠ .absent)))
      (by simp) (by simp)
  · cases ha

theorem Sound.syncRegion (h : o.Sound) {kind : SyncKind} {endpoint : Endpoint} {task : TaskId}
    (ha : o.allows ⟨th, .syncRegion kind endpoint r task⟩ = true) :
    (o.apply ⟨th, .syncRegion kind endpoint r task⟩).Sound := by
  cases kind with
  | taskwait => exact h
  | taskgroup => exact h
  | barrier =>
    simp only [allows] at ha
    cases task with
    | initial i => cases endpoint <;> exact h
    | explicit n => cases endpoint <;> cases ha
    | implicit r' t =>
      cases endpoint with
      | scopeBegin =>
        obtain ⟨rfl, hact, hbody, hloop⟩ := of_decide_eq_true ha
        exact h.barrierBegin hact hbody hloop
      | scopeEnd =>
        obtain ⟨rfl, hact, hlt, hall⟩ := of_decide_eq_true ha
        exact h.barrierEnd hact hlt hall

/-- **Every delivered callback keeps the bookkeeping sound.** -/
theorem Sound.apply (h : o.Sound) {e : Event} (ha : o.allows e = true) : (o.apply e).Sound := by
  obtain ⟨th, c⟩ := e
  cases c with
  | threadBegin =>
    -- a new thread executes nothing yet
    exact { h with
      team := h.team
      cur_alive := fun {th' τ} hc => by
        have := h.cur_alive hc
        by_cases e : th' = th
        · simp [Runtime.apply, e]
        · simpa [Runtime.apply, e] using this }
  | threadEnd =>
    -- only a thread that executes nothing may end
    obtain ⟨-, hnone⟩ := of_decide_eq_true ha
    exact { h with
      team := h.team
      cur_alive := fun {th' τ} hc => by
        have := h.cur_alive hc
        have e : th' ≠ th := by
          rintro rfl
          have hc' : o.cur th' = some τ := hc
          rw [hnone] at hc'
          cases hc'
        simpa [Runtime.apply, e] using this }
  | implicitTask endpoint r task m t =>
    cases endpoint with
    | scopeBegin => exact h.implicitBegin ha
    | scopeEnd => exact h.implicitEnd ha
  | parallelBegin parent r q m k => exact h.parallelBegin ha
  | parallelEnd r task => exact h.parallelEnd ha
  | taskCreate parent new type => exact h.taskCreate ha
  | taskSchedule first prior second => exact h.schedule ha
  | syncRegion kind endpoint r task => exact h.syncRegion ha
  | extLoop endpoint task lower upper =>
    cases endpoint with
    | scopeBegin =>
      obtain ⟨-, hact, hbody, -⟩ := of_decide_eq_true ha
      exact h.loopStep hact hbody (fun τ => { τ with inLoop := true })
        fun v => ⟨rfl, rfl, rfl, rfl⟩
    | scopeEnd =>
      obtain ⟨hact, hbody, -⟩ := of_decide_eq_true ha
      exact h.loopStep hact hbody (fun τ => { τ with inLoop := false, loops := τ.loops + 1 })
        fun v => ⟨rfl, rfl, rfl, rfl⟩
  | extChunk task lower upper lastChunk =>
    obtain ⟨hact, hbody, -⟩ := of_decide_eq_true ha
    cases lastChunk with
    | true => exact h
    | false =>
      exact h.loopStep hact hbody (fun τ =>
        { τ with chunks := Function.update τ.chunks τ.loops (τ.chunks τ.loops + 1) })
        fun v => ⟨rfl, rfl, rfl, rfl⟩

/-! ### Rounds and phases -/

/-- The team is the one requested, or there is nothing to confuse: the region
executes a single barrier. -/
def FullTeam (ρ : RegionState) : Prop := ρ.teamSize = ρ.requested ∨ ρ.barriers = 1

/-- While a thread is in its phase `j`, the region has seen all arrivals of the
phases before it and not yet all of phase `j`. -/
theorem Sound.arrivals_phase (h : o.Sound) {t : ℕ}
    (hpres : (o.task (.implicit r t)).standing ≠ .absent) (hbody : o.InBody (.implicit r t)) :
    (o.region r).teamSize * (o.task (.implicit r t)).arrived ≤ (o.region r).arrivals ∧
      (o.region r).arrivals < (o.region r).teamSize * ((o.task (.implicit r t)).arrived + 1) := by
  have hT := h.team r
  have hlt := hT.thread_lt hpres
  set j := (o.task (.implicit r t)).arrived with hj
  -- every thread of the team has begun `j` or `j + 1` barriers, and this one `j`
  have hlow : ∀ u ∈ Finset.range (o.region r).teamSize, j ≤ (o.team r u).arrived := by
    intro u hu
    have := hT.passed_le_arrived t u (Finset.mem_range.mp hu)
    have hb : (o.team r t).passed = j := hbody.1
    omega
  have hhigh : ∀ u, (o.team r u).arrived ≤ j + 1 := by
    intro u
    have h1 := hT.arrived_le u
    have h2 := hT.passed_le_arrived u t hlt
    have hb : (o.team r t).arrived = j := rfl
    omega
  rw [hT.arrivals_eq]
  refine ⟨?_, ?_⟩
  · simpa using Finset.card_nsmul_le_sum (Finset.range (o.region r).teamSize)
      (fun u => (o.team r u).arrived) j hlow
  -- strict, because this thread has not begun barrier `j`
  · have hmem : t ∈ Finset.range (o.region r).teamSize := Finset.mem_range.mpr hlt
    have hstrict : ∑ u ∈ Finset.range (o.region r).teamSize, (o.team r u).arrived
        < ∑ _u ∈ Finset.range (o.region r).teamSize, (j + 1) := by
      refine Finset.sum_lt_sum (fun u _ => hhigh u) ⟨t, hmem, ?_⟩
      have hb : (o.team r t).arrived = j := rfl
      omega
    simpa using hstrict

/-- The tool's round number is the phase number of the arriving thread. -/
theorem Sound.arrivals_div (h : o.Sound) {t : ℕ} (hfull : FullTeam (o.region r))
    (hpres : (o.task (.implicit r t)).standing ≠ .absent) (hbody : o.InBody (.implicit r t)) :
    (o.region r).arrivals / (o.region r).requested = (o.task (.implicit r t)).arrived := by
  have hT := h.team r
  have hstage : (o.region r).stage ≠ .absent := fun e => hpres ((hT.absent e).2 t)
  have hmq := (hT.sizes hstage).2.1
  obtain ⟨hge, hlt⟩ := h.arrivals_phase hpres hbody
  rcases hfull with hfull | hone
  · rw [← hfull]
    refine Nat.div_eq_of_lt_le ?_ ?_
    · rwa [mul_comm]
    · rwa [mul_comm]
  -- with a single barrier the only round is round 0, whatever the team size
  · have hj0 : (o.task (.implicit r t)).arrived = 0 := by
      have := hbody.2
      omega
    rw [hj0] at hlt ⊢
    exact Nat.div_eq_of_lt (by omega)

/-! ### The delivered callbacks, one by one

`Delivers` lists what `allows` lets through, with the guards as premises, so
that an argument about a step splits into the cases that can occur. -/

inductive Delivers (o : Runtime) : Event → Prop
  | threadBegin {th : ThreadId} (hdead : o.alive th = false) : Delivers o ⟨th, .threadBegin⟩
  | threadEnd {th : ThreadId} (halive : o.alive th = true) (hidle : o.cur th = none) :
      Delivers o ⟨th, .threadEnd⟩
  | initial {th : ThreadId} {parent : TaskId} (halive : o.alive th = true) (hidle : o.cur th = none)
      (habs : (o.task (.initial 0)).standing = .absent) :
      Delivers o ⟨th, .taskCreate parent (.initial 0) .initial⟩
  | explicit {th : ThreadId} {parent : TaskId} {n : ℕ} (hact : o.Acts th parent)
      (hbody : o.InBody parent)
      (habs : (o.task (.explicit n)).standing = .absent) :
      Delivers o ⟨th, .taskCreate parent (.explicit n) .explicit⟩
  | schedule {th : ThreadId} {first : TaskId} {prior : TaskStatus} {second : TaskId}
      (hact : o.Acts th first)
      (hmay : o.MayResume th second) (hterm : Terminates prior → first.isExplicit = true) :
      Delivers o ⟨th, .taskSchedule first prior second⟩
  | parallelBegin {th : ThreadId} {parent : TaskId} {r : RegionId} {q m k : ℕ}
      (hact : o.Acts th parent) (hbody : o.InBody parent)
      (habs : (o.region r).stage = .absent) (hm : 1 ≤ m) (hmq : m ≤ q) (hk : 1 ≤ k) :
      Delivers o ⟨th, .parallelBegin parent r q m k⟩
  | parallelEnd {th : ThreadId} {r : RegionId} (hopen : (o.region r).stage = .opened)
      (hcur : o.cur th = some (o.region r).parent)
      (hfork : (o.task (o.region r).parent).standing = .forked r)
      (hdone : (o.task (.implicit r 0)).standing = .done)
      (hall : o.AllArrived r (o.region r).barriers) :
      Delivers o ⟨th, .parallelEnd r (o.region r).parent⟩
  | implicitBegin {th : ThreadId} {r : RegionId} {t : ℕ} (hopen : (o.region r).stage = .opened)
      (hlt : t < (o.region r).teamSize)
      (habs : (o.task (.implicit r t)).standing = .absent) (hjoin : o.MayJoin th r t) :
      Delivers o ⟨th, .implicitTask .scopeBegin r (.implicit r t) (o.region r).teamSize t⟩
  | implicitEnd {th : ThreadId} {r : RegionId} {t m : ℕ} (hact : o.Acts th (.implicit r t))
      (harr : (o.task (.implicit r t)).arrived = (o.region r).barriers)
      (hall : o.AllArrived r (o.region r).barriers) :
      Delivers o ⟨th, .implicitTask .scopeEnd r (.implicit r t) m t⟩
  | barrierBegin {th : ThreadId} {r : RegionId} {t : ℕ} (hact : o.Acts th (.implicit r t))
      (hbody : o.InBody (.implicit r t)) (hloop : (o.task (.implicit r t)).inLoop = false) :
      Delivers o ⟨th, .syncRegion .barrier .scopeBegin r (.implicit r t)⟩
  | barrierEnd {th : ThreadId} {r : RegionId} {t : ℕ} (hact : o.Acts th (.implicit r t))
      (hlt : (o.task (.implicit r t)).passed < (o.task (.implicit r t)).arrived)
      (hall : o.AllArrived r (o.task (.implicit r t)).arrived) :
      Delivers o ⟨th, .syncRegion .barrier .scopeEnd r (.implicit r t)⟩
  | outside {th : ThreadId} {endpoint : Endpoint} {r : RegionId} {i : ℕ}
      (hact : o.Acts th (.initial i))
      (habs : (o.region r).stage = .absent) :
      Delivers o ⟨th, .syncRegion .barrier endpoint r (.initial i)⟩
  | sync {th : ThreadId} {kind : SyncKind} {endpoint : Endpoint} {r : RegionId} {task : TaskId}
      (hact : o.Acts th task) (hbody : o.InBody task)
      (hkind : kind ≠ .barrier) : Delivers o ⟨th, .syncRegion kind endpoint r task⟩
  | loopBegin {th : ThreadId} {τ : TaskId} {lower upper : ℤ} (hexp : τ.isExplicit = false)
      (hact : o.Acts th τ)
      (hbody : o.InBody τ) (hloop : (o.task τ).inLoop = false) :
      Delivers o ⟨th, .extLoop .scopeBegin τ lower upper⟩
  | loopEnd {th : ThreadId} {τ : TaskId} {lower upper : ℤ} (hact : o.Acts th τ) (hbody : o.InBody τ)
      (hloop : (o.task τ).inLoop = true) : Delivers o ⟨th, .extLoop .scopeEnd τ lower upper⟩
  | chunk {th : ThreadId} {τ : TaskId} {lower upper : ℤ} {lastChunk : Bool} (hact : o.Acts th τ)
      (hbody : o.InBody τ)
      (hloop : (o.task τ).inLoop = true) : Delivers o ⟨th, .extChunk τ lower upper lastChunk⟩

theorem delivers_of_allows {e : Event} (ha : o.allows e = true) : o.Delivers e := by
  obtain ⟨th, c⟩ := e
  cases c with
  | threadBegin => exact .threadBegin (of_decide_eq_true ha)
  | threadEnd =>
    obtain ⟨h1, h2⟩ := of_decide_eq_true ha
    exact .threadEnd h1 h2
  | implicitTask endpoint r task m t =>
    cases endpoint with
    | scopeBegin =>
      obtain ⟨rfl, hopen, hlt, rfl, habs, hjoin⟩ := of_decide_eq_true ha
      exact .implicitBegin hopen hlt habs hjoin
    | scopeEnd =>
      obtain ⟨rfl, hact, harr, hall⟩ := of_decide_eq_true ha
      exact .implicitEnd hact harr hall
  | parallelBegin parent r q m k =>
    obtain ⟨hact, hbody, habs, hm, hmq, hk⟩ := of_decide_eq_true ha
    exact .parallelBegin hact hbody habs hm hmq hk
  | parallelEnd r task =>
    obtain ⟨hopen, rfl, hcur, hfork, hdone, hall⟩ := of_decide_eq_true ha
    exact .parallelEnd hopen hcur hfork hdone hall
  | taskCreate parent new type =>
    -- only tasks of the two types that the tool records are delivered
    unfold allows at ha
    split at ha <;> rename_i hc <;> try cases hc
    · obtain ⟨rfl, halive, hcur, habs⟩ := of_decide_eq_true ha
      exact .initial halive hcur habs
    · obtain ⟨hact, hbody, habs⟩ := of_decide_eq_true ha
      exact .explicit hact hbody habs
    · cases ha
  | taskSchedule first prior second =>
    obtain ⟨hact, hmay, hterm⟩ := of_decide_eq_true ha
    exact .schedule hact hmay hterm
  | syncRegion kind endpoint r task =>
    cases kind with
    | taskwait =>
      obtain ⟨hact, hbody⟩ := of_decide_eq_true ha
      exact .sync hact hbody (by simp)
    | taskgroup =>
      obtain ⟨hact, hbody⟩ := of_decide_eq_true ha
      exact .sync hact hbody (by simp)
    | barrier =>
      simp only [allows] at ha
      -- outside a region the initial task may report a barrier, an explicit task never
      cases task with
      | initial i =>
        cases endpoint with
        | scopeBegin =>
          obtain ⟨hact, habs⟩ := of_decide_eq_true ha
          exact .outside hact habs
        | scopeEnd =>
          obtain ⟨hact, habs⟩ := of_decide_eq_true ha
          exact .outside hact habs
      | explicit n => cases endpoint <;> cases ha
      | implicit r' t =>
        cases endpoint with
        | scopeBegin =>
          obtain ⟨rfl, hact, hbody, hloop⟩ := of_decide_eq_true ha
          exact .barrierBegin hact hbody hloop
        | scopeEnd =>
          obtain ⟨rfl, hact, hlt, hall⟩ := of_decide_eq_true ha
          exact .barrierEnd hact hlt hall
  | extLoop endpoint task lower upper =>
    cases endpoint with
    | scopeBegin =>
      obtain ⟨hexp, hact, hbody, hloop⟩ := of_decide_eq_true ha
      exact .loopBegin hexp hact hbody hloop
    | scopeEnd =>
      obtain ⟨hact, hbody, hloop⟩ := of_decide_eq_true ha
      exact .loopEnd hact hbody hloop
  | extChunk task lower upper lastChunk =>
    obtain ⟨hact, hbody, hloop⟩ := of_decide_eq_true ha
    exact .chunk hact hbody hloop

/-! ### Loops -/

/-- A loop that was not begun has had no chunks. -/
def LoopsFresh (v : TaskState) : Prop := ∀ l, v.begun ≤ l → v.chunks l = 0

/-! ### What a callback can do to one task and to one region -/

/-- The changes of a region. -/
inductive RegionChange (o : Runtime) (e : Event) (r : RegionId) : RegionState → Prop
  | same : RegionChange o e r (o.region r)
  | opened {parent : TaskId} {q m k : ℕ} (hcall : e.call = .parallelBegin parent r q m k)
      (habs : (o.region r).stage = .absent) :
      RegionChange o e r
        { stage := .opened, parent := parent, requested := q, teamSize := m, barriers := k,
          depth := o.depthBelow parent }
  | ended (hcall : e.call = .parallelEnd r (o.region r).parent)
      (hopen : (o.region r).stage = .opened) :
      RegionChange o e r { o.region r with stage := .ended }
  | reached {t : ℕ} (hcall : e.call = .syncRegion .barrier .scopeBegin r (.implicit r t))
      (hact : o.Acts e.thread (.implicit r t)) :
      RegionChange o e r { o.region r with arrivals := (o.region r).arrivals + 1 }

/-- The callback gives a new task its record. -/
inductive Creates : Event → TaskId → Prop
  | initial {th : ThreadId} {parent : TaskId} :
      Creates ⟨th, .taskCreate parent (.initial 0) .initial⟩ (.initial 0)
  | explicit {th : ThreadId} {parent : TaskId} {n : ℕ} :
      Creates ⟨th, .taskCreate parent (.explicit n) .explicit⟩ (.explicit n)
  | implicit {th : ThreadId} {r : RegionId} {t m : ℕ} :
      Creates ⟨th, .implicitTask .scopeBegin r (.implicit r t) m t⟩ (.implicit r t)

/-- The callback is the last one of the task. -/
inductive Ends : Event → TaskId → Prop
  | explicit {th : ThreadId} {n : ℕ} {prior : TaskStatus} {second : TaskId}
      (hterm : Terminates prior) :
      Ends ⟨th, .taskSchedule (.explicit n) prior second⟩ (.explicit n)
  | implicit {th : ThreadId} {r : RegionId} {t m : ℕ} :
      Ends ⟨th, .implicitTask .scopeEnd r (.implicit r t) m t⟩ (.implicit r t)

/-- The changes of a task. -/
inductive TaskChange (o : Runtime) (e : Event) (τ : TaskId) : TaskState → Prop
  | same : TaskChange o e τ (o.task τ)
  | created {s : Standing} {hm : Option RegionId} (hcall : Creates e τ)
      (habs : (o.task τ).standing = .absent) (hs : s = .active ∨ s = .ready)
      (hhome : ∀ r, hm = some r → (o.region r).stage = .opened ∨ ∃ σ, (o.task σ).home = some r) :
      TaskChange o e τ { standing := s, home := hm }
  | standing {s : Standing} (hpres : (o.task τ).standing ≠ .absent)
      (hdone : (o.task τ).standing ≠ .done) (hs : s ≠ .absent) (hend : s = .done → Ends e τ) :
      TaskChange o e τ { o.task τ with standing := s }
  | reached {r : RegionId} {t : ℕ} (hτ : τ = .implicit r t)
      (hcall : e.call = .syncRegion .barrier .scopeBegin r (.implicit r t))
      (hact : o.Acts e.thread τ) (hbody : o.InBody τ) (hloop : (o.task τ).inLoop = false) :
      TaskChange o e τ { o.task τ with arrived := (o.task τ).arrived + 1 }
  | left {r : RegionId} {t : ℕ} (hτ : τ = .implicit r t)
      (hcall : e.call = .syncRegion .barrier .scopeEnd r (.implicit r t))
      (hact : o.Acts e.thread τ) (hlt : (o.task τ).passed < (o.task τ).arrived)
      (hall : o.AllArrived r (o.task τ).arrived) :
      TaskChange o e τ { o.task τ with passed := (o.task τ).passed + 1 }
  | loopBegin {lower upper : ℤ} (hact : o.Acts e.thread τ) (hbody : o.InBody τ)
      (hloop : (o.task τ).inLoop = false) (hexp : τ.isExplicit = false)
      (hcall : e.call = .extLoop .scopeBegin τ lower upper) :
      TaskChange o e τ { o.task τ with inLoop := true }
  | loopEnd {lower upper : ℤ} (hact : o.Acts e.thread τ) (hbody : o.InBody τ)
      (hloop : (o.task τ).inLoop = true)
      (hcall : e.call = .extLoop .scopeEnd τ lower upper) :
      TaskChange o e τ { o.task τ with inLoop := false, loops := (o.task τ).loops + 1 }
  | chunk {lower upper : ℤ} (hact : o.Acts e.thread τ) (hbody : o.InBody τ)
      (hloop : (o.task τ).inLoop = true) (hcall : e.call = .extChunk τ lower upper false) :
      TaskChange o e τ { o.task τ with
        chunks := Function.update (o.task τ).chunks (o.task τ).loops
          ((o.task τ).chunks (o.task τ).loops + 1) }

theorem regionChange {e : Event} (ha : o.allows e = true) (r : RegionId) :
    RegionChange o e r ((o.apply e).region r) := by
  cases delivers_of_allows ha with
  | threadBegin => exact .same
  | threadEnd => exact .same
  | initial => exact .same
  | explicit => exact .same
  | schedule => exact .same
  | @parallelBegin _ _ r' _ _ _ _ _ habs =>
    rcases eq_or_ne r r' with rfl | h
    · simpa [Runtime.apply] using RegionChange.opened rfl habs
    · simpa [Runtime.apply, h] using RegionChange.same
  | @parallelEnd _ r' hopen =>
    rcases eq_or_ne r r' with rfl | h
    · simpa [Runtime.apply] using RegionChange.ended rfl hopen
    · simpa [Runtime.apply, h] using RegionChange.same
  | implicitBegin => exact .same
  | implicitEnd => exact .same
  | @barrierBegin _ r' _ hact =>
    rcases eq_or_ne r r' with rfl | h
    · simpa [Runtime.apply] using RegionChange.reached rfl hact
    · simpa [Runtime.apply, h] using RegionChange.same
  | barrierEnd => exact .same
  | @outside _ endpoint => cases endpoint <;> exact .same
  | @sync _ kind _ _ _ _ _ hkind =>
    cases kind with
    | barrier => exact absurd rfl hkind
    | taskwait => exact .same
    | taskgroup => exact .same
  | loopBegin => exact .same
  | loopEnd => exact .same
  | @chunk _ _ _ _ lastChunk => cases lastChunk <;> exact .same

/-- A change of one task that fits the list. -/
theorem TaskChange.update {e : Event} {σ : TaskId} {v : TaskState}
    (h : TaskChange o e σ v) (τ : TaskId) :
    TaskChange o e τ (Function.update o.task σ v τ) := by
  rcases eq_or_ne τ σ with rfl | hτ
  · simpa using h
  · simpa [hτ] using TaskChange.same

theorem taskChange {e : Event} (ha : o.allows e = true) (τ : TaskId) :
    TaskChange o e τ ((o.apply e).task τ) := by
  cases delivers_of_allows ha with
  | threadBegin => exact .same
  | threadEnd => exact .same
  | initial _ _ habs =>
    refine TaskChange.update ?_ τ
    exact .created .initial habs (.inl rfl) (by simp)
  | explicit _ _ habs =>
    refine TaskChange.update ?_ τ
    exact .created .explicit habs (.inr rfl) fun r hr => .inr ⟨_, hr⟩
  | @schedule th first prior second hact hmay hterm =>
    have hsecond : (o.task second).standing ≠ .absent ∧ (o.task second).standing ≠ .done ∧
        second ≠ first := by
      refine ⟨hmay.standing.1, hmay.standing.2.1, ?_⟩
      rintro rfl
      exact hmay.standing.2.2.1 hact.2
    -- the second task may have been suspended anywhere, the first is active on this thread
    rcases eq_or_ne τ second with rfl | h2
    · simpa [Runtime.apply, hsecond.2.2] using
        TaskChange.standing (s := .active) hsecond.1 hsecond.2.1 (by simp) (by simp)
    · rcases eq_or_ne τ first with rfl | h1
      · have hs : (if Terminates prior then Standing.done else .suspended th) ≠ .absent := by
          split <;> simp
        have hend : (if Terminates prior then Standing.done else .suspended th) = .done →
            Ends ⟨th, .taskSchedule τ prior second⟩ τ := by
          intro hd
          have hp : Terminates prior := by
            by_contra hp
            simp [hp] at hd
          -- only an explicit task can be reported complete or cancelled
          have hex := hterm hp
          cases τ with
          | explicit n => exact .explicit hp
          | initial i => cases hex
          | implicit r t => cases hex
        simpa [Runtime.apply, h2] using
          TaskChange.standing (by simp [hact.2]) (by simp [hact.2]) hs hend
      · simpa [Runtime.apply, h1, h2] using TaskChange.same
  | parallelBegin hact =>
    refine TaskChange.update ?_ τ
    exact .standing (by simp [hact.2]) (by simp [hact.2]) (by simp) (by simp)
  | parallelEnd _ _ hfork =>
    refine TaskChange.update ?_ τ
    exact .standing (by simp [hfork]) (by simp [hfork]) (by simp) (by simp)
  | implicitBegin hopen _ habs =>
    refine TaskChange.update ?_ τ
    refine .created .implicit habs (.inl rfl) fun r hr => .inl ?_
    rwa [← Option.some.inj hr]
  | implicitEnd hact =>
    refine TaskChange.update ?_ τ
    exact .standing (by simp [hact.2]) (by simp [hact.2]) (by simp) fun _ => .implicit
  | barrierBegin hact hbody hloop =>
    refine TaskChange.update ?_ τ
    exact .reached rfl rfl hact hbody hloop
  | barrierEnd hact hlt hall =>
    refine TaskChange.update ?_ τ
    exact .left rfl rfl hact hlt hall
  | @outside _ endpoint => cases endpoint <;> exact .same
  | @sync _ kind _ _ _ _ _ hkind =>
    cases kind with
    | barrier => exact absurd rfl hkind
    | taskwait => exact .same
    | taskgroup => exact .same
  | loopBegin hexp hact hbody hloop =>
    refine TaskChange.update ?_ τ
    exact .loopBegin hact hbody hloop hexp rfl
  | loopEnd hact hbody hloop =>
    refine TaskChange.update ?_ τ
    exact .loopEnd hact hbody hloop rfl
  | @chunk _ _ _ _ lastChunk hact hbody hloop =>
    cases lastChunk with
    | true => exact .same
    | false =>
      refine TaskChange.update ?_ τ
      exact .chunk hact hbody hloop rfl

theorem LoopsFresh.apply (h : LoopsFresh (o.task τ)) {e : Event} (ha : o.allows e = true) :
    LoopsFresh ((o.apply e).task τ) := by
  intro l hl
  have hc := taskChange ha τ
  generalize (o.apply e).task τ = v at hc hl
  cases hc with
  | same => exact h l hl
  | created => rfl
  | standing => exact h l hl
  | reached => exact h l hl
  | left => exact h l hl
  | loopBegin _ _ hloop =>
    -- the loop that is begun has had no chunks so far
    refine h l ?_
    simp only [TaskState.begun, hloop, Bool.toNat_true, Bool.toNat_false] at hl ⊢
    omega
  | loopEnd _ _ hloop =>
    refine h l ?_
    simp only [TaskState.begun, hloop, Bool.toNat_true, Bool.toNat_false] at hl ⊢
    omega
  | chunk _ _ hloop =>
    simp only [TaskState.begun, hloop, Bool.toNat_true] at hl
    -- the chunk belongs to the loop that is open, which was begun
    have hne : l ≠ (o.task τ).loops := by omega
    simp only [Function.update_of_ne hne]
    exact h l (by simpa [TaskState.begun, hloop] using hl)

/-- A region keeps what it was begun with. -/
theorem region_apply_fixed {e : Event} (ha : o.allows e = true)
    (hpres : (o.region r).stage ≠ .absent) :
    ((o.apply e).region r).parent = (o.region r).parent ∧
      ((o.apply e).region r).requested = (o.region r).requested ∧
      ((o.apply e).region r).teamSize = (o.region r).teamSize ∧
      ((o.apply e).region r).barriers = (o.region r).barriers ∧
      ((o.apply e).region r).depth = (o.region r).depth := by
  have hc := regionChange ha r
  generalize (o.apply e).region r = ρ at hc
  cases hc with
  | same => simp
  | opened _ habs => exact absurd habs hpres
  | ended => simp
  | reached => simp

/-- A region that is open now was open before, or begins now. -/
theorem opened_of_apply {e : Event} (ha : o.allows e = true)
    (hopen : ((o.apply e).region r).stage = .opened) :
    (o.region r).stage = .opened ∧ ((o.apply e).region r).parent = (o.region r).parent ∨
      ∃ parent q m k, e.call = .parallelBegin parent r q m k ∧ o.Acts e.thread parent ∧
        (o.region r).stage = .absent ∧ ((o.apply e).region r).parent = parent := by
  have hc := regionChange ha r
  generalize (o.apply e).region r = ρ at hc hopen
  cases hc with
  | same => exact .inl ⟨hopen, rfl⟩
  | @opened parent q m k hcall habs =>
    refine .inr ⟨parent, q, m, k, hcall, ?_, habs, rfl⟩
    obtain ⟨th, c⟩ := e
    obtain rfl : c = _ := hcall
    cases delivers_of_allows ha with
    | parallelBegin hact => exact hact
  | ended => cases hopen
  | reached => exact .inl ⟨hopen, rfl⟩

/-- A region or task that exists does not disappear. -/
theorem region_present_apply {e : Event} (ha : o.allows e = true)
    (hpres : (o.region r).stage ≠ .absent) : ((o.apply e).region r).stage ≠ .absent := by
  have hc := regionChange ha r
  generalize (o.apply e).region r = ρ at hc
  cases hc with
  | same => exact hpres
  | opened => simp
  | ended => simp
  | reached => exact hpres

theorem task_present_apply {e : Event} (ha : o.allows e = true)
    (hpres : (o.task τ).standing ≠ .absent) : ((o.apply e).task τ).standing ≠ .absent := by
  have hc := taskChange ha τ
  generalize (o.apply e).task τ = v at hc
  cases hc with
  | created _ _ hs => rcases hs with rfl | rfl <;> simp
  | standing _ _ hs => exact hs
  | _ => exact hpres

/-- A task that has ended does not change any more. -/
theorem task_apply_of_done {e : Event} (ha : o.allows e = true)
    (hdone : (o.task τ).standing = .done) : (o.apply e).task τ = o.task τ := by
  have hc := taskChange ha τ
  generalize (o.apply e).task τ = v at hc
  cases hc with
  | same => rfl
  | created _ habs => simp [hdone] at habs
  | standing _ hnd => exact absurd hdone hnd
  | reached _ _ hact => simp [hact.2] at hdone
  | left _ _ hact => simp [hact.2] at hdone
  | loopBegin hact => simp [hact.2] at hdone
  | loopEnd hact => simp [hact.2] at hdone
  | chunk hact => simp [hact.2] at hdone

/-- A task is done after a callback if it was before, or if this was its end. -/
theorem done_of_apply {e : Event} (ha : o.allows e = true)
    (hdone : ((o.apply e).task τ).standing = .done) :
    (o.task τ).standing = .done ∨
      Ends e τ ∧ (o.task τ).standing ≠ .absent ∧
        (o.apply e).task τ = { o.task τ with standing := .done } := by
  have hc := taskChange ha τ
  generalize (o.apply e).task τ = v at hc hdone
  cases hc with
  | same => exact .inl hdone
  | created _ _ hs =>
    simp only at hdone
    simp [hdone] at hs
  | standing hpres _ _ hend =>
    simp only at hdone
    exact .inr ⟨hend hdone, hpres, by rw [hdone]⟩
  | reached _ _ hact => simp [hact.2] at hdone
  | left _ _ hact => simp [hact.2] at hdone
  | loopBegin hact => simp [hact.2] at hdone
  | loopEnd hact => simp [hact.2] at hdone
  | chunk hact => simp [hact.2] at hdone

end Runtime

end Tdg
