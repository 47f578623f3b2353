/-
TdgTool/Shape.lean

What the role graph looks like in a given state of the runtime.

`Created` says which roles exist, as a function of the bookkeeping alone, and
`newRoles` which ones a callback adds.  `Seat` says which nodes a task can be
at.  `Shaped` collects what holds of the role graph between callbacks: the
nodes are the created ones, the live ones those that were not dropped at the
end of an implicit task, every task is at a node of its own, and a node whose
time has not come (`Pending`: the sink of an open region or loop, or the node
behind a barrier that its thread has not left) has no exits.

Nothing is assumed about team sizes.
-/
import TdgTool.Discipline
import TdgTool.Realize

namespace Tdg

namespace Runtime

variable {o : Runtime} {th : ThreadId} {τ : TaskId} {r : RegionId} {x : Role} {e : Event}

/-! ### The created roles -/

/-- The roles that exist. -/
def Created (o : Runtime) : Role → Prop
  | .root => (o.task (.initial 0)).standing ≠ .absent
  | .exp n => (o.task (.explicit n)).standing ≠ .absent
  | .sink r => (o.region r).stage ≠ .absent
  | .imp r t j => (o.task (.implicit r t)).standing ≠ .absent ∧
      (j = 0 ∨ 1 < (o.region r).requested ∧ j ≤ (o.task (.implicit r t)).arrived)
  | .barrier r i => 1 < (o.region r).requested ∧
      i * (o.region r).requested < (o.region r).arrivals
  | .ws τ l => l < (o.task τ).begun
  | .loopSink τ l => l < (o.task τ).begun
  | .chunk τ l c => c < (o.task τ).chunks l

/-- The roles that a callback creates, in order. -/
def newRoles (o : Runtime) (e : Event) : List Role :=
  match e.call with
  | .taskCreate _ _ .initial => [.root]
  | .taskCreate _ (.explicit n) .explicit => [.exp n]
  | .parallelBegin _ r _ _ _ => [.sink r]
  | .implicitTask .scopeBegin r _ _ threadNum => [.imp r threadNum 0]
  | .syncRegion .barrier .scopeBegin r (.implicit _ t) =>
      if 1 < (o.region r).requested then
        (if (o.region r).arrivals % (o.region r).requested = 0 then
          [.barrier r ((o.region r).arrivals / (o.region r).requested)] else []) ++
        [.imp r t ((o.task (.implicit r t)).arrived + 1)]
      else []
  | .extLoop .scopeBegin τ _ _ => [.ws τ (o.task τ).loops, .loopSink τ (o.task τ).loops]
  | .extChunk τ _ _ lastChunk =>
      if lastChunk then [] else [.chunk τ (o.task τ).loops ((o.task τ).chunks (o.task τ).loops)]
  | _ => []

/-- The two states agree on what `Created` looks at. -/
structure SameProfile (o o' : Runtime) : Prop where
  absent : ∀ τ, (o'.task τ).standing = .absent ↔ (o.task τ).standing = .absent
  arrived : ∀ τ, (o'.task τ).arrived = (o.task τ).arrived
  begun : ∀ τ, (o'.task τ).begun = (o.task τ).begun
  chunks : ∀ τ, (o'.task τ).chunks = (o.task τ).chunks
  stage : ∀ r, (o'.region r).stage = .absent ↔ (o.region r).stage = .absent
  requested : ∀ r, (o'.region r).requested = (o.region r).requested
  arrivals : ∀ r, (o'.region r).arrivals = (o.region r).arrivals

theorem SameProfile.created {o' : Runtime} (h : SameProfile o o') :
    o'.Created x ↔ o.Created x := by
  cases x <;>
    simp only [Created, ne_eq, h.absent, h.arrived, h.begun, h.chunks, h.stage, h.requested,
      h.arrivals]

/-- One task changes, but not in what `Created` looks at. -/
theorem sameProfile_onTask {f : TaskState → TaskState}
    (h1 : (f (o.task τ)).standing = .absent ↔ (o.task τ).standing = .absent)
    (h2 : (f (o.task τ)).arrived = (o.task τ).arrived)
    (h3 : (f (o.task τ)).begun = (o.task τ).begun)
    (h4 : (f (o.task τ)).chunks = (o.task τ).chunks) : SameProfile o (o.onTask τ f) := by
  refine ⟨?_, ?_, ?_, ?_, fun _ => Iff.rfl, fun _ => rfl, fun _ => rfl⟩ <;> intro σ <;>
    by_cases e : σ = τ
  · simpa [e] using h1
  · simp [e]
  · simpa [e] using h2
  · simp [e]
  · simpa [e] using h3
  · simp [e]
  · simpa [e] using h4
  · simp [e]

theorem sameProfile_onRegion {f : RegionState → RegionState}
    (h1 : (f (o.region r)).stage = .absent ↔ (o.region r).stage = .absent)
    (h2 : (f (o.region r)).requested = (o.region r).requested)
    (h3 : (f (o.region r)).arrivals = (o.region r).arrivals) :
    SameProfile o (o.onRegion r f) := by
  refine ⟨fun _ => Iff.rfl, fun _ => rfl, fun _ => rfl, fun _ => rfl, ?_, ?_, ?_⟩ <;>
    intro s <;> by_cases e : s = r
  · simpa [e] using h1
  · simp [e]
  · simpa [e] using h2
  · simp [e]
  · simpa [e] using h3
  · simp [e]

theorem SameProfile.trans {o' o'' : Runtime} (h : SameProfile o o') (h' : SameProfile o' o'') :
    SameProfile o o'' where
  absent σ := (h'.absent σ).trans (h.absent σ)
  arrived σ := (h'.arrived σ).trans (h.arrived σ)
  begun σ := (h'.begun σ).trans (h.begun σ)
  chunks σ := (h'.chunks σ).trans (h.chunks σ)
  stage r := (h'.stage r).trans (h.stage r)
  requested r := (h'.requested r).trans (h.requested r)
  arrivals r := (h'.arrivals r).trans (h.arrivals r)

theorem SameProfile.setCur {o' : Runtime} (h : SameProfile o o') {c : Option TaskId} :
    SameProfile o (o'.setCur th c) :=
  ⟨h.absent, h.arrived, h.begun, h.chunks, h.stage, h.requested, h.arrivals⟩

theorem sameProfile_schedule {first second : TaskId} {prior : TaskStatus}
    (hact : o.Acts th first) (hmay : o.MayResume th second) :
    SameProfile o (o.apply ⟨th, .taskSchedule first prior second⟩) := by
  have hne : second ≠ first := by
    rintro rfl
    exact hmay.standing.2.2.1 hact.2
  have h1 : SameProfile o (o.onTask first fun v =>
      { v with standing := if Terminates prior then .done else .suspended th }) := by
    refine sameProfile_onTask ?_ rfl rfl rfl
    rw [hact.2]
    by_cases hp : Terminates prior <;> simp [hp]
  refine (h1.trans (sameProfile_onTask (τ := second)
    (f := fun v => { v with standing := .active }) ?_ rfl rfl rfl)).setCur
  simp [hne, hmay.standing.1]

theorem created_barrierBegin {t : ℕ} (hact : o.Acts th (.implicit r t))
    (hreq : 1 < (o.region r).requested) :
    (o.apply ⟨th, .syncRegion .barrier .scopeBegin r (.implicit r t)⟩).Created x ↔
      o.Created x ∨ x ∈ o.newRoles ⟨th, .syncRegion .barrier .scopeBegin r (.implicit r t)⟩ := by
  have hpres : (o.task (.implicit r t)).standing ≠ .absent := by simp [hact.2]
  -- one arrival more reaches a new multiple of the team size exactly at a round start
  have hfresh : ∀ i, i * (o.region r).requested < (o.region r).arrivals + 1 ↔
      i * (o.region r).requested < (o.region r).arrivals ∨
        (o.region r).arrivals % (o.region r).requested = 0 ∧
        i = (o.region r).arrivals / (o.region r).requested := by
    intro i
    have hdiv := Nat.div_add_mod (o.region r).arrivals (o.region r).requested
    constructor
    · intro hi
      rcases Nat.lt_succ_iff_lt_or_eq.mp hi with hi | hi
      · exact .inl hi
      · refine .inr ⟨?_, ?_⟩
        · rw [← hi]
          exact Nat.mul_mod_left i _
        · rw [← hi, Nat.mul_div_cancel i (by omega)]
    · rintro (hi | ⟨h0, rfl⟩)
      · omega
      · rw [mul_comm]
        omega
  -- role by role; only the nodes of this thread and the barriers of `r` can change
  cases x with
  | root => simp [Created, Runtime.apply, newRoles, hreq]
  | exp n => simp [Created, Runtime.apply, newRoles, hreq]
  | sink r' =>
    rcases eq_or_ne r' r with rfl | e
    · simp [Created, Runtime.apply, newRoles, hreq]
    · simp [Created, Runtime.apply, newRoles, hreq, e]
  | imp r' t' j =>
    rcases eq_or_ne r' r with rfl | e
    · rcases eq_or_ne t' t with rfl | e'
      · simp only [Created, Runtime.apply, newRoles, hreq]
        simp [hpres]
        omega
      · simp [Created, Runtime.apply, newRoles, hreq, e']
    · simp [Created, Runtime.apply, newRoles, hreq, e]
  | barrier r' i =>
    rcases eq_or_ne r' r with rfl | e
    · simp only [Created, Runtime.apply, newRoles, hreq]
      simp [hreq, hfresh]
    · simp [Created, Runtime.apply, newRoles, hreq, e]
  | ws σ l =>
    rcases eq_or_ne σ (.implicit r t) with rfl | e
    · simp [Created, Runtime.apply, newRoles, hreq, TaskState.begun]
    · simp [Created, Runtime.apply, newRoles, hreq, e]
  | loopSink σ l =>
    rcases eq_or_ne σ (.implicit r t) with rfl | e
    · simp [Created, Runtime.apply, newRoles, hreq, TaskState.begun]
    · simp [Created, Runtime.apply, newRoles, hreq, e]
  | chunk σ l c =>
    rcases eq_or_ne σ (.implicit r t) with rfl | e
    · simp [Created, Runtime.apply, newRoles, hreq]
    · simp [Created, Runtime.apply, newRoles, hreq, e]

/-- A team of one has no barrier nodes, and no nodes behind them. -/
theorem created_barrierBegin_alone {t : ℕ} (hreq : ¬1 < (o.region r).requested) :
    (o.apply ⟨th, .syncRegion .barrier .scopeBegin r (.implicit r t)⟩).Created x ↔
      o.Created x := by
  cases x with
  | imp r' t' j =>
    rcases eq_or_ne r' r with rfl | e
    · by_cases e' : t' = t <;> simp [Created, Runtime.apply, hreq, e']
    · simp [Created, Runtime.apply, e]
  | barrier r' i =>
    rcases eq_or_ne r' r with rfl | e
    · simp [Created, Runtime.apply, hreq]
    · simp [Created, Runtime.apply, e]
  | root => simp [Created, Runtime.apply]
  | exp n => simp [Created, Runtime.apply]
  | sink r' => by_cases e : r' = r <;> simp [Created, Runtime.apply, e]
  | ws σ l =>
    by_cases e : σ = .implicit r t <;> simp [Created, Runtime.apply, TaskState.begun, e]
  | loopSink σ l =>
    by_cases e : σ = .implicit r t <;> simp [Created, Runtime.apply, TaskState.begun, e]
  | chunk σ l c => by_cases e : σ = .implicit r t <;> simp [Created, Runtime.apply, e]

/-- A task appears that did not exist. -/
theorem created_newTask (h : o.Sound) {v : TaskState} (habs : (o.task τ).standing = .absent)
    (hv : v = { standing := v.standing, home := v.home }) (hs : v.standing ≠ .absent) :
    (o.onTask τ fun _ => v).Created x ↔ o.Created x ∨
      match τ with
      | .initial i => i = 0 ∧ x = .root
      | .explicit n => x = .exp n
      | .implicit r t => x = .imp r t 0 := by
  have hold := h.fresh habs
  have hb : v.begun = (o.task τ).begun := by
    rw [hv, hold]
    rfl
  have hc : v.chunks = (o.task τ).chunks := by
    rw [hv, hold]
  have ha : v.arrived = 0 ∧ (o.task τ).arrived = 0 := by
    rw [hv, hold]
    exact ⟨rfl, rfl⟩
  clear hv
  -- `Created` reads four things of a task, and the new one agrees with the absent one in three
  cases x with
  | root =>
    rcases eq_or_ne (TaskId.initial 0) τ with rfl | e
    · simp [Created, hs]
    · simp only [Created, onTask_task, Function.update_of_ne e]
      cases τ <;> simp_all [eq_comm]
  | exp n =>
    rcases eq_or_ne (TaskId.explicit n) τ with rfl | e
    · simp [Created, hs]
    · simp only [Created, onTask_task, Function.update_of_ne e]
      cases τ <;> simp_all
  | sink r => cases τ <;> simp [Created]
  | imp r t j =>
    rcases eq_or_ne (TaskId.implicit r t) τ with rfl | e
    · simp [Created, hs, ha, habs]
    · simp only [Created, onTask_task, Function.update_of_ne e]
      cases τ <;> simp_all
  | barrier r i => cases τ <;> simp [Created]
  | ws σ l =>
    rcases eq_or_ne σ τ with rfl | e
    · cases σ <;> simp [Created, hb]
    · cases τ <;> simp [Created, e]
  | loopSink σ l =>
    rcases eq_or_ne σ τ with rfl | e
    · cases σ <;> simp [Created, hb]
    · cases τ <;> simp [Created, e]
  | chunk σ l c =>
    rcases eq_or_ne σ τ with rfl | e
    · cases σ <;> simp [Created, hc]
    · cases τ <;> simp [Created, e]

theorem created_parallelBegin (h : o.Sound) {parent : TaskId} {q m k : ℕ}
    (hact : o.Acts th parent) (habs : (o.region r).stage = .absent) :
    (o.apply ⟨th, .parallelBegin parent r q m k⟩).Created x ↔ o.Created x ∨ x = .sink r := by
  obtain ⟨hrho, hteam⟩ := (h.team r).absent habs
  have hsame : SameProfile o (o.onTask parent fun v => { v with standing := .forked r }) :=
    sameProfile_onTask (by simp [hact.2]) rfl rfl rfl
  -- the region is new, so nothing of it was counted before
  rw [← hsame.created]
  have hteam' : ∀ t, TaskId.implicit r t ≠ parent := by
    rintro t rfl
    have := hteam t
    simp only [Runtime.team] at this
    rw [hact.2] at this
    cases this
  cases x with
  | sink r' =>
    rcases eq_or_ne r' r with rfl | e
    · simp [Created, Runtime.apply]
    · simp [Created, Runtime.apply, e]
  | imp r' t j =>
    rcases eq_or_ne r' r with rfl | e
    · have := hteam t
      simp only [Runtime.team] at this
      simp [Created, Runtime.apply, hteam', this]
    · simp [Created, Runtime.apply, e]
  | barrier r' i =>
    rcases eq_or_ne r' r with rfl | e
    · simp [Created, Runtime.apply, hrho]
    · simp [Created, Runtime.apply, e]
  | root => simp [Created, Runtime.apply]
  | exp n => simp [Created, Runtime.apply]
  | ws σ l => simp [Created, Runtime.apply]
  | loopSink σ l => simp [Created, Runtime.apply]
  | chunk σ l c => simp [Created, Runtime.apply]

theorem created_loopBegin {lower upper : ℤ} (hloop : (o.task τ).inLoop = false) :
    (o.apply ⟨th, .extLoop .scopeBegin τ lower upper⟩).Created x ↔ o.Created x ∨
      x = .ws τ (o.task τ).loops ∨ x = .loopSink τ (o.task τ).loops := by
  have hstep : ∀ l, l < (o.task τ).loops + 1 ↔ l < (o.task τ).begun ∨ l = (o.task τ).loops := by
    intro l
    simp only [TaskState.begun, hloop, Bool.toNat_false]
    omega
  -- only roles that count the loops of `τ` are affected
  cases x with
  | root =>
    by_cases e : TaskId.initial 0 = τ <;> simp [Created, Runtime.apply, e]
  | exp n =>
    by_cases e : TaskId.explicit n = τ <;> simp [Created, Runtime.apply, e]
  | imp r t j =>
    by_cases e : TaskId.implicit r t = τ <;>
      simp [Created, Runtime.apply, e]
  | sink r => simp [Created, Runtime.apply]
  | barrier r i => simp [Created, Runtime.apply]
  | ws σ l =>
    rcases eq_or_ne σ τ with rfl | e
    · simpa [Created, Runtime.apply, TaskState.begun, Nat.lt_succ_iff] using hstep l
    · simp [Created, Runtime.apply, e]
  | loopSink σ l =>
    rcases eq_or_ne σ τ with rfl | e
    · simpa [Created, Runtime.apply, TaskState.begun, Nat.lt_succ_iff] using hstep l
    · simp [Created, Runtime.apply, e]
  | chunk σ l c =>
    rcases eq_or_ne σ τ with rfl | e
    · simp [Created, Runtime.apply]
    · simp [Created, Runtime.apply, e]

theorem created_chunk {lower upper : ℤ} :
    (o.apply ⟨th, .extChunk τ lower upper false⟩).Created x ↔ o.Created x ∨
      x = .chunk τ (o.task τ).loops ((o.task τ).chunks (o.task τ).loops) := by
  cases x with
  | root =>
    by_cases e : TaskId.initial 0 = τ <;> simp [Created, Runtime.apply, e]
  | exp n =>
    by_cases e : TaskId.explicit n = τ <;> simp [Created, Runtime.apply, e]
  | imp r t j =>
    by_cases e : TaskId.implicit r t = τ <;>
      simp [Created, Runtime.apply, e]
  | sink r => simp [Created, Runtime.apply]
  | barrier r i => simp [Created, Runtime.apply]
  | ws σ l =>
    by_cases e : σ = τ <;> simp [Created, Runtime.apply, TaskState.begun, e]
  | loopSink σ l =>
    by_cases e : σ = τ <;> simp [Created, Runtime.apply, TaskState.begun, e]
  | chunk σ l c =>
    rcases eq_or_ne σ τ with rfl | e
    · rcases eq_or_ne l ((o.task σ).loops) with rfl | e'
      · simp [Created, Runtime.apply]
        omega
      · simp [Created, Runtime.apply, e']
    · simp [Created, Runtime.apply, e]

theorem SameProfile.refl : SameProfile o o :=
  ⟨fun _ => Iff.rfl, fun _ => rfl, fun _ => rfl, fun _ => rfl, fun _ => Iff.rfl, fun _ => rfl,
    fun _ => rfl⟩

@[simp] theorem created_setCur {c : Option TaskId} :
    (o.setCur th c).Created x ↔ o.Created x :=
  SameProfile.refl.setCur.created

@[simp] theorem created_setAlive {b : Bool} : (o.setAlive th b).Created x ↔ o.Created x := by
  cases x <;> rfl

/-- **What a callback creates.** -/
theorem created_apply (h : o.Sound) (ha : o.allows e = true) :
    (o.apply e).Created x ↔ o.Created x ∨ x ∈ o.newRoles e := by
  -- a callback that creates nothing leaves alone whatever `Created` reads
  have hquiet : ∀ {o' : Runtime}, SameProfile o o' → o.newRoles e = [] →
      (o'.Created x ↔ o.Created x ∨ x ∈ o.newRoles e) := by
    intro o' hs hn
    rw [hs.created, hn]
    simp
  cases delivers_of_allows ha with
  | threadBegin => simp [Runtime.apply, newRoles]
  | threadEnd => simp [Runtime.apply, newRoles]
  | initial _ _ habs =>
    simpa [Runtime.apply, newRoles] using
      created_newTask (x := x) h habs (v := { standing := .active }) rfl (by simp)
  | explicit _ _ habs =>
    simpa [Runtime.apply, newRoles] using
      created_newTask (x := x) h habs (v := { standing := .ready, home := _ }) rfl (by simp)
  | schedule hact hmay => exact hquiet (sameProfile_schedule hact hmay) rfl
  | parallelBegin hact _ habs =>
    simpa [newRoles] using created_parallelBegin h hact habs
  | @parallelEnd _ r hopen _ hfork =>
    refine hquiet ?_ rfl
    have h1 : SameProfile o
        (o.onTask (o.region r).parent fun v => { v with standing := .active }) :=
      sameProfile_onTask (by simp [hfork]) rfl rfl rfl
    refine h1.trans (sameProfile_onRegion (r := r) (f := fun ρ => { ρ with stage := .ended })
      ?_ rfl rfl)
    simp [hopen]
  | implicitBegin _ _ habs =>
    simpa [Runtime.apply, newRoles] using
      created_newTask (x := x) h habs (v := { standing := .active, home := _ }) rfl (by simp)
  | @implicitEnd _ r t _ hact =>
    refine hquiet (SameProfile.setCur ?_) rfl
    refine sameProfile_onTask ?_ rfl rfl rfl
    simp [hact.2]
  | @barrierBegin _ r t hact hbody =>
    -- a team of one skips its barriers
    by_cases hreq : 1 < (o.region r).requested
    · exact created_barrierBegin hact hreq
    · rw [created_barrierBegin_alone hreq]
      simp [newRoles, hreq]
  | barrierEnd hact =>
    refine hquiet ?_ rfl
    exact sameProfile_onTask (f := fun v => { v with passed := v.passed + 1 }) Iff.rfl rfl rfl rfl
  | @outside _ endpoint => cases endpoint <;> exact hquiet .refl rfl
  | @sync _ kind _ _ _ _ _ hkind =>
    cases kind with
    | barrier => exact absurd rfl hkind
    | taskwait => exact hquiet .refl rfl
    | taskgroup => exact hquiet .refl rfl
  | loopBegin _ _ _ hloop => simpa [newRoles] using created_loopBegin hloop
  | @loopEnd _ τ _ _ hact _ hloop =>
    refine hquiet ?_ rfl
    refine sameProfile_onTask (f := fun v => { v with inLoop := false, loops := v.loops + 1 })
      Iff.rfl rfl ?_ rfl
    -- the loop that was begun becomes a finished one, the sum stays
    simp [TaskState.begun, hloop]
  | @chunk _ τ _ _ lastChunk =>
    cases lastChunk with
    | true => exact hquiet .refl rfl
    | false => simpa [newRoles] using created_chunk

/-- The roles a callback creates are new. -/
theorem newRoles_fresh (ha : o.allows e = true) (hx : x ∈ o.newRoles e) :
    ¬o.Created x := by
  cases delivers_of_allows ha with
  | threadBegin => cases hx
  | threadEnd => cases hx
  | initial _ _ habs =>
    obtain rfl : x = .root := by simpa [newRoles] using hx
    simpa [Created] using habs
  | @explicit _ _ n _ _ habs =>
    obtain rfl : x = .exp n := by simpa [newRoles] using hx
    simpa [Created] using habs
  | schedule => cases hx
  | @parallelBegin _ _ r _ _ _ _ _ habs =>
    obtain rfl : x = .sink r := by simpa [newRoles] using hx
    simpa [Created] using habs
  | parallelEnd => cases hx
  | @implicitBegin _ r t _ _ habs =>
    obtain rfl : x = .imp r t 0 := by simpa [newRoles] using hx
    simp [Created, habs]
  | implicitEnd => cases hx
  | @barrierBegin _ r t hact hbody =>
    simp only [newRoles] at hx
    -- a new round starts with as many arrivals as the rounds before it have places
    split_ifs at hx with hreq h0
    · rcases List.mem_append.mp hx with hx | hx
      · rw [List.mem_singleton.mp hx]
        rintro ⟨-, hlt⟩
        have := Nat.div_mul_cancel (Nat.dvd_of_mod_eq_zero h0)
        omega
      · rw [List.mem_singleton.mp hx]
        rintro ⟨-, hj | ⟨-, hj⟩⟩
        · omega
        · omega
    · simp only [List.nil_append, List.mem_singleton] at hx
      rw [hx]
      rintro ⟨-, hj | ⟨-, hj⟩⟩
      · omega
      · omega
    · cases hx
  | barrierEnd => cases hx
  | @outside _ endpoint => cases endpoint <;> cases hx
  | @sync _ kind _ _ _ _ _ hkind =>
    cases kind with
    | barrier => exact absurd rfl hkind
    | taskwait => cases hx
    | taskgroup => cases hx
  | @loopBegin _ τ _ _ _ _ _ hloop =>
    simp only [newRoles, List.mem_cons, List.not_mem_nil, or_false] at hx
    rcases hx with rfl | rfl <;> simp [Created, TaskState.begun, hloop]
  | loopEnd => cases hx
  | @chunk _ τ _ _ lastChunk =>
    cases lastChunk with
    | true => cases hx
    | false =>
      obtain rfl : x = .chunk τ _ _ := by simpa [newRoles] using hx
      simp [Created]

/-! ### Where tasks are, and what is pending -/

/-- An implicit task's record is deleted when it ends; the others stay. -/
def HasData (o : Runtime) : TaskId → Prop
  | .implicit r t => (o.task (.implicit r t)).standing ≠ .absent ∧
      (o.task (.implicit r t)).standing ≠ .done
  | τ => (o.task τ).standing ≠ .absent

/-- The node behind the last barrier is dropped when its task ends. -/
def Dropped (o : Runtime) : Role → Prop
  | .imp r t j => (o.task (.implicit r t)).standing = .done ∧ 1 < (o.region r).requested ∧
      j = (o.task (.implicit r t)).arrived
  | _ => False

/-- The nodes that can be the current one of a task. -/
def Seat (o : Runtime) (τ : TaskId) : Role → Prop
  | .root => τ = .initial 0
  | .exp n => τ = .explicit n
  | .sink r => (o.region r).stage = .ended ∧ (o.region r).parent = τ
  | .imp r t j => τ = .implicit r t ∧
      (1 < (o.region r).requested → j = (o.task (.implicit r t)).arrived)
  | .loopSink σ l => σ = τ ∧ l < (o.task τ).loops
  | _ => False

/-- The thread is at a barrier, or behind its last one. -/
def Waiting (o : Runtime) (r : RegionId) (t : ℕ) : Prop :=
  1 < (o.region r).requested ∧ 1 ≤ (o.task (.implicit r t)).arrived ∧ ¬o.InBody (.implicit r t)

/-- A node that was created ahead of its time. -/
def Pending (o : Runtime) : Role → Prop
  | .sink r => (o.region r).stage = .opened
  | .loopSink τ l => (o.task τ).inLoop = true ∧ l = (o.task τ).loops
  | .imp r t j => o.Waiting r t ∧ j = (o.task (.implicit r t)).arrived
  | _ => False

theorem hasData_of_present (h1 : (o.task τ).standing ≠ .absent)
    (h2 : (o.task τ).standing ≠ .done) : o.HasData τ := by
  cases τ with
  | implicit r t => exact ⟨h1, h2⟩
  | initial i => exact h1
  | explicit n => exact h1

theorem hasData_of_active (h : (o.task τ).standing = .active) : o.HasData τ :=
  hasData_of_present (by simp [h]) (by simp [h])

theorem hasData_of_forked (h : (o.task τ).standing = .forked r) : o.HasData τ :=
  hasData_of_present (by simp [h]) (by simp [h])

theorem HasData.present (h : o.HasData τ) : (o.task τ).standing ≠ .absent := by
  cases τ with
  | implicit r t => exact h.1
  | initial i => exact h
  | explicit n => exact h

/-- A task with a record is not at a dropped node. -/
theorem Seat.not_dropped (hs : o.Seat τ x) (hd : o.HasData τ) : ¬o.Dropped x := by
  cases x with
  | imp r t j =>
    obtain ⟨rfl, -⟩ := hs
    exact fun hdrop => hd.2 hdrop.1
  | _ => exact id

/-- A task in its body is not at a pending node. -/
theorem Seat.not_pending (h : o.Seat τ x) (hbody : o.InBody τ) : ¬o.Pending x := by
  cases x with
  | root => exact id
  | exp n => exact id
  | sink r =>
    intro hp
    have := h.1
    simp only [Pending] at hp
    rw [hp] at this
    cases this
  | imp r t j =>
    obtain ⟨rfl, -⟩ := h
    exact fun hp => hp.1.2.2 hbody
  | barrier r i => exact id
  | ws σ l => exact id
  | loopSink σ l =>
    obtain ⟨rfl, hl⟩ := h
    rintro ⟨-, rfl⟩
    omega
  | chunk σ l c => exact id

theorem Sound.region_present (h : o.Sound) {t : ℕ}
    (hpres : (o.task (.implicit r t)).standing ≠ .absent) : (o.region r).stage ≠ .absent :=
  fun hr => hpres (((h.team r).absent hr).2 t)

/-- A task that waits for a region is in its body. -/
theorem Sound.forked_inBody (h : o.Sound) (hf : (o.task τ).standing = .forked r) :
    o.InBody τ := by
  cases τ with
  | implicit r' t => exact (h.team r').forked_body hf
  | initial i => trivial
  | explicit n => trivial

/-- A task inside a loop is in its body. -/
theorem Sound.inLoop_inBody (h : o.Sound) (hl : (o.task τ).inLoop = true) : o.InBody τ := by
  cases τ with
  | implicit r' t => exact (h.team r').inLoop_body hl
  | initial i => trivial
  | explicit n => trivial

/-- An implicit task that ends is not inside a loop. -/
theorem Sound.outside_of_arrived (h : o.Sound) {t : ℕ}
    (harr : (o.task (.implicit r t)).arrived = (o.region r).barriers) :
    (o.task (.implicit r t)).inLoop = false := by
  rcases hin : (o.task (.implicit r t)).inLoop with - | -
  · rfl
  · have hb := h.inLoop_inBody hin
    have hlt : (o.task (.implicit r t)).arrived < (o.region r).barriers := hb.2
    omega

/-- While its first thread executes it, a region is open. -/
theorem Sound.opened_of_zero (h : o.Sound) (hact : (o.task (.implicit r 0)).standing = .active) :
    (o.region r).stage = .opened := by
  rcases hs : (o.region r).stage with - | - | -
  · exact absurd hs (h.region_present (by rw [hact]; simp))
  · rfl
  · have hdone : (o.task (.implicit r 0)).standing = .done := (h.team r).ended_done hs
    rw [hact] at hdone
    cases hdone

/-- A region with a thread in its body is open. -/
theorem Sound.inBody_opened (h : o.Sound) {t : ℕ}
    (hpres : (o.task (.implicit r t)).standing ≠ .absent) (hb : o.InBody (.implicit r t)) :
    (o.region r).stage = .opened := by
  have hT := h.team r
  rcases hs : (o.region r).stage with - | - | -
  · exact absurd hs (h.region_present hpres)
  · rfl
  · have := hT.done_arrived (hT.ended_done hs) t (hT.thread_lt hpres)
    have hlt := hb.2
    simp only [Runtime.team] at this
    omega

/-- Nothing becomes pending after its creation. -/
theorem pending_of_apply (h : o.Sound) (ha : o.allows e = true) (hx : o.Created x)
    (hp : (o.apply e).Pending x) : o.Pending x := by
  -- a sink is pending from its creation on, so only the changes away from it matter
  cases x with
  | root => exact hp
  | exp n => exact hp
  | barrier r i => exact hp
  | ws τ l => exact hp
  | chunk τ l c => exact hp
  | sink r =>
    simp only [Pending] at hp ⊢
    have hc := regionChange ha r
    generalize (o.apply e).region r = ρ at hc hp
    cases hc with
    | same => exact hp
    | opened _ habs => exact absurd habs hx
    | ended => cases hp
    | reached => exact hp
  | loopSink τ l =>
    simp only [Pending, Created] at hp hx ⊢
    have hc := taskChange ha τ
    generalize (o.apply e).task τ = v at hc hp
    cases hc with
    | same => exact hp
    | created => cases hp.1
    | standing => exact hp
    | reached => exact hp
    | left => exact hp
    | loopBegin _ _ hloop =>
      simp only [TaskState.begun, hloop, Bool.toNat_false] at hx
      have := hp.2
      simp only at this
      omega
    | loopEnd => cases hp.1
    | chunk => exact hp
  | imp r t j =>
    obtain ⟨⟨hreq, harr, hbody⟩, rfl⟩ := hp
    obtain ⟨hpres, hj⟩ := hx
    -- the size and the barriers of the region are fixed, so the task alone decides
    obtain ⟨-, hq, -, hk, -⟩ := region_apply_fixed ha (h.region_present hpres)
    simp only [Pending, Waiting, InBody, hq, hk] at hreq hbody ⊢
    have hc := taskChange ha (.implicit r t)
    generalize (o.apply e).task (.implicit r t) = v at hc harr hbody hj
    cases hc with
    | same => exact ⟨⟨hreq, harr, hbody⟩, rfl⟩
    | created _ habs => exact absurd habs hpres
    | standing => exact ⟨⟨hreq, harr, hbody⟩, rfl⟩
    | reached => simp at hj
    | left _ _ _ hlt => exact ⟨⟨hreq, harr, fun hb => by omega⟩, rfl⟩
    | loopBegin => exact ⟨⟨hreq, harr, hbody⟩, rfl⟩
    | loopEnd => exact ⟨⟨hreq, harr, hbody⟩, rfl⟩
    | chunk => exact ⟨⟨hreq, harr, hbody⟩, rfl⟩

/-! ### Who moves -/

/-- The task that a callback moves to another node, and that node. -/
def newCur (o : Runtime) (e : Event) : Option (TaskId × Role) :=
  match e.call with
  | .taskCreate _ τ .initial => some (τ, .root)
  | .taskCreate _ (.explicit n) .explicit => some (.explicit n, .exp n)
  | .implicitTask .scopeBegin r _ _ threadNum => some (.implicit r threadNum, .imp r threadNum 0)
  | .parallelEnd r τ => some (τ, .sink r)
  | .syncRegion .barrier .scopeBegin r (.implicit _ t) =>
      if 1 < (o.region r).requested then
        some (.implicit r t, .imp r t ((o.task (.implicit r t)).arrived + 1))
      else none
  | .extLoop .scopeEnd τ _ _ => some (τ, .loopSink τ (o.task τ).loops)
  | _ => none

/-- The task whose barrier a callback sets. -/
def newBar (o : Runtime) (e : Event) : Option (TaskId × Option Role) :=
  match e.call with
  | .implicitTask .scopeBegin r _ _ threadNum => some (.implicit r threadNum, none)
  | .syncRegion .barrier .scopeBegin r (.implicit _ t) =>
      if 1 < (o.region r).requested then
        some (.implicit r t,
          some (.barrier r ((o.region r).arrivals / (o.region r).requested)))
      else none
  | _ => none

/-- The callbacks that move a task, with what they require, and its new node. -/
inductive Moves (o : Runtime) : Event → TaskId → Role → Prop
  | initial {th : ThreadId} {parent : TaskId} (habs : (o.task (.initial 0)).standing = .absent) :
      Moves o ⟨th, .taskCreate parent (.initial 0) .initial⟩ (.initial 0) .root
  | explicit {th : ThreadId} {parent : TaskId} {n : ℕ}
      (habs : (o.task (.explicit n)).standing = .absent) :
      Moves o ⟨th, .taskCreate parent (.explicit n) .explicit⟩ (.explicit n) (.exp n)
  | implicitBegin {th : ThreadId} {r : RegionId} {t : ℕ}
      (habs : (o.task (.implicit r t)).standing = .absent) :
      Moves o ⟨th, .implicitTask .scopeBegin r (.implicit r t) (o.region r).teamSize t⟩
        (.implicit r t) (.imp r t 0)
  | parallelEnd {th : ThreadId} {r : RegionId} (hopen : (o.region r).stage = .opened)
      (hfork : (o.task (o.region r).parent).standing = .forked r) :
      Moves o ⟨th, .parallelEnd r (o.region r).parent⟩ (o.region r).parent (.sink r)
  | barrierBegin {th : ThreadId} {r : RegionId} {t : ℕ} (hact : o.Acts th (.implicit r t))
      (hloop : (o.task (.implicit r t)).inLoop = false) (hreq : 1 < (o.region r).requested) :
      Moves o ⟨th, .syncRegion .barrier .scopeBegin r (.implicit r t)⟩ (.implicit r t)
        (.imp r t ((o.task (.implicit r t)).arrived + 1))
  | loopEnd {th : ThreadId} {τ : TaskId} {lower upper : ℤ} (hact : o.Acts th τ)
      (hbody : o.InBody τ) (hloop : (o.task τ).inLoop = true) :
      Moves o ⟨th, .extLoop .scopeEnd τ lower upper⟩ τ (.loopSink τ (o.task τ).loops)

theorem moves_of_newCur (ha : o.allows e = true) (hn : o.newCur e = some (τ, x)) :
    Moves o e τ x := by
  cases delivers_of_allows ha with
  | initial _ _ habs =>
    obtain ⟨rfl, rfl⟩ := Prod.mk.inj (Option.some.inj hn)
    exact .initial habs
  | explicit _ _ habs =>
    obtain ⟨rfl, rfl⟩ := Prod.mk.inj (Option.some.inj hn)
    exact .explicit habs
  | implicitBegin _ _ habs =>
    obtain ⟨rfl, rfl⟩ := Prod.mk.inj (Option.some.inj hn)
    exact .implicitBegin habs
  | parallelEnd hopen _ hfork =>
    obtain ⟨rfl, rfl⟩ := Prod.mk.inj (Option.some.inj hn)
    exact .parallelEnd hopen hfork
  | barrierBegin hact _ hloop =>
    -- only a team of more than one thread has barrier nodes
    simp only [newCur] at hn
    split_ifs at hn with hreq
    obtain ⟨rfl, rfl⟩ := Prod.mk.inj (Option.some.inj hn)
    exact .barrierBegin hact hloop hreq
  | loopEnd hact hbody hloop =>
    obtain ⟨rfl, rfl⟩ := Prod.mk.inj (Option.some.inj hn)
    exact .loopEnd hact hbody hloop
  | @outside _ endpoint => cases endpoint <;> cases hn
  | @sync _ kind _ _ _ _ _ hkind =>
    cases kind with
    | barrier => exact absurd rfl hkind
    | taskwait => cases hn
    | taskgroup => cases hn
  | _ => cases hn

/-- The node a task is moved to is one of its own. -/
theorem seat_new (h : o.Sound) (ha : o.allows e = true) (hn : o.newCur e = some (τ, x)) :
    (o.apply e).Created x ∧ (o.apply e).Seat τ x := by
  have hcr : o.Created x ∨ x ∈ o.newRoles e → (o.apply e).Created x := (created_apply h ha).mpr
  cases moves_of_newCur ha hn with
  | initial => exact ⟨hcr (.inr (by simp [newRoles])), rfl⟩
  | explicit => exact ⟨hcr (.inr (by simp [newRoles])), rfl⟩
  | implicitBegin => exact ⟨hcr (.inr (by simp [newRoles])), rfl, by simp [Runtime.apply]⟩
  | parallelEnd hopen =>
    exact ⟨hcr (.inl (by simp [Created, hopen])), by simp [Seat, Runtime.apply]⟩
  | barrierBegin _ _ hreq =>
    exact ⟨hcr (.inr (by simp [newRoles, hreq])), rfl, by simp [Runtime.apply]⟩
  | loopEnd _ _ hloop =>
    exact ⟨hcr (.inl (by simp [Created, TaskState.begun, hloop])), rfl, by simp [Runtime.apply]⟩

theorem newCur_of_creates {e : Event} (hc : Creates e τ) : ∃ x, o.newCur e = some (τ, x) := by
  cases hc with
  | initial => exact ⟨_, rfl⟩
  | explicit => exact ⟨_, rfl⟩
  | implicit => exact ⟨_, rfl⟩

/-- A task that has a record now and was not created had one before. -/
theorem hasData_of_apply (ha : o.allows e = true) (hd : (o.apply e).HasData τ)
    (hn : ¬Creates e τ) : o.HasData τ := by
  have hc := taskChange ha τ
  have key : ∀ v, TaskChange o e τ v → v.standing ≠ .absent →
      (o.task τ).standing ≠ .absent ∧ (v.standing ≠ .done → (o.task τ).standing ≠ .done) := by
    intro v hv hpres
    cases hv with
    | same => exact ⟨hpres, id⟩
    | created hcr => exact absurd hcr hn
    | standing hold hdone => exact ⟨hold, fun _ => hdone⟩
    | reached => exact ⟨hpres, id⟩
    | left => exact ⟨hpres, id⟩
    | loopBegin => exact ⟨hpres, id⟩
    | loopEnd => exact ⟨hpres, id⟩
    | chunk => exact ⟨hpres, id⟩
  -- only an implicit task loses its record when it is done
  cases τ with
  | implicit r t => exact ⟨(key _ hc hd.1).1, (key _ hc hd.1).2 hd.2⟩
  | initial i => exact (key _ hc hd).1
  | explicit n => exact (key _ hc hd).1

theorem not_creates_of_not_moved (hn : ∀ x, o.newCur e ≠ some (τ, x)) : ¬Creates e τ :=
  fun hc => absurd (newCur_of_creates hc).choose_spec (hn _)

/-- The number of barriers a task has reached grows only at a barrier. -/
theorem arrived_apply (ha : o.allows e = true) (hpres : (o.task τ).standing ≠ .absent) :
    ((o.apply e).task τ).arrived = (o.task τ).arrived ∨
      ∃ r t, τ = .implicit r t ∧ e.call = .syncRegion .barrier .scopeBegin r (.implicit r t) ∧
        ((o.apply e).task τ).arrived = (o.task τ).arrived + 1 := by
  have hc := taskChange ha τ
  generalize (o.apply e).task τ = v at hc
  cases hc with
  | created _ habs => exact absurd habs hpres
  | reached hτ hcall => exact .inr ⟨_, _, hτ, hcall, rfl⟩
  | _ => exact .inl rfl

/-- A task that is not moved reaches no barrier of a team. -/
theorem arrived_of_not_moved (ha : o.allows e = true) (hpres : (o.task τ).standing ≠ .absent)
    (hn : ∀ x, o.newCur e ≠ some (τ, x)) {t : ℕ} (hτ : τ = .implicit r t)
    (hreq : 1 < (o.region r).requested) :
    ((o.apply e).task τ).arrived = (o.task τ).arrived := by
  rcases arrived_apply ha hpres with h | ⟨r', t', hτ', hcall, -⟩
  · exact h
  · subst hτ
    obtain ⟨rfl, rfl⟩ := TaskId.implicit.inj hτ'
    refine absurd ?_ (hn (.imp r t ((o.task (.implicit r t)).arrived + 1)))
    simp [newCur, hcall, hreq]

theorem loops_le_apply (ha : o.allows e = true) (hpres : (o.task τ).standing ≠ .absent) :
    (o.task τ).loops ≤ ((o.apply e).task τ).loops := by
  have hc := taskChange ha τ
  generalize (o.apply e).task τ = v at hc
  cases hc with
  | created _ habs => exact absurd habs hpres
  | loopEnd => simp
  | _ => exact le_rfl

theorem ended_apply (ha : o.allows e = true) (hend : (o.region r).stage = .ended) :
    ((o.apply e).region r).stage = .ended := by
  have hc := regionChange ha r
  generalize (o.apply e).region r = ρ at hc
  cases hc with
  | same => exact hend
  | opened _ habs => simp [hend] at habs
  | ended => rfl
  | reached => exact hend

/-- A task that is not moved keeps its seat. -/
theorem seat_keep (h : o.Sound) (ha : o.allows e = true) (hd : o.HasData τ)
    (hn : ∀ x, o.newCur e ≠ some (τ, x)) (hs : o.Seat τ x) : (o.apply e).Seat τ x := by
  -- a seat is given up by being moved only, so it is enough that its condition is monotone
  cases x with
  | root => exact hs
  | exp n => exact hs
  | sink r =>
    have hpres : (o.region r).stage ≠ .absent := by simp [hs.1]
    exact ⟨ended_apply ha hs.1, (region_apply_fixed ha hpres).1.trans hs.2⟩
  | imp r t j =>
    obtain ⟨rfl, hj⟩ := hs
    refine ⟨rfl, fun hreq => ?_⟩
    rw [(region_apply_fixed ha (h.region_present hd.present)).2.1] at hreq
    rw [arrived_of_not_moved ha hd.present hn rfl hreq]
    exact hj hreq
  | loopSink σ l =>
    obtain ⟨rfl, hl⟩ := hs
    exact ⟨rfl, hl.trans_le (loops_le_apply ha hd.present)⟩
  | barrier r i => exact hs
  | ws σ l => exact hs
  | chunk σ l c => exact hs

end Runtime

end Tdg
