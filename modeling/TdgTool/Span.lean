/-
TdgTool/Span.lean

The critical path against the clock.

A program of parallel regions, barriers and loops, without explicit tasks,
cannot be switched away from a task (`NoTasks`), so all its callbacks are
careful.  Then whatever is charged to a node comes before what is charged to the
nodes behind it, and the intervals along a path follow one another.  The charge
of `finalize_libtdg` is the last one on the node of the initial task
(`Homeward`), which nothing that was charged lies behind.

The bound is that of exact sums.  Doubles round, and `teamOfOne_span_exceeds` is
a run on which they round up.
-/
import TdgTool.Measured
import TdgTool.Precedence
import TdgTool.Rounding

namespace Tdg

namespace Runtime

variable {o : Runtime} {e : Event} {τ : TaskId} {r : RegionId}

/-! ### Programs without explicit tasks -/

/-- A callback of a program that creates no explicit task and executes its loops
inside regions. -/
def forkJoin (e : Event) : Bool :=
  match e.call with
  | .taskCreate _ _ .explicit => false
  | .extLoop _ (.initial _) _ _ => false
  | _ => true

/-- No task can be scheduled, and the initial task is not inside a loop. -/
structure NoTasks (o : Runtime) : Prop where
  ready : ∀ τ, (o.task τ).standing ≠ .ready
  suspended : ∀ τ, (o.task τ).standing.isSuspended = false
  explicit : ∀ n, (o.task (.explicit n)).standing = .absent
  outside : (o.task (.initial 0)).inLoop = false

theorem noTasks_init : NoTasks Runtime.init where
  ready := fun _ hs => by cases hs
  suspended := fun _ => rfl
  explicit := fun _ => rfl
  outside := rfl

theorem NoTasks.not_may_resume (h : NoTasks o) {th : ThreadId} : ¬o.MayResume th τ := by
  rintro (hs | hs | ⟨-, hs⟩)
  · exact h.ready τ hs
  · have hf := h.suspended τ
    rw [hs] at hf
    cases hf
  · rw [h.suspended τ] at hs
    cases hs

theorem NoTasks.no_schedule (h : NoTasks o) (ha : o.allows e = true) {first second : TaskId}
    {prior : TaskStatus} : e.call ≠ .taskSchedule first prior second := by
  intro hcall
  cases delivers_of_allows ha with
  | schedule _ hmay => exact h.not_may_resume hmay
  | _ => cases hcall

theorem NoTasks.apply (h : NoTasks o) (ha : o.allows e = true) (he : forkJoin e = true) :
    NoTasks (o.apply e) := by
  -- what the standing of a task can become when nobody is switched away from
  have hstand : ∀ τ, newStanding o e τ = (o.task τ).standing ∨
      newStanding o e τ = .active ∧ (∀ n, τ = .explicit n → (o.task τ).standing ≠ .absent) ∨
      newStanding o e τ = .done ∧ (o.task τ).standing ≠ .absent ∨
      ∃ r, newStanding o e τ = .forked r ∧ (o.task τ).standing ≠ .absent := by
    intro τ
    cases delivers_of_allows ha with
    | explicit => cases he
    | schedule _ hmay => exact absurd hmay h.not_may_resume
    | initial =>
      simp only [newStanding]
      split_ifs with hτ
      · exact .inr (.inl ⟨rfl, by simp [hτ]⟩)
      · exact .inl rfl
    | parallelBegin hact =>
      simp only [newStanding]
      split_ifs with hτ
      · exact .inr (.inr (.inr ⟨_, rfl, by simp [hτ, hact.2]⟩))
      · exact .inl rfl
    | parallelEnd _ _ hfork =>
      simp only [newStanding]
      split_ifs with hτ
      · exact .inr (.inl ⟨rfl, fun n _ => by simp [hτ, hfork]⟩)
      · exact .inl rfl
    | implicitBegin =>
      simp only [newStanding]
      split_ifs with hτ
      · exact .inr (.inl ⟨rfl, by simp [hτ]⟩)
      · exact .inl rfl
    | implicitEnd hact =>
      simp only [newStanding]
      split_ifs with hτ
      · exact .inr (.inr (.inl ⟨rfl, by simp [hτ, hact.2]⟩))
      · exact .inl rfl
    | @outside _ endpoint => cases endpoint <;> exact .inl rfl
    | @sync _ kind _ _ _ _ _ hkind =>
      cases kind with
      | barrier => exact absurd rfl hkind
      | taskwait => exact .inl rfl
      | taskgroup => exact .inl rfl
    | _ => exact .inl rfl
  refine ⟨fun τ hs => ?_, fun τ => ?_, fun n => ?_, ?_⟩
  · rw [standing_apply ha] at hs
    rcases hstand τ with heq | ⟨heq, -⟩ | ⟨heq, -⟩ | ⟨r, heq, -⟩
    · exact h.ready τ (heq.symm.trans hs)
    all_goals
      rw [heq] at hs
      cases hs
  · rw [standing_apply ha]
    rcases hstand τ with heq | ⟨heq, -⟩ | ⟨heq, -⟩ | ⟨r, heq, -⟩
    · rw [heq]
      exact h.suspended τ
    all_goals
      rw [heq]
      rfl
  · rw [standing_apply ha]
    rcases hstand (.explicit n) with heq | ⟨-, hne⟩ | ⟨-, hne⟩ | ⟨r, -, hne⟩
    · exact heq.trans (h.explicit n)
    · exact absurd (h.explicit n) (hne n rfl)
    · exact absurd (h.explicit n) hne
    · exact absurd (h.explicit n) hne
  · have ht := taskChange ha (.initial 0)
    generalize (o.apply e).task (.initial 0) = v at ht
    cases ht with
    | created => rfl
    -- the initial task executes no loop: this is part of `forkJoin`
    | loopBegin _ _ _ _ hcall => simp [forkJoin, hcall] at he
    | loopEnd => rfl
    | _ => exact h.outside

end Runtime

namespace RoleGraph

open Tdg.Runtime Relation

variable {o : Runtime} {g : RoleGraph} {env : Env} {e : Event} {x y : Role} {τ : TaskId}
  {r : RegionId} {th : ThreadId}

/-- Without explicit tasks, every callback is careful that leaves no loop. -/
theorem careful_of_noTasks (h : NoTasks o) (ha : o.allows e = true) (hok : OutsideLoops o e) :
    Careful o g e where
  outside := hok
  wait := fun hcall => absurd hcall (h.no_schedule ha)
  start := fun hcall => absurd hcall (h.no_schedule ha)

/-! ### Spare nodes -/

/-- The node behind the last barrier is charged only if its thread is switched
away from. -/
theorem charged_not_spare (hW : Shaped o g) (hS : o.Sound) (ha : o.allows e = true)
    (hok : OutsideLoops o e)
    (hs : ∀ first prior second, e.call ≠ .taskSchedule first prior second)
    (hx : g.charged o e = some x) : ¬o.Spare x := by
  obtain ⟨τ, hτ, rfl⟩ := charged_position hS ha hok hx
  intro hsp
  rcases hin : (o.task τ).inLoop with - | -
  · rw [position_of_outside hin] at hsp
    obtain ⟨-, hseat⟩ := hW.seat (hasData_of_active hτ.2)
    generalize g.cur τ = y at hsp hseat
    cases y with
    | imp r t j =>
      obtain ⟨rfl, hj⟩ := hseat
      obtain ⟨hreq, rfl⟩ : 1 < (o.region r).requested ∧ j = (o.region r).barriers := hsp
      -- charged inside the body, by a switch, or at the end of a team of one
      rcases hW.charged_inBody hS ha hτ hx with hbody | ⟨prior, second, hcall⟩ | ⟨r', t', heq, hone⟩
      · have hlt := hbody.2
        have := hj hreq
        omega
      · exact hs _ _ _ hcall
      · obtain ⟨rfl, rfl⟩ := TaskId.implicit.inj heq
        omega
    | _ => exact hsp
  · rw [position_of_inside hin] at hsp
    rcases openNode_cases o τ with h | ⟨c, h⟩ <;> rw [h] at hsp <;> exact hsp

/-! ### The final node -/

/-- Between regions, `g_finalNode` is the current node of the initial task. -/
def Homeward (o : Runtime) (g : RoleGraph) : Prop :=
  ∀ x, g.finalNode = some x → (o.task (.initial 0)).standing ≠ .absent ∧
    (x = g.cur (.initial 0) ∨ ∃ r, (o.region r).stage = .opened)

theorem homeward_init : Homeward Runtime.init RoleGraph.init := by
  intro x hx
  cases hx

theorem Homeward.step (h : Homeward o g) (hN : NoTasks o) (hS : o.Sound) (ha : o.allows e = true)
    (he : forkJoin e = true) : Homeward (o.apply e) (g.step env o e) := by
  intro x hx
  rw [step_final ha] at hx
  -- neither the final node nor the current node of the initial task is changed
  have hkeep : newFinal e = none → (∀ x, o.newCur e ≠ some (.initial 0, x)) →
      (o.apply e).region = o.region →
      ((o.apply e).task (.initial 0)).standing ≠ .absent ∧
        (x = (g.step env o e).cur (.initial 0) ∨ ∃ r, ((o.apply e).region r).stage = .opened) := by
    intro hfinal hcur hreg
    rw [hfinal, Option.none_or] at hx
    rw [Shaped.cur_of_not_moved ha hcur, hreg]
    exact ⟨task_present_apply ha (h x hx).1, (h x hx).2⟩
  cases delivers_of_allows ha with
  | initial =>
    obtain rfl : Role.root = x := Option.some.inj hx
    refine ⟨by simp [Runtime.apply], .inl ?_⟩
    exact (cur_of_moved ha rfl).symm
  | explicit => cases he
  | schedule _ hmay => exact absurd hmay hN.not_may_resume
  | @parallelBegin _ _ r =>
    obtain ⟨hpres, -⟩ := h x hx
    exact ⟨task_present_apply ha hpres, .inr ⟨r, by simp [Runtime.apply]⟩⟩
  | @parallelEnd th r hopen _ hfork _ hall =>
    obtain rfl : Role.sink r = x := Option.some.inj hx
    refine ⟨task_present_apply ha fun habs => ?_, ?_⟩
    · rw [(hS.initial_first habs).2 r] at hopen
      cases hopen
    · rcases hpar : (o.region r).parent with i | ⟨r', t⟩ | n
      · have hpres : (o.task (.initial i)).standing ≠ .absent := by simp [← hpar, hfork]
        obtain rfl := hS.one_initial hpres
        rw [hpar] at ha
        exact .inl (cur_of_moved ha rfl).symm
      · -- the region around this one has a thread in its body
        rw [hpar] at hfork
        have hpres : (o.task (.implicit r' t)).standing ≠ .absent := by simp [hfork]
        have hbody := hS.forked_inBody hfork
        have hrr : r' ≠ r := by
          rintro rfl
          have hle := hall t ((hS.team r').thread_lt hpres)
          have hlt := hbody.2
          omega
        have hop := hS.inBody_opened hpres hbody
        exact .inr ⟨r', by simpa [Runtime.apply, hrr] using hop⟩
      · rw [hpar, hN.explicit n] at hfork
        cases hfork
  | implicitBegin => exact hkeep rfl (by simp [newCur]) rfl
  | implicitEnd => exact hkeep rfl (by simp [newCur]) rfl
  | @barrierBegin _ r t =>
    obtain ⟨hpres, hor⟩ := h x hx
    refine ⟨task_present_apply ha hpres, hor.imp (fun heq => ?_) ?_⟩
    · rw [heq, Shaped.cur_of_not_moved ha fun z hz => ?_]
      simp only [newCur] at hz
      split_ifs at hz
      cases hz
    · rintro ⟨r', hop⟩
      refine ⟨r', ?_⟩
      rcases eq_or_ne r' r with rfl | hne
      · simpa [Runtime.apply] using hop
      · simpa [Runtime.apply, hne] using hop
  | @loopEnd _ τ =>
    refine hkeep rfl (fun z hz => ?_) rfl
    obtain ⟨rfl, -⟩ := Prod.mk.inj (Option.some.inj hz)
    cases he
  | @outside _ endpoint => cases endpoint <;> exact hkeep rfl (by simp [newCur]) rfl
  | @sync _ kind _ _ _ _ _ hkind =>
    cases kind with
    | barrier => exact absurd rfl hkind
    | taskwait => exact hkeep rfl (by simp [newCur]) rfl
    | taskgroup => exact hkeep rfl (by simp [newCur]) rfl
  | @chunk _ _ _ _ lastChunk => cases lastChunk <;> exact hkeep rfl (by simp [newCur]) rfl
  | _ => exact hkeep rfl (by simp [newCur]) rfl

/-! ### The charge of `finalize_libtdg` -/

/-- What leads to a node is charged before it, if no live spare node is
charged. -/
theorem Ordered.before (h : Ordered o g)
    (hsp : ∀ a ∈ g.charges, g.live a.node = true → ¬o.Spare a.node) (hy : g.live y = true)
    (hxy : TransGen g.Link x y) : g.Before x y := by
  intro a ha hax b hb hby
  refine h.ordered hxy ?_ a ha hax b hb hby
  rw [← hby] at hy ⊢
  exact hsp b hb hy

/-- One more charge where a task is keeps the order. -/
theorem Ordered.before_addTime (h : Ordered o g) (hW : Shaped o g)
    (hsp : ∀ a ∈ g.charges, g.live a.node = true → ¬o.Spare a.node) (hon : o.Ongoing τ)
    (hbody : o.InBody τ) (hin : (o.task τ).inLoop = false) (hy : g.live y = true)
    (hxy : TransGen g.Link x y) : (g.addTime env th (g.cur τ)).Before x y := by
  have hd := hon.hasData
  have hcur : ¬o.Ahead (g.cur τ) := hW.cur_begun hd hon.not_ready hbody
  have hpos : position g o τ = g.cur τ := position_of_outside hin
  -- nothing behind the node of the task has begun
  have hbehind : x = g.cur τ → o.Ahead y := by
    rintro rfl
    by_contra hyo
    exact (h.settled hxy hyo).2 τ hon hpos
  intro a ha hax b hb hby
  rcases List.mem_append.mp ha with ha | ha
  · rcases List.mem_append.mp hb with hb | hb
    · exact h.before hsp hy hxy a ha hax b hb hby
    · obtain rfl := List.mem_singleton.mp hb
      obtain rfl : g.cur τ = y := hby
      refine h.started hxy hcur (fun r i heq => ?_) a ha hax
      exact hW.position_ne_barrier hd (hpos.trans heq)
  · obtain rfl := List.mem_singleton.mp ha
    have hahead := hbehind hax.symm
    rcases List.mem_append.mp hb with hb | hb
    · rw [← hby] at hy hahead
      exact absurd ((h.unspent hb).2 hahead) (hsp b hb hy)
    · obtain rfl := List.mem_singleton.mp hb
      obtain rfl : g.cur τ = y := hby
      exact absurd hahead hcur

/-- `g_finalNode` is the current node of the initial task, which goes on outside
any loop. -/
def Home (o : Runtime) (g : RoleGraph) : Prop :=
  ∀ x, g.finalNode = some x → x = g.cur (.initial 0) ∧ o.Ongoing (.initial 0) ∧
    (o.task (.initial 0)).inLoop = false

/-- **No path takes more than the elapsed time.** -/
theorem Ordered.timeOf_le (h : Ordered o g) (hL : Ledger env o g) (hW : Shaped o g) (hA : Alloc g)
    (hmono : Monotone env.clock)
    (hsp : ∀ a ∈ g.charges, g.live a.node = true → ¬o.Spare a.node) {T : Tables}
    {p : List NodeRef} (hp : (realize T g).toGraph.IsPath p) :
    (realize T g).toGraph.timeOf p ≤ env.clock g.ticks - env.clock 0 :=
  hL.timeOf_le hA (fun hx => (hW.live_iff.mp hx).1) (hmono (Nat.zero_le _))
    (fun _ ha => hL.stop_le hmono ha) (fun hy hxy => h.before hsp hy hxy) hp

/-- The charge of `finalize_libtdg` changes nothing about this. -/
theorem Ordered.timeOf_closeFinal_le (h : Ordered o g) (hL : Ledger env o g) (hW : Shaped o g)
    (hS : o.Sound) (hA : Alloc g) (hmono : Monotone env.clock)
    (hsp : ∀ a ∈ g.charges, g.live a.node = true → ¬o.Spare a.node) (hhome : Home o g) {T : Tables}
    {p : List NodeRef} (hp : (realize T (g.closeFinal env th)).toGraph.IsPath p) :
    (realize T (g.closeFinal env th)).toGraph.timeOf p ≤ env.clock g.ticks - env.clock 0 := by
  unfold closeFinal at hp ⊢
  rcases hx : g.finalNode with - | x
  · simp only [hx] at hp ⊢
    exact h.timeOf_le hL hW hA hmono hsp hp
  · simp only [hx] at hp ⊢
    -- the last charge goes to the node of the initial task, and is the last interval
    obtain ⟨rfl, hon, hin⟩ := hhome x hx
    have hd := hon.hasData
    have hL' : Ledger env o (g.addTime env th (g.cur (.initial 0))) :=
      hL.addTime hmono (hW.seat hd).1 (started_of_seat (hW.seat hd).2)
    have hA' : Alloc (g.addTime env th (g.cur (.initial 0))) :=
      ((hW.closed hS hA).addTime (hA.live_mem (hW.cur_live hd))).toAlloc
    refine hL'.timeOf_le hA' (fun hx => (hW.live_iff.mp hx).1) (hmono (Nat.zero_le _))
      (fun a ha => ?_) (fun hy hxy => ?_) hp
    · rcases List.mem_append.mp ha with ha | ha
      · exact hL.stop_le hmono ha
      · obtain rfl := List.mem_singleton.mp ha
        exact le_rfl
    · exact h.before_addTime hW hsp hon trivial hin hy hxy

/-- The critical path is a path. -/
theorem Unmarked.timeLen_le (h : g.Unmarked) (hA : Alloc g) {T : Tables} {t : ℚ}
    (hp : ∀ {p}, (realize T g).toGraph.IsPath p → (realize T g).toGraph.timeOf p ≤ t) :
    ∃ g' cp, (realize T g).toGraph.getMetric .new = some (g', cp) ∧ cp.timeLen ≤ t := by
  obtain ⟨g', cp, m, post, l, s, q, heq, hcomp⟩ :=
    Graph.computeCriticalPath_computed (hA.closed (T := T)) (h.fresh hA)
  refine ⟨g', cp, ?_, ?_⟩
  · rw [Graph.getMetric, if_pos (by simp [Graph.CriticalPath.new])]
    exact heq
  · obtain ⟨hpath, htime⟩ := hcomp.isPath_marked hA.closed hA.mirrored
    rw [← htime]
    exact hp hpath

end RoleGraph

namespace Config

open RoleGraph Tdg.Runtime Relation Doubles

variable {c : Config} {env : Env} {es : List Event} {o : Runtime} {th : ThreadId}

/-- The clock is first read for the root. -/
theorem ticks_zero (hrun : run env es = some c)
    (habs : (c.rt.task (.initial 0)).standing = .absent) : c.graph.ticks = 0 := by
  refine (run_induction (P := fun c =>
    (c.rt.task (.initial 0)).standing = .absent → c.graph.ticks = 0) (fun _ => rfl) ?_ hrun).2 habs
  intro c e hg ha ih habs
  have hold : (c.rt.task (.initial 0)).standing = .absent := by
    by_contra hpres
    exact task_present_apply ha hpres habs
  have hnone := (hg.sound.initial_first hold).1
  -- without a task nobody can do anything but begin and end threads
  have hidle : ∀ {th τ}, ¬c.rt.Acts th τ := fun hact => by
    have hs := hact.2
    rw [hnone] at hs
    cases hs
  cases delivers_of_allows ha with
  | threadBegin => exact ih hold
  | threadEnd => exact ih hold
  | initial => simp [next, Runtime.apply] at habs
  | parallelEnd _ _ hfork =>
    rw [hnone] at hfork
    cases hfork
  | implicitBegin hopen =>
    rw [(hg.sound.initial_first hold).2] at hopen
    cases hopen
  | explicit hact => exact absurd hact hidle
  | schedule hact => exact absurd hact hidle
  | parallelBegin hact => exact absurd hact hidle
  | implicitEnd hact => exact absurd hact hidle
  | barrierBegin hact => exact absurd hact hidle
  | barrierEnd hact => exact absurd hact hidle
  | outside hact => exact absurd hact hidle
  | sync hact => exact absurd hact hidle
  | loopBegin _ hact => exact absurd hact hidle
  | loopEnd hact => exact absurd hact hidle
  | chunk hact => exact absurd hact hidle

/-- The end of an initial task is not reported. -/
theorem initial_not_done (hrun : run env es = some c) (i : ℕ) :
    (c.rt.task (.initial i)).standing ≠ .done := by
  refine (run_induction (P := fun c => (c.rt.task (.initial i)).standing ≠ .done) ?_ ?_ hrun).2
  · simp [Config.init, Runtime.init]
  · intro c e hg ha ih hdone
    rcases done_of_apply ha hdone with hold | ⟨hend, -⟩
    · exact ih hold
    · cases hend

/-- Outside regions the initial task goes on. -/
theorem initial_ongoing (hrun : run env es = some c) (hend : c.rt.RegionsEnded)
    (hpres : (c.rt.task (.initial 0)).standing ≠ .absent)
    (hready : (c.rt.task (.initial 0)).standing ≠ .ready) : c.rt.Ongoing (.initial 0) := by
  rcases hs : (c.rt.task (.initial 0)).standing with - | - | - | r | th | -
  · exact absurd hs hpres
  · exact absurd hs hready
  · exact .inl hs
  · exact absurd ((run_good hrun).sound.forked_region hs).1 (hend r)
  · exact .inr (by rw [hs]; rfl)
  · exact absurd hs (initial_not_done hrun 0)

/-- A run of a program without explicit tasks. -/
theorem forkJoin_run (hmono : Monotone env.clock) (hrun : run env es = some c)
    (hteam : ∀ e ∈ es, fullTeamOrSingle e = true) (hfork : ∀ e ∈ es, forkJoin e = true)
    (hok : Runtime.Throughout OutsideLoops es) :
    NoTasks c.rt ∧ Homeward c.rt c.graph ∧ Ordered c.rt c.graph ∧
      ∀ a ∈ c.graph.charges, ¬c.rt.Spare a.node := by
  induction es using List.reverseRecOn generalizing c with
  | nil =>
    obtain rfl : Config.init = c := Option.some.inj hrun
    exact ⟨noTasks_init, homeward_init, ordered_init, by simp [Config.init, RoleGraph.init]⟩
  | append_singleton es e ih =>
    obtain ⟨c', hc', ha, rfl⟩ := run_snoc.mp hrun
    have hg := run_good hc'
    have hteam' : ∀ e ∈ es, fullTeamOrSingle e = true := fun e he => hteam e (by simp [he])
    have he : forkJoin e = true := hfork e (by simp)
    have hout : OutsideLoops c'.rt e := hok es e [] rfl c'.rt (runtime_of_run hc')
    have hpre : Runtime.Throughout OutsideLoops es := fun pre b post hes =>
      hok pre b (post ++ [e]) (by rw [hes]; simp)
    obtain ⟨hN, hH, hO, hsp⟩ := ih hc' hteam' (fun e he => hfork e (by simp [he])) hpre
    have hL := ledger_run hmono hc'
    refine ⟨hN.apply ha he, hH.step hN hg.sound ha he, ?_, fun a haa => ?_⟩
    · exact hO.step hL (regular_run hc' (teams_run hc' hteam')) hg.shaped hg.sound hg.alloc
        hg.loopsFresh hmono ha (careful_of_noTasks hN ha hout)
    · -- spare nodes are what they were
      have hkeep : ∀ {x}, c'.rt.Created x → ¬c'.rt.Spare x → ¬(c'.next env e).rt.Spare x :=
        fun hcr hx hs => hx ((spare_apply hg.sound ha hcr).mp hs)
      rcases mem_step_charges ha haa with hold | ⟨x, hx, rfl⟩
      · exact hkeep (hL.started hold).1 (hsp a hold)
      · refine hkeep (hg.shaped.live_iff.mp (hg.shaped.charged_started ha hx).1).1 ?_
        exact charged_not_spare hg.shaped hg.sound ha hout
          (fun _ _ _ => hN.no_schedule ha) hx

/-- **The span is at most the elapsed time.**  Without rounding, in every run of
parallel regions, barriers and loops the metric computes at most the time from
the creation of the root to the charge of `finalize_libtdg`; the reading for the
root is the one before which the clock has been read `s₀.ticks` times. -/
theorem span_le_elapsed (env : Env) (hmono : Monotone env.clock) {pre post : List Event}
    {th₀ : ThreadId} {parent : TaskId}
    (hes : es = pre ++ ⟨th₀, .taskCreate parent (.initial 0) .initial⟩ :: post)
    (hrun : Runtime.run es = some o) (hteam : ∀ e ∈ es, fullTeam e = true)
    (hfork : ∀ e ∈ es, forkJoin e = true) (hok : Runtime.Throughout OutsideLoops es)
    (hend : o.RegionsEnded) (th : ThreadId) :
    ∃ s₀ s s' g' cp, Tool.run env pre = some s₀ ∧ Tool.run env es = some s ∧
      s.closeFinalNode env th = some s' ∧ s'.toGraph.getMetric .new = some (g', cp) ∧
      cp.timeLen ≤ env.clock s.ticks - env.clock s₀.ticks := by
  obtain ⟨c, hc, rfl⟩ := run_of_runtime env hrun
  have hg := run_good hc
  have hsplit := hc
  rw [hes] at hsplit
  obtain ⟨c₀, hc₀, ha, -⟩ := run_split hsplit
  have hzero : c₀.graph.ticks = 0 := by
    refine ticks_zero hc₀ ?_
    cases delivers_of_allows ha with
    | initial _ _ habs => exact habs
  obtain ⟨hN, hH, hO, hsp⟩ := forkJoin_run hmono hc
    (fun e he => fullTeamOrSingle_of_fullTeam (hteam e he)) hfork hok
  -- all regions have ended, so the initial task is back at the final node
  have hhome : Home c.rt c.graph := by
    intro x hx
    obtain ⟨hpres, hor⟩ := hH x hx
    refine ⟨hor.resolve_right ?_, initial_ongoing hc hend hpres (hN.ready _), hN.outside⟩
    rintro ⟨r, hopen⟩
    exact hend r hopen
  have hclosed : Alloc (c.graph.closeFinal env th) :=
    ((hg.shaped.closed hg.sound hg.alloc).closeFinal env th).toAlloc
  obtain ⟨g', cp, hmetric, hle⟩ := (unmarked_run hc).closeFinal.timeLen_le hclosed
    (T := tables c.rt c.graph) fun hp => hO.timeOf_closeFinal_le (ledger_run hmono hc) hg.shaped
      hg.sound hg.alloc hmono (fun a ha _ => hsp a ha) hhome hp
  refine ⟨c₀.tool, c.tool, _, g', cp, tool_run hc₀, tool_run hc, closeFinalNode_run th hc, hmetric,
    ?_⟩
  show cp.timeLen ≤ env.clock c.graph.ticks - env.clock c₀.graph.ticks
  rw [hzero]
  exact hle

/-- A region of two threads with a loop and two barriers; thread 1 is late for
the end. -/
def loopThenBarrier : List Event :=
  [⟨0, .threadBegin⟩, ⟨1, .threadBegin⟩,
    ⟨0, .taskCreate (.initial 0) (.initial 0) .initial⟩,
    ⟨0, .parallelBegin (.initial 0) 0 2 2 2⟩,
    ⟨1, .implicitTask .scopeBegin 0 (.implicit 0 1) 2 1⟩,
    ⟨0, .implicitTask .scopeBegin 0 (.implicit 0 0) 2 0⟩,
    ⟨0, .extLoop .scopeBegin (.implicit 0 0) 0 7⟩,
    ⟨1, .extLoop .scopeBegin (.implicit 0 1) 0 7⟩,
    ⟨1, .extChunk (.implicit 0 1) 0 7 false⟩,
    ⟨0, .extLoop .scopeEnd (.implicit 0 0) 0 7⟩,
    ⟨0, .syncRegion .barrier .scopeBegin 0 (.implicit 0 0)⟩,
    ⟨1, .extLoop .scopeEnd (.implicit 0 1) 0 7⟩,
    ⟨1, .syncRegion .barrier .scopeBegin 0 (.implicit 0 1)⟩,
    ⟨0, .syncRegion .barrier .scopeEnd 0 (.implicit 0 0)⟩,
    ⟨0, .syncRegion .barrier .scopeBegin 0 (.implicit 0 0)⟩,
    ⟨1, .syncRegion .barrier .scopeEnd 0 (.implicit 0 1)⟩,
    ⟨1, .syncRegion .barrier .scopeBegin 0 (.implicit 0 1)⟩,
    ⟨0, .syncRegion .barrier .scopeEnd 0 (.implicit 0 0)⟩,
    ⟨0, .implicitTask .scopeEnd 0 (.implicit 0 0) 2 0⟩,
    ⟨0, .parallelEnd 0 (.initial 0)⟩,
    ⟨1, .syncRegion .barrier .scopeEnd 0 (.implicit 0 1)⟩]

theorem span_le_elapsed_loopThenBarrier :
    ∃ s s' g' cp, Tool.run { clock := fun k => k } loopThenBarrier = some s ∧
      s.closeFinalNode { clock := fun k => k } 0 = some s' ∧
      s'.toGraph.getMetric .new = some (g', cp) ∧ cp.timeLen ≤ s.ticks := by
  have hmono : Monotone (Env.clock { clock := fun k => k }) := fun _ _ h => Nat.cast_le.mpr h
  have hok : Runtime.Throughout OutsideLoops loopThenBarrier :=
    throughout_of_check (by decide +kernel)
  have hrun : ∃ o, Runtime.run loopThenBarrier = some o ∧ o.RegionsEnded := by
    refine ⟨_, rfl, fun r => ?_⟩
    rcases r with - | r
    · decide
    · simp [Runtime.apply, Runtime.init]
  obtain ⟨o, ho, hend⟩ := hrun
  have hes : loopThenBarrier = loopThenBarrier.take 2 ++
      ⟨0, .taskCreate (.initial 0) (.initial 0) .initial⟩ :: loopThenBarrier.drop 3 := rfl
  obtain ⟨s₀, s, s', g', cp, -, h1, h2, h3, h4⟩ :=
    span_le_elapsed { clock := fun k => k } hmono hes ho (by decide) (by decide) hok hend 0
  refine ⟨s, s', g', cp, h1, h2, h3, h4.trans ?_⟩
  show (s.ticks : ℚ) - (s₀.ticks : ℚ) ≤ s.ticks
  exact sub_le_self _ (Nat.cast_nonneg _)

/-! ### Rounding -/

/-- A region with a team of one thread. -/
def teamOfOne : List Event :=
  [⟨0, .threadBegin⟩,
    ⟨0, .taskCreate (.initial 0) (.initial 0) .initial⟩,
    ⟨0, .parallelBegin (.initial 0) 0 1 1 1⟩,
    ⟨0, .implicitTask .scopeBegin 0 (.implicit 0 0) 1 0⟩,
    ⟨0, .syncRegion .barrier .scopeBegin 0 (.implicit 0 0)⟩,
    ⟨0, .syncRegion .barrier .scopeEnd 0 (.implicit 0 0)⟩,
    ⟨0, .implicitTask .scopeEnd 0 (.implicit 0 0) 1 0⟩,
    ⟨0, .parallelEnd 0 (.initial 0)⟩]

/-- Readings whose differences round up. -/
def roundingClock : ℕ → ℚ := readings [0.9, 2.1, 2.1, 8.6, 8.6] 10.0

/-- **In doubles the span can exceed the elapsed time.**  The three nodes of the
sample take 1.2000000000000002, 6.5 and 1.4000000000000004, and the metric adds
them to 9.100000000000001 where 9.1 has passed. -/
theorem teamOfOne_span_exceeds :
    Monotone roundingClock ∧ (∀ k, IsDouble (roundingClock k)) ∧
      (∀ e ∈ teamOfOne, fullTeam e = true) ∧ (∀ e ∈ teamOfOne, forkJoin e = true) ∧
      Runtime.Throughout OutsideLoops teamOfOne ∧
      ∃ o s₀ s s' g' cp, Runtime.run teamOfOne = some o ∧ o.RegionsEnded ∧
        Tool.run { clock := roundingClock } (teamOfOne.take 1) = some s₀ ∧
        Tool.run { clock := roundingClock } teamOfOne = some s ∧
        s.closeFinalNode { clock := roundingClock } 0 = some s' ∧
        (s'.graphIn .double).computeCriticalPathIn .double = some (g', cp) ∧
        roundingClock s.ticks - roundingClock s₀.ticks < cp.timeLen := by
  refine ⟨readings_mono (by decide +kernel), readings_isDouble (by decide +kernel), by decide,
    by decide, throughout_of_check (by decide +kernel), ?_⟩
  have hrun : ∃ o, Runtime.run teamOfOne = some o ∧ o.RegionsEnded := by
    refine ⟨_, rfl, fun r => ?_⟩
    rcases r with - | r
    · decide
    · simp [Runtime.apply, Runtime.init]
  obtain ⟨o, ho, hend⟩ := hrun
  have heval : (do
      let s₀ ← Tool.run { clock := roundingClock } (teamOfOne.take 1)
      let s ← Tool.run { clock := roundingClock } teamOfOne
      let s' ← s.closeFinalNode { clock := roundingClock } 0
      let r ← (s'.graphIn .double).computeCriticalPathIn .double
      some (decide (roundingClock s.ticks - roundingClock s₀.ticks < r.2.timeLen)))
        = some true := by decide +kernel
  obtain ⟨s₀, h1, heval⟩ := Option.bind_eq_some_iff.mp heval
  obtain ⟨s, h2, heval⟩ := Option.bind_eq_some_iff.mp heval
  obtain ⟨s', h3, heval⟩ := Option.bind_eq_some_iff.mp heval
  obtain ⟨⟨g', cp⟩, h4, heval⟩ := Option.bind_eq_some_iff.mp heval
  exact ⟨o, s₀, s, s', g', cp, ho, hend, h1, h2, h3, h4,
    of_decide_eq_true (Option.some.inj heval)⟩

/-- So can the work of the one thread: `compute_stats` adds the same numbers. -/
theorem teamOfOne_work_exceeds :
    ∃ s₀ s s' tt, Tool.run { clock := roundingClock } (teamOfOne.take 1) = some s₀ ∧
      Tool.run { clock := roundingClock } teamOfOne = some s ∧
      s.closeFinalNode { clock := roundingClock } 0 = some s' ∧
      (s'.graphIn .double).totalTimeInitIn .double = some tt ∧
      roundingClock s.ticks - roundingClock s₀.ticks < tt.nodesTotalTime := by
  have heval : (do
      let s₀ ← Tool.run { clock := roundingClock } (teamOfOne.take 1)
      let s ← Tool.run { clock := roundingClock } teamOfOne
      let s' ← s.closeFinalNode { clock := roundingClock } 0
      let tt ← (s'.graphIn .double).totalTimeInitIn .double
      some (decide (roundingClock s.ticks - roundingClock s₀.ticks < tt.nodesTotalTime)))
        = some true := by decide +kernel
  obtain ⟨s₀, h1, heval⟩ := Option.bind_eq_some_iff.mp heval
  obtain ⟨s, h2, heval⟩ := Option.bind_eq_some_iff.mp heval
  obtain ⟨s', h3, heval⟩ := Option.bind_eq_some_iff.mp heval
  obtain ⟨tt, h4, heval⟩ := Option.bind_eq_some_iff.mp heval
  exact ⟨s₀, s, s', tt, h1, h2, h3, h4, of_decide_eq_true (Option.some.inj heval)⟩

end Config

end Tdg
