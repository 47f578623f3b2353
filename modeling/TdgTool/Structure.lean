/-
TdgTool/Structure.lean

The structural invariants of a run: no cycles, no dangling edges, everything
reachable.

Creation order is not a topological order: sinks are created before the nodes
that precede them, and a barrier node gets edges from nodes created after it.
What keeps the graph acyclic is that an edge is only ever added into a node
that leads nowhere yet: a new node, a pending sink, or the barrier node of a
phase that is not complete, behind which every thread is still waiting.  The
last point needs complete teams; `FullTeam` is the condition.
-/
import TdgTool.Runs

namespace Tdg

namespace RoleGraph

open Tdg.Runtime Paths Relation

variable {o : Runtime} {g : RoleGraph} {env : Env} {e : Event} {x y z : Role} {τ : TaskId}
  {r : RegionId} {th : ThreadId}

/-! ### Barrier nodes and phases -/

/-- A barrier node leads to the nodes of the next phase and to the region's
sink. -/
def PhaseExits (o : Runtime) (g : RoleGraph) : Prop :=
  ∀ {r i z}, FullTeam (o.region r) → g.Link (.barrier r i) z →
    z = .sink r ∨ ∃ t, z = .imp r t (i + 1)

/-- A complete team stays complete, and was one from the start. -/
theorem fullTeam_of_apply (hS : o.Sound) (ha : o.allows e = true)
    (h : FullTeam ((o.apply e).region r)) : FullTeam (o.region r) := by
  by_cases hpres : (o.region r).stage = .absent
  · rw [((hS.team r).absent hpres).1]
    exact .inl rfl
  · obtain ⟨-, h2, h3, h4, -⟩ := region_apply_fixed ha hpres
    simpa only [FullTeam, h2, h3, h4] using h

/-- Where an added edge can start, if it starts at a barrier node. -/
theorem newEdges_barrier (h : Shaped o g) (hS : o.Sound) (ha : o.allows e = true) {i : ℕ}
    (hfull : FullTeam (o.region r)) (hz : (.barrier r i, z) ∈ g.newEdges o e) :
    z = .sink r ∨ ∃ t, z = .imp r t (i + 1) := by
  -- no task is at a barrier node
  have hcur : ∀ {τ}, o.HasData τ → Role.barrier r i ≠ g.cur τ := by
    intro τ hd hb
    have := (h.seat hd).2
    rw [← hb] at this
    exact this
  generalize hb : Role.barrier r i = x at hz
  cases newEdge_of_mem ha hz with
  | implicitBegin hopen => exact absurd hb (hcur (hasData_of_forked (hS.opened_parent hopen)))
  | sinkOfBarrier hact harr _ hbar =>
    obtain ⟨i', rfl, -⟩ := h.barrier_of_end hS hact harr hbar
    obtain ⟨rfl, rfl⟩ := Role.barrier.inj hb
    exact .inl rfl
  | @ofBarrier _ r' t hact hbody =>
    obtain ⟨rfl, rfl⟩ := Role.barrier.inj hb
    rw [hS.arrivals_div hfull (by simp [hact.2]) hbody]
    exact .inr ⟨t, rfl⟩
  | sinkOfThread hact => exact absurd hb (hcur (hasData_of_active hact.2))
  | explicit hact => exact absurd hb (hcur (hasData_of_active hact.2))
  | toBarrier hact => exact absurd hb (hcur (hasData_of_active hact.2))
  | loopBegin hact => exact absurd hb (hcur (hasData_of_active hact.2))
  | emptyLoop => cases hb
  | toChunk => cases hb
  | ofChunk => cases hb

theorem PhaseExits.step (hE : PhaseExits o g) (h : Shaped o g) (hS : o.Sound)
    (ha : o.allows e = true) : PhaseExits (o.apply e) (g.step env o e) := by
  intro r i z hfull hz
  have hfull' := fullTeam_of_apply hS ha hfull
  rcases link_step ha hz with hold | hnew
  · exact hE hfull' hold
  · exact newEdges_barrier h hS ha hfull' hnew

/-- While a thread has yet to reach a barrier, every node behind the barrier is
pending. -/
theorem pending_behind (hS : o.Sound) (hE : PhaseExits o g) (h : Shaped o g) (hA : Alloc g)
    (hfull : FullTeam (o.region r)) {t : ℕ}
    (hpres : (o.task (.implicit r t)).standing ≠ .absent) (hbody : o.InBody (.implicit r t))
    (hreq : 1 < (o.region r).requested)
    (hz : g.Link (.barrier r (o.task (.implicit r t)).arrived) z) : o.Pending z := by
  have hT := hS.team r
  have hlive := (h.live_iff.mp (hA.edges_live hz).2).1
  rcases hE hfull hz with rfl | ⟨u, rfl⟩
  · exact hS.inBody_opened hpres hbody
  · obtain ⟨-, hj⟩ := hlive
    have h1 := hT.passed_le_arrived u t (hT.thread_lt hpres)
    have h2 := hT.arrived_le u
    simp only [Runtime.team] at h1 h2
    have hu : (o.task (.implicit r u)).arrived = (o.task (.implicit r t)).arrived + 1 := by
      omega
    refine ⟨⟨hreq, by omega, fun hb => ?_⟩, by omega⟩
    have := hb.1
    omega

/-! ### No cycles -/

theorem no_exit_of_not_created (h : Shaped o g) (hA : Alloc g) (hy : ¬o.Created y) (b : Role) :
    ¬g.Link y b :=
  fun hl => hy (h.live_iff.mp (hA.edges_live hl).1).1

/-- An edge from a created node into a node without exits. -/
theorem acyclic_one (hacyc : Acyclic g.Link) (hne : x ≠ y) (hy : ∀ b, ¬g.Link y b)
    (hnew : g.newEdges o e = [(x, y)]) (ha : o.allows e = true) :
    Acyclic (g.step env o e).Link := by
  refine hacyc.insert_of_no_exit hne hy fun a b hab => ?_
  rcases link_step ha hab with hab | hab
  · exact .inl hab
  · rw [hnew] at hab
    exact .inr (by simpa using hab)

/-- Two edges `x → y → z`, where `y` does not lead back to `x` and nothing leaves
`z`. -/
theorem acyclic_two (hacyc : Acyclic g.Link) (hyx : ¬ReflTransGen g.Link y x) (hxz : x ≠ z)
    (hyz : y ≠ z) (hz : ∀ b, ¬g.Link z b) (hnew : g.newEdges o e = [(x, y), (y, z)])
    (ha : o.allows e = true) : Acyclic (g.step env o e).Link := by
  have h1 : Acyclic fun a b => g.Link a b ∨ a = x ∧ b = y := hacyc.insert hyx fun a b hab => hab
  refine h1.insert_of_no_exit hyz (x := y) (y := z) ?_ fun a b hab => ?_
  · rintro b (hb | ⟨rfl, -⟩)
    · exact hz b hb
    · exact hxz rfl
  · rcases link_step ha hab with hab | hab
    · exact .inl (.inl hab)
    · rw [hnew] at hab
      simp only [List.mem_cons, Prod.mk.injEq, List.not_mem_nil, or_false] at hab
      rcases hab with hab | hab
      · exact .inl (.inr hab)
      · exact .inr hab

/-- A callback that adds no edge closes no cycle. -/
theorem acyclic_none (hacyc : Acyclic g.Link) (hnew : g.newEdges o e = [])
    (ha : o.allows e = true) : Acyclic (g.step env o e).Link := by
  refine hacyc.mono fun a b hab => ?_
  rcases link_step ha hab with hab | hab
  · exact hab
  · simp [hnew] at hab

/-- A thread that reaches a barrier is not behind it. -/
theorem not_behind_barrier (hS : o.Sound) (hE : PhaseExits o g) (h : Shaped o g) (hA : Alloc g)
    (hfull : FullTeam (o.region r)) {t : ℕ} (hact : o.Acts th (.implicit r t))
    (hbody : o.InBody (.implicit r t)) (hreq : 1 < (o.region r).requested) :
    ¬ReflTransGen g.Link (.barrier r (o.task (.implicit r t)).arrived)
      (g.cur (.implicit r t)) := by
  have hpres : (o.task (.implicit r t)).standing ≠ .absent := by simp [hact.2]
  obtain ⟨-, hs⟩ := h.seat (hasData_of_active hact.2)
  intro hreach
  rcases ReflTransGen.cases_head hreach with hb | ⟨z, hz, hzx⟩
  · rw [← hb] at hs
    exact hs
  · -- everything directly behind the barrier is pending, and leads nowhere
    have hp := pending_behind hS hE h hA hfull hpres hbody hreq hz
    have hx := eq_of_reach_of_no_exit (fun b hb => h.exits hb hp) hzx
    rw [← hx] at hp
    exact hs.not_pending hbody hp

/-- **No callback closes a cycle**, if the region whose barrier it reaches has a
complete team. -/
theorem acyclic_step (hacyc : Acyclic g.Link) (hE : PhaseExits o g) (h : Shaped o g)
    (hS : o.Sound) (hA : Alloc g) (ha : o.allows e = true)
    (hfull : ∀ r, FullTeam (o.region r)) : Acyclic (g.step env o e).Link := by
  have hcurne : ∀ {τ y}, o.HasData τ → ¬o.Created y → g.cur τ ≠ y := by
    rintro τ y hd hy rfl
    exact hy (h.seat hd).1
  -- the two ways of being safe: a target that is new, or one that is still pending
  have hnoexit : ∀ {y}, o.Pending y → ∀ b, ¬g.Link y b := fun hp b hb => h.exits hb hp
  cases delivers_of_allows ha with
  | @implicitBegin _ r t hopen =>
    have hy := newRoles_fresh (x := .imp r t 0) ha (by simp [newRoles])
    exact acyclic_one hacyc (hcurne (hasData_of_forked (hS.opened_parent hopen)) hy)
      (no_exit_of_not_created h hA hy) rfl ha
  | @implicitEnd _ r t m hact harr =>
    have hd := hasData_of_active hact.2
    -- thread 0 has not returned to the encountering task, so the region is open
    have hpend : t = 0 → o.Pending (.sink r) := by
      rintro rfl
      rcases hs : (o.region r).stage with - | - | -
      · exact absurd hs (hS.region_present hd.present)
      · exact hs
      · exact absurd ((hS.team r).ended_done hs) hd.2
    rcases h.implicitEnd_node hS hact harr with ⟨-, -, -, i, hbar, -⟩ | ⟨hreq, hbar⟩
    · rcases eq_or_ne t 0 with rfl | ht
      · exact acyclic_one (x := .barrier r i) (y := .sink r) hacyc (by simp) (hnoexit (hpend rfl))
          (by simp [newEdges, hbar]) ha
      · exact acyclic_none hacyc (by simp [newEdges, hbar, ht]) ha
    · have hlt := (hS.team r).thread_lt hd.present
      have hsize := ((hS.team r).sizes (hS.region_present hd.present)).2.1
      have hp := hpend (by omega)
      refine acyclic_one (x := g.cur (.implicit r t)) (y := .sink r) hacyc ?_ (hnoexit hp)
        (by simp [newEdges, hbar]) ha
      -- the seat of the task would be the sink of a region that has ended
      intro hc
      have hs := (h.seat hd).2
      rw [hc] at hs
      have hend := hs.1
      rw [show (o.region r).stage = .opened from hp] at hend
      cases hend
  | @explicit _ parent n hact =>
    have hy := newRoles_fresh (x := .exp n) ha (by simp [newRoles])
    exact acyclic_one hacyc (hcurne (hasData_of_active hact.2) hy)
      (no_exit_of_not_created h hA hy) rfl ha
  | @barrierBegin _ r t hact hbody =>
    have hd := hasData_of_active hact.2
    by_cases hreq : 1 < (o.region r).requested
    · have hz := newRoles_fresh (x := .imp r t ((o.task (.implicit r t)).arrived + 1)) ha
        (by simp [newRoles, hreq])
      refine acyclic_two (x := g.cur (.implicit r t))
        (y := .barrier r (o.task (.implicit r t)).arrived) hacyc
        -- the only target that may have exits: here the complete team is needed
        (not_behind_barrier hS hE h hA (hfull r) hact hbody hreq) (hcurne hd hz) (by simp)
        (no_exit_of_not_created h hA hz) ?_ ha
      simp [newEdges, hreq, hS.arrivals_div (hfull r) hd.present hbody]
    · exact acyclic_none hacyc (by simp [newEdges, hreq]) ha
  | @loopBegin _ τ _ _ _ hact =>
    have hy := newRoles_fresh (x := .ws τ (o.task τ).loops) ha (by simp [newRoles])
    exact acyclic_one hacyc (hcurne (hasData_of_active hact.2) hy)
      (no_exit_of_not_created h hA hy) rfl ha
  | @loopEnd _ τ _ _ _ _ hloop =>
    by_cases hc : (o.task τ).chunks (o.task τ).loops = 0
    · exact acyclic_one (x := .ws τ (o.task τ).loops) (y := .loopSink τ (o.task τ).loops) hacyc
        (by simp) (hnoexit ⟨hloop, rfl⟩) (by simp [newEdges, hc]) ha
    · exact acyclic_none hacyc (by simp [newEdges, hc]) ha
  | @chunk _ τ _ _ lastChunk _ _ hloop =>
    cases lastChunk with
    | true => exact acyclic_none hacyc rfl ha
    | false =>
      have hy := newRoles_fresh
        (x := .chunk τ (o.task τ).loops ((o.task τ).chunks (o.task τ).loops)) ha
        (by simp [newRoles])
      -- two edges with the new chunk in the middle
      have hp : o.Pending (.loopSink τ (o.task τ).loops) := ⟨hloop, rfl⟩
      refine acyclic_two (x := .ws τ (o.task τ).loops) hacyc (fun hr => ?_) (by simp) (by simp)
        (hnoexit hp) rfl ha
      have := eq_of_reach_of_no_exit (no_exit_of_not_created h hA hy) hr
      cases this
  | @outside _ endpoint => cases endpoint <;> exact acyclic_none hacyc rfl ha
  | @sync _ kind _ _ _ _ _ hkind =>
    cases kind with
    | barrier => exact absurd rfl hkind
    | taskwait => exact acyclic_none hacyc rfl ha
    | taskgroup => exact acyclic_none hacyc rfl ha
  | _ => exact acyclic_none hacyc rfl ha

/-! ### Reachability -/

/-- A sink gets its first edge when thread 0 of its region ends, or when its
loop ends or has a chunk; all other nodes are created with one. -/
def Joined (o : Runtime) : Role → Prop
  | .sink r => (o.task (.implicit r 0)).standing = .done
  | .loopSink τ l => l < (o.task τ).loops ∨ 0 < (o.task τ).chunks l
  | _ => True

/-- The current node of a task has been entered. -/
theorem Shaped.cur_joined (h : Shaped o g) (hS : o.Sound) (hd : o.HasData τ) :
    Joined o (g.cur τ) := by
  have hs := (h.seat hd).2
  generalize g.cur τ = x at hs
  cases x with
  | sink r => exact (hS.team r).ended_done hs.1
  | loopSink σ l =>
    obtain ⟨rfl, hl⟩ := hs
    exact .inl hl
  | _ => trivial

/-- A node that is entered now and was not before gets an edge now. -/
theorem entered (hS : o.Sound) (hL : ∀ τ, LoopsFresh (o.task τ)) (ha : o.allows e = true)
    (hc : (o.apply e).Created x) (hj : Joined (o.apply e) x) :
    o.Created x ∧ Joined o x ∨ x = .root ∨ ∃ y, (y, x) ∈ g.newEdges o e := by
  rcases (created_apply hS ha).mp hc with hc | hnew
  · cases x with
    | sink r =>
      rcases done_of_apply ha hj with hdone | ⟨hend, -, -⟩
      · exact .inl ⟨hc, hdone⟩
      · cases hend with
        | implicit =>
          refine .inr (.inr ?_)
          rcases hb : g.bar (.implicit r 0) with - | b
          · exact ⟨g.cur (.implicit r 0), by simp [newEdges, hb]⟩
          · exact ⟨b, by simp [newEdges, hb]⟩
    | loopSink τ l =>
      have ht := taskChange ha τ
      simp only [Joined] at hj
      generalize (o.apply e).task τ = v at ht hj
      cases ht with
      | created => simp at hj
      | loopEnd _ _ _ hcall =>
        rcases eq_or_ne l ((o.task τ).loops) with rfl | hl
        · by_cases h0 : (o.task τ).chunks (o.task τ).loops = 0
          · exact .inr (.inr ⟨.ws τ (o.task τ).loops, by simp [newEdges, hcall, h0]⟩)
          · exact .inl ⟨hc, .inr (by omega)⟩
        · exact .inl ⟨hc, hj.imp_left fun hj => by simp only at hj; omega⟩
      | chunk _ _ _ hcall =>
        rcases eq_or_ne l ((o.task τ).loops) with rfl | hl
        · exact .inr (.inr ⟨_, by simp [newEdges, hcall]; rfl⟩)
        · exact .inl ⟨hc, by simpa [Joined, hl] using hj⟩
      | _ => exact .inl ⟨hc, hj⟩
    | _ => exact .inl ⟨hc, trivial⟩
  · refine .inr ?_
    cases delivers_of_allows ha with
    | initial => exact .inl (by simpa [newRoles] using hnew)
    | @explicit _ parent n =>
      obtain rfl : x = .exp n := by simpa [newRoles] using hnew
      exact .inr ⟨_, List.mem_singleton_self _⟩
    | @parallelBegin _ _ r _ _ _ _ _ habs =>
      -- a region that begins has no thread yet
      obtain rfl : x = .sink r := by simpa [newRoles] using hnew
      exfalso
      rcases done_of_apply ha hj with hd | ⟨hend, -, -⟩
      · have := ((hS.team r).absent habs).2 0
        simp [Runtime.team, hd] at this
      · cases hend
    | @implicitBegin _ r t =>
      obtain rfl : x = .imp r t 0 := by simpa [newRoles] using hnew
      exact .inr ⟨_, List.mem_singleton_self _⟩
    | @barrierBegin _ r t =>
      refine .inr ?_
      simp only [newRoles] at hnew
      split_ifs at hnew with hreq h0
      · simp only [List.cons_append, List.nil_append, List.mem_cons, List.not_mem_nil,
          or_false] at hnew
        rcases hnew with rfl | rfl
        · exact ⟨g.cur (.implicit r t), by simp [newEdges, hreq]⟩
        · exact ⟨.barrier r _, by simp [newEdges, hreq]; rfl⟩
      · simp only [List.nil_append, List.mem_singleton] at hnew
        subst hnew
        exact ⟨.barrier r _, by simp [newEdges, hreq]; rfl⟩
      · cases hnew
    | @loopBegin _ τ _ _ _ _ _ hloop =>
      simp only [newRoles, List.mem_cons, List.not_mem_nil, or_false] at hnew
      rcases hnew with rfl | rfl
      · exact .inr ⟨_, List.mem_singleton_self _⟩
      · exfalso
        have h0 := hL τ (o.task τ).loops (by simp [TaskState.begun, hloop])
        simp [Joined, Runtime.apply, h0] at hj
    | @chunk _ τ _ _ lastChunk =>
      cases lastChunk with
      | true => cases hnew
      | false =>
        obtain rfl : x = _ := List.mem_singleton.mp hnew
        exact .inr ⟨.ws τ _, List.mem_cons_self⟩
    | @outside _ endpoint => cases endpoint <;> cases hnew
    | @sync _ kind _ _ _ _ _ hkind =>
      cases kind with
      | barrier => exact absurd rfl hkind
      | taskwait => cases hnew
      | taskgroup => cases hnew
    | _ => cases hnew

/-- The removed node leads nowhere. -/
theorem Shaped.oldEdge_no_exit (h : Shaped o g) (hS : o.Sound) (ha : o.allows e = true)
    (hold : g.oldEdge e = some (x, y)) (z : Role) : ¬g.Link y z := by
  cases delivers_of_allows ha with
  | @implicitEnd _ r t _ hact harr =>
    rcases h.implicitEnd_node hS hact harr with ⟨-, hw, hcur, i, hbar, -⟩ | ⟨-, hbar⟩
    · obtain ⟨rfl, rfl⟩ : Role.barrier r i = x ∧ Role.imp r t _ = y := by
        simpa [oldEdge, hbar, hcur] using hold
      exact fun hz => h.exits hz ⟨hw, rfl⟩
    · simp [oldEdge, hbar] at hold
  | @outside _ endpoint => cases endpoint <;> cases hold
  | _ => cases hold

/-- What is reached stays reached, unless it is removed. -/
theorem Shaped.reach_step (h : Shaped o g) (hS : o.Sound) (ha : o.allows e = true)
    (hx : (g.step env o e).live x = true) (hr : ReflTransGen g.Link .root x) :
    ReflTransGen (g.step env o e).Link .root x := by
  rcases hold : g.oldEdge e with - | ⟨b, d⟩
  · exact ReflTransGen.mono (fun a c hac => (mem_step_edges ha).mpr (.inl ⟨hac, by simp [hold]⟩))
      _ _ hr
  · refine reach_of_remove (h.oldEdge_no_exit hS ha hold) (fun a c hac hc => ?_) hr ?_
    · refine (mem_step_edges ha).mpr (.inl ⟨hac, ?_⟩)
      rw [hold]
      rintro ⟨⟩
      exact hc rfl
    · rintro rfl
      exact ((step_live ha).mp hx).2 b hold

/-- Every entered node can be reached from the root. -/
def Rooted (o : Runtime) (g : RoleGraph) : Prop :=
  ∀ {x}, g.live x = true → Joined o x → ReflTransGen g.Link .root x

/-- An edge that is added starts at a node that can be reached. -/
theorem Rooted.newEdges_source (hR : Rooted o g) (h : Shaped o g) (hS : o.Sound)
    (ha : o.allows e = true) (hxy : (x, y) ∈ g.newEdges o e) :
    ReflTransGen (g.step env o e).Link .root x := by
  -- what is entered before the callback and not dropped by it stays reachable
  have hkeep : ∀ {z}, g.live z = true → Joined o z → (∀ b, g.oldEdge e ≠ some (b, z)) →
      ReflTransGen (g.step env o e).Link .root z := fun hl hj hold =>
    h.reach_step hS ha ((step_live ha).mpr ⟨.inl hl, hold⟩) (hR hl hj)
  have hcur : ∀ {τ}, o.HasData τ → g.oldEdge e = none →
      ReflTransGen (g.step env o e).Link .root (g.cur τ) := fun hd hold =>
    hkeep (h.cur_live hd) (h.cur_joined hS hd) (by simp [hold])
  have hlink : ∀ {a b}, (a, b) ∈ g.newEdges o e → (g.step env o e).Link a b := fun hab =>
    (mem_step_edges ha).mpr (.inr hab)
  cases newEdge_of_mem ha hxy with
  | implicitBegin hopen => exact hcur (hasData_of_forked (hS.opened_parent hopen)) rfl
  | sinkOfBarrier hact harr _ hbar =>
    rcases h.implicitEnd_node hS hact harr with ⟨-, -, hc, i, hi, hcr⟩ | ⟨-, hnone⟩
    · rw [hbar] at hi
      obtain rfl := Option.some.inj hi
      exact hkeep (h.live_iff.mpr ⟨hcr, id⟩) trivial (by simp [oldEdge, hbar, hc])
    · rw [hbar] at hnone
      cases hnone
  | sinkOfThread hact _ hbar => exact hcur (hasData_of_active hact.2) (by simp [oldEdge, hbar])
  | explicit hact => exact hcur (hasData_of_active hact.2) rfl
  | toBarrier hact => exact hcur (hasData_of_active hact.2) rfl
  -- the barrier node is reached from the node that the thread leaves
  | ofBarrier hact _ hreq =>
    exact (hcur (hasData_of_active hact.2) rfl).tail (hlink (by simp [newEdges, hreq]))
  | loopBegin hact => exact hcur (hasData_of_active hact.2) rfl
  | emptyLoop hloop => exact hkeep (h.loop_live hloop).1 trivial (by simp [oldEdge])
  | toChunk hloop => exact hkeep (h.loop_live hloop).1 trivial (by simp [oldEdge])
  | ofChunk hloop =>
    have hws := hkeep (h.loop_live hloop).1 trivial (by simp [oldEdge])
    exact hws.tail (hlink (by simp [newEdges]))

theorem Rooted.step (hR : Rooted o g) (h : Shaped o g) (hS : o.Sound)
    (hL : ∀ τ, LoopsFresh (o.task τ)) (ha : o.allows e = true) :
    Rooted (o.apply e) (g.step env o e) := by
  intro x hx hj
  obtain ⟨hc, hnd⟩ := (h.live_step hS ha).mp hx
  rcases entered (g := g) hS hL ha hc hj with ⟨hc', hj'⟩ | rfl | ⟨y, hy⟩
  · have hnd' : ¬o.Dropped x := fun hdrop => hnd ((h.dropped_apply hS ha).mpr (.inl hdrop))
    exact h.reach_step hS ha hx (hR (h.live_iff.mpr ⟨hc', hnd'⟩) hj')
  · exact .refl
  · exact (hR.newEdges_source h hS ha hy).tail ((mem_step_edges ha).mpr (.inr hy))

end RoleGraph

namespace Config

open RoleGraph Tdg.Runtime Paths Relation

variable {c : Config} {env : Env} {es : List Event} {e : Event} {o : Runtime} {x y : Role}

/-! ### Runs -/

/-- Every region has a complete team, or only one barrier. -/
def FullTeams (o : Runtime) : Prop := ∀ r, FullTeam (o.region r)

theorem FullTeams.step (h : FullTeams o) (ha : o.allows e = true)
    (he : fullTeamOrSingle e = true) : FullTeams (o.apply e) := by
  intro r
  have hr := regionChange ha r
  generalize (o.apply e).region r = ρ at hr
  cases hr with
  | opened hcall => simpa [FullTeam, fullTeamOrSingle, hcall] using he
  | _ => exact h r

/-- The regions of a run in which all teams are formed as requested. -/
theorem teams_run (hrun : run env es = some c) (hteam : ∀ e ∈ es, fullTeamOrSingle e = true) :
    FullTeams c.rt := by
  refine (run_induction_of (C := fun _ e => fullTeamOrSingle e = true)
    (P := fun c => FullTeams c.rt) (fun _ => .inl rfl) ?_ ?_ hrun).2
  · exact fun c e _ ha he hP => hP.step ha he
  · rintro pre e post rfl - -
    exact hteam e (by simp)

theorem phaseExits_run (hrun : run env es = some c) : PhaseExits c.rt c.graph := by
  refine (run_induction (P := fun c => PhaseExits c.rt c.graph) (fun _ hz => ?_) ?_ hrun).2
  · cases hz
  · exact fun c e hg ha hE => hE.step hg.shaped hg.sound ha

theorem acyclic_run (hrun : run env es = some c) (hfull : FullTeams c.rt) :
    Acyclic c.graph.Link := by
  refine ((run_induction
    (P := fun c => FullTeams c.rt → Acyclic c.graph.Link ∧ PhaseExits c.rt c.graph)
    ?_ ?_ hrun).2 hfull).1
  · refine fun _ => ⟨acyclic_of_empty fun a b hab => ?_, fun _ hz => ?_⟩
    · cases hab
    · cases hz
  · intro c e hg ha hP hfull
    have hfull' : FullTeams c.rt := fun r => fullTeam_of_apply hg.sound ha (hfull r)
    obtain ⟨hacyc, hE⟩ := hP hfull'
    exact ⟨acyclic_step hacyc hE hg.shaped hg.sound hg.alloc ha hfull',
      hE.step hg.shaped hg.sound ha⟩

/-- Explicit tasks execute no loops. -/
theorem explicit_no_loop (hrun : run env es = some c) (n : ℕ) :
    (c.rt.task (.explicit n)).inLoop = false := by
  refine (run_induction (P := fun c => (c.rt.task (.explicit n)).inLoop = false)
    rfl ?_ hrun).2
  intro c e hg ha hP
  have ht := taskChange ha (.explicit n)
  simp only [next]
  generalize (c.rt.apply e).task (.explicit n) = v at ht
  cases ht with
  | created => rfl
  | loopBegin _ _ _ hexp => cases hexp
  | loopEnd => rfl
  | _ => exact hP

theorem rooted_run (hrun : run env es = some c) : Rooted c.rt c.graph := by
  refine (run_induction (P := fun c => Rooted c.rt c.graph) ?_ ?_ hrun).2
  · intro x hx
    cases hx
  · intro c e hg ha hR
    exact hR.step hg.shaped hg.sound hg.loopsFresh ha

/-- When everything has ended, every node has been entered. -/
theorem joined_of_ended (hrun : run env es = some c) (hreg : c.rt.RegionsEnded)
    (htask : c.rt.TasksDone) (hx : c.rt.Created x) : Joined c.rt x := by
  have hg := run_good hrun
  cases x with
  | sink r =>
    rcases hs : (c.rt.region r).stage with - | - | -
    · exact absurd hs hx
    · exact absurd hs (hreg r)
    · exact (hg.sound.team r).ended_done hs
  | loopSink τ l =>
    -- an open loop belongs to a task in its body, and no task is
    have hloop : (c.rt.task τ).inLoop = false := by
      by_contra hl
      have hb := hg.sound.inLoop_inBody (τ := τ) (by simpa using hl)
      have hpres : (c.rt.task τ).standing ≠ .absent := by
        intro hs
        rw [hg.sound.fresh hs] at hl
        exact hl rfl
      cases τ with
      | explicit n => exact hl (explicit_no_loop hrun n)
      | initial i =>
        obtain rfl := hg.sound.one_initial hpres
        exact hl htask.1
      | implicit r t =>
        have hT := hg.sound.team r
        have hdone := (htask.2 (.implicit r t) (by simp)).resolve_left hpres
        have := hT.done_arrived hdone t (hT.thread_lt hpres)
        have hlt := hb.2
        simp only [Runtime.team] at this
        omega
    simp only [Created, TaskState.begun, hloop, Bool.toNat_false] at hx
    exact .inl (by omega)
  | _ => trivial

/-- **The structure of every run.**  Whatever the runtime delivers, as long as
every team is as large as requested: no callback fails, the graph has no cycle,
and no edge leads to a deleted node; and once all regions and tasks have ended,
every node can be reached from the only `rootTask` node. -/
theorem run_structure (hrun : Runtime.run es = some o) (hteam : ∀ e ∈ es, fullTeam e = true) :
    ∃ s, Tool.run env es = some s ∧ Acyclic s.toGraph.Adj ∧ s.toGraph.EdgesPresent ∧
      (o.RegionsEnded → o.TasksDone → ∃ root, ∀ n nd, s.nodes n = some nd →
        (nd.type = .rootTask ↔ n = root) ∧ ReflTransGen s.toGraph.Adj root n) := by
  obtain ⟨c, hc, rfl⟩ := run_of_runtime env hrun
  have hg := run_good hc
  have hfull := teams_run hc fun e he => fullTeamOrSingle_of_fullTeam (hteam e he)
  refine ⟨c.tool, tool_run hc, hg.image.acyclic (acyclic_run hc hfull), hg.edgesPresent, ?_⟩
  intro hreg htask
  refine ⟨c.graph.addr .root, fun n nd hn => ?_⟩
  obtain ⟨x, hl, rfl, rfl⟩ := hg.nodes_iff.mp hn
  have hx := hg.alloc.live_mem hl
  refine ⟨?_, hg.reach (rooted_run hc hl
    (joined_of_ended hc hreg htask (hg.shaped.live_iff.mp hl).1))⟩
  rw [addr_inj hx, show (c.graph.node x).type = x.type from hg.alloc.type_eq hx]
  cases x <;> simp [Role.type]

/-- A region of two threads; an explicit task of thread 0 is executed by
thread 1 in the barrier. -/
def taskInBarrier : List Event :=
  [⟨0, .threadBegin⟩, ⟨1, .threadBegin⟩,
    ⟨0, .taskCreate (.initial 0) (.initial 0) .initial⟩,
    ⟨0, .parallelBegin (.initial 0) 0 2 2 1⟩,
    ⟨0, .implicitTask .scopeBegin 0 (.implicit 0 0) 2 0⟩,
    ⟨1, .implicitTask .scopeBegin 0 (.implicit 0 1) 2 1⟩,
    ⟨0, .taskCreate (.implicit 0 0) (.explicit 0) .explicit⟩,
    ⟨1, .syncRegion .barrier .scopeBegin 0 (.implicit 0 1)⟩,
    ⟨1, .taskSchedule (.implicit 0 1) .others (.explicit 0)⟩,
    ⟨0, .syncRegion .barrier .scopeBegin 0 (.implicit 0 0)⟩,
    ⟨1, .taskSchedule (.explicit 0) .complete (.implicit 0 1)⟩,
    ⟨0, .syncRegion .barrier .scopeEnd 0 (.implicit 0 0)⟩,
    ⟨0, .implicitTask .scopeEnd 0 (.implicit 0 0) 2 0⟩,
    ⟨0, .parallelEnd 0 (.initial 0)⟩,
    ⟨1, .syncRegion .barrier .scopeEnd 0 (.implicit 0 1)⟩,
    ⟨1, .implicitTask .scopeEnd 0 (.implicit 0 1) 2 1⟩]

/-- The sample run is delivered to its end. -/
theorem taskInBarrier_ended :
    ∃ o, Runtime.run taskInBarrier = some o ∧ o.RegionsEnded ∧ o.TasksDone := by
  refine ⟨_, rfl, ?_, by decide, ?_⟩
  · intro r
    rcases r with - | r
    · decide
    · simp [Runtime.apply, Runtime.init]
  · intro τ hτ
    rcases τ with i | ⟨r, t⟩ | n
    · rcases i with - | i
      · exact absurd rfl hτ
      · exact .inl rfl
    · rcases r with - | r
      · rcases t with - | - | t
        · decide
        · decide
        · exact .inl rfl
      · exact .inl rfl
    · rcases n with - | n
      · decide
      · exact .inl rfl

theorem run_structure_taskInBarrier :
    ∃ s, Tool.run { clock := fun k => k } taskInBarrier = some s ∧
      Acyclic s.toGraph.Adj ∧ s.toGraph.EdgesPresent ∧
      ∃ root, ∀ n nd, s.nodes n = some nd →
        (nd.type = .rootTask ↔ n = root) ∧ ReflTransGen s.toGraph.Adj root n := by
  obtain ⟨o, ho, hreg, htask⟩ := taskInBarrier_ended
  obtain ⟨s, hs, hacyc, hpres, hreach⟩ := @run_structure { clock := fun k => k } _ _ ho (by decide)
  exact ⟨s, hs, hacyc, hpres, hreach hreg htask⟩

end Config

end Tdg
