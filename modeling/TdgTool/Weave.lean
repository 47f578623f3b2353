/-
TdgTool/Weave.lean

The graph as the union of what the tasks make, one callback at a time.

A thread stays where its strand says (`Mirrors`): a callback of its own moves it
by `Member.step`, and no other callback touches it.  What a callback adds to the
graph is what the act of its task makes (`Adds`), where a barrier node may be
there already.  So the graph keeps consisting of the pieces that have been made
(`Covers`), whoever made them, apart from the edges into nodes that a thread has
given up at its end.
-/
import TdgTool.Labels
import TdgTool.Strand

namespace Tdg

namespace Member

variable {m : Member} {s : Strand} {as : List Act} {a : Act} {p : Piece}

theorem after_snoc : m.after s (as ++ [a]) = m.step (m.after s as) a := by
  simp [after]

theorem trace_snoc : m.trace s (as ++ [a]) = m.trace s as ++ m.made (m.after s as) a := by
  rw [trace_append]
  simp [trace]

/-- A member makes the first nodes of its own phases only. -/
theorem made_top_imp (hp : p ∈ m.made s a) {r : RegionId} {t j : ℕ} (htop : p.top = .imp r t j) :
    r = m.region := by
  cases a with
  | enter =>
    simp only [made, List.mem_cons, List.not_mem_nil, or_false] at hp
    rcases hp with rfl | rfl <;> exact ((Role.imp.inj htop).1).symm
  | loopBegin =>
    simp only [made, List.mem_cons, List.not_mem_nil, or_false] at hp
    rcases hp with rfl | rfl | rfl <;> cases htop
  | chunk =>
    simp only [made, List.mem_cons, List.not_mem_nil, or_false] at hp
    rcases hp with rfl | rfl | rfl <;> cases htop
  | loopEnd =>
    simp only [made] at hp
    split_ifs at hp
    · obtain rfl := List.mem_singleton.mp hp
      cases htop
    · cases hp
  | arrive =>
    simp only [made] at hp
    split_ifs at hp
    · simp only [List.mem_cons, List.not_mem_nil, or_false] at hp
      rcases hp with rfl | rfl | rfl | rfl
      · cases htop
      · cases htop
      · exact ((Role.imp.inj htop).1).symm
      · exact ((Role.imp.inj htop).1).symm
    · cases hp
  | exit =>
    rcases hbar : s.bar with - | b
    · simp only [made, hbar] at hp
      obtain rfl := List.mem_singleton.mp hp
      cases htop
    · simp only [made, hbar] at hp
      split_ifs at hp
      · obtain rfl := List.mem_singleton.mp hp
        cases htop
      · cases hp
  | _ => cases hp

theorem trace_induction {Q : Piece → Prop} (h : ∀ s a p, p ∈ m.made s a → Q p)
    (hp : p ∈ m.trace s as) : Q p := by
  induction as generalizing s with
  | nil => cases hp
  | cons a as ih =>
    rcases List.mem_append.mp hp with hp | hp
    · exact h s a p hp
    · exact ih hp

/-- Barrier nodes have no bounds. -/
theorem made_barrier {r : RegionId} {i : ℕ} {lower upper : ℤ}
    (hp : .node (.barrier r i) lower upper ∈ m.made s a) : lower = 0 ∧ upper = 0 := by
  cases a with
  | arrive =>
    simp only [made] at hp
    split_ifs at hp
    · simp at hp
      exact hp.2
    · cases hp
  | loopEnd =>
    simp only [made] at hp
    split_ifs at hp <;> simp at hp
  | exit =>
    rcases hbar : s.bar with - | b
    · simp [made, hbar] at hp
    · simp only [made, hbar] at hp
      split_ifs at hp <;> simp at hp
  | _ => simp [made] at hp

end Member

namespace RoleGraph

open Tdg.Runtime

variable {o : Runtime} {g : RoleGraph} {env : Env} {e : Event} {x y : Role} {τ : TaskId}
  {r : RegionId} {th : ThreadId} {m : Member} {s : Strand} {a : Act}

/-! ### Whose callback it is -/

/-- The callbacks of the initial task of a program, with their guards. -/
inductive ByInitial (o : Runtime) : Event → Act → Prop
  | create {th : ThreadId} {parent : TaskId} (habs : (o.task (.initial 0)).standing = .absent) :
      ByInitial o ⟨th, .taskCreate parent (.initial 0) .initial⟩ .create
  | fork {th : ThreadId} {r : RegionId} {q m k : ℕ} (hactive : o.Acts th (.initial 0)) :
      ByInitial o ⟨th, .parallelBegin (.initial 0) r q m k⟩ (.fork r q m k)
  | join {th : ThreadId} {r : RegionId} (hfork : (o.task (.initial 0)).standing = .forked r) :
      ByInitial o ⟨th, .parallelEnd r (.initial 0)⟩ (.join r)

/-- The callbacks of a thread, with their guards. -/
inductive ByThread (o : Runtime) (r : RegionId) (t : ℕ) : Event → Act → Prop
  | enter {th : ThreadId} {n : ℕ} (hopen : (o.region r).stage = .opened)
      (habs : (o.task (.implicit r t)).standing = .absent) :
      ByThread o r t ⟨th, .implicitTask .scopeBegin r (.implicit r t) n t⟩ .enter
  | exit {th : ThreadId} {n : ℕ} (hactive : o.Acts th (.implicit r t)) :
      ByThread o r t ⟨th, .implicitTask .scopeEnd r (.implicit r t) n t⟩ .exit
  | arrive {th : ThreadId} (hactive : o.Acts th (.implicit r t))
      (hbody : o.InBody (.implicit r t)) :
      ByThread o r t ⟨th, .syncRegion .barrier .scopeBegin r (.implicit r t)⟩ .arrive
  | loopBegin {th : ThreadId} {lower upper : ℤ} (hactive : o.Acts th (.implicit r t)) :
      ByThread o r t ⟨th, .extLoop .scopeBegin (.implicit r t) lower upper⟩ (.loopBegin lower upper)
  | loopEnd {th : ThreadId} {lower upper : ℤ} (hactive : o.Acts th (.implicit r t))
      (hloop : (o.task (.implicit r t)).inLoop = true) :
      ByThread o r t ⟨th, .extLoop .scopeEnd (.implicit r t) lower upper⟩ .loopEnd
  | chunk {th : ThreadId} {lower upper : ℤ} (hactive : o.Acts th (.implicit r t)) :
      ByThread o r t ⟨th, .extChunk (.implicit r t) lower upper false⟩ (.chunk lower upper)

theorem byInitial_of_act (ha : o.allows e = true) (hact : e.act = some (.initial 0, a))
    (hof : a.ofInitial = true) : ByInitial o e a := by
  cases delivers_of_allows ha with
  | initial _ _ habs =>
    obtain ⟨-, rfl⟩ := Prod.mk.inj (Option.some.inj hact)
    exact .create habs
  | parallelBegin hactive =>
    obtain ⟨rfl, rfl⟩ := Prod.mk.inj (Option.some.inj hact)
    exact .fork hactive
  | parallelEnd _ _ hfork =>
    obtain ⟨hparent, rfl⟩ := Prod.mk.inj (Option.some.inj hact)
    rw [hparent] at hfork ⊢
    exact .join hfork
  | @outside _ endpoint => cases endpoint <;> cases hact
  | @sync _ kind _ _ _ _ _ hkind =>
    cases kind with
    | barrier => exact absurd rfl hkind
    | taskwait => cases hact
    | taskgroup => cases hact
  | @chunk _ _ _ _ lastChunk =>
    cases lastChunk with
    | true => cases hact
    | false =>
      obtain ⟨-, rfl⟩ := Prod.mk.inj (Option.some.inj hact)
      cases hof
  | threadBegin | threadEnd | schedule | barrierEnd => cases hact
  | _ =>
    obtain ⟨-, rfl⟩ := Prod.mk.inj (Option.some.inj hact)
    cases hof

theorem byThread_of_act {t : ℕ} (ha : o.allows e = true)
    (hact : e.act = some (.implicit r t, a)) (hof : a.ofThread = true) : ByThread o r t e a := by
  cases delivers_of_allows ha with
  | implicitBegin hopen _ habs =>
    obtain ⟨hτ, rfl⟩ := Prod.mk.inj (Option.some.inj hact)
    obtain ⟨rfl, rfl⟩ := TaskId.implicit.inj hτ
    exact .enter hopen habs
  | implicitEnd hactive =>
    obtain ⟨hτ, rfl⟩ := Prod.mk.inj (Option.some.inj hact)
    obtain ⟨rfl, rfl⟩ := TaskId.implicit.inj hτ
    exact .exit hactive
  | barrierBegin hactive hbody =>
    obtain ⟨hτ, rfl⟩ := Prod.mk.inj (Option.some.inj hact)
    obtain ⟨rfl, rfl⟩ := TaskId.implicit.inj hτ
    exact .arrive hactive hbody
  | loopBegin _ hactive =>
    obtain ⟨rfl, rfl⟩ := Prod.mk.inj (Option.some.inj hact)
    exact .loopBegin hactive
  | loopEnd hactive _ hloop =>
    obtain ⟨rfl, rfl⟩ := Prod.mk.inj (Option.some.inj hact)
    exact .loopEnd hactive hloop
  | @chunk _ _ _ _ lastChunk hactive =>
    cases lastChunk with
    | true => cases hact
    | false =>
      obtain ⟨rfl, rfl⟩ := Prod.mk.inj (Option.some.inj hact)
      exact .chunk hactive
  | @outside _ endpoint => cases endpoint <;> cases hact
  | @sync _ kind _ _ _ _ _ hkind =>
    cases kind with
    | barrier => exact absurd rfl hkind
    | taskwait => cases hact
    | taskgroup => cases hact
  | parallelBegin | parallelEnd | explicit | initial =>
    obtain ⟨-, rfl⟩ := Prod.mk.inj (Option.some.inj hact)
    cases hof
  | _ => cases hact

/-- A thread acts in a region that exists, and begins in one that is open. -/
theorem ByThread.region {t : ℕ} (h : ByThread o r t e a) (hS : o.Sound) :
    (o.region r).stage ≠ .absent ∧ (a = .enter → (o.region r).stage = .opened) := by
  have hactive : ∀ {th}, o.Acts th (.implicit r t) → (o.region r).stage ≠ .absent := by
    intro th h
    refine hS.region_present (t := t) ?_
    rw [h.2]
    exact fun he => by cases he
  cases h with
  | enter hopen => exact ⟨by simp [hopen], fun _ => hopen⟩
  | exit h | arrive h | loopBegin h | loopEnd h | chunk h =>
    exact ⟨hactive h, fun he => by cases he⟩

/-- While the initial task acts, no region is open that it has encountered,
unless it is about to end it. -/
theorem ByInitial.join_of_opened (h : ByInitial o e a) (hS : o.Sound)
    (hopen : (o.region r).stage = .opened) (hparent : (o.region r).parent = .initial 0) :
    a = .join r := by
  have hforked : (o.task (.initial 0)).standing = .forked r := hparent ▸ hS.opened_parent hopen
  cases h with
  | create habs =>
    rw [habs] at hforked
    cases hforked
  | fork hactive =>
    rw [hactive.2] at hforked
    cases hforked
  | join hfork =>
    rw [hforked] at hfork
    obtain rfl := Standing.forked.inj hfork
    rfl

/-- The initial task goes where its act leads. -/
theorem ByInitial.cur (h : ByInitial o e a) (ha : o.allows e = true) :
    (g.step env o e).cur (.initial 0) = Program.homeStep (g.cur (.initial 0)) a := by
  cases h with
  | create => exact cur_of_moved ha rfl
  | fork => exact Shaped.cur_of_not_moved ha (by simp [newCur])
  | join => exact cur_of_moved ha rfl

/-! ### Threads and their strands -/

/-- The thread is where its strand says. -/
structure Mirrors (o : Runtime) (g : RoleGraph) (m : Member) (s : Strand) : Prop where
  cur : g.cur m.task = s.cur
  bar : g.bar m.task = s.bar
  loops : (o.task m.task).loops = s.loops
  chunks : (o.task m.task).chunks (o.task m.task).loops = s.chunks
  arrived : (o.task m.task).arrived = s.arrived

/-- Only a callback of its own moves a task. -/
theorem act_of_newCur (ha : o.allows e = true) (hn : o.newCur e = some (τ, x))
    (hτ : τ.isExplicit = false) : ∃ a, e.act = some (τ, a) := by
  cases moves_of_newCur ha hn with
  | explicit => cases hτ
  | initial => exact ⟨_, rfl⟩
  | implicitBegin => exact ⟨_, rfl⟩
  | parallelEnd => exact ⟨_, rfl⟩
  | barrierBegin => exact ⟨_, rfl⟩
  | loopEnd => exact ⟨_, rfl⟩

theorem act_of_newBar (ha : o.allows e = true) {b : Option Role}
    (hn : o.newBar e = some (τ, b)) : ∃ a, e.act = some (τ, a) := by
  cases delivers_of_allows ha with
  | implicitBegin =>
    obtain ⟨rfl, -⟩ := Prod.mk.inj (Option.some.inj hn)
    exact ⟨_, rfl⟩
  | barrierBegin =>
    simp only [newBar] at hn
    split_ifs at hn
    obtain ⟨rfl, -⟩ := Prod.mk.inj (Option.some.inj hn)
    exact ⟨_, rfl⟩
  | @outside _ endpoint => cases endpoint <;> cases hn
  | @sync _ kind _ _ _ _ _ hkind =>
    cases kind with
    | barrier => exact absurd rfl hkind
    | taskwait => cases hn
    | taskgroup => cases hn
  | _ => cases hn

/-- A callback of another task leaves the counts of a task alone. -/
theorem counts_of_other (hS : o.Sound) (ha : o.allows e = true) (hn : ∀ a, e.act ≠ some (τ, a)) :
    ((o.apply e).task τ).loops = (o.task τ).loops ∧
      ((o.apply e).task τ).chunks = (o.task τ).chunks ∧
      ((o.apply e).task τ).arrived = (o.task τ).arrived := by
  have ht := taskChange ha τ
  generalize (o.apply e).task τ = v at ht
  have hact : ∀ {a} {c : Call}, e.call = c → (Event.mk e.thread c).act ≠ some (τ, a) := by
    intro a c hc
    subst hc
    exact hn a
  cases ht with
  | created _ habs =>
    rw [hS.fresh habs]
    exact ⟨rfl, rfl, rfl⟩
  | @reached r t hτ hcall =>
    subst hτ
    exact absurd rfl (hact hcall)
  | loopEnd _ _ _ hcall => exact absurd rfl (hact hcall)
  | chunk _ _ _ hcall => exact absurd rfl (hact hcall)
  | _ => exact ⟨rfl, rfl, rfl⟩

/-- No other task notices. -/
theorem Mirrors.other (h : Mirrors o g m s) (hS : o.Sound) (ha : o.allows e = true)
    (hn : ∀ a, e.act ≠ some (m.task, a)) : Mirrors (o.apply e) (g.step env o e) m s := by
  obtain ⟨hl, hc, harr⟩ := counts_of_other hS ha hn
  refine ⟨?_, ?_, hl.trans h.loops, ?_, harr.trans h.arrived⟩
  · rw [Shaped.cur_of_not_moved ha fun x hx => ?_, h.cur]
    obtain ⟨a, hact⟩ := act_of_newCur ha hx rfl
    exact hn a hact
  · rw [bar_of_not_set ha fun b hb => ?_, h.bar]
    obtain ⟨a, hact⟩ := act_of_newBar ha hb
    exact hn a hact
  · rw [hl, hc, h.chunks]

/-- **A thread goes where its act leads.** -/
theorem Mirrors.step (h : Mirrors o g m s) (hS : o.Sound) (hL : ∀ τ, LoopsFresh (o.task τ))
    (ha : o.allows e = true) (hby : ByThread o m.region m.num e a)
    (hreq : (o.region m.region).requested = m.threads) (hfull : FullTeam (o.region m.region)) :
    Mirrors (o.apply e) (g.step env o e) m (m.step s a) := by
  obtain ⟨r, t, n, entry⟩ := m
  have hloops : (o.task (.implicit r t)).loops = s.loops := h.loops
  have hchunks : (o.task (.implicit r t)).chunks (o.task (.implicit r t)).loops = s.chunks :=
    h.chunks
  have harr : (o.task (.implicit r t)).arrived = s.arrived := h.arrived
  have hbar : (∀ b, o.newBar e ≠ some (.implicit r t, b)) →
      (g.step env o e).bar (.implicit r t) = s.bar :=
    fun hn => (bar_of_not_set ha hn).trans h.bar
  have hcur : (∀ x, o.newCur e ≠ some (.implicit r t, x)) →
      (g.step env o e).cur (.implicit r t) = s.cur :=
    fun hn => (Shaped.cur_of_not_moved ha hn).trans h.cur
  cases hby with
  | enter _ habs =>
    rw [hS.fresh habs] at hloops hchunks harr
    refine ⟨cur_of_moved ha rfl, bar_of_set ha rfl, ?_, ?_, ?_⟩
    · simpa [Runtime.apply, Member.step] using hloops
    · simpa [Runtime.apply, Member.step] using hchunks
    · simpa [Runtime.apply, Member.step] using harr
  | exit =>
    refine ⟨hcur (by simp [newCur]), hbar (by simp [newBar]), ?_, ?_, ?_⟩
    · simpa [Runtime.apply, Member.step] using hloops
    · simpa [Runtime.apply, Member.step] using hchunks
    · simpa [Runtime.apply, Member.step] using harr
  | arrive hactive hbody =>
    -- the round of the region is the phase of the thread
    have hdiv : (o.region r).arrivals / (o.region r).requested = s.arrived :=
      (hS.arrivals_div hfull (by simp [hactive.2]) hbody).trans harr
    by_cases hn : 1 < n
    · have hq : 1 < (o.region r).requested := hn.trans_eq hreq.symm
      refine ⟨?_, ?_, ?_, ?_, ?_⟩
      · rw [cur_of_moved ha (by simp only [newCur, if_pos hq]; rfl)]
        simp [Member.step, hn, harr]
      · rw [bar_of_set ha (by simp only [newBar, if_pos hq]; rfl), hdiv]
        simp [Member.step, hn]
      · simpa [Runtime.apply, Member.step, hn] using hloops
      · simpa [Runtime.apply, Member.step, hn] using hchunks
      · simpa [Runtime.apply, Member.step, hn] using harr
    · have hq : ¬1 < (o.region r).requested := fun hq => hn (hq.trans_eq hreq)
      refine ⟨?_, ?_, ?_, ?_, ?_⟩
      · simpa [Member.step, hn] using hcur (by simp [newCur, hq])
      · simpa [Member.step, hn] using hbar (by simp [newBar, hq])
      · simpa [Runtime.apply, Member.step, hn] using hloops
      · simpa [Runtime.apply, Member.step, hn] using hchunks
      · simpa [Runtime.apply, Member.step, hn] using harr
  | loopBegin =>
    refine ⟨hcur (by simp [newCur]), hbar (by simp [newBar]), ?_, ?_, ?_⟩
    · simpa [Runtime.apply, Member.step] using hloops
    · simpa [Runtime.apply, Member.step] using hchunks
    · simpa [Runtime.apply, Member.step] using harr
  | loopEnd _ hloop =>
    -- the next loop has had no chunks
    have hfresh := hL (.implicit r t) ((o.task (.implicit r t)).loops + 1)
      (by simp [TaskState.begun, hloop])
    refine ⟨?_, hbar (by simp [newBar]), ?_, ?_, ?_⟩
    · rw [cur_of_moved ha rfl]
      simp [Member.step, hloops]
    · simpa [Runtime.apply, Member.step] using hloops
    · simpa [Runtime.apply, Member.step] using hfresh
    · simpa [Runtime.apply, Member.step] using harr
  | chunk =>
    refine ⟨hcur (by simp [newCur]), hbar (by simp [newBar]), ?_, ?_, ?_⟩
    · simpa [Runtime.apply, Member.step] using hloops
    · simpa [Runtime.apply, Member.step] using hchunks
    · simpa [Runtime.apply, Member.step] using harr

/-! ### What a callback adds -/

/-- The callback adds these pieces to the graph; a barrier node may be there
already. -/
structure Adds (o : Runtime) (g : RoleGraph) (e : Event) (ps : List Piece) : Prop where
  new : ∀ x ∈ o.newRoles e, ∃ lower upper, .node x lower upper ∈ ps
  node : ∀ x lower upper, .node x lower upper ∈ ps →
    (x ∈ o.newRoles e ∧ (g.newLabel o e x).lower = lower ∧ (g.newLabel o e x).upper = upper) ∨
      x ∈ g.order ∧ ∃ r i, x = .barrier r i
  edge : ∀ x y, .edge x y ∈ ps ↔ (x, y) ∈ g.newEdges o e

/-- Nothing new. -/
theorem adds_nil (hroles : o.newRoles e = []) (hedges : g.newEdges o e = []) : Adds o g e [] where
  new := by simp [hroles]
  node := by simp
  edge := by simp [hedges]

/-- **A callback adds what its task makes.** -/
theorem Mirrors.adds (h : Mirrors o g m s) (hW : Shaped o g) (hS : o.Sound)
    (hby : ByThread o m.region m.num e a)
    (hreq : (o.region m.region).requested = m.threads) (hfull : FullTeam (o.region m.region))
    (hentry : a = .enter → g.cur (o.region m.region).parent = m.entry) :
    Adds o g e (m.made s a) := by
  obtain ⟨r, t, n, entry⟩ := m
  have hcur : g.cur (.implicit r t) = s.cur := h.cur
  have hbar : g.bar (.implicit r t) = s.bar := h.bar
  have hloops : (o.task (.implicit r t)).loops = s.loops := h.loops
  have hchunks : (o.task (.implicit r t)).chunks s.loops = s.chunks := hloops ▸ h.chunks
  have harr : (o.task (.implicit r t)).arrived = s.arrived := h.arrived
  cases hby with
  | enter =>
    have hparent : g.cur (o.region r).parent = entry := hentry rfl
    refine ⟨?_, ?_, ?_⟩
    · simp [newRoles, Member.made]
    · rintro x lower upper hx
      simp only [Member.made, List.mem_cons, List.not_mem_nil, or_false, Piece.node.injEq,
        reduceCtorEq] at hx
      obtain ⟨rfl, rfl, rfl⟩ := hx
      exact .inl ⟨by simp [newRoles], rfl, rfl⟩
    · simp [newEdges, Member.made, hparent]
  | exit =>
    rcases hb : s.bar with - | b
    · rw [hb] at hbar
      refine ⟨by simp [newRoles], by simp [Member.made, hb], ?_⟩
      simp [newEdges, Member.made, hb, hbar, hcur]
    · rw [hb] at hbar
      by_cases ht : t = 0
      · refine ⟨by simp [newRoles], by simp [Member.made, hb, ht], ?_⟩
        subst ht
        simp [newEdges, Member.made, hb, hbar]
      · refine ⟨by simp [newRoles], by simp [Member.made, hb, ht], ?_⟩
        simp [newEdges, Member.made, hb, hbar, ht]
  | arrive hactive hbody =>
    have hdiv : (o.region r).arrivals / (o.region r).requested = s.arrived :=
      (hS.arrivals_div hfull (by simp [hactive.2]) hbody).trans harr
    by_cases hn : 1 < n
    · have hq : 1 < (o.region r).requested := hn.trans_eq hreq.symm
      refine ⟨?_, ?_, ?_⟩
      · intro x hx
        simp only [newRoles, if_pos hq, hdiv, harr, List.mem_append, List.mem_singleton] at hx
        rcases hx with hx | rfl
        · split_ifs at hx
          · obtain rfl := List.mem_singleton.mp hx
            exact ⟨0, 0, by simp [Member.made, hn]⟩
          · cases hx
        · exact ⟨0, 0, by simp [Member.made, hn]⟩
      · rintro x lower upper hx
        simp only [Member.made, if_pos hn, List.mem_cons, List.not_mem_nil, or_false,
          Piece.node.injEq, reduceCtorEq, false_or] at hx
        rcases hx with ⟨rfl, rfl, rfl⟩ | ⟨rfl, rfl, rfl⟩
        · by_cases hfirst : (o.region r).arrivals % (o.region r).requested = 0
          · exact .inl ⟨by simp [newRoles, hq, hfirst, hdiv], rfl, rfl⟩
          · -- someone has been here before
            refine .inr ⟨hW.order_iff.mpr ⟨hq, ?_⟩, r, s.arrived, rfl⟩
            have hmod := Nat.div_add_mod (o.region r).arrivals (o.region r).requested
            rw [hdiv, mul_comm] at hmod
            omega
        · exact .inl ⟨by simp [newRoles, hq, harr], rfl, rfl⟩
      · simp [newEdges, Member.made, hn, hq, hdiv, harr, hcur]
    · have hq : ¬1 < (o.region r).requested := fun hq => hn (hq.trans_eq hreq)
      have hmade : Member.made ⟨r, t, n, entry⟩ s .arrive = [] := by simp [Member.made, hn]
      rw [hmade]
      exact adds_nil (by simp [newRoles, hq]) (by simp [newEdges, hq])
  | @loopBegin _ lo up =>
    refine ⟨?_, ?_, ?_⟩
    · intro x hx
      simp only [newRoles, hloops, List.mem_cons, List.not_mem_nil, or_false] at hx
      rcases hx with rfl | rfl
      · exact ⟨lo, up, by simp [Member.made]⟩
      · exact ⟨0, 0, by simp [Member.made]⟩
    · rintro x lower upper hx
      simp only [Member.made, List.mem_cons, List.not_mem_nil, or_false, Piece.node.injEq,
        reduceCtorEq, false_or] at hx
      rcases hx with ⟨rfl, rfl, rfl⟩ | ⟨rfl, rfl, rfl⟩
      · exact .inl ⟨by simp [newRoles, hloops], by simp [newLabel, hloops]⟩
      · exact .inl ⟨by simp [newRoles, hloops], by simp [newLabel]⟩
    · simp [newEdges, Member.made, hloops, hcur]
  | loopEnd =>
    by_cases hc : s.chunks = 0
    · refine ⟨by simp [newRoles], by simp [Member.made, hc], ?_⟩
      simp only [newEdges, Member.made, hloops, hchunks, if_pos hc]
      simp
    · refine ⟨by simp [newRoles], by simp [Member.made, hc], ?_⟩
      simp only [newEdges, Member.made, hloops, hchunks, if_neg hc]
      simp
  | @chunk _ lo up =>
    refine ⟨?_, ?_, ?_⟩
    · intro x hx
      simp only [newRoles, Bool.false_eq_true, if_false, hloops, hchunks,
        List.mem_singleton] at hx
      exact ⟨lo, up, by simp [Member.made, hx]⟩
    · rintro x lower upper hx
      simp only [Member.made, List.mem_cons, List.not_mem_nil, or_false, Piece.node.injEq,
        reduceCtorEq] at hx
      obtain ⟨rfl, rfl, rfl⟩ := hx
      refine .inl ⟨?_, rfl, rfl⟩
      simp only [newRoles, Bool.false_eq_true, if_false, hloops, hchunks]
      simp
    · simp only [newEdges, Member.made, Bool.false_eq_true, if_false, hloops, hchunks]
      simp

/-- What the initial task makes: the root, and the sinks of its regions. -/
def homeMade : Act → List Piece
  | .create => [.node .root 0 0]
  | .fork r _ _ _ => [.node (.sink r) 0 0]
  | _ => []

theorem ByInitial.adds (h : ByInitial o e a) : Adds o g e (homeMade a) := by
  have hone : ∀ {x}, o.newRoles e = [x] → (∀ y, g.newLabel o e y = {}) → g.newEdges o e = [] →
      Adds o g e [.node x 0 0] := by
    intro x hroles hlabel hedges
    refine ⟨by simp [hroles], ?_, by simp [hedges]⟩
    rintro y lower upper hy
    obtain ⟨rfl, rfl, rfl⟩ := Piece.node.inj (List.mem_singleton.mp hy)
    exact .inl ⟨by simp [hroles], by simp [hlabel]⟩
  cases h with
  | create => exact hone rfl (fun _ => rfl) rfl
  | fork => exact hone rfl (fun _ => rfl) rfl
  | join => exact adds_nil rfl rfl

/-- A callback that is no act of any task adds nothing. -/
theorem adds_none (ha : o.allows e = true) (hact : e.act = none) : Adds o g e [] := by
  cases delivers_of_allows ha with
  | threadBegin | threadEnd | schedule | barrierEnd => exact adds_nil rfl rfl
  | @outside _ endpoint => cases endpoint <;> exact adds_nil rfl rfl
  | @sync _ kind _ _ _ _ _ hkind =>
    cases kind with
    | barrier => exact absurd rfl hkind
    | taskwait => exact adds_nil rfl rfl
    | taskgroup => exact adds_nil rfl rfl
  | @chunk _ _ _ _ lastChunk =>
    cases lastChunk with
    | true => exact adds_nil rfl rfl
    | false => cases hact
  | _ => cases hact

/-! ### The graph as a union of pieces -/

/-- The graph consists of the pieces that have been made, up to edges into nodes
that have been removed. -/
structure Covers (g : RoleGraph) (M : Piece → Prop) : Prop where
  order : ∀ x, x ∈ g.order ↔ ∃ lower upper, M (.node x lower upper)
  bounds : ∀ x lower upper, M (.node x lower upper) →
    (g.label x).lower = lower ∧ (g.label x).upper = upper
  target : ∀ x y, M (.edge x y) → y ∈ g.order
  made : ∀ x y, g.Link x y → M (.edge x y)
  link : ∀ x y, M (.edge x y) → g.live y = true → g.Link x y

theorem covers_init : Covers RoleGraph.init fun _ => False where
  order := by simp [RoleGraph.init]
  bounds := by simp
  target := by simp
  made := by simp [Link, RoleGraph.init]
  link := by simp

/-- **More is made, and the graph grows by as much.** -/
theorem Covers.step {M M' : Piece → Prop} {ps : List Piece} (h : Covers g M) (hW : Shaped o g)
    (hA : Alloc (g.step env o e)) (ha : o.allows e = true) (hadds : Adds o g e ps)
    (hM : ∀ p, M' p ↔ M p ∨ p ∈ ps)
    (hbar : ∀ r i lower upper, M' (.node (.barrier r i) lower upper) → lower = 0 ∧ upper = 0) :
    Covers (g.step env o e) M' := by
  have hfresh : ∀ {x}, x ∈ o.newRoles e → x ∉ g.order :=
    fun hx hold => newRoles_fresh ha hx (hW.order_iff.mp hold)
  have hold : ∀ {x}, x ∈ g.order → (g.step env o e).label x = g.label x := by
    intro x hx
    rw [step_label ha, if_neg fun hnew => hfresh hnew hx]
  have hlink : ∀ {x y}, (x, y) ∈ g.newEdges o e → (g.step env o e).Link x y :=
    fun hnew => (mem_step_edges ha).mpr (.inr hnew)
  refine ⟨fun x => ?_, fun x lower upper hx => ?_, fun x y hxy => ?_, fun x y hxy => ?_,
    fun x y hxy hy => ?_⟩
  · rw [step_order ha, List.mem_append]
    constructor
    · rintro (hx | hx)
      · obtain ⟨lower, upper, hm⟩ := (h.order x).mp hx
        exact ⟨lower, upper, (hM _).mpr (.inl hm)⟩
      · obtain ⟨lower, upper, hm⟩ := hadds.new x hx
        exact ⟨lower, upper, (hM _).mpr (.inr hm)⟩
    · rintro ⟨lower, upper, hm⟩
      rcases (hM _).mp hm with hm | hm
      · exact .inl ((h.order x).mpr ⟨lower, upper, hm⟩)
      · exact (hadds.node x lower upper hm).symm.imp And.left And.left
  · rcases (hM _).mp hx with hm | hm
    · rw [hold ((h.order x).mpr ⟨lower, upper, hm⟩)]
      exact h.bounds x lower upper hm
    · rcases hadds.node x lower upper hm with ⟨hnew, hlabel⟩ | ⟨hin, r, i, rfl⟩
      · rw [step_label ha, if_pos hnew]
        exact hlabel
      · -- the barrier node that is there has no bounds either
        obtain ⟨lower', upper', hm'⟩ := (h.order _).mp hin
        obtain ⟨rfl, rfl⟩ := hbar r i lower upper hx
        obtain ⟨rfl, rfl⟩ := hbar r i lower' upper' ((hM _).mpr (.inl hm'))
        rw [hold hin]
        exact h.bounds _ _ _ hm'
  · rcases (hM _).mp hxy with hm | hm
    · rw [step_order ha]
      exact List.mem_append_left _ (h.target x y hm)
    · exact (hA.edges_mem (hlink ((hadds.edge x y).mp hm))).2
  · rcases (mem_step_edges ha).mp hxy with ⟨hin, -⟩ | hnew
    · exact (hM _).mpr (.inl (h.made x y hin))
    · exact (hM _).mpr (.inr ((hadds.edge x y).mpr hnew))
  · rcases (hM _).mp hxy with hm | hm
    · obtain ⟨hlive, hkeep⟩ := (step_live ha).mp hy
      have hlive' : g.live y = true :=
        hlive.resolve_right fun hnew => hfresh hnew (h.target x y hm)
      exact (mem_step_edges ha).mpr (.inl ⟨h.link x y hm hlive', hkeep x⟩)
    · exact hlink ((hadds.edge x y).mp hm)

end RoleGraph

end Tdg
