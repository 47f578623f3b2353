/-
TdgTool/Determinism.lean

The graph depends on what each task has called, and on nothing else.

Along a run with complete teams, every task is where its own history says
(`Stands`), a region was forked where its encountering task still is, and the
graph consists of what the histories have made (`Told`).  None of this mentions
the order in which calls of different tasks have been delivered, nor the threads
that have delivered them.  Two runs in which every task has called the same
therefore have stored the same graph, up to the names of the nodes, wherever
both of them stand: in the middle of nested regions, loops and explicit tasks as
well as at the end.
-/
import TdgTool.Branch
import TdgTool.Histories
import TdgTool.Reference

namespace Tdg

namespace RoleGraph

open Tdg.Runtime

variable {o : Runtime} {g : RoleGraph} {env : Env} {e : Event} {x y : Role} {τ : TaskId}
  {r : RegionId} {th : ThreadId} {p : Post}

/-! ### Tasks and their posts -/

/-- The task is where its history says. -/
structure Stands (o : Runtime) (g : RoleGraph) (τ : TaskId) (p : Post) : Prop where
  cur : g.cur τ = p.cur
  bar : g.bar τ = p.bar
  loops : (o.task τ).loops = p.loops
  chunks : (o.task τ).chunks (o.task τ).loops = p.chunks
  arrived : (o.task τ).arrived = p.arrived
  threads : ∀ r t, τ = .implicit r t → (o.region r).requested = p.threads

/-- The owner of a callback exists already, or is created by it. -/
theorem present_of_owner (ha : o.allows e = true) (howner : e.owner = some τ) :
    Creates e τ ∧ (o.task τ).standing = .absent ∨ (o.task τ).standing ≠ .absent := by
  have hact : ∀ {th σ}, o.Acts th σ → (o.task σ).standing ≠ .absent :=
    fun h => by simp [h.2]
  cases delivers_of_allows ha with
  | initial _ _ habs =>
    obtain rfl := Option.some.inj howner
    exact .inl ⟨.initial, habs⟩
  | implicitBegin _ _ habs =>
    obtain rfl := Option.some.inj howner
    exact .inl ⟨.implicit, habs⟩
  | parallelEnd _ _ hfork =>
    obtain rfl := Option.some.inj howner
    exact .inr (by simp [hfork])
  | explicit h | parallelBegin h | implicitEnd h | barrierBegin h | loopBegin _ h | loopEnd h =>
    obtain rfl := Option.some.inj howner
    exact .inr (hact h)
  | @chunk _ _ _ _ lastChunk h =>
    cases lastChunk with
    | true => cases howner
    | false =>
      obtain rfl := Option.some.inj howner
      exact .inr (hact h)
  | @outside _ endpoint => cases endpoint <;> cases howner
  | @sync _ kind _ _ _ _ _ hkind =>
    cases kind with
    | barrier => exact absurd rfl hkind
    | taskwait => cases howner
    | taskgroup => cases howner
  | threadBegin | threadEnd | schedule | barrierEnd => cases howner

theorem present_of_creates (hcr : Creates e τ) : ((o.apply e).task τ).standing ≠ .absent := by
  cases hcr <;> simp [Runtime.apply]

/-- A task that exists is moved by its own calls only. -/
theorem owner_of_newCur (ha : o.allows e = true) (hpres : (o.task τ).standing ≠ .absent)
    (hn : o.newCur e = some (τ, x)) : e.owner = some τ := by
  cases moves_of_newCur ha hn with
  | explicit habs => exact absurd habs hpres
  | _ => rfl

/-- No other task notices. -/
theorem Stands.other (h : Stands o g τ p) (hS : o.Sound) (ha : o.allows e = true)
    (hpres : (o.task τ).standing ≠ .absent) (howner : e.owner ≠ some τ) :
    Stands (o.apply e) (g.step env o e) τ p := by
  obtain ⟨hl, hc, harr⟩ := counts_of_other hS ha (act_of_owner howner)
  refine ⟨?_, ?_, hl.trans h.loops, ?_, harr.trans h.arrived, ?_⟩
  · rw [Shaped.cur_of_not_moved ha fun x hx => howner (owner_of_newCur ha hpres hx), h.cur]
  · rw [bar_of_not_set ha fun b hb => ?_, h.bar]
    obtain ⟨a, hact⟩ := act_of_newBar ha hb
    exact act_of_owner howner a hact
  · rw [hl, hc, h.chunks]
  · rintro r t rfl
    rw [(region_apply_fixed ha (hS.region_present hpres)).2.1]
    exact h.threads r t rfl

/-- A task that has just been created stands at its first node; the call is in its
own history, unless it is an explicit task. -/
theorem Stands.created (env : Env) (hW : Shaped o g) (hS : o.Sound) (ha : o.allows e = true)
    (hcr : Creates e τ) (habs : (o.task τ).standing = .absent)
    (hsize : ∀ r, (o.region r).teamSize = (o.region r).requested) :
    Stands (o.apply e) (g.step env o e) τ ((Post.start τ).step e.call) ∧
      (e.owner = some τ ∨ (Post.start τ).step e.call = Post.start τ ∧ e.owner ≠ some τ) := by
  have hfresh := hS.fresh habs
  have hbar : g.bar τ = none := hW.bar_none fun r t _ => .inr (by rw [hfresh])
  cases hcr with
  | initial =>
    refine ⟨⟨cur_of_moved ha rfl, ?_, ?_, ?_, ?_, by simp⟩, .inl rfl⟩
    · rw [bar_of_not_set ha (by simp [newBar]), hbar]
      rfl
    · simp [Runtime.apply, Post.step, Post.start]
    · simp [Runtime.apply, Post.step, Post.start]
    · simp [Runtime.apply, Post.step, Post.start]
  | @explicit _ parent n =>
    have hne : parent ≠ .explicit n := by
      rintro rfl
      cases delivers_of_allows ha with
      | explicit hact => simp [hact.2] at habs
    refine ⟨⟨cur_of_moved ha rfl, ?_, ?_, ?_, ?_, by simp⟩, .inr ⟨rfl, ?_⟩⟩
    · rw [bar_of_not_set ha (by simp [newBar]), hbar]
      rfl
    · simp [Runtime.apply, Post.step, Post.start]
    · simp [Runtime.apply, Post.step, Post.start]
    · simp [Runtime.apply, Post.step, Post.start]
    · simpa [Event.owner, Event.act] using hne
  | implicit =>
    cases delivers_of_allows ha with
    | implicitBegin hopen =>
      refine ⟨⟨cur_of_moved ha rfl, bar_of_set ha rfl, ?_, ?_, ?_, ?_⟩, .inl rfl⟩
      · simp [Runtime.apply, Post.step, Post.start]
      · simp [Runtime.apply, Post.step, Post.start]
      · simp [Runtime.apply, Post.step, Post.start]
      · rintro r t hrt
        obtain ⟨rfl, rfl⟩ := TaskId.implicit.inj hrt
        simp [Runtime.apply, Post.step, hsize]

/-- **A task goes where its call leads.** -/
theorem Stands.step (h : Stands o g τ p) (hS : o.Sound) (hL : ∀ τ, LoopsFresh (o.task τ))
    (ha : o.allows e = true) (hpres : (o.task τ).standing ≠ .absent)
    (howner : e.owner = some τ)
    (hsize : ∀ r, (o.region r).teamSize = (o.region r).requested) :
    Stands (o.apply e) (g.step env o e) τ (p.step e.call) := by
  have hcur : (∀ x, o.newCur e ≠ some (τ, x)) → (g.step env o e).cur τ = p.cur :=
    fun hn => (Shaped.cur_of_not_moved ha hn).trans h.cur
  have hbar : (∀ b, o.newBar e ≠ some (τ, b)) → (g.step env o e).bar τ = p.bar :=
    fun hn => (bar_of_not_set ha hn).trans h.bar
  have hthreads : ∀ r t, τ = .implicit r t → ((o.apply e).region r).requested = p.threads := by
    rintro r t rfl
    rw [(region_apply_fixed ha (hS.region_present hpres)).2.1]
    exact h.threads r t rfl
  -- calls that do not move the task keep its counts
  have hstay : (∀ x, o.newCur e ≠ some (τ, x)) → (∀ b, o.newBar e ≠ some (τ, b)) →
      ((o.apply e).task τ).loops = (o.task τ).loops →
      ((o.apply e).task τ).chunks = (o.task τ).chunks →
      ((o.apply e).task τ).arrived = (o.task τ).arrived →
      Stands (o.apply e) (g.step env o e) τ p := by
    intro hnc hnb hl hc harr
    exact ⟨hcur hnc, hbar hnb, hl.trans h.loops, by rw [hl, hc, h.chunks], harr.trans h.arrived,
      hthreads⟩
  obtain ⟨-, -, hloops, hchunks, harr, hteam⟩ := h
  cases delivers_of_allows ha with
  | initial _ _ habs | implicitBegin _ _ habs =>
    obtain rfl := Option.some.inj howner
    exact absurd habs hpres
  | @explicit _ parent n hact _ habs =>
    obtain rfl := Option.some.inj howner
    have hne : parent ≠ .explicit n := fun he => hpres (he ▸ habs)
    exact hstay (by simp [newCur, hne.symm]) (by simp [newBar]) (by simp [Runtime.apply, hne])
      (by simp [Runtime.apply, hne]) (by simp [Runtime.apply, hne])
  | parallelBegin | implicitEnd | loopBegin =>
    obtain rfl := Option.some.inj howner
    exact hstay (by simp [newCur]) (by simp [newBar]) (by simp [Runtime.apply])
      (by simp [Runtime.apply]) (by simp [Runtime.apply])
  | parallelEnd =>
    obtain rfl := Option.some.inj howner
    refine ⟨cur_of_moved ha rfl, hbar (by simp [newBar]), ?_, ?_, ?_, hthreads⟩
    · simpa [Runtime.apply, Post.step] using hloops
    · simpa [Runtime.apply, Post.step] using hchunks
    · simpa [Runtime.apply, Post.step] using harr
  | @barrierBegin _ r t hactive hbody =>
    obtain rfl := Option.some.inj howner
    have hn : (o.region r).requested = p.threads := hteam r t rfl
    -- the round of the region is the phase of the thread
    have hdiv : (o.region r).arrivals / (o.region r).requested = p.arrived :=
      (hS.arrivals_div (.inl (hsize r)) hpres hbody).trans harr
    by_cases hq : 1 < (o.region r).requested
    · have hp : 1 < p.threads := hn ▸ hq
      refine ⟨?_, ?_, ?_, ?_, ?_, ?_⟩
      · rw [cur_of_moved ha (by simp only [newCur, if_pos hq]; rfl)]
        simp [Post.step, hp, harr]
      · rw [bar_of_set ha (by simp only [newBar, if_pos hq]; rfl), hdiv]
        simp [Post.step, hp]
      · simpa [Runtime.apply, Post.step, hp] using hloops
      · simpa [Runtime.apply, Post.step, hp] using hchunks
      · simpa [Runtime.apply, Post.step, hp] using harr
      · simpa [Post.step, hp] using hthreads
    · have hp : ¬1 < p.threads := hn ▸ hq
      refine ⟨?_, ?_, ?_, ?_, ?_, ?_⟩
      · simpa [Post.step, hp] using hcur (by simp [newCur, hq])
      · simpa [Post.step, hp] using hbar (by simp [newBar, hq])
      · simpa [Runtime.apply, Post.step, hp] using hloops
      · simpa [Runtime.apply, Post.step, hp] using hchunks
      · simpa [Runtime.apply, Post.step, hp] using harr
      · simpa [Post.step, hp] using hthreads
  | @loopEnd _ τ _ _ _ _ hloop =>
    obtain rfl := Option.some.inj howner
    -- the next loop has had no chunks
    have hfresh := hL τ ((o.task τ).loops + 1) (by simp [TaskState.begun, hloop])
    refine ⟨?_, hbar (by simp [newBar]), ?_, ?_, ?_, hthreads⟩
    · rw [cur_of_moved ha rfl]
      simp [Post.step, hloops]
    · simpa [Runtime.apply, Post.step] using hloops
    · simpa [Runtime.apply, Post.step] using hfresh
    · simpa [Runtime.apply, Post.step] using harr
  | @chunk _ _ _ _ lastChunk =>
    cases lastChunk with
    | true => cases howner
    | false =>
      obtain rfl := Option.some.inj howner
      refine ⟨hcur (by simp [newCur]), hbar (by simp [newBar]), ?_, ?_, ?_, hthreads⟩
      · simpa [Runtime.apply, Post.step] using hloops
      · simpa [Runtime.apply, Post.step] using hchunks
      · simpa [Runtime.apply, Post.step] using harr
  | @outside _ endpoint => cases endpoint <;> cases howner
  | @sync _ kind _ _ _ _ _ hkind =>
    cases kind with
    | barrier => exact absurd rfl hkind
    | taskwait => cases howner
    | taskgroup => cases howner
  | threadBegin | threadEnd | schedule | barrierEnd => cases howner

/-! ### What a callback adds -/

/-- The edge into the first node of an implicit task, when it begins. -/
def entryEdge (o : Runtime) (g : RoleGraph) : Call → List Piece
  | .implicitTask .scopeBegin r _ _ t => [.edge (g.cur (o.region r).parent) (.imp r t 0)]
  | _ => []

theorem adds_of (nodes : List (Role × ℤ × ℤ)) {ps : List Piece}
    (hroles : o.newRoles e = nodes.map Prod.fst)
    (hlabel : ∀ n ∈ nodes, (g.newLabel o e n.1).lower = n.2.1 ∧ (g.newLabel o e n.1).upper = n.2.2)
    (hps : ∀ p, p ∈ ps ↔ (∃ n ∈ nodes, .node n.1 n.2.1 n.2.2 = p) ∨
      ∃ a ∈ g.newEdges o e, .edge a.1 a.2 = p) : Adds o g e ps where
  new := by
    intro x hx
    rw [hroles] at hx
    obtain ⟨n, hn, rfl⟩ := List.mem_map.mp hx
    exact ⟨n.2.1, n.2.2, (hps _).mpr (.inl ⟨n, hn, rfl⟩)⟩
  node := by
    intro x lower upper hx
    rcases (hps _).mp hx with ⟨n, hn, hnx⟩ | ⟨a, -, ha⟩
    · obtain ⟨rfl, rfl, rfl⟩ := Piece.node.inj hnx
      exact .inl ⟨hroles ▸ List.mem_map_of_mem hn, hlabel n hn⟩
    · cases ha
  edge := by
    intro x y
    rw [hps]
    constructor
    · rintro (⟨n, -, hn⟩ | ⟨a, ha, hxy⟩)
      · cases hn
      · obtain ⟨rfl, rfl⟩ := Piece.edge.inj hxy
        exact ha
    · exact fun hxy => .inr ⟨(x, y), hxy, rfl⟩

/-- **A callback adds what its owner makes.** -/
theorem Stands.adds (h : (o.task τ).standing ≠ .absent → Stands o g τ p) (hW : Shaped o g)
    (hS : o.Sound) (ha : o.allows e = true) (howner : e.owner = some τ)
    (hsize : ∀ r, (o.region r).teamSize = (o.region r).requested) :
    Adds o g e (p.made e.call ++ entryEdge o g e.call) := by
  have hactive : ∀ {th}, o.Acts th τ → Stands o g τ p := fun hact => h (by simp [hact.2])
  cases delivers_of_allows ha with
  | initial =>
    exact adds_of [(.root, 0, 0)] rfl (by simp [newLabel])
      (by simp [Post.made, entryEdge, newEdges, eq_comm])
  | @implicitBegin _ r t =>
    exact adds_of [(.imp r t 0, 0, 0)] rfl (by simp [newLabel])
      (by simp [Post.made, entryEdge, newEdges, eq_comm])
  | @parallelBegin _ _ r =>
    exact adds_of [(.sink r, 0, 0)] rfl (by simp [newLabel])
      (by simp [Post.made, entryEdge, newEdges, eq_comm])
  | parallelEnd =>
    exact adds_nil rfl rfl
  | @explicit _ parent n hact =>
    obtain rfl := Option.some.inj howner
    have hcur := (hactive hact).cur
    exact adds_of [(.exp n, 0, 0)] rfl (by simp [newLabel])
      (by simp [Post.made, entryEdge, newEdges, hcur, eq_comm])
  | @implicitEnd _ r t _ hact =>
    obtain rfl := Option.some.inj howner
    obtain ⟨hcur, hbar, -⟩ := hactive hact
    refine adds_of [] rfl (by simp) fun q => ?_
    rcases hb : p.bar with - | b
    · rw [hb] at hbar
      simp [Post.made, entryEdge, newEdges, hb, hbar, hcur, eq_comm]
    · rw [hb] at hbar
      by_cases ht : t = 0
      · subst ht
        simp [Post.made, entryEdge, newEdges, hb, hbar, eq_comm]
      · simp [Post.made, entryEdge, newEdges, hb, hbar, ht]
  | @barrierBegin _ r t hact hbody =>
    obtain rfl := Option.some.inj howner
    have hpres : (o.task (.implicit r t)).standing ≠ .absent := by simp [hact.2]
    obtain ⟨hcur, -, -, -, harr, hteam⟩ := h hpres
    have hn : (o.region r).requested = p.threads := hteam r t rfl
    -- the round of the region is the phase of the thread
    have hdiv : (o.region r).arrivals / (o.region r).requested = p.arrived :=
      (hS.arrivals_div (.inl (hsize r)) hpres hbody).trans harr
    by_cases hq : 1 < (o.region r).requested
    · have hp : 1 < p.threads := hn ▸ hq
      refine ⟨?_, ?_, ?_⟩
      · intro x hx
        simp only [newRoles, if_pos hq, hdiv, harr, List.mem_append, List.mem_singleton] at hx
        rcases hx with hx | rfl
        · split_ifs at hx
          · obtain rfl := List.mem_singleton.mp hx
            exact ⟨0, 0, by simp [Post.made, hp]⟩
          · cases hx
        · exact ⟨0, 0, by simp [Post.made, hp]⟩
      · rintro x lower upper hx
        simp only [Post.made, if_pos hp, entryEdge, List.append_nil, List.mem_cons,
          List.not_mem_nil, or_false, Piece.node.injEq, reduceCtorEq, false_or] at hx
        rcases hx with ⟨rfl, rfl, rfl⟩ | ⟨rfl, rfl, rfl⟩
        · by_cases hfirst : (o.region r).arrivals % (o.region r).requested = 0
          · exact .inl ⟨by simp [newRoles, hq, hfirst, hdiv], rfl, rfl⟩
          · -- someone has been here before
            refine .inr ⟨hW.order_iff.mpr ⟨hq, ?_⟩, r, p.arrived, rfl⟩
            have hmod := Nat.div_add_mod (o.region r).arrivals (o.region r).requested
            rw [hdiv, mul_comm] at hmod
            omega
        · exact .inl ⟨by simp [newRoles, hq, harr], rfl, rfl⟩
      · simp [newEdges, Post.made, entryEdge, hp, hq, hdiv, harr, hcur]
    · have hp : ¬1 < p.threads := hn ▸ hq
      exact adds_of [] (by simp [newRoles, hq]) (by simp)
        (by simp [Post.made, entryEdge, newEdges, hp, hq])
  | @loopBegin _ τ' lower upper _ hact =>
    obtain rfl := Option.some.inj howner
    obtain ⟨hcur, -, hloops, -⟩ := hactive hact
    refine adds_of [(.ws τ' p.loops, lower, upper), (.loopSink τ' p.loops, 0, 0)]
      (by simp [newRoles, hloops]) (by simp [newLabel, hloops]) fun q => ?_
    simp only [Post.made, entryEdge, newEdges, hcur, hloops]
    simp [eq_comm]
    tauto
  | @loopEnd _ τ' _ _ hact =>
    obtain rfl := Option.some.inj howner
    obtain ⟨-, -, hloops, hchunks, -⟩ := hactive hact
    rw [hloops] at hchunks
    refine adds_of [] rfl (by simp) fun q => ?_
    simp only [Post.made, entryEdge, newEdges, hloops]
    rw [hchunks]
    split_ifs <;> simp [eq_comm]
  | @chunk _ τ' lower upper lastChunk hact =>
    cases lastChunk with
    | true => cases howner
    | false =>
      obtain rfl := Option.some.inj howner
      obtain ⟨-, -, hloops, hchunks, -⟩ := hactive hact
      rw [hloops] at hchunks
      refine adds_of [(.chunk τ' p.loops p.chunks, lower, upper)]
        (by simp [newRoles, hloops, hchunks]) (by simp [newLabel]) fun q => ?_
      simp only [Post.made, entryEdge, newEdges, hloops]
      simp [hchunks, eq_comm]
  | @outside _ endpoint => cases endpoint <;> cases howner
  | @sync _ kind _ _ _ _ _ hkind =>
    cases kind with
    | barrier => exact absurd rfl hkind
    | taskwait => cases howner
    | taskgroup => cases howner
  | threadBegin | threadEnd | schedule | barrierEnd => cases howner

end RoleGraph

namespace Config

open RoleGraph Tdg.Runtime Histories

variable {es : List Event} {e : Event} {c : Config} {env : Env} {p : Piece} {x y : Role}
  {r : RegionId} {τ : TaskId}

/-! ### Runs and their histories -/

/-- **The state of a run**, in terms of what each task has called. -/
structure Told (es : List Event) (c : Config) : Prop where
  size : ∀ r, (c.rt.region r).teamSize = (c.rt.region r).requested
  stands : ∀ τ, (c.rt.task τ).standing ≠ .absent →
    Stands c.rt c.graph τ (Post.after τ (calls τ es))
  silent : ∀ τ, (c.rt.task τ).standing = .absent → calls τ es = []
  ended : ∀ r t, (c.rt.task (.implicit r t)).standing = .done ↔
    ∃ n, .implicitTask .scopeEnd r (.implicit r t) n t ∈ calls (.implicit r t) es
  forked : ∀ r x, (ofRun es).ForkedAt r x → (c.rt.region r).stage ≠ .absent ∧
    ((c.rt.region r).stage = .opened → c.graph.cur (c.rt.region r).parent = x)
  opened : ∀ r, (c.rt.region r).stage = .opened →
    (ofRun es).ForkedAt r (c.graph.cur (c.rt.region r).parent)
  covers : Covers c.graph (ofRun es).Made

theorem told_init : Told [] Config.init where
  size := fun _ => rfl
  stands := by simp [Config.init, Runtime.init]
  silent := fun _ _ => rfl
  ended := by simp [Config.init, Runtime.init, calls]
  forked := by simp [ForkedAt, ofRun, calls]
  opened := by simp [Config.init, Runtime.init]
  covers := by
    have hM : (ofRun []).Made = fun _ => False := by
      funext p
      simp [Histories.Made, OwnPiece, EntryPiece, ofRun, calls]
    rw [hM]
    exact covers_init

/-- A task that has begun exists. -/
theorem Told.begun (h : Told es c) {t n : ℕ}
    (hb : .implicitTask .scopeBegin r (.implicit r t) n t ∈ calls (.implicit r t) es) :
    (c.rt.task (.implicit r t)).standing ≠ .absent := by
  intro habs
  rw [h.silent _ habs] at hb
  cases hb

theorem Told.size_step (h : Told es c) (ha : c.rt.allows e = true) (hfull : fullTeam e = true)
    (r : RegionId) :
    ((c.next env e).rt.region r).teamSize = ((c.next env e).rt.region r).requested := by
  have hr : RegionChange c.rt e r ((c.next env e).rt.region r) := regionChange ha r
  generalize (c.next env e).rt.region r = ρ at hr
  cases hr with
  | opened hcall => simpa [fullTeam, hcall] using hfull
  | _ => exact h.size r

theorem Told.stands_step (h : Told es c) (hg : c.Good) (ha : c.rt.allows e = true)
    (hpres : ((c.next env e).rt.task τ).standing ≠ .absent) :
    Stands (c.next env e).rt (c.next env e).graph τ (Post.after τ (calls τ (es ++ [e]))) := by
  by_cases hold : (c.rt.task τ).standing = .absent
  · -- the task has just been created
    have hcr : Creates e τ := by
      have ht := taskChange ha τ
      have hpres' : ((c.rt.apply e).task τ).standing ≠ .absent := hpres
      generalize (c.rt.apply e).task τ = v at ht hpres'
      cases ht with
      | created hcall => exact hcall
      | standing hne => exact absurd hold hne
      | _ => exact absurd hold hpres'
    obtain ⟨hst, howner | ⟨hstart, howner⟩⟩ :=
      Stands.created env hg.shaped hg.sound ha hcr hold h.size
    · rw [calls_snoc_of_owner howner, Post.after_snoc, h.silent τ hold]
      exact hst
    · rw [calls_snoc_of_other howner, h.silent τ hold]
      rw [hstart] at hst
      exact hst
  · by_cases howner : e.owner = some τ
    · rw [calls_snoc_of_owner howner, Post.after_snoc]
      exact (h.stands τ hold).step hg.sound hg.loopsFresh ha hold howner h.size
    · rw [calls_snoc_of_other howner]
      exact (h.stands τ hold).other hg.sound ha hold howner

theorem Told.silent_step (h : Told es c) (ha : c.rt.allows e = true)
    (habs : ((c.next env e).rt.task τ).standing = .absent) : calls τ (es ++ [e]) = [] := by
  have hold : (c.rt.task τ).standing = .absent := by
    by_contra hne
    exact task_present_apply ha hne habs
  have howner : e.owner ≠ some τ := by
    intro howner
    rcases present_of_owner ha howner with ⟨hcr, -⟩ | hne
    · exact present_of_creates hcr habs
    · exact hne hold
  rw [calls_snoc_of_other howner, h.silent τ hold]

theorem Told.ended_step (h : Told es c) (ha : c.rt.allows e = true) (r : RegionId) (t : ℕ) :
    ((c.next env e).rt.task (.implicit r t)).standing = .done ↔
      ∃ n, .implicitTask .scopeEnd r (.implicit r t) n t ∈ calls (.implicit r t) (es ++ [e]) := by
  constructor
  · intro hdone
    rcases done_of_apply ha hdone with hold | ⟨hends, -, -⟩
    · obtain ⟨n, hn⟩ := (h.ended r t).mp hold
      exact ⟨n, mem_calls_snoc.mpr (.inl hn)⟩
    · cases hends with
      | implicit => exact ⟨_, mem_calls_snoc.mpr (.inr ⟨rfl, rfl⟩)⟩
  · rintro ⟨n, hn⟩
    rcases mem_calls_snoc.mp hn with hn | ⟨-, hc⟩
    · have hold := (h.ended r t).mpr ⟨n, hn⟩
      show ((c.rt.apply e).task _).standing = .done
      rw [task_apply_of_done ha hold]
      exact hold
    · obtain ⟨th, c'⟩ := e
      obtain rfl : _ = c' := hc
      simp [next, Runtime.apply]

theorem Told.forked_step (h : Told es c) (hg : c.Good) (ha : c.rt.allows e = true)
    (hf : (ofRun (es ++ [e])).ForkedAt r x) : ((c.next env e).rt.region r).stage ≠ .absent ∧
      (((c.next env e).rt.region r).stage = .opened →
        (c.next env e).graph.cur ((c.next env e).rt.region r).parent = x) := by
  rcases forkedAt_snoc.mp hf with hold | ⟨τ, q, m, k, hcall, hx⟩
  · obtain ⟨hpres, hcur⟩ := h.forked r x hold
    refine ⟨region_present_apply ha hpres, fun hopen' => ?_⟩
    rcases opened_of_apply ha hopen' with ⟨hopen, hparent⟩ | ⟨_, _, _, _, -, -, habs, -⟩
    · show (c.graph.step env c.rt e).cur ((c.rt.apply e).region r).parent = x
      rw [hparent, Shaped.cur_of_not_moved ha (parent_not_moved hg.sound ha hopen hopen')]
      exact hcur hopen
    · exact absurd habs hpres
  · obtain ⟨th, c'⟩ := e
    obtain rfl : c' = _ := hcall
    cases delivers_of_allows ha with
    | parallelBegin hact =>
      have hst := h.stands τ (by simp [hact.2])
      refine ⟨by simp [next, Runtime.apply], fun _ => ?_⟩
      have hparent : ((c.next env ⟨th, .parallelBegin τ r q m k⟩).rt.region r).parent = τ := by
        simp [next, Runtime.apply]
      rw [hparent]
      exact ((Shaped.cur_of_not_moved ha (by simp [newCur])).trans hst.cur).trans hx

theorem Told.opened_step (h : Told es c) (hg : c.Good) (ha : c.rt.allows e = true)
    (hopen' : ((c.next env e).rt.region r).stage = .opened) :
    (ofRun (es ++ [e])).ForkedAt r
      ((c.next env e).graph.cur ((c.next env e).rt.region r).parent) := by
  rcases opened_of_apply ha hopen' with ⟨hopen, hparent⟩ | ⟨τ, q, m, k, hcall, hact, -, hparent⟩
  · refine forkedAt_snoc.mpr (.inl ?_)
    show (ofRun es).ForkedAt r ((c.graph.step env c.rt e).cur ((c.rt.apply e).region r).parent)
    rw [hparent, Shaped.cur_of_not_moved ha (parent_not_moved hg.sound ha hopen hopen')]
    exact h.opened r hopen
  · refine forkedAt_snoc.mpr (.inr ⟨τ, q, m, k, hcall, ?_⟩)
    show _ = (c.graph.step env c.rt e).cur ((c.rt.apply e).region r).parent
    rw [hparent, Shaped.cur_of_not_moved ha (by simp [newCur, hcall])]
    exact ((h.stands τ (by simp [hact.2])).cur).symm

/-- The edges into first nodes: a region is not forked while it has threads, and has
been forked once when they begin. -/
theorem Told.entryPiece_snoc (h : Told es c) (hg : c.Good) (ha : c.rt.allows e = true) :
    (ofRun (es ++ [e])).EntryPiece p ↔
      (ofRun es).EntryPiece p ∨ p ∈ entryEdge c.rt c.graph e.call := by
  constructor
  · rintro ⟨r, t, n, x, hb, hf, rfl⟩
    rcases mem_calls_snoc.mp hb with hold | ⟨-, hbegin⟩
    · rcases forkedAt_snoc.mp hf with hf' | ⟨τ, q, m, k, hcall, -⟩
      · exact .inl ⟨r, t, n, x, hold, hf', rfl⟩
      · obtain ⟨th, c'⟩ := e
        obtain rfl : c' = _ := hcall
        cases delivers_of_allows ha with
        | parallelBegin _ _ habs => exact absurd habs (hg.sound.region_present (h.begun hold))
    · rcases forkedAt_snoc.mp hf with hf' | ⟨τ, q, m, k, hcall, -⟩
      · obtain ⟨th, c'⟩ := e
        obtain rfl : _ = c' := hbegin
        cases delivers_of_allows ha with
        | implicitBegin hopen =>
          obtain rfl := (h.forked r x hf').2 hopen
          exact .inr (by simp [entryEdge])
      · rw [← hbegin] at hcall
        cases hcall
  · rintro (⟨r, t, n, x, hb, hf, rfl⟩ | hp)
    · exact ⟨r, t, n, x, mem_calls_snoc.mpr (.inl hb), forkedAt_snoc.mpr (.inl hf), rfl⟩
    · cases delivers_of_allows ha with
      | @implicitBegin _ r t hopen =>
        obtain rfl := List.mem_singleton.mp hp
        exact ⟨r, t, _, _, mem_calls_snoc.mpr (.inr ⟨rfl, rfl⟩),
          forkedAt_snoc.mpr (.inl (h.opened r hopen)), rfl⟩
      | _ => cases hp

/-- What is made when a task calls. -/
theorem Told.made_snoc (h : Told es c) (hg : c.Good) (ha : c.rt.allows e = true)
    (howner : e.owner = some τ) : (ofRun (es ++ [e])).Made p ↔ (ofRun es).Made p ∨
      p ∈ (Post.after τ (calls τ es)).made e.call ++ entryEdge c.rt c.graph e.call := by
  have hown : (ofRun (es ++ [e])).OwnPiece p ↔
      (ofRun es).OwnPiece p ∨ p ∈ (Post.after τ (calls τ es)).made e.call := by
    rw [ownPiece_snoc]
    simp [howner]
  rw [Histories.Made, Histories.Made, hown, h.entryPiece_snoc hg ha, List.mem_append,
    or_or_or_comm]

theorem made_silent (howner : e.owner = none) :
    (ofRun (es ++ [e])).Made p ↔ (ofRun es).Made p := by
  have hsame : ∀ τ, calls τ (es ++ [e]) = calls τ es :=
    fun τ => calls_snoc_of_other (by simp [howner])
  rw [ofRun_congr hsame]

/-- The graph grows by what the owner of the callback makes. -/
theorem Told.covers_step (h : Told es c) (hg : c.Good) (ha : c.rt.allows e = true) :
    Covers (c.next env e).graph (ofRun (es ++ [e])).Made := by
  have hA : Alloc (c.graph.step env c.rt e) := (hg.next env ha).alloc
  rcases howner : e.owner with - | τ
  · have hact : e.act = none := by simpa [Event.owner] using howner
    exact h.covers.step hg.shaped hA ha (adds_none ha hact)
      (fun p => by simp [made_silent howner]) fun r i lower upper => Made.barrier
  · exact h.covers.step hg.shaped hA ha
      (Stands.adds (h.stands τ) hg.shaped hg.sound ha howner h.size)
      (fun p => h.made_snoc hg ha howner) fun r i lower upper => Made.barrier

theorem Told.step (h : Told es c) (hg : c.Good) (ha : c.rt.allows e = true)
    (hfull : fullTeam e = true) : Told (es ++ [e]) (c.next env e) where
  size := h.size_step ha hfull
  stands := fun _ => h.stands_step hg ha
  silent := fun _ => h.silent_step ha
  ended := h.ended_step ha
  forked := fun _ _ => h.forked_step hg ha
  opened := fun _ => h.opened_step hg ha
  covers := h.covers_step hg ha

/-- Every run with complete teams is told by its histories. -/
theorem told_run (hrun : run env es = some c) (hfull : ∀ e ∈ es, fullTeam e = true) :
    Told es c := by
  induction es using List.reverseRecOn generalizing c with
  | nil =>
    obtain rfl : Config.init = c := Option.some.inj hrun
    exact told_init
  | append_singleton es e ih =>
    obtain ⟨c1, hc1, ha, rfl⟩ := run_snoc.mp hrun
    have hrec := ih hc1 fun e' he' => hfull e' (by simp [he'])
    exact hrec.step (run_good hc1) ha (hfull e (by simp))

/-! ### The stored graph and the histories -/

/-- A node has been given up when its thread has ended behind its last barrier. -/
theorem Told.dropped_iff (h : Told es c) : c.rt.Dropped x ↔ (ofRun es).Gone x := by
  have hst : ∀ {r t}, (c.rt.task (.implicit r t)).standing ≠ .absent →
      (c.rt.region r).requested = (Post.after (.implicit r t) (calls (.implicit r t) es)).threads ∧
        (c.rt.task (.implicit r t)).arrived =
          (Post.after (.implicit r t) (calls (.implicit r t) es)).arrived :=
    fun hpres => ⟨(h.stands _ hpres).threads _ _ rfl, (h.stands _ hpres).arrived⟩
  constructor
  · intro hd
    cases x with
    | imp r t j =>
      obtain ⟨hdone, hq, rfl⟩ := hd
      obtain ⟨hreq, harr⟩ := hst (r := r) (t := t) (by simp [hdone])
      obtain ⟨n, hn⟩ := (h.ended r t).mp hdone
      exact ⟨r, t, n, hn, hreq ▸ hq, by rw [harr]; rfl⟩
    | _ => exact hd.elim
  · rintro ⟨r, t, n, hn, hq, rfl⟩
    have hdone := (h.ended r t).mpr ⟨n, hn⟩
    obtain ⟨hreq, harr⟩ := hst (r := r) (t := t) (by simp [hdone])
    exact ⟨hdone, hreq.symm ▸ hq, harr.symm⟩

theorem Told.live_iff (h : Told es c) (hg : c.Good) : c.graph.live x = true ↔
    (∃ lower upper, (ofRun es).Made (.node x lower upper)) ∧ ¬(ofRun es).Gone x := by
  rw [hg.shaped.live_iff, ← hg.shaped.order_iff, ← h.covers.order]
  exact and_congr_right fun _ => not_congr h.dropped_iff

theorem Told.link_iff (h : Told es c) (hg : c.Good) : c.graph.Link x y ↔
    (ofRun es).Made (.edge x y) ∧ ¬(ofRun es).Gone y := by
  constructor
  · intro hxy
    have hm := h.covers.made x y hxy
    exact ⟨hm, ((h.live_iff hg).mp (hg.alloc.edges_live hxy).2).2⟩
  · rintro ⟨hm, hgone⟩
    have hy := h.covers.target x y hm
    exact h.covers.link x y hm ((h.live_iff hg).mpr ⟨(h.covers.order y).mp hy, hgone⟩)

end Config

namespace RoleGraph

/-- The graph over roles, with types and bounds. -/
def labelled (g : RoleGraph) : LabelledGraph Role (NodeType × ℤ × ℤ) where
  nodes := {x | g.live x = true}
  label x := (x.type, (g.label x).lower, (g.label x).upper)
  edges x y := g.edges.countP fun a => a.1 = x ∧ a.2 = y

end RoleGraph

namespace Config

open RoleGraph Tdg.Runtime Histories

variable {es es' : List Event} {c c' : Config} {env env' : Env}

/-- The stored graph is the graph over roles, up to the names of the nodes. -/
theorem Good.isomorphic (hg : c.Good) : c.graph.labelled.Isomorphic c.tool.toGraph.labelled := by
  have horder : ∀ {x}, x ∈ c.graph.labelled.nodes → x ∈ c.graph.order :=
    fun hx => hg.alloc.live_mem hx
  refine ⟨c.graph.addr, ⟨?_, ?_, ?_⟩, fun x hx => ?_, fun x hx y hy => ?_⟩
  · exact fun x hx => hg.present_iff.mpr ⟨x, hx, rfl⟩
  · exact fun x hx y _ he => (addr_inj (horder hx)).mp he
  · intro n hn
    obtain ⟨x, hx, rfl⟩ := hg.present_iff.mp hn
    exact ⟨x, hx, rfl⟩
  · have hnode : c.tool.nodes (c.graph.addr x) = some (c.graph.node x) :=
      hg.nodes_iff.mpr ⟨x, hx, rfl, rfl⟩
    show (c.tool.nodes (c.graph.addr x)).elim _ (fun nd => (nd.type, nd.lower, nd.upper)) = _
    rw [hnode]
    show ((c.graph.data x).type, _) = (x.type, _)
    rw [hg.alloc.type_eq (horder hx)]
    rfl
  · rw [hg.edges_eq]
    refine List.countP_congr fun a ha => ?_
    obtain ⟨h1, h2⟩ := hg.alloc.edges_mem ha
    simp [addr_inj h1, addr_inj h2]

/-- There is one edge, or none. -/
theorem Good.edges_labelled (hg : c.Good) {x y : Role} [Decidable (c.graph.Link x y)] :
    c.graph.labelled.edges x y = if c.graph.Link x y then 1 else 0 := by
  have hcount : c.graph.labelled.edges x y = c.graph.edges.count (x, y) :=
    List.countP_congr fun a _ => by simp [Prod.ext_iff]
  rw [hcount]
  split_ifs with hxy
  · exact List.count_eq_one_of_mem hg.alloc.edges_nodup hxy
  · exact List.count_eq_zero_of_not_mem hxy

/-- What the histories say is the graph. -/
theorem Told.isomorphic (h : Told es c) (hg : c.Good) (h' : Told es' c') (hg' : c'.Good)
    (hsame : ∀ τ, calls τ es = calls τ es') : c.graph.labelled.Isomorphic c'.graph.labelled := by
  have hH := ofRun_congr hsame
  have hlive : ∀ x, c.graph.live x = true ↔ c'.graph.live x = true := by
    intro x
    rw [h.live_iff hg, h'.live_iff hg', hH]
  have hlink : ∀ x y, c.graph.Link x y ↔ c'.graph.Link x y := by
    intro x y
    rw [h.link_iff hg, h'.link_iff hg', hH]
  refine ⟨id, ⟨fun x hx => (hlive x).mp hx, Function.injective_id.injOn,
    fun x hx => ⟨x, (hlive x).mpr hx, rfl⟩⟩, fun x hx => ?_, fun x _ y _ => ?_⟩
  · -- the bounds are those of the piece that made the node
    obtain ⟨lower, upper, hm⟩ := (h.covers.order x).mp (hg.alloc.live_mem hx)
    obtain ⟨hl, hu⟩ := h.covers.bounds x lower upper hm
    obtain ⟨hl', hu'⟩ := h'.covers.bounds x lower upper (hH ▸ hm)
    show (x.type, (c'.graph.label x).lower, (c'.graph.label x).upper)
      = (x.type, (c.graph.label x).lower, (c.graph.label x).upper)
    rw [hl, hu, hl', hu']
  · classical
    show c'.graph.labelled.edges x y = c.graph.labelled.edges x y
    rw [hg.edges_labelled, hg'.edges_labelled]
    exact if_congr (hlink x y).symm rfl rfl

/-- Team sizes are part of the histories. -/
theorem fullTeam_of_calls (hfull : ∀ e ∈ es, fullTeam e = true)
    (hsame : ∀ τ, calls τ es = calls τ es') : ∀ e ∈ es', fullTeam e = true := by
  rintro ⟨th, c⟩ he
  cases c with
  | parallelBegin τ r q m k =>
    have hmem : .parallelBegin τ r q m k ∈ calls τ es := by
      rw [hsame τ]
      exact List.mem_map.mpr ⟨_, List.mem_filter.mpr ⟨he, by simp [Event.owner, Event.act]⟩, rfl⟩
    obtain ⟨e, he, hcall⟩ := List.mem_map.mp hmem
    have hsize := hfull e (List.mem_filter.mp he).1
    simpa only [fullTeam, hcall] using hsize
  | _ => rfl

/-- **The graph depends only on what each task has called.**  Let two runs with
complete teams be such that every task has called the same in both: nested
regions, loops and explicit tasks anywhere, on whatever threads, in whatever order
the runtime has delivered them, with whatever clock.  Then the graphs that are
stored are the same, up to the names of the nodes. -/
theorem histories_determine (env env' : Env) {o o' : Runtime} (hrun : Runtime.run es = some o)
    (hrun' : Runtime.run es' = some o') (hfull : ∀ e ∈ es, fullTeam e = true)
    (hsame : ∀ τ, calls τ es = calls τ es') :
    ∃ s s', Tool.run env es = some s ∧ Tool.run env' es' = some s' ∧
      s.toGraph.labelled.Isomorphic s'.toGraph.labelled := by
  obtain ⟨c, hc, rfl⟩ := run_of_runtime env hrun
  obtain ⟨c', hc', rfl⟩ := run_of_runtime env' hrun'
  have hg := run_good hc
  have hg' := run_good hc'
  have hfull' := fullTeam_of_calls hfull hsame
  refine ⟨c.tool, c'.tool, tool_run hc, tool_run hc', ?_⟩
  have hroles := (told_run hc hfull).isomorphic hg (told_run hc' hfull') hg' hsame
  have : Nonempty Role := ⟨.root⟩
  exact .of_common hg.isomorphic (hroles.trans hg'.isomorphic)

/-- A nested region in thread 0, and an explicit task that thread 1 creates and
executes in its barrier. -/
def nestedAndTask : List Event :=
  [⟨0, .threadBegin⟩, ⟨1, .threadBegin⟩,
    ⟨0, .taskCreate (.initial 0) (.initial 0) .initial⟩,
    ⟨0, .parallelBegin (.initial 0) 0 2 2 1⟩,
    ⟨0, .implicitTask .scopeBegin 0 (.implicit 0 0) 2 0⟩,
    ⟨1, .implicitTask .scopeBegin 0 (.implicit 0 1) 2 1⟩,
    ⟨0, .parallelBegin (.implicit 0 0) 1 1 1 1⟩,
    ⟨0, .implicitTask .scopeBegin 1 (.implicit 1 0) 1 0⟩,
    ⟨1, .taskCreate (.implicit 0 1) (.explicit 0) .explicit⟩,
    ⟨0, .syncRegion .barrier .scopeBegin 1 (.implicit 1 0)⟩,
    ⟨0, .implicitTask .scopeEnd 1 (.implicit 1 0) 1 0⟩,
    ⟨0, .parallelEnd 1 (.implicit 0 0)⟩,
    ⟨0, .syncRegion .barrier .scopeBegin 0 (.implicit 0 0)⟩,
    ⟨1, .syncRegion .barrier .scopeBegin 0 (.implicit 0 1)⟩,
    ⟨1, .taskSchedule (.implicit 0 1) .yield (.explicit 0)⟩,
    ⟨1, .taskSchedule (.explicit 0) .complete (.implicit 0 1)⟩,
    ⟨1, .implicitTask .scopeEnd 0 (.implicit 0 1) 2 1⟩,
    ⟨0, .implicitTask .scopeEnd 0 (.implicit 0 0) 2 0⟩,
    ⟨0, .parallelEnd 0 (.initial 0)⟩]

/-- The same calls in another order: thread 1 is first everywhere, and the
task goes to thread 0. -/
def nestedAndTaskLate : List Event :=
  [⟨1, .threadBegin⟩, ⟨0, .threadBegin⟩,
    ⟨0, .taskCreate (.initial 0) (.initial 0) .initial⟩,
    ⟨0, .parallelBegin (.initial 0) 0 2 2 1⟩,
    ⟨1, .implicitTask .scopeBegin 0 (.implicit 0 1) 2 1⟩,
    ⟨1, .taskCreate (.implicit 0 1) (.explicit 0) .explicit⟩,
    ⟨1, .syncRegion .barrier .scopeBegin 0 (.implicit 0 1)⟩,
    ⟨0, .implicitTask .scopeBegin 0 (.implicit 0 0) 2 0⟩,
    ⟨0, .parallelBegin (.implicit 0 0) 1 1 1 1⟩,
    ⟨0, .implicitTask .scopeBegin 1 (.implicit 1 0) 1 0⟩,
    ⟨0, .syncRegion .barrier .scopeBegin 1 (.implicit 1 0)⟩,
    ⟨0, .implicitTask .scopeEnd 1 (.implicit 1 0) 1 0⟩,
    ⟨0, .parallelEnd 1 (.implicit 0 0)⟩,
    ⟨0, .syncRegion .barrier .scopeBegin 0 (.implicit 0 0)⟩,
    ⟨0, .taskSchedule (.implicit 0 0) .yield (.explicit 0)⟩,
    ⟨0, .taskSchedule (.explicit 0) .complete (.implicit 0 0)⟩,
    ⟨0, .implicitTask .scopeEnd 0 (.implicit 0 0) 2 0⟩,
    ⟨0, .parallelEnd 0 (.initial 0)⟩,
    ⟨1, .implicitTask .scopeEnd 0 (.implicit 0 1) 2 1⟩]

theorem histories_determine_nestedAndTask :
    ∃ s s', Tool.run { clock := fun k => k } nestedAndTask = some s ∧
      Tool.run { clock := fun k => 2 * k } nestedAndTaskLate = some s' ∧
      s.toGraph.labelled.Isomorphic s'.toGraph.labelled := by
  have hrun : ∃ o, Runtime.run nestedAndTask = some o := ⟨_, rfl⟩
  have hrun' : ∃ o, Runtime.run nestedAndTaskLate = some o := ⟨_, rfl⟩
  obtain ⟨o, ho⟩ := hrun
  obtain ⟨o', ho'⟩ := hrun'
  refine histories_determine _ _ ho ho' (by decide) ?_
  rintro ((- | i) | ⟨- | - | r, - | - | t⟩ | n) <;> rfl

end Config

end Tdg
