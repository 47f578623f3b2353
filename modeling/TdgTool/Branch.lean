/-
TdgTool/Branch.lean

What hangs off a node and never joins the rest of the graph.

A `Branch` is a set of explicit tasks and regions, with every node they create,
and of single region sinks.  It grows with the run: an explicit task or a
region that is begun at a node of the branch belongs to it.  `Separate` says
that no edge leaves the branch and that only its own tasks are at its nodes,
apart from one task inside one of its loops.  Every callback keeps this
(`Separate.step`), because the only edges out of a node lead to what the task
at that node creates, and to the sink of its region or loop.

Two branches are of interest: an explicit task, and the sink of a region that
was begun inside a loop.
-/
import TdgTool.Structure

namespace Tdg

namespace RoleGraph

open Tdg.Runtime Paths Relation

variable {o : Runtime} {g : RoleGraph} {env : Env} {e : Event} {x y : Role} {τ : TaskId}
  {r : RegionId} {th : ThreadId}

/-! ### Branches -/

/-- Explicit tasks and regions with all their nodes, the sinks of further
regions, and a task with the number of one of its loops. -/
structure Branch where
  ex : ℕ → Prop
  rg : RegionId → Prop
  sk : RegionId → Prop
  loop : Option (TaskId × ℕ)

namespace Branch

/-- The task and all its nodes belong to the branch. -/
def OfTask (B : Branch) : TaskId → Prop
  | .initial _ => False
  | .explicit n => B.ex n
  | .implicit r _ => B.rg r

def Mem (B : Branch) : Role → Prop
  | .root => False
  | .exp n => B.ex n
  | .sink r => B.rg r ∨ B.sk r
  | .imp r _ _ => B.rg r
  | .barrier r _ => B.rg r
  | .ws τ _ => B.OfTask τ
  | .loopSink τ _ => B.OfTask τ
  | .chunk τ _ _ => B.OfTask τ

/-- The task may be at a node of the branch: it belongs to it, or is still
inside the loop. -/
def Owned (B : Branch) (o : Runtime) (τ : TaskId) : Prop :=
  B.OfTask τ ∨ B.loop = some (τ, (o.task τ).loops) ∧ (o.task τ).inLoop = true

/-- What is begun at a node of the branch belongs to it. -/
def grow (B : Branch) (g : RoleGraph) (e : Event) : Branch :=
  match e.call with
  | .taskCreate parent (.explicit n) .explicit =>
      { B with ex := fun k => B.ex k ∨ k = n ∧ B.Mem (g.cur parent) }
  | .parallelBegin parent r _ _ _ =>
      { B with rg := fun k => B.rg k ∨ k = r ∧ B.Mem (g.cur parent) }
  | _ => B

end Branch

variable {B : Branch}

/-- No edge leaves the branch, and only its own tasks are at its nodes. -/
structure Separate (B : Branch) (o : Runtime) (g : RoleGraph) : Prop where
  closed : ∀ {x y}, g.Link x y → B.Mem x → B.Mem y
  cur : ∀ {τ}, o.HasData τ → B.Mem (g.cur τ) → B.Owned o τ
  opened : ∀ {r}, (o.region r).stage = .opened → B.Mem (g.cur (o.region r).parent) → B.rg r
  parent : ∀ {r}, (o.region r).stage = .opened → B.rg r ∨ B.sk r → B.Owned o (o.region r).parent
  ex_present : ∀ {n}, B.ex n → (o.task (.explicit n)).standing ≠ .absent
  rg_present : ∀ {r}, B.rg r → (o.region r).stage ≠ .absent
  sk_present : ∀ {r}, B.sk r → (o.region r).stage ≠ .absent

/-! ### The branch grows by new nodes only -/

theorem grow_ex (ha : o.allows e = true) {n : ℕ}
    (hn : (o.task (.explicit n)).standing ≠ .absent) : (B.grow g e).ex n ↔ B.ex n := by
  cases delivers_of_allows ha with
  | @explicit _ parent k _ _ habs =>
    have hne : n ≠ k := by
      rintro rfl
      exact hn habs
    simp [Branch.grow, hne]
  | _ => exact Iff.rfl

theorem grow_rg (ha : o.allows e = true) (hr : (o.region r).stage ≠ .absent) :
    (B.grow g e).rg r ↔ B.rg r := by
  cases delivers_of_allows ha with
  | @parallelBegin _ parent k _ _ _ _ _ habs =>
    have hne : r ≠ k := by
      rintro rfl
      exact hr habs
    simp [Branch.grow, hne]
  | explicit => exact Iff.rfl
  | _ => exact Iff.rfl

theorem grow_sk : (B.grow g e).sk = B.sk := by
  unfold Branch.grow
  split <;> rfl

theorem grow_loop : (B.grow g e).loop = B.loop := by
  unfold Branch.grow
  split <;> rfl

theorem grow_ofTask (hS : o.Sound) (ha : o.allows e = true)
    (hτ : (o.task τ).standing ≠ .absent) : (B.grow g e).OfTask τ ↔ B.OfTask τ := by
  cases τ with
  | initial i => exact Iff.rfl
  | explicit n => exact grow_ex ha hτ
  | implicit r t => exact grow_rg ha (hS.region_present hτ)

/-- A task that has begun a loop exists. -/
theorem present_of_begun (hS : o.Sound) {l : ℕ} (hl : l < (o.task τ).begun) :
    (o.task τ).standing ≠ .absent := by
  intro habs
  rw [hS.fresh habs] at hl
  simp [TaskState.begun] at hl

theorem grow_mem (hS : o.Sound) (hL : ∀ τ, LoopsFresh (o.task τ)) (ha : o.allows e = true)
    (hx : o.Created x) : (B.grow g e).Mem x ↔ B.Mem x := by
  cases x with
  | root => exact Iff.rfl
  | exp n => exact grow_ex ha hx
  | sink r => exact or_congr (grow_rg ha hx) (by rw [grow_sk])
  | imp r t j => exact grow_rg ha (hS.region_present hx.1)
  | barrier r i =>
    refine grow_rg ha fun habs => ?_
    have := hx.2
    rw [((hS.team r).absent habs).1] at this
    simp at this
  | ws τ l => exact grow_ofTask hS ha (present_of_begun hS hx)
  | loopSink τ l => exact grow_ofTask hS ha (present_of_begun hS hx)
  | chunk τ l c =>
    refine grow_ofTask hS ha (present_of_begun (l := l) hS ?_)
    by_contra hl
    have h0 := hL τ l (by omega)
    simp only [Created, h0] at hx
    omega

/-! ### Tasks that are not moved -/

/-- The task that a callback moves was just created, is running, or returns
from a region. -/
theorem moved_standing (ha : o.allows e = true) (hn : o.newCur e = some (τ, x)) :
    (o.task τ).standing = .absent ∨ (o.task τ).standing = .active ∨
      ∃ r, e.call = .parallelEnd r τ ∧ (o.task τ).standing = .forked r := by
  cases moves_of_newCur ha hn with
  | initial habs => exact .inl habs
  | explicit habs => exact .inl habs
  | implicitBegin habs => exact .inl habs
  | @parallelEnd _ r _ hfork => exact .inr (.inr ⟨r, rfl, hfork⟩)
  | barrierBegin hact => exact .inr (.inl hact.2)
  | loopEnd hact => exact .inr (.inl hact.2)

/-- The encountering task of a region stays where it is while the region is
open. -/
theorem parent_not_moved (hS : o.Sound) (ha : o.allows e = true)
    (hopen : (o.region r).stage = .opened) (hopen' : ((o.apply e).region r).stage = .opened)
    (x : Role) : o.newCur e ≠ some ((o.region r).parent, x) := by
  intro hn
  have hf := hS.opened_parent hopen
  rcases moved_standing ha hn with h | h | ⟨r', hcall, h⟩
  · simp [hf] at h
  · simp [hf] at h
  · obtain rfl : r = r' := by simpa [hf] using h
    obtain ⟨th, c⟩ := e
    obtain rfl : c = _ := hcall
    simp [Runtime.apply] at hopen'

theorem owned_keep (hS : o.Sound) (ha : o.allows e = true)
    (hpres : (o.task τ).standing ≠ .absent) (hn : ∀ x, o.newCur e ≠ some (τ, x))
    (hown : B.Owned o τ) : (B.grow g e).Owned (o.apply e) τ := by
  rcases hown with hτ | ⟨hloop, hin⟩
  · exact .inl ((grow_ofTask hS ha hpres).mpr hτ)
  · refine .inr ?_
    rw [grow_loop, hloop]
    have hc := taskChange ha τ
    generalize (o.apply e).task τ = v at hc
    cases hc with
    | created _ habs => exact absurd habs hpres
    | loopBegin _ _ hl => simp [hin] at hl
    | loopEnd _ _ _ hcall =>
      exact absurd (by simp [newCur, hcall]) (hn (.loopSink τ (o.task τ).loops))
    | _ => exact ⟨rfl, hin⟩

/-! ### Every callback keeps the branch separate -/

/-- A task in its body that is not in a loop and is at a node of the branch
belongs to it. -/
theorem Separate.ofTask (h : Separate B o g) (hd : o.HasData τ) (hin : (o.task τ).inLoop = false)
    (hm : B.Mem (g.cur τ)) : B.OfTask τ := by
  rcases h.cur hd hm with hτ | ⟨-, hl⟩
  · exact hτ
  · simp [hin] at hl

theorem Separate.closed_new (h : Separate B o g) (hW : Shaped o g) (hS : o.Sound)
    (hL : ∀ τ, LoopsFresh (o.task τ)) (ha : o.allows e = true)
    (hxy : (x, y) ∈ g.newEdges o e) (hx : (B.grow g e).Mem x) : (B.grow g e).Mem y := by
  cases newEdge_of_mem ha hxy with
  | implicitBegin hopen => exact h.opened hopen hx
  | sinkOfBarrier hact harr _ hbar =>
    obtain ⟨i, rfl, -⟩ := hW.barrier_of_end hS hact harr hbar
    exact .inl hx
  | @sinkOfThread _ r t _ hact harr =>
    -- a thread that ends is outside its loops, so its node is one of its own
    exact .inl (h.ofTask (hasData_of_active hact.2) (hS.outside_of_arrived harr) hx)
  | explicit hact =>
    exact .inr ⟨rfl, (grow_mem hS hL ha (hW.seat (hasData_of_active hact.2)).1).mp hx⟩
  | toBarrier hact _ hloop =>
    -- the barrier node belongs to the region, whoever creates it
    exact h.ofTask (hasData_of_active hact.2) hloop hx
  | loopBegin hact _ hloop => exact h.ofTask (hasData_of_active hact.2) hloop hx
  | ofBarrier => exact hx
  | emptyLoop => exact hx
  | toChunk => exact hx
  | ofChunk => exact hx

/-- A task that is moved to a node of the branch is one that may be there. -/
theorem Separate.cur_moved (h : Separate B o g) (ha : o.allows e = true)
    (hn : o.newCur e = some (τ, x)) (hx : (B.grow g e).Mem x) :
    (B.grow g e).Owned (o.apply e) τ := by
  cases moves_of_newCur ha hn with
  | initial => exact hx.elim
  | parallelEnd hopen =>
    -- the region was begun in the branch, or inside the one loop that a foreign task is in
    rcases h.parent hopen hx with hτ | ⟨hloop, hin⟩
    · exact .inl hτ
    · refine .inr ⟨?_, ?_⟩
      · rw [grow_loop, hloop]
        simp [Runtime.apply]
      · simpa [Runtime.apply] using hin
  | _ => exact .inl hx

/-- **Every callback keeps the branch separate.** -/
theorem Separate.step (h : Separate B o g) (hW : Shaped o g) (hS : o.Sound)
    (hL : ∀ τ, LoopsFresh (o.task τ)) (hA : Alloc g) (ha : o.allows e = true) :
    Separate (B.grow g e) (o.apply e) (g.step env o e) := by
  have hmem : ∀ {x}, o.Created x → ((B.grow g e).Mem x ↔ B.Mem x) := grow_mem hS hL ha
  -- a task that stays where it is
  have hstay : ∀ {τ}, o.HasData τ → (∀ x, o.newCur e ≠ some (τ, x)) →
      (B.grow g e).Mem ((g.step env o e).cur τ) → B.Mem (g.cur τ) := by
    intro τ hd hn hm
    rw [Shaped.cur_of_not_moved ha hn] at hm
    exact (hmem (hW.seat hd).1).mp hm
  refine ⟨?_, ?_, ?_, ?_, ?_, ?_, ?_⟩
  · intro x y hxy hx
    rcases link_step ha hxy with hold | hnew
    · have hcx := (hW.live_iff.mp (hA.edges_live hold).1).1
      have hcy := (hW.live_iff.mp (hA.edges_live hold).2).1
      exact (hmem hcy).mpr (h.closed hold ((hmem hcx).mp hx))
    · exact h.closed_new hW hS hL ha hnew hx
  · intro τ hd hm
    by_cases hn : ∃ x, o.newCur e = some (τ, x)
    · obtain ⟨x, hx⟩ := hn
      rw [cur_of_moved ha hx] at hm
      exact h.cur_moved ha hx hm
    · have hn' : ∀ x, o.newCur e ≠ some (τ, x) := fun x hx => hn ⟨x, hx⟩
      have hd' := hasData_of_apply ha hd (not_creates_of_not_moved hn')
      exact owned_keep hS ha hd'.present hn' (h.cur hd' (hstay hd' hn' hm))
  · intro r hopen hm
    rcases opened_of_apply ha hopen with ⟨hopen', hp⟩ | ⟨parent, q, m, k, hcall, hact, -, hp⟩
    · rw [hp] at hm
      have hd := hasData_of_forked (hS.opened_parent hopen')
      have hn := parent_not_moved hS ha hopen' hopen
      exact (grow_rg ha (by simp [hopen'])).mpr (h.opened hopen' (hstay hd hn hm))
    · rw [hp] at hm
      have hn : ∀ x, o.newCur e ≠ some (parent, x) := by simp [newCur, hcall]
      simp only [Branch.grow, hcall]
      exact .inr ⟨trivial, hstay (hasData_of_active hact.2) hn hm⟩
  · intro r hopen hr
    rw [grow_sk] at hr
    rcases opened_of_apply ha hopen with ⟨hopen', hp⟩ | ⟨parent, q, m, k, hcall, hact, habs, hp⟩
    · have hpres : (o.region r).stage ≠ .absent := by simp [hopen']
      have hf := hS.opened_parent hopen'
      rw [hp]
      exact owned_keep hS ha (by simp [hf]) (parent_not_moved hS ha hopen' hopen)
        (h.parent hopen' (hr.imp_left (grow_rg ha hpres).mp))
    · rw [hp]
      have hn : ∀ x, o.newCur e ≠ some (parent, x) := by simp [newCur, hcall]
      refine owned_keep hS ha (by simp [hact.2]) hn (h.cur (hasData_of_active hact.2) ?_)
      -- the region is new, so it is in the branch because of where it begins
      rcases hr with hr | hr
      · simp only [Branch.grow, hcall] at hr
        rcases hr with hr | ⟨-, hr⟩
        · exact absurd habs (h.rg_present hr)
        · exact hr
      · exact absurd habs (h.sk_present hr)
  · intro n hn
    by_cases hpres : (o.task (.explicit n)).standing = .absent
    · have hold : ¬B.ex n := fun hx => h.ex_present hx hpres
      cases delivers_of_allows ha with
      | @explicit _ parent k =>
        rcases hn with hn | ⟨rfl, -⟩
        · exact absurd hn hold
        · simp [Runtime.apply]
      | _ => exact absurd hn hold
    · exact task_present_apply ha hpres
  · intro r hr
    by_cases hpres : (o.region r).stage = .absent
    · have hold : ¬B.rg r := fun hx => h.rg_present hx hpres
      cases delivers_of_allows ha with
      | @parallelBegin _ parent k =>
        rcases hr with hr | ⟨rfl, -⟩
        · exact absurd hr hold
        · simp [Runtime.apply]
      | explicit => exact absurd hr hold
      | _ => exact absurd hr hold
    · exact region_present_apply ha hpres
  · intro r hr
    rw [grow_sk] at hr
    exact region_present_apply ha (h.sk_present hr)

end RoleGraph

/-! ### Nodes that the tool's records lead to -/

/-- The node that `cb_task_create` makes for an explicit task. -/
def TaskNode (env : Env) (es : List Event) (n : ℕ) (u : NodeRef) : Prop :=
  ∃ pre th parent post, es = pre ++ ⟨th, .taskCreate parent (.explicit n) .explicit⟩ :: post ∧
    ∃ s td, Tool.run env (pre ++ [⟨th, .taskCreate parent (.explicit n) .explicit⟩]) = some s ∧
      s.taskData (.explicit n) = some td ∧ td.currTaskNode = u

/-- The sink node of a region, from its record while the region is open. -/
def SinkNode (env : Env) (es : List Event) (r : RegionId) (k : NodeRef) : Prop :=
  ∃ pre post s pi, es = pre ++ post ∧ Tool.run env pre = some s ∧ s.parData r = some pi ∧
    pi.sinkNode = k

/-- A node of a region: one that the records of its implicit tasks lead to. -/
def RegionNode (env : Env) (es : List Event) (r : RegionId) (v : NodeRef) : Prop :=
  ∃ pre post s t td, es = pre ++ post ∧ Tool.run env pre = some s ∧
    s.taskData (.implicit r t) = some td ∧ v ∈ td.refs

/-- A region that was begun while `chunk` was open is ordered with it: it lies
between the chunk and the sink of the loop. -/
structure OrderedWithChunk (env : Env) (es : List Event) (s : Tool) (r : RegionId)
    (chunk loopSink : NodeRef) : Prop where
  below : ∀ v, RegionNode env es r v → s.toGraph.Present v →
    Relation.ReflTransGen s.toGraph.Adj chunk v
  joined : ∀ k, SinkNode env es r k → Relation.ReflTransGen s.toGraph.Adj k loopSink

namespace Config

open RoleGraph Tdg.Runtime Paths Relation

variable {c c' : Config} {env : Env} {es : List Event} {o : Runtime} {x y : Role} {B : Branch}
  {r : RegionId} {n : ℕ} {u k : NodeRef}

/-! ### Runs -/

/-- **What was outside a branch when it began is never reached from it.** -/
theorem not_reached_of_separate {pre post : List Event} (hpre : run env pre = some c)
    (hsep : Separate B c.rt c.graph) (hx : c.rt.Created x) (hy : c.rt.Created y)
    (hmx : B.Mem x) (hmy : ¬B.Mem y) (hrun : run env (pre ++ post) = some c') :
    ¬ReflTransGen c'.graph.Link x y := by
  have key : ∃ B', Separate B' c'.rt c'.graph ∧ c'.rt.Created x ∧ c'.rt.Created y ∧
      B'.Mem x ∧ ¬B'.Mem y := by
    refine run_induction_from (P := fun c' => ∃ B', Separate B' c'.rt c'.graph ∧
      c'.rt.Created x ∧ c'.rt.Created y ∧ B'.Mem x ∧ ¬B'.Mem y) hpre
      ⟨B, hsep, hx, hy, hmx, hmy⟩ ?_ hrun
    rintro c1 e hg ha ⟨B1, h1, hx1, hy1, hmx1, hmy1⟩
    refine ⟨B1.grow c1.graph e, h1.step hg.shaped hg.sound hg.loopsFresh hg.alloc ha,
      (created_apply hg.sound ha).mpr (.inl hx1), (created_apply hg.sound ha).mpr (.inl hy1),
      ?_, ?_⟩
    · exact (grow_mem hg.sound hg.loopsFresh ha hx1).mpr hmx1
    · exact fun hm => hmy1 ((grow_mem hg.sound hg.loopsFresh ha hy1).mp hm)
  obtain ⟨B', hsep', -, -, hmx', hmy'⟩ := key
  exact fun hr => hmy' (mem_of_reach (fun a b hab => hsep'.closed hab) hr hmx')

/-- The home of a task is a region that exists. -/
theorem home_run (hrun : run env es = some c) {τ : TaskId}
    (hr : (c.rt.task τ).home = some r) : (c.rt.region r).stage ≠ .absent := by
  refine (run_induction (P := fun c => ∀ τ r, (c.rt.task τ).home = some r →
    (c.rt.region r).stage ≠ .absent) ?_ ?_ hrun).2 τ r hr
  · intro τ r hr
    cases hr
  · intro c e hg ha ih τ r hr
    refine region_present_apply ha ?_
    have hc := taskChange ha τ
    simp only [next] at hr
    generalize (c.rt.apply e).task τ = v at hc hr
    cases hc with
    | created _ _ _ hhome =>
      rcases hhome r hr with hopen | ⟨σ, hσ⟩
      · simp [hopen]
      · exact ih σ r hσ
    | _ => exact ih τ r hr

/-- A task stays in the region it was created in. -/
theorem home_fixed {pre post : List Event} (hpre : run env pre = some c)
    (hrun : run env (pre ++ post) = some c') {τ : TaskId}
    (hpres : (c.rt.task τ).standing ≠ .absent) : (c'.rt.task τ).home = (c.rt.task τ).home := by
  refine (run_induction_from (P := fun c' => (c'.rt.task τ).standing ≠ .absent ∧
    (c'.rt.task τ).home = (c.rt.task τ).home) hpre ⟨hpres, rfl⟩ ?_ hrun).2
  rintro c1 e - ha ⟨hpres1, hhome1⟩
  refine ⟨task_present_apply ha hpres1, ?_⟩
  have hc := taskChange ha τ
  simp only [next]
  generalize (c1.rt.apply e).task τ = v at hc
  cases hc with
  | created _ habs => exact absurd habs hpres1
  | _ => exact hhome1

/-- The sink of a region keeps its address. -/
theorem sinkNode_addr (hrun : run env es = some c) (hk : SinkNode env es r k) :
    .sink r ∈ c.graph.order ∧ c.graph.addr (.sink r) = k := by
  obtain ⟨pre, post, s, pi, rfl, hs, hpi, rfl⟩ := hk
  rw [run_append] at hrun
  obtain ⟨c1, hc1, hc⟩ := Option.bind_eq_some_iff.mp hrun
  obtain rfl := Option.some.inj (hs.symm.trans (tool_run hc1))
  obtain ⟨hopen, rfl⟩ := parData_tool.mp hpi
  have hmem : .sink r ∈ c1.graph.order :=
    (run_good hc1).shaped.order_iff.mpr (by simp [Created, hopen])
  exact addr_run hc1 (by rw [run_append, hc1]; exact hc) hmem

/-! ### Explicit tasks -/

/-- A new explicit task is a branch. -/
theorem separate_explicit {th : ThreadId} {parent : TaskId} (hg : c.Good)
    (ha : c.rt.allows ⟨th, .taskCreate parent (.explicit n) .explicit⟩ = true) :
    Separate ⟨fun k => k = n, fun _ => False, fun _ => False, none⟩
      (c.next env ⟨th, .taskCreate parent (.explicit n) .explicit⟩).rt
      (c.next env ⟨th, .taskCreate parent (.explicit n) .explicit⟩).graph := by
  have hg' := hg.next env ha
  set B : Branch := ⟨fun k => k = n, fun _ => False, fun _ => False, none⟩ with hB
  cases delivers_of_allows ha with
  | explicit hact _ habs =>
  have hof : ∀ {τ}, B.OfTask τ → τ = .explicit n := by
    intro τ hτ
    cases τ with
    | explicit m => rw [show m = n from hτ]
    | initial i => exact hτ.elim
    | implicit r t => exact hτ.elim
  have hnone : c.rt.task (.explicit n) = {} := hg.sound.fresh habs
  -- nothing of the branch existed before
  have hfresh : ∀ {x}, B.Mem x → ¬c.rt.Created x := by
    intro x hx hc
    cases x with
    | exp m =>
      obtain rfl : m = n := hx
      exact hc habs
    | ws τ l => simp [Created, hof hx, hnone, TaskState.begun] at hc
    | loopSink τ l => simp [Created, hof hx, hnone, TaskState.begun] at hc
    | chunk τ l i => simp [Created, hof hx, hnone] at hc
    | root => exact hx
    | sink r => exact hx.elim id id
    | imp r t j => exact hx
    | barrier r i => exact hx
  have hcur : ∀ {τ}, (c.next env ⟨th, .taskCreate parent (.explicit n) .explicit⟩).rt.HasData τ →
      B.Mem ((c.next env ⟨th, .taskCreate parent (.explicit n) .explicit⟩).graph.cur τ) →
      τ = .explicit n := by
    intro τ hd hm
    have hs := (hg'.shaped.seat hd).2
    generalize (c.next env _).graph.cur τ = x at hs hm
    cases x with
    | exp m =>
      obtain rfl : m = n := hm
      exact hs
    | loopSink σ l =>
      obtain ⟨rfl, -⟩ := hs
      exact hof hm
    | root => exact hm.elim
    | sink r => exact (hm.elim id id : False).elim
    | imp r t j => exact hm.elim
    | _ => exact hs.elim
  have howned : ∀ {τ o'}, τ = .explicit n → B.Owned o' τ := by
    rintro τ o' rfl
    exact .inl rfl
  refine ⟨?_, ?_, ?_, ?_, ?_, ?_, ?_⟩
  · intro x y hxy hx
    refine absurd ?_ (hfresh hx)
    rcases link_step ha hxy with hold | hnew
    · exact (hg.shaped.live_iff.mp (hg.alloc.edges_live hold).1).1
    · obtain ⟨rfl, -⟩ : x = c.graph.cur parent ∧ y = .exp n := by simpa [newEdges] using hnew
      exact (hg.shaped.seat (hasData_of_active hact.2)).1
  · exact fun hd hm => howned (hcur hd hm)
  · intro r hopen hm
    have hf := hg'.sound.opened_parent hopen
    have hp := hcur (hasData_of_forked hf) hm
    rw [hp] at hf
    simp [next, Runtime.apply] at hf
  · intro r _ hr
    exact (hr.elim id id : False).elim
  · intro m hm
    rw [show m = n from hm]
    simp [next, Runtime.apply]
  · exact fun hr => hr.elim
  · exact fun hr => hr.elim

/-- No path leads from an explicit task to the sink of its region. -/
theorem explicit_no_path (hrun : run env es = some c)
    (hhome : (c.rt.task (.explicit n)).home = some r)
    (hu : TaskNode env es n u) (hk : SinkNode env es r k) :
    (∃ nd, c.tool.nodes u = some nd ∧ nd.type = .expTask) ∧
      ¬ReflTransGen c.tool.toGraph.Adj u k := by
  obtain ⟨pre, th, parent, post, rfl, s, td, hs, htd, rfl⟩ := hu
  obtain ⟨hsink, rfl⟩ := sinkNode_addr hrun hk
  obtain ⟨c1, hc1, ha, hnext⟩ := run_split hrun
  obtain rfl := Option.some.inj (hs.symm.trans (tool_run hnext))
  rw [List.append_cons] at hrun
  have hg := run_good hrun
  have hg1 := run_good hnext
  have hpres : ((c1.next env ⟨th, .taskCreate parent (.explicit n) .explicit⟩).rt.task
      (.explicit n)).standing ≠ .absent := by simp [next, Runtime.apply]
  have hexp : .exp n ∈ (c1.next env _).graph.order := hg1.shaped.order_iff.mpr hpres
  obtain ⟨hexp', haddr⟩ := addr_run hnext hrun hexp
  -- the record of the new task leads to its node
  have hu : c.graph.addr (.exp n) = td.currTaskNode := by
    rw [taskData_tool (hasData_of_tool htd)] at htd
    obtain rfl := Option.some.inj htd
    have hcur : (c1.next env _).graph.cur (.explicit n) = .exp n := cur_of_moved ha rfl
    simp only [taskRecord, TaskData.map, hcur, haddr]
  rw [← hu]
  refine ⟨⟨c.graph.node (.exp n), hg.nodes_iff.mpr ⟨.exp n, ?_, rfl, rfl⟩, ?_⟩, ?_⟩
  · exact hg.shaped.live_iff.mpr ⟨hg.shaped.order_iff.mp hexp', id⟩
  · exact hg.alloc.type_eq hexp'
  · rw [hg.reach_iff hexp' hsink]
    rw [home_fixed hnext hrun hpres] at hhome
    exact not_reached_of_separate hnext (separate_explicit (run_good hc1) ha)
      (hg1.shaped.order_iff.mp hexp) (home_run hnext hhome) rfl (fun h => h.elim id id) hrun

/-- **Explicit tasks are not joined.**  In no run is there ever a path from the
node of an explicit task to the sink of the region it was created in. -/
theorem explicit_not_joined (env : Env) (hrun : Runtime.run es = some o)
    (hhome : (o.task (.explicit n)).home = some r) :
    ∃ s, Tool.run env es = some s ∧ ∀ u k, TaskNode env es n u → SinkNode env es r k →
      (∃ nd, s.nodes u = some nd ∧ nd.type = .expTask) ∧ ¬ReflTransGen s.toGraph.Adj u k := by
  obtain ⟨c, hc, rfl⟩ := run_of_runtime env hrun
  exact ⟨c.tool, tool_run hc, fun u k hu hk => explicit_no_path hc hhome hu hk⟩

/-- The explicit task of the sample run and the sink of its region. -/
theorem taskInBarrier_nodes :
    (∀ o, Runtime.run taskInBarrier = some o → (o.task (.explicit 0)).home = some 0) ∧
      TaskNode { clock := fun k => k } taskInBarrier 0 4 ∧
      SinkNode { clock := fun k => k } taskInBarrier 0 1 := by
  refine ⟨fun o ho => ?_, ?_, ?_⟩
  · have : (Runtime.run taskInBarrier).map (fun o => (o.task (.explicit 0)).home)
        = some (some 0) := by decide
    rw [ho] at this
    exact Option.some.inj this
  · exact ⟨taskInBarrier.take 6, 0, .implicit 0 0, taskInBarrier.drop 7, rfl, _, _, rfl, rfl, rfl⟩
  · exact ⟨taskInBarrier.take 6, taskInBarrier.drop 6, _, _, rfl, rfl, rfl, rfl⟩

theorem explicit_not_joined_taskInBarrier :
    ∃ s, Tool.run { clock := fun k => k } taskInBarrier = some s ∧
      ¬ReflTransGen s.toGraph.Adj 4 1 := by
  obtain ⟨o, ho, -, -⟩ := taskInBarrier_ended
  obtain ⟨hhome, hu, hk⟩ := taskInBarrier_nodes
  obtain ⟨s, hs, hno⟩ := explicit_not_joined { clock := fun k => k } ho (hhome o ho)
  exact ⟨s, hs, (hno 4 1 hu hk).2⟩

/-- The region whose barrier a thread leaves. -/
def leavesBarrier (e : Event) : Option RegionId :=
  match e.call with
  | .syncRegion .barrier .scopeEnd r _ => some r
  | _ => none

/-- When a thread leaves a barrier, the explicit tasks of the region have
completed. -/
def TasksCompleted (o : Runtime) (e : Event) : Prop :=
  ∀ r, leavesBarrier e = some r → ∀ n, (o.task (.explicit n)).home = some r →
    (o.task (.explicit n)).standing = .done

theorem taskInBarrier_completed : Runtime.Throughout TasksCompleted taskInBarrier := by
  refine steps_of_prefixes fun i hi o ho e he r hr n hn => ?_
  -- two callbacks end the barrier, and the task has completed before
  have hends : ∀ i < taskInBarrier.length,
      ((taskInBarrier[i]?).bind leavesBarrier).isSome = true → i = 11 ∨ i = 14 := by decide
  have hlast : i = 11 ∨ i = 14 := by
    refine hends i hi ?_
    rw [Option.mem_def.mp he, Option.bind_some, hr]
    rfl
  rcases hlast with rfl | rfl
  · obtain rfl := Option.some.inj (Option.mem_def.mp ho)
    rcases n with - | n
    · decide
    · cases hn
  · obtain rfl := Option.some.inj (Option.mem_def.mp ho)
    rcases n with - | n
    · decide
    · cases hn

/-- A complete run, with an explicit task that has completed before the threads
leave the barrier, in which the task is not joined. -/
theorem taskInBarrier_not_joined :
    ¬∀ (env : Env) (es : List Event) (o : Runtime) (s : Tool) (n : ℕ) (r : RegionId)
      (u k : NodeRef), Runtime.run es = some o → o.RegionsEnded → o.TasksDone →
      Runtime.Throughout TasksCompleted es →
      (o.task (.explicit n)).home = some r → Tool.run env es = some s → TaskNode env es n u →
      SinkNode env es r k → ReflTransGen s.toGraph.Adj u k := by
  intro hall
  obtain ⟨o, ho, hreg, htask⟩ := taskInBarrier_ended
  obtain ⟨hhome, hu, hk⟩ := taskInBarrier_nodes
  obtain ⟨c, hc, rfl⟩ := run_of_runtime { clock := fun k => k } ho
  exact (explicit_no_path hc (hhome _ ho) hu hk).2 (hall _ _ _ _ 0 0 4 1 ho hreg htask
    taskInBarrier_completed (hhome _ ho) (tool_run hc) hu hk)

/-! ### Regions inside loops -/

/-- The sink of a region that a task begins inside a loop is a branch. -/
theorem separate_sink {th : ThreadId} {τ : TaskId} {q m b : ℕ} (hg : c.Good)
    (hloop : (c.rt.task τ).inLoop = true)
    (ha : c.rt.allows ⟨th, .parallelBegin τ r q m b⟩ = true) :
    Separate ⟨fun _ => False, fun _ => False, fun r' => r' = r, some (τ, (c.rt.task τ).loops)⟩
      (c.next env ⟨th, .parallelBegin τ r q m b⟩).rt
      (c.next env ⟨th, .parallelBegin τ r q m b⟩).graph := by
  have hg' := hg.next env ha
  set B : Branch :=
    ⟨fun _ => False, fun _ => False, fun r' => r' = r, some (τ, (c.rt.task τ).loops)⟩ with hB
  have hopen : ((c.next env ⟨th, .parallelBegin τ r q m b⟩).rt.region r).stage = .opened := by
    simp [next, Runtime.apply]
  have hmem : ∀ {x}, B.Mem x → x = .sink r := by
    have hof : ∀ {τ}, ¬B.OfTask τ := by
      intro τ hτ
      cases τ <;> exact hτ
    intro x hx
    cases x with
    | sink r' => rw [show r' = r from hx.resolve_left id]
    | ws τ l => exact absurd hx hof
    | loopSink τ l => exact absurd hx hof
    | chunk τ l i => exact absurd hx hof
    | _ => exact hx.elim
  -- no task is at the sink of an open region
  have hcur : ∀ {σ}, (c.next env ⟨th, .parallelBegin τ r q m b⟩).rt.HasData σ →
      ¬B.Mem ((c.next env ⟨th, .parallelBegin τ r q m b⟩).graph.cur σ) := by
    intro σ hd hm
    have hs := (hg'.shaped.seat hd).2
    rw [hmem hm] at hs
    have hend := hs.1
    rw [hopen] at hend
    cases hend
  refine ⟨?_, ?_, ?_, ?_, ?_, ?_, ?_⟩
  · intro x y hxy hx
    rw [hmem hx] at hxy
    exact absurd hopen (hg'.shaped.exits hxy)
  · exact fun hd hm => absurd hm (hcur hd)
  · exact fun ho hm => absurd hm (hcur (hasData_of_forked (hg'.sound.opened_parent ho)))
  · intro r' _ hr
    obtain rfl : r' = r := hr.resolve_left id
    refine .inr ⟨?_, ?_⟩
    · simp [hB, next, Runtime.apply]
    · simpa [next, Runtime.apply] using hloop
  · exact fun hn => hn.elim
  · exact fun hr => hr.elim
  · intro r' hr
    rw [show r' = r from hr, hopen]
    simp

/-- No path leads from the sink of a region begun inside a loop to the sink of
the loop. -/
theorem nested_no_path (pre post : List Event) {th : ThreadId} {τ : TaskId} {q m b : ℕ}
    {s : Tool} {td : TaskData NodeRef} {ws : WorksharingData NodeRef}
    (hrun : run env (pre ++ ⟨th, .parallelBegin τ r q m b⟩ :: post) = some c)
    (hs : Tool.run env pre = some s) (htd : s.taskData τ = some td)
    (hws : td.currWsData = some ws) :
    ∃ k, SinkNode env (pre ++ ⟨th, .parallelBegin τ r q m b⟩ :: post) r k ∧
      ¬ReflTransGen c.tool.toGraph.Adj k ws.sinkNode := by
  obtain ⟨c1, hc1, ha, hnext⟩ := run_split hrun
  obtain rfl := Option.some.inj (hs.symm.trans (tool_run hc1))
  have hg1 := run_good hc1
  have hg2 := run_good hnext
  have hg := run_good hrun
  -- the task is inside a loop, whose sink is the one of the record
  rw [taskData_tool (hasData_of_tool htd)] at htd
  obtain rfl := Option.some.inj htd
  have hloop : (c1.rt.task τ).inLoop = true := by
    by_contra hl
    simp [taskRecord, TaskData.map, wsOf, hl] at hws
  have hsink : ws.sinkNode = c1.graph.addr (.loopSink τ (c1.rt.task τ).loops) := by
    have : (wsRecord c1.rt τ).map c1.graph.addr = ws := by
      simpa [taskRecord, TaskData.map, wsOf, hloop] using hws
    rw [← this]
    rfl
  have hopen : ((c1.next env ⟨th, .parallelBegin τ r q m b⟩).rt.region r).stage = .opened := by
    simp [next, Runtime.apply]
  have hcl : c1.rt.Created (.loopSink τ (c1.rt.task τ).loops) := by
    simp [Created, TaskState.begun, hloop]
  have hcl2 := (created_apply hg1.sound ha).mpr (.inl hcl)
  have hcs : (c1.next env ⟨th, .parallelBegin τ r q m b⟩).rt.Created (.sink r) := by
    simp [Created, hopen]
  have hk : SinkNode env (pre ++ ⟨th, .parallelBegin τ r q m b⟩ :: post) r
      ((c1.next env ⟨th, .parallelBegin τ r q m b⟩).graph.addr (.sink r)) :=
    ⟨pre ++ [⟨th, .parallelBegin τ r q m b⟩], post, _, _, List.append_cons _ _ _, tool_run hnext,
      parData_tool.mpr ⟨hopen, rfl⟩, rfl⟩
  refine ⟨_, hk, ?_⟩
  obtain ⟨hso, hsa⟩ := sinkNode_addr hrun hk
  obtain ⟨hlo, hla⟩ := addr_run hc1 hrun (hg1.shaped.order_iff.mpr hcl)
  rw [hsink, ← hla, ← hsa, hg.reach_iff hso hlo]
  rw [List.append_cons] at hrun
  refine not_reached_of_separate hnext (separate_sink hg1 hloop ha) hcs hcl2 (.inr rfl) ?_ hrun
  cases τ <;> exact id

/-- **Regions begun inside a chunk are never ordered with it**, whatever team
they get and whatever they execute. -/
theorem nested_never_ordered (env : Env) {es : List Event} {o : Runtime}
    (hrun : Runtime.run es = some o) :
    ∃ s, Tool.run env es = some s ∧ ∀ pre th τ r q m b post s' td ws chunk,
      es = pre ++ ⟨th, .parallelBegin τ r q m b⟩ :: post → Tool.run env pre = some s' →
      s'.taskData τ = some td → td.currWsData = some ws → ws.lastChunkNode = some chunk →
      ¬OrderedWithChunk env es s r chunk ws.sinkNode := by
  obtain ⟨c, hc, rfl⟩ := run_of_runtime env hrun
  refine ⟨c.tool, tool_run hc, ?_⟩
  rintro pre th τ r q m b post s' td ws chunk rfl hs htd hws - hord
  obtain ⟨k, hk, hno⟩ := nested_no_path pre post hc hs htd hws
  exact hno (hord.joined k hk)

/-- A region of one thread inside the only chunk of a loop. -/
def regionInChunk : List Event :=
  [⟨0, .threadBegin⟩, ⟨0, .taskCreate (.initial 0) (.initial 0) .initial⟩,
    ⟨0, .parallelBegin (.initial 0) 0 1 1 1⟩,
    ⟨0, .implicitTask .scopeBegin 0 (.implicit 0 0) 1 0⟩,
    ⟨0, .extLoop .scopeBegin (.implicit 0 0) 0 9⟩,
    ⟨0, .extChunk (.implicit 0 0) 0 9 false⟩,
    ⟨0, .parallelBegin (.implicit 0 0) 1 1 1 1⟩,
    ⟨0, .implicitTask .scopeBegin 1 (.implicit 1 0) 1 0⟩,
    ⟨0, .syncRegion .barrier .scopeBegin 1 (.implicit 1 0)⟩,
    ⟨0, .syncRegion .barrier .scopeEnd 1 (.implicit 1 0)⟩,
    ⟨0, .implicitTask .scopeEnd 1 (.implicit 1 0) 1 0⟩,
    ⟨0, .parallelEnd 1 (.implicit 0 0)⟩,
    ⟨0, .extLoop .scopeEnd (.implicit 0 0) 0 9⟩,
    ⟨0, .syncRegion .barrier .scopeBegin 0 (.implicit 0 0)⟩,
    ⟨0, .syncRegion .barrier .scopeEnd 0 (.implicit 0 0)⟩,
    ⟨0, .implicitTask .scopeEnd 0 (.implicit 0 0) 1 0⟩,
    ⟨0, .parallelEnd 0 (.initial 0)⟩]

theorem nested_never_ordered_regionInChunk :
    ∃ s, Tool.run { clock := fun k => k } regionInChunk = some s ∧
      ¬OrderedWithChunk { clock := fun k => k } regionInChunk s 1 5 4 := by
  obtain ⟨s, hs, hno⟩ := nested_never_ordered { clock := fun k => k }
    (show Runtime.run regionInChunk = some _ from rfl)
  exact ⟨s, hs, hno (regionInChunk.take 6) 0 (.implicit 0 0) 1 1 1 1 (regionInChunk.drop 7) _ _ _ 5
    rfl rfl rfl rfl rfl⟩

/-- In the sample run the sink of the nested region does not lead to the sink
of the loop. -/
theorem regionInChunk_not_ordered :
    ∃ s, Tool.run { clock := fun k => k } regionInChunk = some s ∧
      SinkNode { clock := fun k => k } regionInChunk 1 6 ∧
      ¬ReflTransGen s.toGraph.Adj 6 4 ∧
      ¬OrderedWithChunk { clock := fun k => k } regionInChunk s 1 5 4 := by
  have hsink : SinkNode { clock := fun k => k } regionInChunk 1 6 :=
    ⟨regionInChunk.take 7, regionInChunk.drop 7, _, _, rfl, rfl, rfl, rfl⟩
  obtain ⟨c, hc, -⟩ := run_of_runtime { clock := fun k => k }
    (show Runtime.run regionInChunk = some _ from rfl)
  obtain ⟨k, hk, hno⟩ := nested_no_path (regionInChunk.take 6) (regionInChunk.drop 7) hc rfl rfl rfl
  obtain ⟨-, hk6⟩ := sinkNode_addr hc hsink
  obtain ⟨-, hkk⟩ := sinkNode_addr hc hk
  obtain rfl : k = 6 := hkk.symm.trans hk6
  exact ⟨c.tool, tool_run hc, hsink, hno, fun hord => hno (hord.joined 6 hsink)⟩

end Config

end Tdg
