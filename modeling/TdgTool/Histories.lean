/-
TdgTool/Histories.lean

What each task calls, and what its calls alone say.

A program may nest parallel regions, run loops in any task but an explicit one
and create explicit tasks anywhere; it need not be written down.  The history of
a task is the list of its own calls, without threads, schedules or the ends of
barriers (`calls`).  It determines where the task is (`Post`), and which nodes and
edges it makes (`Post.made`): everything but the edge into the first node of an
implicit task, which begins where another task forked the region (`ForkedAt`).

So `Made` says for histories alone which pieces a graph has, and `Gone` which of
its nodes have been given up; no interleaving enters.  That every run builds
just this graph is the subject of `Determinism`.
-/
import TdgTool.Weave

namespace Tdg

/-! ### Histories -/

/-- The task that makes a call. -/
def Event.owner (e : Event) : Option TaskId := e.act.map Prod.fst

/-- What a task calls in the course of a run, in order. -/
def calls (τ : TaskId) (es : List Event) : List Call :=
  (es.filter fun e => e.owner = some τ).map Event.call

/-- A history for each task. -/
abbrev Histories := TaskId → List Call

section Calls

variable {es : List Event} {e : Event} {τ σ : TaskId}

theorem calls_snoc_of_owner (h : e.owner = some τ) :
    calls τ (es ++ [e]) = calls τ es ++ [e.call] := by
  simp [calls, h]

theorem calls_snoc_of_other (h : e.owner ≠ some τ) : calls τ (es ++ [e]) = calls τ es := by
  simp [calls, h]

theorem act_of_owner (h : e.owner ≠ some τ) (a : Act) : e.act ≠ some (τ, a) :=
  fun ha => h (by simp [Event.owner, ha])

/-- A call of the history after one more callback is an old one, or the callback
itself. -/
theorem mem_calls_snoc {c : Call} : c ∈ calls τ (es ++ [e]) ↔
    c ∈ calls τ es ∨ e.owner = some τ ∧ c = e.call := by
  by_cases h : e.owner = some τ
  · simp [calls_snoc_of_owner h, h]
  · simp [calls_snoc_of_other h, h]

/-- The places in the history after one more callback. -/
theorem split_calls_snoc {pre post : List Call} {c : Call} :
    calls τ (es ++ [e]) = pre ++ c :: post ↔
      (∃ post', calls τ es = pre ++ c :: post' ∧
        post = post' ++ if e.owner = some τ then [e.call] else []) ∨
      e.owner = some τ ∧ calls τ es = pre ∧ c = e.call ∧ post = [] := by
  by_cases h : e.owner = some τ
  · rw [calls_snoc_of_owner h]
    simp only [h, if_true, true_and]
    rcases List.eq_nil_or_concat post with rfl | ⟨post, d, rfl⟩
    · rw [List.append_singleton_inj]
      constructor
      · rintro ⟨hcalls, rfl⟩
        exact .inr ⟨hcalls, rfl, rfl⟩
      · rintro (⟨post', -, hpost⟩ | ⟨hcalls, rfl, -⟩)
        · simp at hpost
        · exact ⟨hcalls, rfl⟩
    · have hcons : pre ++ c :: (post.concat d) = (pre ++ c :: post) ++ [d] := by simp
      rw [hcons, List.append_singleton_inj]
      constructor
      · rintro ⟨hcalls, rfl⟩
        exact .inl ⟨post, hcalls, by simp⟩
      · rintro (⟨post', hcalls, hpost⟩ | ⟨-, -, hpost⟩)
        · obtain ⟨rfl, rfl⟩ := List.append_singleton_inj.mp (by simpa using hpost)
          exact ⟨hcalls, rfl⟩
        · simp at hpost
  · rw [calls_snoc_of_other h]
    simp [h]

end Calls

/-! ### Posts -/

/-- Where its own calls have led a task: its node, the barrier node it comes from,
the size of its team, the loops it has finished, the chunks of the present one,
and the barriers it has reached. -/
structure Post where
  cur : Role := .root
  bar : Option Role := none
  threads : ℕ := 0
  loops : ℕ := 0
  chunks : ℕ := 0
  arrived : ℕ := 0
  deriving DecidableEq, Repr

namespace Post

/-- Before the first call. -/
def start : TaskId → Post
  | .explicit n => { cur := .exp n }
  | _ => {}

/-- Where a call leads. -/
def step (p : Post) : Call → Post
  | .taskCreate _ _ .initial => { p with cur := .root }
  | .implicitTask .scopeBegin r _ n t =>
      { p with cur := .imp r t 0, bar := none, threads := n }
  | .parallelEnd r _ => { p with cur := .sink r }
  | .syncRegion .barrier .scopeBegin r (.implicit _ t) =>
      if 1 < p.threads then
        { p with
          cur := .imp r t (p.arrived + 1)
          bar := some (.barrier r p.arrived)
          arrived := p.arrived + 1 }
      else { p with arrived := p.arrived + 1 }
  | .extLoop .scopeEnd τ _ _ =>
      { p with cur := .loopSink τ p.loops, loops := p.loops + 1, chunks := 0 }
  | .extChunk _ _ _ false => { p with chunks := p.chunks + 1 }
  | _ => p

/-- What a call makes, apart from the edge into the first node of an implicit
task. -/
def made (p : Post) : Call → List Piece
  | .taskCreate _ _ .initial => [.node .root 0 0]
  | .taskCreate _ (.explicit n) .explicit => [.node (.exp n) 0 0, .edge p.cur (.exp n)]
  | .parallelBegin _ r _ _ _ => [.node (.sink r) 0 0]
  | .implicitTask .scopeBegin r _ _ t => [.node (.imp r t 0) 0 0]
  | .implicitTask .scopeEnd r _ _ t =>
      match p.bar with
      | some b => if t = 0 then [.edge b (.sink r)] else []
      | none => [.edge p.cur (.sink r)]
  | .syncRegion .barrier .scopeBegin r (.implicit _ t) =>
      if 1 < p.threads then
        [.node (.barrier r p.arrived) 0 0, .edge p.cur (.barrier r p.arrived),
          .node (.imp r t (p.arrived + 1)) 0 0,
          .edge (.barrier r p.arrived) (.imp r t (p.arrived + 1))]
      else []
  | .extLoop .scopeBegin τ lower upper =>
      [.node (.ws τ p.loops) lower upper, .edge p.cur (.ws τ p.loops),
        .node (.loopSink τ p.loops) 0 0]
  | .extLoop .scopeEnd τ _ _ =>
      if p.chunks = 0 then [.edge (.ws τ p.loops) (.loopSink τ p.loops)] else []
  | .extChunk τ lower upper false =>
      [.node (.chunk τ p.loops p.chunks) lower upper,
        .edge (.ws τ p.loops) (.chunk τ p.loops p.chunks),
        .edge (.chunk τ p.loops p.chunks) (.loopSink τ p.loops)]
  | _ => []

/-- Where a list of calls leads a task. -/
def after (τ : TaskId) (cs : List Call) : Post := cs.foldl step (start τ)

theorem after_snoc {τ : TaskId} {cs : List Call} {c : Call} :
    after τ (cs ++ [c]) = (after τ cs).step c := by
  simp [after]

/-- Barrier nodes have no bounds. -/
theorem made_barrier {p : Post} {c : Call} {r : RegionId} {i : ℕ} {lower upper : ℤ}
    (hp : .node (.barrier r i) lower upper ∈ p.made c) : lower = 0 ∧ upper = 0 := by
  unfold made at hp
  split at hp
  · simp at hp
  · simp at hp
  · simp at hp
  · simp at hp
  · split at hp
    · split_ifs at hp <;> simp at hp
    · simp at hp
  · split_ifs at hp
    · simp at hp
      exact hp.2
    · cases hp
  · simp at hp
  · split_ifs at hp <;> simp at hp
  · simp at hp
  · cases hp

end Post

/-! ### What histories make -/

namespace Histories

section Made

variable (H : Histories)

/-- The encountering task of the region forks it at this node. -/
def ForkedAt (r : RegionId) (x : Role) : Prop :=
  ∃ τ pre q m k post, H τ = pre ++ .parallelBegin τ r q m k :: post ∧ (Post.after τ pre).cur = x

/-- Some task makes the piece by a call of its own. -/
def OwnPiece (p : Piece) : Prop :=
  ∃ τ pre c post, H τ = pre ++ c :: post ∧ p ∈ (Post.after τ pre).made c

/-- The edge into the first node of an implicit task. -/
def EntryPiece (p : Piece) : Prop :=
  ∃ r t n x, .implicitTask .scopeBegin r (.implicit r t) n t ∈ H (.implicit r t) ∧
    H.ForkedAt r x ∧ p = .edge x (.imp r t 0)

/-- What tasks with these histories have made. -/
def Made (p : Piece) : Prop := H.OwnPiece p ∨ H.EntryPiece p

/-- A node behind the last barrier, of a thread that has ended. -/
def Gone (x : Role) : Prop :=
  ∃ r t n, .implicitTask .scopeEnd r (.implicit r t) n t ∈ H (.implicit r t) ∧
    1 < (Post.after (.implicit r t) (H (.implicit r t))).threads ∧
    x = .imp r t (Post.after (.implicit r t) (H (.implicit r t))).arrived

end Made

theorem Made.barrier {H : Histories} {r : RegionId} {i : ℕ} {lower upper : ℤ}
    (h : H.Made (.node (.barrier r i) lower upper)) : lower = 0 ∧ upper = 0 := by
  rcases h with ⟨τ, pre, c, post, -, hp⟩ | ⟨_, _, _, _, -, -, hp⟩
  · exact Post.made_barrier hp
  · cases hp

/-! ### Histories in the course of a run -/

/-- What the tasks have called in the course of a run. -/
def ofRun (es : List Event) : Histories := fun τ => calls τ es

variable {es : List Event} {e : Event} {p : Piece} {r : RegionId} {x : Role}

theorem forkedAt_snoc : (ofRun (es ++ [e])).ForkedAt r x ↔ (ofRun es).ForkedAt r x ∨
    ∃ τ q m k, e.call = .parallelBegin τ r q m k ∧ (Post.after τ (calls τ es)).cur = x := by
  constructor
  · rintro ⟨τ, pre, q, m, k, post, hcalls, hx⟩
    rcases split_calls_snoc.mp hcalls with ⟨post', hold, -⟩ | ⟨-, rfl, hc, -⟩
    · exact .inl ⟨τ, pre, q, m, k, post', hold, hx⟩
    · exact .inr ⟨τ, q, m, k, hc.symm, hx⟩
  · rintro (⟨τ, pre, q, m, k, post, hcalls, hx⟩ | ⟨τ, q, m, k, hc, hx⟩)
    · exact ⟨τ, pre, q, m, k, _, split_calls_snoc.mpr (.inl ⟨post, hcalls, rfl⟩), hx⟩
    · have howner : e.owner = some τ := by simp [Event.owner, Event.act, hc]
      exact ⟨τ, _, q, m, k, [], split_calls_snoc.mpr (.inr ⟨howner, rfl, hc.symm, rfl⟩), hx⟩

theorem ownPiece_snoc : (ofRun (es ++ [e])).OwnPiece p ↔ (ofRun es).OwnPiece p ∨
    ∃ τ, e.owner = some τ ∧ p ∈ (Post.after τ (calls τ es)).made e.call := by
  constructor
  · rintro ⟨τ, pre, c, post, hcalls, hp⟩
    rcases split_calls_snoc.mp hcalls with ⟨post', hold, -⟩ | ⟨howner, rfl, rfl, -⟩
    · exact .inl ⟨τ, pre, c, post', hold, hp⟩
    · exact .inr ⟨τ, howner, hp⟩
  · rintro (⟨τ, pre, c, post, hcalls, hp⟩ | ⟨τ, howner, hp⟩)
    · exact ⟨τ, pre, c, _, split_calls_snoc.mpr (.inl ⟨post, hcalls, rfl⟩), hp⟩
    · exact ⟨τ, _, e.call, [], split_calls_snoc.mpr (.inr ⟨howner, rfl, rfl, rfl⟩), hp⟩

/-- Tasks with equal histories have made the same. -/
theorem ofRun_congr {es' : List Event} (h : ∀ τ, calls τ es = calls τ es') :
    ofRun es = ofRun es' := funext h

end Histories

end Tdg
