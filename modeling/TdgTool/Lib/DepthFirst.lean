/-
TdgTool/Lib/DepthFirst.lean

Depth first search over a successor function, with its finishing order.

The state is the marks of the nodes that have been entered and the list of the
nodes that have been left, the last one in front.  The recursion is bounded by
a fuel argument; `visit` and `explore` return `none` when it runs out.

On a finite set of nodes that no successor leaves, as much fuel as there are
unmarked nodes is enough, and every node is left once (`visit_grown`).  If the
graph is acyclic, the finishing list is a topological order (`Ordered`): all
successors of a node stand behind it.
-/
import Mathlib.Data.Finset.Card
import TdgTool.Lib.Paths

namespace DepthFirst

open Relation

variable {α : Type*} [DecidableEq α] (succ : α → List α)

/-! ### The search -/

/-- The marks of the entered nodes and the list of the nodes left. -/
abbrev State (α : Type*) := (α → Bool) × List α

/-- Enter a node, visit its unmarked successors in order, leave the node. -/
def visit : ℕ → α → State α → Option (State α)
  | 0, _, _ => none
  | fuel + 1, x, s => do
      let s' ← (succ x).foldlM
        (fun s y => if s.1 y then some s else visit fuel y s) (Function.update s.1 x true, s.2)
      some (s'.1, x :: s'.2)

/-- Visit the unmarked nodes of a list in order. -/
def explore (fuel : ℕ) (ys : List α) (s : State α) : Option (State α) :=
  ys.foldlM (fun s y => if s.1 y then some s else visit succ fuel y s) s

theorem visit_succ (fuel : ℕ) (x : α) (s : State α) :
    visit succ (fuel + 1) x s = (explore succ fuel (succ x) (Function.update s.1 x true, s.2)).map
      fun s' => (s'.1, x :: s'.2) := by
  rw [visit, explore]
  rcases (succ x).foldlM _ _ with - | s' <;> rfl

@[simp] theorem explore_nil (fuel : ℕ) (s : State α) : explore succ fuel [] s = some s := rfl

theorem explore_cons (fuel : ℕ) (y : α) (ys : List α) (s : State α) :
    explore succ fuel (y :: ys) s
      = (if s.1 y then some s else visit succ fuel y s).bind (explore succ fuel ys) := rfl

/-- Marked nodes are passed over. -/
theorem explore_marked {fuel : ℕ} {ys : List α} {s : State α} (h : ∀ y ∈ ys, s.1 y = true) :
    explore succ fuel ys s = some s := by
  induction ys with
  | nil => rfl
  | cons y ys ih =>
    rw [explore_cons, if_pos (h y List.mem_cons_self), Option.bind_some]
    exact ih fun z hz => h z (List.mem_cons_of_mem y hz)

/-! ### What a search adds -/

variable {succ} {N : Finset α} {s s' s'' : State α} {M M' : List α} {x : α} {fuel : ℕ}

/-- From `s` to `s'` the unmarked nodes `M` of `N` have been entered and
left. -/
structure Grown (N : Finset α) (s s' : State α) (M : List α) : Prop where
  list : s'.2 = M ++ s.2
  nodup : M.Nodup
  fresh : ∀ x ∈ M, x ∈ N ∧ s.1 x = false
  marks : ∀ x, s'.1 x = true ↔ s.1 x = true ∨ x ∈ M

omit [DecidableEq α] in
theorem Grown.refl : Grown N s s [] := ⟨rfl, List.nodup_nil, by simp, by simp⟩

omit [DecidableEq α] in
theorem Grown.trans (h : Grown N s s' M) (h' : Grown N s' s'' M') :
    Grown N s s'' (M' ++ M) where
  list := by rw [h'.list, h.list, List.append_assoc]
  nodup := by
    refine List.nodup_append.mpr ⟨h'.nodup, h.nodup, fun a ha b hb hab => ?_⟩
    have hmark := (h.marks b).mpr (.inr hb)
    rw [← hab, (h'.fresh a ha).2] at hmark
    cases hmark
  fresh := by
    intro x hx
    rcases List.mem_append.mp hx with hx | hx
    · obtain ⟨h1, h2⟩ := h'.fresh x hx
      refine ⟨h1, Bool.eq_false_iff.mpr fun hs => ?_⟩
      rw [(h.marks x).mpr (.inl hs)] at h2
      cases h2
    · exact h.fresh x hx
  marks := by
    intro x
    rw [h'.marks, h.marks, List.mem_append]
    tauto

/-- The number of unmarked nodes. -/
def unseen (N : Finset α) (s : State α) : ℕ := (N.filter fun x => s.1 x = false).card

omit [DecidableEq α] in
theorem Grown.unseen_le (h : Grown N s s' M) : unseen N s' ≤ unseen N s := by
  refine Finset.card_le_card fun x hx => ?_
  obtain ⟨h1, h2⟩ := Finset.mem_filter.mp hx
  refine Finset.mem_filter.mpr ⟨h1, Bool.eq_false_iff.mpr fun hs => ?_⟩
  rw [(h.marks x).mpr (.inl hs)] at h2
  cases h2

/-- Entering a node. -/
theorem unseen_enter (hx : x ∈ N) (hs : s.1 x = false) :
    unseen N (Function.update s.1 x true, s.2) < unseen N s := by
  refine Finset.card_lt_card (Finset.ssubset_iff_of_subset ?_ |>.mpr ⟨x, ?_, ?_⟩)
  · intro y hy
    obtain ⟨h1, h2⟩ := Finset.mem_filter.mp hy
    refine Finset.mem_filter.mpr ⟨h1, ?_⟩
    by_cases hyx : y = x
    · rw [hyx]
      exact hs
    · simpa [hyx] using h2
  · exact Finset.mem_filter.mpr ⟨hx, hs⟩
  · simp

theorem grown_leave (hx : x ∈ N) (hs : s.1 x = false)
    (h : Grown N (Function.update s.1 x true, s.2) s' M) :
    Grown N s (s'.1, x :: s'.2) (x :: M) where
  list := by simp [h.list]
  nodup := by
    -- `x` was marked before its successors were visited, so none of them left it again
    refine List.nodup_cons.mpr ⟨fun hm => ?_, h.nodup⟩
    have := (h.fresh x hm).2
    simp at this
  fresh := by
    intro y hy
    rcases List.mem_cons.mp hy with rfl | hy
    · exact ⟨hx, hs⟩
    · obtain ⟨h1, h2⟩ := h.fresh y hy
      have hyx : y ≠ x := by
        rintro rfl
        simp at h2
      exact ⟨h1, by simpa [hyx] using h2⟩
  marks := by
    intro y
    by_cases hyx : y = x
    · simp [h.marks, hyx]
    · simp [h.marks, hyx]

/-- From a fact about single visits to a list of them. -/
theorem explore_grown (succ : α → List α)
    (hvisit : ∀ {x s}, x ∈ N → s.1 x = false → unseen N s ≤ fuel →
      ∃ s' M, visit succ fuel x s = some s' ∧ Grown N s s' M ∧ x ∈ M)
    {ys : List α} (hys : ∀ y ∈ ys, y ∈ N) (hfuel : unseen N s ≤ fuel) :
    ∃ s' M, explore succ fuel ys s = some s' ∧ Grown N s s' M ∧ ∀ y ∈ ys, s'.1 y = true := by
  induction ys generalizing s with
  | nil => exact ⟨s, [], rfl, .refl, by simp⟩
  | cons y ys ih =>
    have hrest := fun z hz => hys z (List.mem_cons_of_mem y hz)
    by_cases hy : s.1 y = true
    · obtain ⟨s', M, h1, h2, h3⟩ := ih hrest hfuel
      refine ⟨s', M, by rw [explore_cons, if_pos hy, Option.bind_some, h1], h2, ?_⟩
      exact List.forall_mem_cons.mpr ⟨(h2.marks y).mpr (.inl hy), h3⟩
    -- a visit leaves no more unmarked nodes than it found, so the fuel goes on to be enough
    · obtain ⟨s₁, M₁, h1, h2, h3⟩ :=
        hvisit (hys y List.mem_cons_self) (Bool.eq_false_iff.mpr hy) hfuel
      obtain ⟨s', M, h4, h5, h6⟩ := ih hrest (h2.unseen_le.trans hfuel)
      refine ⟨s', M ++ M₁, by rw [explore_cons, if_neg hy, h1, Option.bind_some, h4],
        h2.trans h5, ?_⟩
      exact List.forall_mem_cons.mpr
        ⟨(h5.marks y).mpr (.inl ((h2.marks y).mpr (.inr h3))), h6⟩

/-- **A visit enters and leaves unmarked nodes**, the given one among them. -/
theorem visit_grown (hN : ∀ x ∈ N, ∀ y ∈ succ x, y ∈ N) (hx : x ∈ N) (hs : s.1 x = false)
    (hfuel : unseen N s ≤ fuel) :
    ∃ s' M, visit succ fuel x s = some s' ∧ Grown N s s' M ∧ x ∈ M := by
  induction fuel generalizing x s with
  | zero =>
    have hlt := unseen_enter hx hs
    omega
  | succ fuel ih =>
    have hlt := unseen_enter hx hs
    obtain ⟨s', M, h1, h2, -⟩ := explore_grown succ (fun hx hs hf => ih hx hs hf)
      (hN x hx) (s := (Function.update s.1 x true, s.2)) (by omega)
    exact ⟨_, x :: M, by rw [visit_succ, h1]; rfl, grown_leave hx hs h2, List.mem_cons_self⟩

/-- **A search from unmarked nodes** leaves every node once. -/
theorem explore_all (hN : ∀ x ∈ N, ∀ y ∈ succ x, y ∈ N) (ys : List α) (hys : ∀ y, y ∈ ys ↔ y ∈ N)
    {vis : α → Bool} (hvis : ∀ x ∈ N, vis x = false) (hfuel : N.card ≤ fuel) :
    ∃ s', explore succ fuel ys (vis, []) = some s' ∧ s'.2.Nodup ∧ (∀ x, x ∈ s'.2 ↔ x ∈ N) ∧
      ∀ x, s'.1 x = true ↔ vis x = true ∨ x ∈ N := by
  obtain ⟨s', M, h1, h2, h3⟩ := explore_grown succ (N := N) (s := (vis, []))
    (fun hx hs hf => visit_grown hN hx hs hf) (fun y hy => (hys y).mp hy)
    ((Finset.card_filter_le _ _).trans hfuel)
  have hM : s'.2 = M := by simpa using h2.list
  have hmem : ∀ x, x ∈ M ↔ x ∈ N := by
    refine fun x => ⟨fun hx => (h2.fresh x hx).1, fun hx => ?_⟩
    refine ((h2.marks x).mp (h3 x ((hys x).mpr hx))).resolve_left fun hv => ?_
    rw [show (vis, ([] : List α)).1 x = false from hvis x hx] at hv
    cases hv
  refine ⟨s', h1, hM ▸ h2.nodup, fun x => hM ▸ hmem x, fun x => ?_⟩
  rw [h2.marks, hmem]

/-! ### Topological order -/

/-- All successors of a node stand behind it. -/
def Ordered (succ : α → List α) : List α → Prop
  | [] => True
  | a :: l => (∀ y ∈ succ a, y ∈ l) ∧ Ordered succ l

omit [DecidableEq α] in
theorem Ordered.mem_of_mem {l : List α} (h : Ordered succ l) {a b : α} (hb : b ∈ l)
    (hab : a ∈ succ b) : a ∈ l := by
  induction l with
  | nil => cases hb
  | cons c l ih =>
    rcases List.mem_cons.mp hb with rfl | hb
    · exact List.mem_cons_of_mem b (h.1 a hab)
    · exact List.mem_cons_of_mem c (ih h.2 hb)

omit [DecidableEq α] in
theorem Ordered.of_append {l₁ l₂ : List α} (h : Ordered succ (l₁ ++ l₂)) : Ordered succ l₂ := by
  induction l₁ with
  | nil => exact h
  | cons a l₁ ih => exact ih h.2

omit [DecidableEq α] in
/-- A node with an edge to `b` stands before `b`. -/
theorem Ordered.mem_before {l₁ l₂ : List α} {a b : α} (h : Ordered succ (l₁ ++ b :: l₂))
    (hnd : (l₁ ++ b :: l₂).Nodup) (ha : a ∈ l₁ ++ b :: l₂) (hab : b ∈ succ a) : a ∈ l₁ := by
  have hb : b ∉ l₂ := (List.nodup_cons.mp (List.nodup_append.mp hnd).2.1).1
  have htail := h.of_append
  rcases List.mem_append.mp ha with ha | ha
  · exact ha
  · rcases List.mem_cons.mp ha with rfl | ha
    · exact absurd (htail.1 a hab) hb
    · exact absurd (htail.2.mem_of_mem ha hab) hb

/-- The edges between nodes of `N`. -/
def Within (N : Finset α) (succ : α → List α) (a b : α) : Prop := a ∈ N ∧ b ∈ succ a

/-- The nodes that are marked but not left lead to `x`. -/
def Stacked (N : Finset α) (succ : α → List α) (x : α) (s : State α) : Prop :=
  ∀ v ∈ N, s.1 v = true → v ∈ s.2 ∨ TransGen (Within N succ) v x

/-- What an ordered search keeps. -/
structure Extends (succ : α → List α) (s s' : State α) : Prop where
  ordered : Ordered succ s'.2
  subset : s.2 ⊆ s'.2
  marks : ∀ v, s'.1 v = true → s.1 v = true ∨ v ∈ s'.2

omit [DecidableEq α] in
theorem Extends.trans (h : Extends succ s s') (h' : Extends succ s' s'') :
    Extends succ s s'' where
  ordered := h'.ordered
  subset := fun _ hz => h'.subset (h.subset hz)
  marks := by
    intro v hv
    rcases h'.marks v hv with hv | hv
    · exact (h.marks v hv).imp_right fun hm => h'.subset hm
    · exact .inr hv

omit [DecidableEq α] in
theorem Extends.stacked (h : Extends succ s s') (hst : Stacked N succ x s) :
    Stacked N succ x s' := by
  intro v hvN hv
  rcases h.marks v hv with hv | hv
  · exact (hst v hvN hv).imp_left fun hm => h.subset hm
  · exact .inl hv

theorem explore_ordered (hac : Paths.Acyclic (Within N succ))
    (hvisit : ∀ {x s s'}, x ∈ N → visit succ fuel x s = some s' → Ordered succ s.2 →
      Stacked N succ x s → Extends succ s s' ∧ x ∈ s'.2)
    {ys : List α} (hys : ∀ y ∈ ys, y ∈ N) (h : explore succ fuel ys s = some s')
    (ho : Ordered succ s.2) (hst : ∀ y ∈ ys, Stacked N succ y s) :
    Extends succ s s' ∧ ∀ y ∈ ys, y ∈ s'.2 := by
  induction ys generalizing s with
  | nil =>
    obtain rfl := Option.some.inj h
    exact ⟨⟨ho, List.Subset.refl _, fun v hv => .inl hv⟩, by simp⟩
  | cons y ys ih =>
    rw [explore_cons] at h
    have hy' := hys y List.mem_cons_self
    have hys' := fun z hz => hys z (List.mem_cons_of_mem y hz)
    have hrest := fun z hz => hst z (List.mem_cons_of_mem y hz)
    by_cases hy : s.1 y = true
    · -- a marked successor has been left: otherwise it would lead back to itself
      rw [if_pos hy, Option.bind_some] at h
      obtain ⟨h1, h2⟩ := ih hys' h ho hrest
      have hmem : y ∈ s.2 := (hst y List.mem_cons_self y hy' hy).resolve_right (hac y)
      exact ⟨h1, List.forall_mem_cons.mpr ⟨h1.subset hmem, h2⟩⟩
    · rw [if_neg hy] at h
      obtain ⟨s₁, h1, h2⟩ := Option.bind_eq_some_iff.mp h
      obtain ⟨h3, h4⟩ := hvisit hy' h1 ho (hst y List.mem_cons_self)
      obtain ⟨h5, h6⟩ := ih hys' h2 h3.ordered fun z hz => h3.stacked (hrest z hz)
      exact ⟨h3.trans h5, List.forall_mem_cons.mpr ⟨h5.subset h4, h6⟩⟩

/-- **A visit keeps the finishing list topologically ordered.** -/
theorem visit_ordered (hac : Paths.Acyclic (Within N succ))
    (hN : ∀ x ∈ N, ∀ y ∈ succ x, y ∈ N) (hx : x ∈ N) (h : visit succ fuel x s = some s')
    (ho : Ordered succ s.2) (hst : Stacked N succ x s) :
    Extends succ s s' ∧ x ∈ s'.2 := by
  induction fuel generalizing x s s' with
  | zero => cases h
  | succ fuel ih =>
    rw [visit_succ] at h
    obtain ⟨s₁, h1, rfl⟩ := Option.map_eq_some_iff.mp h
    -- `x` is on the stack now, and leads to each of its successors
    have hst' : ∀ y ∈ succ x, Stacked N succ y (Function.update s.1 x true, s.2) := by
      intro y hy v hvN hv
      by_cases hvx : v = x
      · exact .inr (hvx ▸ .single ⟨hx, hy⟩)
      · exact (hst v hvN (by simpa [hvx] using hv)).imp_right fun hp => hp.tail ⟨hx, hy⟩
    obtain ⟨h2, h3⟩ := explore_ordered hac (fun hx h ho hst => ih hx h ho hst) (hN x hx) h1 ho hst'
    -- all successors have been left, so `x` may stand in front of the list
    refine ⟨⟨⟨h3, h2.ordered⟩, ?_, ?_⟩, List.mem_cons_self⟩
    · exact fun z hz => List.mem_cons_of_mem x (h2.subset hz)
    · intro v hv
      by_cases hvx : v = x
      · exact .inr (hvx ▸ List.mem_cons_self)
      · rcases h2.marks v hv with hv | hv
        · exact .inl (by simpa [hvx] using hv)
        · exact .inr (List.mem_cons_of_mem x hv)

/-- **The finishing list of a search from unmarked nodes is a topological
order.** -/
theorem explore_all_ordered (hac : Paths.Acyclic (Within N succ))
    (hN : ∀ x ∈ N, ∀ y ∈ succ x, y ∈ N) {ys : List α} (hys : ∀ y ∈ ys, y ∈ N)
    {vis : α → Bool} (hvis : ∀ x ∈ N, vis x = false)
    (h : explore succ fuel ys (vis, []) = some s') : Ordered succ s'.2 := by
  refine (explore_ordered hac (fun hx h ho hst => visit_ordered hac hN hx h ho hst) hys h trivial
    ?_).1.ordered
  -- at the beginning no node is on the stack, because none is marked
  intro y _ v hvN hv
  rw [show (vis, ([] : List α)).1 v = false from hvis v hvN] at hv
  cases hv

end DepthFirst
