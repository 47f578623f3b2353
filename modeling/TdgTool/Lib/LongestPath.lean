/-
TdgTool/Lib/LongestPath.lean

Longest paths by dynamic programming over a topological order.

A graph is given by its predecessor lists.  A path is a list of nodes, each a
predecessor of the next, and its value is `base` of its first node plus `inc`
of the others.  `solve` goes through a list of nodes once and sets each to the
best value over its predecessors.  If the predecessors of a node stand before
it (`Precedes`), the result satisfies the recursion equation at every node
(`solve_solves`), and a solution of the equation is the largest value of a path
that ends in the node (`isGreatest_of_solves`).
-/
import Mathlib.Algebra.Order.Group.Defs
import Mathlib.Algebra.BigOperators.Group.List.Basic
import Mathlib.Order.Bounds.Basic
import Mathlib.Data.List.Chain
import TdgTool.Lib.Paths

namespace LongestPath

variable {α K : Type*} [AddCommGroup K]
  {pred : α → List α} {base inc val : α → K} {l l₁ l₂ p : List α} {u v : α}

/-! ### Orders and paths -/

/-- The predecessors of a node stand before it. -/
def Precedes (pred : α → List α) (l : List α) : Prop :=
  ∀ l₁ v l₂, l = l₁ ++ v :: l₂ → ∀ u ∈ pred v, u ∈ l₁

/-- Along a list in which predecessors come first, a property that passes from
the predecessors of a node to the node holds everywhere. -/
theorem Precedes.induction (h : Precedes pred l) {P : α → Prop}
    (hstep : ∀ v ∈ l, (∀ u ∈ pred v, P u) → P v) : ∀ v ∈ l, P v := by
  have hprefix : ∀ (n : ℕ) l₁ v l₂, l₁.length = n → l = l₁ ++ v :: l₂ → P v := by
    intro n
    induction n using Nat.strong_induction_on with
    | _ n ih =>
      rintro l₁ v l₂ rfl rfl
      refine hstep v (by simp) fun u hu => ?_
      obtain ⟨l₃, l₄, rfl⟩ := List.append_of_mem (h l₁ v l₂ rfl u hu)
      exact ih l₃.length (by simp) l₃ u (l₄ ++ v :: l₂) rfl (by simp)
  intro v hv
  obtain ⟨l₁, l₂, rfl⟩ := List.append_of_mem hv
  exact hprefix l₁.length l₁ v l₂ rfl rfl

/-- Each node is a predecessor of the next. -/
def IsPath (pred : α → List α) (p : List α) : Prop := p.IsChain fun a b => a ∈ pred b

/-- The value of a path. -/
def value (base inc : α → K) : List α → K
  | [] => 0
  | a :: l => base a + (l.map inc).sum

theorem value_concat (hp : p ≠ []) : value base inc (p ++ [v]) = value base inc p + inc v := by
  obtain - | ⟨a, p⟩ := p
  · exact absurd rfl hp
  · simp [value, add_assoc]

theorem IsPath.concat (h : IsPath pred (p ++ [u])) (hu : u ∈ pred v) :
    IsPath pred (p ++ [u] ++ [v]) := by
  refine List.isChain_append.mpr ⟨h, List.isChain_singleton v, fun a ha b hb => ?_⟩
  obtain rfl : u = a := by simpa using ha
  obtain rfl : v = b := by simpa using hb
  exact hu

theorem IsPath.of_concat (h : IsPath pred (p ++ [u] ++ [v])) :
    IsPath pred (p ++ [u]) ∧ u ∈ pred v := by
  obtain ⟨h1, -, h2⟩ := List.isChain_append.mp h
  exact ⟨h1, h2 u (by simp) v (by simp)⟩

/-! ### The recursion equation -/

variable [LinearOrder K]

/-- The best value over the predecessors of a node. -/
def best (pred : α → List α) (base inc val : α → K) (v : α) : K :=
  (pred v).foldl (fun m u => max m (val u + inc v)) (base v)

/-- The recursion equation holds at the nodes of `l`. -/
def Solves (pred : α → List α) (base inc val : α → K) (l : List α) : Prop :=
  ∀ v ∈ l, val v = best pred base inc val v

omit [AddCommGroup K] in
/-- What the maximum over a list of candidates is. -/
theorem foldl_max_spec (f : α → K) (b : K) (us : List α) :
    b ≤ us.foldl (fun m u => max m (f u)) b ∧
      (∀ u ∈ us, f u ≤ us.foldl (fun m u => max m (f u)) b) ∧
      (us.foldl (fun m u => max m (f u)) b = b ∨
        ∃ u ∈ us, us.foldl (fun m u => max m (f u)) b = f u) := by
  induction us generalizing b with
  | nil => simp
  | cons u us ih =>
    obtain ⟨h1, h2, h3⟩ := ih (max b (f u))
    refine ⟨(le_max_left _ _).trans h1, ?_, ?_⟩
    · exact List.forall_mem_cons.mpr ⟨(le_max_right _ _).trans h1, h2⟩
    · rcases h3 with h3 | ⟨w, hw, h3⟩
      · rcases max_choice b (f u) with hm | hm
        · exact .inl (h3.trans hm)
        · exact .inr ⟨u, List.mem_cons_self, h3.trans hm⟩
      · exact .inr ⟨w, List.mem_cons_of_mem u hw, h3⟩

theorem base_le_best (pred : α → List α) (base inc val : α → K) (v : α) :
    base v ≤ best pred base inc val v :=
  (foldl_max_spec (fun u => val u + inc v) (base v) (pred v)).1

theorem le_best (base inc val : α → K) (hu : u ∈ pred v) :
    val u + inc v ≤ best pred base inc val v :=
  (foldl_max_spec (fun u => val u + inc v) (base v) (pred v)).2.1 u hu

theorem best_eq (pred : α → List α) (base inc val : α → K) (v : α) :
    best pred base inc val v = base v ∨ ∃ u ∈ pred v, best pred base inc val v = val u + inc v :=
  (foldl_max_spec (fun u => val u + inc v) (base v) (pred v)).2.2

theorem best_congr {val' : α → K} (h : ∀ u ∈ pred v, val u = val' u) :
    best pred base inc val v = best pred base inc val' v := by
  unfold best
  generalize base v = b
  generalize pred v = us at h ⊢
  induction us generalizing b with
  | nil => rfl
  | cons u us ih =>
    simp only [List.foldl_cons, h u List.mem_cons_self]
    exact ih _ fun w hw => h w (List.mem_cons_of_mem u hw)

/-- **No path has a larger value.** -/
theorem value_le [IsOrderedAddMonoid K] (h : Solves pred base inc val l)
    (hp : IsPath pred (p ++ [v]))
    (hl : ∀ w ∈ p ++ [v], w ∈ l) : value base inc (p ++ [v]) ≤ val v := by
  induction p using List.reverseRecOn generalizing v with
  | nil =>
    rw [h v (hl v (by simp))]
    simpa [value] using base_le_best pred base inc val v
  | append_singleton p u ih =>
    obtain ⟨h1, h2⟩ := hp.of_concat
    rw [value_concat (by simp), h v (hl v (by simp))]
    calc value base inc (p ++ [u]) + inc v
        ≤ val u + inc v := add_le_add_left (ih h1 fun w hw => hl w (by
          rw [List.mem_append]
          exact .inl hw)) _
      _ ≤ best pred base inc val v := le_best base inc val h2

/-- **Some path has the value.** -/
theorem exists_value_eq (h : Solves pred base inc val l) (ho : Precedes pred l) :
    ∀ v ∈ l, ∃ p, IsPath pred (p ++ [v]) ∧ (∀ w ∈ p ++ [v], w ∈ l) ∧
      value base inc (p ++ [v]) = val v := by
  have hpred : ∀ v ∈ l, ∀ u ∈ pred v, u ∈ l := by
    intro v hv u hu
    obtain ⟨l₁, l₂, rfl⟩ := List.append_of_mem hv
    exact List.mem_append_left _ (ho l₁ v l₂ rfl u hu)
  refine ho.induction fun v hv ih => ?_
  rcases best_eq pred base inc val v with hb | hb
  · refine ⟨[], List.isChain_singleton v, by simpa using hv, ?_⟩
    rw [h v hv, hb]
    simp [value]
  · obtain ⟨u, hu, hb⟩ := hb
    obtain ⟨p, h1, h2, h3⟩ := ih u hu
    refine ⟨p ++ [u], h1.concat hu, ?_, ?_⟩
    · intro w hw
      rcases List.mem_append.mp hw with hw | hw
      · exact h2 w hw
      · rw [List.mem_singleton.mp hw]
        exact hv
    · rw [value_concat (by simp), h3, h v hv, hb]

/-- **A solution of the recursion equation is the largest value of a path** that
ends in the node. -/
theorem isGreatest_of_solves [IsOrderedAddMonoid K] (h : Solves pred base inc val l)
    (ho : Precedes pred l)
    (hv : v ∈ l) : IsGreatest {x | ∃ p, IsPath pred (p ++ [v]) ∧ (∀ w ∈ p ++ [v], w ∈ l) ∧
      value base inc (p ++ [v]) = x} (val v) := by
  refine ⟨exists_value_eq h ho v hv, ?_⟩
  rintro x ⟨p, h1, h2, rfl⟩
  exact value_le h h1 h2

/-! ### Solving -/

variable [DecidableEq α]

/-- Set one node to its best value. -/
def relax (pred : α → List α) (base inc : α → K) (val : α → K) (v : α) : α → K :=
  Function.update val v (best pred base inc val v)

/-- Go through a list of nodes. -/
def solve (pred : α → List α) (base inc : α → K) (l : List α) (val : α → K) : α → K :=
  l.foldl (relax pred base inc) val

theorem solve_of_notMem (hv : v ∉ l) : solve pred base inc l val v = val v := by
  induction l generalizing val with
  | nil => rfl
  | cons w l ih =>
    obtain ⟨h1, h2⟩ : v ≠ w ∧ v ∉ l := by simpa using hv
    change solve pred base inc l (relax pred base inc val w) v = val v
    rw [ih h2, relax, Function.update_of_ne h1]

/-- **Going through a topological order solves the recursion equation.** -/
theorem solve_solves (ho : Precedes pred l) (hnd : l.Nodup) :
    Solves pred base inc (solve pred base inc l val) l := by
  intro v hv
  obtain ⟨l₁, l₂, rfl⟩ := List.append_of_mem hv
  obtain ⟨-, hnd₂, hdisj⟩ := List.nodup_append.mp hnd
  have hv₂ : v ∉ l₂ := (List.nodup_cons.mp hnd₂).1
  have hsplit : ∀ w, solve pred base inc (l₁ ++ v :: l₂) val w
      = solve pred base inc l₂ (relax pred base inc (solve pred base inc l₁ val) v) w := by
    intro w
    simp [solve]
  rw [hsplit, solve_of_notMem hv₂, relax, Function.update_self]
  refine best_congr fun u hu => ?_
  -- a predecessor has its final value when the node is reached
  have hu₁ : u ∈ l₁ := ho l₁ v l₂ rfl u hu
  have huv : u ≠ v := hdisj u hu₁ v List.mem_cons_self
  have hu₂ : u ∉ l₂ := fun h => hdisj u hu₁ u (List.mem_cons_of_mem v h) rfl
  rw [hsplit, solve_of_notMem hu₂, relax, Function.update_of_ne huv]

end LongestPath
