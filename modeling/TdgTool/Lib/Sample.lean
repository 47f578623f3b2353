/-
TdgTool/Lib/Sample.lean

Samples: lists of values with their order statistics and their moments.

The rank of a position in a sorted list is given by counting
(`getElem_iff_lt_countP`), which does not mention the sort: what is read at a
position of the sorted list is described by the unsorted one.
-/
import Mathlib.Data.List.Sort
import Mathlib.Algebra.Order.BigOperators.Group.List
import Mathlib.Tactic.Linarith
import Mathlib.Tactic.Ring
import Mathlib.Tactic.FieldSimp

namespace Sample

/-! ### Order statistics -/

section Order

variable {α : Type*} [LinearOrder α] {l l' : List α} {i j : ℕ}

/-- The sorted list. -/
abbrev sort (l : List α) : List α := l.mergeSort fun a b => a ≤ b

theorem pairwise_sort (l : List α) : (sort l).Pairwise (· ≤ ·) := List.pairwise_mergeSort' _ l

theorem sort_perm (l : List α) : (sort l).Perm l := List.mergeSort_perm _ _

@[simp] theorem length_sort (l : List α) : (sort l).length = l.length := (sort_perm l).length_eq

/-- The order of the sample does not matter. -/
theorem sort_eq_of_perm (h : l.Perm l') : sort l = sort l' :=
  ((sort_perm l).trans (h.trans (sort_perm l').symm)).eq_of_pairwise' (pairwise_sort l)
    (pairwise_sort l')

theorem getElem_le_getElem (hl : l.Pairwise (· ≤ ·)) (hij : i ≤ j) (hj : j < l.length)
    (hi : i < l.length) : l[i] ≤ l[j] := by
  rcases hij.eq_or_lt with rfl | hlt
  · exact le_rfl
  · exact List.pairwise_iff_getElem.mp hl i j hi hj hlt

/-- **Ranks by counting**: a position of a sorted list has a downward closed
property if and only if more elements than its index have it. -/
theorem getElem_iff_lt_countP {p : α → Bool} (hl : l.Pairwise (· ≤ ·))
    (hp : ∀ a b, a ≤ b → p b = true → p a = true) (hi : i < l.length) :
    p l[i] = true ↔ i < l.countP p := by
  induction l generalizing i with
  | nil => exact absurd hi (Nat.not_lt_zero i)
  | cons a l ih =>
    obtain ⟨ha, hl⟩ := List.pairwise_cons.mp hl
    cases hpa : p a with
    | true =>
      rw [List.countP_cons_of_pos hpa]
      cases i with
      | zero => simp [hpa]
      | succ i =>
        rw [List.getElem_cons_succ, ih hl (by simpa using hi)]
        omega
    | false =>
      -- the first element does not have it, so none has
      have hnone : ∀ b ∈ a :: l, ¬ p b = true := by
        intro b hb hpb
        obtain rfl | hb := List.mem_cons.mp hb
        · simp [hpa] at hpb
        · simp [hp a b (ha b hb) hpb] at hpa
      rw [List.countP_eq_zero.mpr hnone]
      simpa using hnone _ (List.getElem_mem hi)

/-- A position is below a value if more elements than its index are. -/
theorem getElem_sort_lt_iff (hi : i < (sort l).length) (v : α) :
    (sort l)[i] < v ↔ i < l.countP fun x => x < v := by
  have hrank := getElem_iff_lt_countP (p := fun x => decide (x < v)) (pairwise_sort l)
    (fun a b hab hb => decide_eq_true (hab.trans_lt (of_decide_eq_true hb))) hi
  rw [(sort_perm l).countP_eq] at hrank
  simpa using hrank

/-- A position is at most a value if more elements than its index are. -/
theorem getElem_sort_le_iff (hi : i < (sort l).length) (v : α) :
    (sort l)[i] ≤ v ↔ i < l.countP fun x => x ≤ v := by
  have hrank := getElem_iff_lt_countP (p := fun x => decide (x ≤ v)) (pairwise_sort l)
    (fun a b hab hb => decide_eq_true (hab.trans (of_decide_eq_true hb))) hi
  rw [(sort_perm l).countP_eq] at hrank
  simpa using hrank

/-- A value of which fewer than half of the sample are below and more than half
at most is the middle of the sample. -/
def IsMiddle (l : List α) (v : α) : Prop :=
  2 * l.countP (fun x => x < v) < l.length ∧ l.length < 2 * l.countP fun x => x ≤ v

instance (l : List α) (v : α) : Decidable (IsMiddle l v) := inferInstanceAs (Decidable (_ ∧ _))

/-- **The middle of a sample** is the value on which the two middle positions
agree. -/
theorem isMiddle_iff (h : l.length / 2 < (sort l).length) {v : α} :
    IsMiddle l v ↔ (sort l)[l.length / 2] = v ∧ (sort l)[(l.length - 1) / 2] = v := by
  have hlow : (l.length - 1) / 2 < (sort l).length := by omega
  have hle : (sort l)[(l.length - 1) / 2] ≤ (sort l)[l.length / 2] :=
    getElem_le_getElem (pairwise_sort l) (by omega) h hlow
  have hlen : (sort l).length = l.length := length_sort l
  -- the counts say where the two positions are
  have hbelow : 2 * l.countP (fun x => x < v) < l.length ↔ v ≤ (sort l)[(l.length - 1) / 2] := by
    rw [← not_lt, getElem_sort_lt_iff]
    omega
  have habove : l.length < 2 * l.countP (fun x => x ≤ v) ↔ (sort l)[l.length / 2] ≤ v := by
    rw [getElem_sort_le_iff]
    omega
  rw [IsMiddle, hbelow, habove]
  constructor
  · rintro ⟨h1, h2⟩
    exact ⟨le_antisymm h2 (h1.trans hle), le_antisymm (hle.trans h2) h1⟩
  · rintro ⟨h1, h2⟩
    exact ⟨h2.ge, h1.le⟩

end Order

/-! ### Moments -/

section Moments

variable {K : Type*} [Field K] [LinearOrder K] [IsStrictOrderedRing K] {l : List K} {a b : K}

omit [LinearOrder K] [IsStrictOrderedRing K] in
/-- The squared deviations from a value. -/
theorem sum_sq_sub (l : List K) (c : K) :
    (l.map fun x => (x - c) * (x - c)).sum =
      (l.map fun x => x * x).sum - 2 * c * l.sum + l.length * (c * c) := by
  induction l with
  | nil => simp
  | cons x l ih =>
    simp only [List.map_cons, List.sum_cons, List.length_cons, ih]
    push_cast
    ring

/-- The sum of the squared deviations from the mean. -/
theorem sum_sq_sub_mean (hl : l ≠ []) :
    (l.map fun x => (x - l.sum / l.length) * (x - l.sum / l.length)).sum =
      (l.map fun x => x * x).sum - l.length * (l.sum / l.length * (l.sum / l.length)) := by
  have hlen : (l.length : K) ≠ 0 := by
    exact_mod_cast (List.length_pos_iff.mpr hl).ne'
  rw [sum_sq_sub]
  field_simp
  ring

/-- The mean is between bounds of the sample. -/
theorem mean_mem (hl : l ≠ []) (hlo : ∀ x ∈ l, a ≤ x) (hhi : ∀ x ∈ l, x ≤ b) :
    a ≤ l.sum / l.length ∧ l.sum / l.length ≤ b := by
  have hlen : (0 : K) < l.length := by
    exact_mod_cast List.length_pos_iff.mpr hl
  constructor
  · rw [le_div_iff₀ hlen]
    have hsum := List.card_nsmul_le_sum l a hlo
    rw [nsmul_eq_mul] at hsum
    linarith
  · rw [div_le_iff₀ hlen]
    have hsum := List.sum_le_card_nsmul l b hhi
    rw [nsmul_eq_mul] at hsum
    linarith

end Moments

end Sample
