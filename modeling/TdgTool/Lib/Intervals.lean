/-
TdgTool/Lib/Intervals.lean

Sums of lengths of intervals that follow one another.

Intervals are the values of two functions `start` and `stop` on list elements.
In a list in which every interval ends before the later ones begin, the lengths
sum to at most the length of any window that contains them.  A list whose
elements carry a key is summed key by key, and if all intervals of one key end
before those of the next begin, along a chain of keys.
-/
import Mathlib.Algebra.Order.BigOperators.Group.Finset
import Mathlib.Algebra.BigOperators.Group.Finset.Piecewise
import Mathlib.Algebra.BigOperators.Group.List.Basic
import Mathlib.Tactic.Linarith

namespace Intervals

variable {α κ K : Type*} [Field K] [LinearOrder K] [IsStrictOrderedRing K]

/-- **Intervals that follow one another.** -/
theorem sum_length_le {start stop : α → K} {l : List α} {t₀ t₁ : K} (ht : t₀ ≤ t₁)
    (hseq : l.Pairwise fun a b => stop a ≤ start b)
    (hin : ∀ a ∈ l, t₀ ≤ start a ∧ start a ≤ stop a ∧ stop a ≤ t₁) :
    (l.map fun a => stop a - start a).sum ≤ t₁ - t₀ := by
  induction l generalizing t₀ with
  | nil => simpa using ht
  | cons a l ih =>
    obtain ⟨ha, hl⟩ := List.pairwise_cons.mp hseq
    obtain ⟨h1, h2, h3⟩ := hin a List.mem_cons_self
    -- the intervals behind the first one lie in what is left of the window
    have hrest : (l.map fun a => stop a - start a).sum ≤ t₁ - stop a := by
      refine ih h3 hl fun b hb => ?_
      obtain ⟨-, h4, h5⟩ := hin b (List.mem_cons_of_mem a hb)
      exact ⟨ha b hb, h4, h5⟩
    rw [List.map_cons, List.sum_cons]
    linarith

section Keys

variable [DecidableEq κ] {key : α → κ} {f : α → K} {l : List α}

omit [LinearOrder K] [IsStrictOrderedRing K] in
/-- Sum key by key. -/
theorem sum_eq_sum_keys {s : Finset κ} (hs : ∀ a ∈ l, key a ∈ s) :
    (l.map f).sum = ∑ k ∈ s, ((l.filter fun a => key a = k).map f).sum := by
  induction l with
  | nil => simp
  | cons a l ih =>
    have hl := ih fun b hb => hs b (List.mem_cons_of_mem a hb)
    have hsplit : ∀ k, (((a :: l).filter fun a => key a = k).map f).sum
        = (if key a = k then f a else 0) + ((l.filter fun a => key a = k).map f).sum := by
      intro k
      by_cases hk : key a = k
      · simp [hk]
      · simp [hk]
    simp only [List.map_cons, List.sum_cons, hl, hsplit, Finset.sum_add_distrib]
    rw [Finset.sum_ite_eq, if_pos (hs a List.mem_cons_self)]

/-- A bound for every key is a bound for the sum. -/
theorem sum_le_card_mul {s : Finset κ} {b : K} (hs : ∀ a ∈ l, key a ∈ s)
    (hb : ∀ k ∈ s, ((l.filter fun a => key a = k).map f).sum ≤ b) :
    (l.map f).sum ≤ s.card * b := by
  rw [sum_eq_sum_keys hs]
  simpa using Finset.sum_le_card_nsmul s _ b hb

/-- Summing over some of the keys gives at most the whole sum. -/
theorem sum_keys_le {s : Finset κ} (hf : ∀ a ∈ l, 0 ≤ f a) :
    ∑ k ∈ s, ((l.filter fun a => key a = k).map f).sum ≤ (l.map f).sum := by
  classical
  have hmem : ∀ a ∈ l, key a ∈ s ∪ (l.map key).toFinset := by
    intro a ha
    simp only [Finset.mem_union, List.mem_toFinset]
    exact .inr (List.mem_map_of_mem ha)
  rw [sum_eq_sum_keys hmem]
  refine Finset.sum_le_sum_of_subset_of_nonneg Finset.subset_union_left fun k _ _ => ?_
  refine List.sum_nonneg fun x hx => ?_
  obtain ⟨a, ha, rfl⟩ := List.mem_map.mp hx
  exact hf a (List.mem_of_mem_filter ha)

/-- **A chain of keys.** -/
theorem sum_chain_le {start stop : α → K} {t₀ t₁ : K} {ks : List κ} (ht : t₀ ≤ t₁)
    (hkey : ∀ k ∈ ks, (l.filter fun a => key a = k).Pairwise fun a b => stop a ≤ start b)
    (hchain : ks.Pairwise fun k k' => ∀ a ∈ l, key a = k → ∀ b ∈ l, key b = k' → stop a ≤ start b)
    (hin : ∀ a ∈ l, t₀ ≤ start a ∧ start a ≤ stop a ∧ stop a ≤ t₁) :
    (ks.map fun k => ((l.filter fun a => key a = k).map fun a => stop a - start a).sum).sum
      ≤ t₁ - t₀ := by
  have hmem : ∀ {k a}, a ∈ (l.filter fun a => key a = k) → a ∈ l ∧ key a = k := by
    intro k a ha
    simpa using ha
  -- the keys of the chain one after the other are one list of intervals
  have hflat : (ks.map fun k =>
        ((l.filter fun a => key a = k).map fun a => stop a - start a).sum).sum
      = ((ks.flatMap fun k => l.filter fun a => key a = k).map fun a => stop a - start a).sum := by
    induction ks with
    | nil => rfl
    | cons k ks ih =>
      rw [List.map_cons, List.sum_cons, List.flatMap_cons, List.map_append, List.sum_append]
      rw [ih (fun k' hk' => hkey k' (List.mem_cons_of_mem k hk')) (List.pairwise_cons.mp hchain).2]
  rw [hflat]
  refine sum_length_le ht ?_ ?_
  · refine List.pairwise_flatMap.mpr ⟨hkey, hchain.imp fun h a ha b hb => ?_⟩
    exact h a (hmem ha).1 (hmem ha).2 b (hmem hb).1 (hmem hb).2
  · intro a ha
    obtain ⟨k, -, ha⟩ := List.mem_flatMap.mp ha
    exact hin a (hmem ha).1

end Keys

end Intervals
