/-
TdgTool/Lib/Doubles.lean

Exact and rounded arithmetic on times.

A program that computes with doubles is written once over an `Arith`: the
operations on rationals it uses.  `Arith.exact` does not round; `Arith.double`
computes with IEEE doubles and gives the rational that the resulting double
stands for.  Comparing two doubles is comparing the rationals, so an `Arith`
needs no order of its own.

`Arith.sum` is the sum that a loop builds up from the left, `Arith.total` that
of differences, and `readings` a clock that ticks in doubles.
-/
import Mathlib.Algebra.BigOperators.Group.List.Basic
import Mathlib.Data.List.GetD
import Mathlib.Data.List.Induction
import Mathlib.Order.Monotone.Basic
import Mathlib.Data.Rat.Defs
import Mathlib.Algebra.Order.Field.Rat

namespace Doubles

/-- The number that a double stands for; 0 for an infinity or no number. -/
def value (x : Float) : ℚ :=
  match x.toModel.unpack with
  | .finite sign mantissa exponent _ => sign.apply mantissa * (2 : ℚ) ^ exponent
  | _ => 0

/-- The double that a rational stands for, if there is one. -/
def ofRat (q : ℚ) : Float := Float.ofInt q.num / Float.ofNat q.den

/-- A rational that some double stands for. -/
def IsDouble (q : ℚ) : Prop := value (ofRat q) = q

instance : DecidablePred IsDouble := fun q => inferInstanceAs (Decidable (value (ofRat q) = q))

/-- The arithmetic of a program. -/
structure Arith where
  add : ℚ → ℚ → ℚ
  sub : ℚ → ℚ → ℚ
  mul : ℚ → ℚ → ℚ
  div : ℚ → ℚ → ℚ

namespace Arith

/-- No rounding. -/
def exact : Arith :=
  ⟨fun x y => x + y, fun x y => x - y, fun x y => x * y, fun x y => x / y⟩

/-- The operations of doubles. -/
def double : Arith where
  add := fun x y => value (ofRat x + ofRat y)
  sub := fun x y => value (ofRat x - ofRat y)
  mul := fun x y => value (ofRat x * ofRat y)
  div := fun x y => value (ofRat x / ofRat y)

@[simp] theorem exact_add (x y : ℚ) : exact.add x y = x + y := rfl

@[simp] theorem exact_sub (x y : ℚ) : exact.sub x y = x - y := rfl

@[simp] theorem exact_mul (x y : ℚ) : exact.mul x y = x * y := rfl

@[simp] theorem exact_div (x y : ℚ) : exact.div x y = x / y := rfl

variable {α : Type*} {A : Arith} {start stop : α → ℚ} {l : List α} {a : α}

/-- The numbers of a list, added up from the left. -/
def sum (A : Arith) (l : List ℚ) : ℚ := l.foldl A.add 0

theorem sum_concat {l : List ℚ} {x : ℚ} : A.sum (l ++ [x]) = A.add (A.sum l) x := by
  simp [sum]

/-- Without rounding the numbers may be added up in any order. -/
@[simp] theorem exact_sum (l : List ℚ) : exact.sum l = l.sum := by
  induction l using List.reverseRecOn with
  | nil => rfl
  | append_singleton l x ih => simp [sum_concat, ih]

/-- The differences of the elements of a list, added up from the left. -/
def total (A : Arith) (start stop : α → ℚ) (l : List α) : ℚ :=
  A.sum (l.map fun a => A.sub (stop a) (start a))

theorem total_concat : A.total start stop (l ++ [a])
    = A.add (A.total start stop l) (A.sub (stop a) (start a)) := by
  rw [total, List.map_append]
  exact sum_concat

theorem exact_total : exact.total start stop l = (l.map fun a => stop a - start a).sum :=
  exact_sum _

end Arith

/-! ### Readings -/

/-- A clock that reads the doubles of `l` first, and then always `last`. -/
def readings (l : List Float) (last : Float) (k : ℕ) : ℚ := value (l.getD k last)

variable {l : List Float} {last : Float}

theorem readings_of_length_le {k : ℕ} (h : l.length ≤ k) : readings l last k = value last := by
  rw [readings, List.getD_eq_default _ _ h]

theorem readings_mono (h : ∀ k < l.length, readings l last k ≤ readings l last (k + 1)) :
    Monotone (readings l last) := by
  refine monotone_nat_of_le_succ fun k => ?_
  rcases Nat.lt_or_ge k l.length with hk | hk
  · exact h k hk
  · rw [readings_of_length_le hk, readings_of_length_le (hk.trans k.le_succ)]

theorem readings_isDouble (h : ∀ k ≤ l.length, IsDouble (readings l last k)) (k : ℕ) :
    IsDouble (readings l last k) := by
  rcases Nat.le_total k l.length with hk | hk
  · exact h k hk
  · rw [readings_of_length_le hk, ← readings_of_length_le (le_refl l.length)]
    exact h l.length le_rfl

/-- Doubles round: the order of a sum matters. -/
example : Arith.double.sum [value 0.1, value 0.2, value 0.3] ≠
    Arith.double.sum [value 0.3, value 0.2, value 0.1] := by decide +kernel

end Doubles
