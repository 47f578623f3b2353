/-
TdgTool/Lib/Partial.lean

Postconditions of computations that may be undefined.

A computation is an `Option`; `none` is undefined behaviour.  `Ensures m P`
says that every result of `m` satisfies `P`, and nothing about whether there is
one.  The rules follow the constructs of a `do` block.
-/
import Mathlib.Data.Option.Basic

namespace Partial

variable {α β : Type*} {m : Option α} {f : α → Option β} {P Q : α → Prop} {R : β → Prop}

/-- Every result satisfies the postcondition. -/
def Ensures (m : Option α) (P : α → Prop) : Prop := ∀ a, m = some a → P a

theorem Ensures.some {a : α} (h : P a) : Ensures (some a) P := by
  intro b hb
  obtain rfl := Option.some.inj hb
  exact h

theorem Ensures.bind (h : Ensures m P) (hf : ∀ a, P a → Ensures (f a) R) :
    Ensures (m.bind f) R := by
  intro b hb
  obtain ⟨a, ha, hab⟩ := Option.bind_eq_some_iff.mp hb
  exact hf a (h a ha) b hab

/-- A read whose result is only known to be there. -/
theorem Ensures.read (hf : ∀ a, m = Option.some a → Ensures (f a) R) :
    Ensures (m.bind f) R := by
  intro b hb
  obtain ⟨a, ha, hab⟩ := Option.bind_eq_some_iff.mp hb
  exact hf a ha b hab

theorem Ensures.ite {c : Prop} [Decidable c] {m' : Option α} (h : c → Ensures m P)
    (h' : ¬c → Ensures m' P) : Ensures (if c then m else m') P := by
  by_cases hc : c
  · rw [if_pos hc]
    exact h hc
  · rw [if_neg hc]
    exact h' hc

end Partial
