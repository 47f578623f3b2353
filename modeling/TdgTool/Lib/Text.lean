/-
TdgTool/Lib/Text.lean

Reading what has been written: decimal numbers, fixed words, text up to a
delimiter, and the fields between delimiters.

A reader takes a list of characters and returns a value with the rest, or
`none`.  Each reader comes with the lemma that it gives back what the matching
writer wrote.
-/
import Mathlib.Data.List.Basic
import Mathlib.Data.Int.Notation

namespace Text

/-! ### Fixed words -/

/-- Read a fixed word. -/
def expect : List Char → List Char → Option (List Char)
  | [], s => some s
  | _ :: _, [] => none
  | c :: w, d :: s => if c = d then expect w s else none

@[simp] theorem expect_append (w s : List Char) : expect w (w ++ s) = some s := by
  induction w with
  | nil => rfl
  | cons c w ih => simpa [expect] using ih

/-- A word with another first character is not there. -/
theorem expect_of_ne {c d : Char} (h : c ≠ d) (w s : List Char) :
    expect (c :: w) (d :: s) = none := by
  simp [expect, h]

/-! ### Text up to a delimiter -/

/-- Read up to a delimiter, and the delimiter. -/
def readUntil (c : Char) : List Char → Option (List Char × List Char)
  | [] => none
  | d :: s => if d = c then some ([], s) else (readUntil c s).map fun a => (d :: a.1, a.2)

theorem readUntil_append {c : Char} {v : List Char} (h : c ∉ v) (s : List Char) :
    readUntil c (v ++ c :: s) = some (v, s) := by
  induction v with
  | nil => simp [readUntil]
  | cons d v ih =>
    obtain ⟨h1, h2⟩ : c ≠ d ∧ c ∉ v := by simpa using h
    simp [readUntil, h1.symm, ih h2]

/-! ### The fields between delimiters -/

section Fields

variable {α : Type*} [BEq α] [LawfulBEq α] {a : α} {l v : List α}

omit [LawfulBEq α] in
/-- There is one field more than delimiters. -/
theorem length_splitOn (a : α) (l : List α) : (l.splitOn a).length = l.count a + 1 := by
  induction l with
  | nil => rfl
  | cons c l ih =>
    rw [List.splitOn_cons_eq_if_modifyHead]
    split
    · next hc => simp [ih, List.count_cons, hc]
    · next hc => simp [ih, List.count_cons, hc]

/-- A field has no delimiter. -/
theorem notMem_of_mem_splitOn (h : v ∈ l.splitOn a) : a ∉ v := by
  induction l generalizing v with
  | nil =>
    obtain rfl := List.mem_singleton.mp h
    exact List.not_mem_nil
  | cons c l ih =>
    rw [List.splitOn_cons_eq_if_modifyHead] at h
    split at h
    · obtain rfl | h := List.mem_cons.mp h
      · exact List.not_mem_nil
      · exact ih h
    · next hc =>
      obtain ⟨w, ws, hw⟩ := List.exists_cons_of_ne_nil (List.splitOn_ne_nil a l)
      rw [hw] at h ih
      obtain rfl | h := List.mem_cons.mp h
      · exact List.not_mem_cons_of_ne_of_not_mem (fun h => hc (by simp [h])) (ih List.mem_cons_self)
      · exact ih (List.mem_cons_of_mem w h)

/-- The position of the first delimiter. -/
theorem idxOf?_append_cons (h : a ∉ v) (l : List α) :
    (v ++ a :: l).idxOf? a = some v.length := by
  induction v with
  | nil => simp [List.idxOf?_cons]
  | cons c v ih =>
    obtain ⟨hc, hv⟩ : a ≠ c ∧ a ∉ v := by simpa using h
    simp [List.idxOf?_cons, hc.symm, ih hv]

end Fields

/-! ### Decimal numbers -/

/-- An integer in decimal notation. -/
def decimal (i : ℤ) : List Char := (toString i).toList

/-- Read a natural number. -/
def readNat (s : List Char) : Option (ℕ × List Char) :=
  match s.takeWhile Char.isDigit with
  | [] => none
  | ds => some (Nat.ofDigitChars 10 ds 0, s.dropWhile Char.isDigit)

/-- Read an integer. -/
def readInt (s : List Char) : Option (ℤ × List Char) :=
  match s with
  | '-' :: s => (readNat s).map fun a => (-(a.1 : ℤ), a.2)
  | s => (readNat s).map fun a => ((a.1 : ℤ), a.2)

theorem decimal_natCast (n : ℕ) : decimal n = Nat.toDigits 10 n := by
  change (Int.repr n).toList = _
  simp [Int.repr]

theorem decimal_negSucc (n : ℕ) : decimal (Int.negSucc n) = '-' :: Nat.toDigits 10 (n + 1) := by
  change (Int.repr (Int.negSucc n)).toList = _
  simp [Int.repr]

theorem isDigit_of_mem {n : ℕ} {c : Char} (h : c ∈ Nat.toDigits 10 n) : c.isDigit = true :=
  Nat.isDigit_of_mem_toDigits (by decide) (by decide) h

/-- A character that is neither a digit nor a minus sign is in no number. -/
theorem notMem_decimal {i : ℤ} {c : Char} (hd : c.isDigit = false) (hm : c ≠ '-') :
    c ∉ decimal i := by
  have hdigit : ∀ n, c ∉ Nat.toDigits 10 n := fun n h => by
    rw [isDigit_of_mem h] at hd
    cases hd
  obtain n | n := i
  · rw [Int.ofNat_eq_natCast, decimal_natCast]
    exact hdigit n
  · rw [decimal_negSucc]
    exact List.not_mem_cons_of_ne_of_not_mem hm (hdigit _)

/-- The rest does not start with a digit. -/
def NoDigit (s : List Char) : Prop := ∀ c ∈ s.head?, c.isDigit = false

theorem readNat_toDigits (n : ℕ) {s : List Char} (hs : NoDigit s) :
    readNat (Nat.toDigits 10 n ++ s) = some (n, s) := by
  have hdigits : ∀ c ∈ Nat.toDigits 10 n, c.isDigit = true := fun c hc => isDigit_of_mem hc
  have hs' : s.takeWhile Char.isDigit = [] ∧ s.dropWhile Char.isDigit = s := by
    cases s with
    | nil => exact ⟨rfl, rfl⟩
    | cons c s =>
      have hc : c.isDigit = false := hs c (by simp)
      exact ⟨by simp [hc], by simp [hc]⟩
  have htake : (Nat.toDigits 10 n ++ s).takeWhile Char.isDigit = Nat.toDigits 10 n := by
    rw [List.takeWhile_append_of_pos hdigits, hs'.1, List.append_nil]
  have hdrop : (Nat.toDigits 10 n ++ s).dropWhile Char.isDigit = s := by
    rw [List.dropWhile_append_of_pos hdigits, hs'.2]
  unfold readNat
  rw [htake, hdrop]
  rcases hn : Nat.toDigits 10 n with - | ⟨c, cs⟩
  · exact absurd hn Nat.toDigits_ne_nil
  · rw [← hn]
    simp [Nat.ofDigitChars_ten_toDigits]

/-- **Reading a decimal number gives it back.** -/
theorem readInt_decimal (i : ℤ) {s : List Char} (hs : NoDigit s) :
    readInt (decimal i ++ s) = some (i, s) := by
  obtain n | n := i
  · rw [Int.ofNat_eq_natCast, decimal_natCast]
    have hread := readNat_toDigits n hs
    rcases hn : Nat.toDigits 10 n ++ s with - | ⟨c, cs⟩
    · rw [hn] at hread
      simp [readNat] at hread
    -- a natural number does not start with a minus sign
    · have hc : c ≠ '-' := by
        rintro rfl
        rcases hd : Nat.toDigits 10 n with - | ⟨d, ds⟩
        · exact absurd hd Nat.toDigits_ne_nil
        · rw [hd, List.cons_append] at hn
          have hdig := isDigit_of_mem (n := n) (c := d) (by simp [hd])
          rw [(List.cons.inj hn).1] at hdig
          exact absurd hdig (by decide)
      rw [hn] at hread
      unfold readInt
      split
      · rename_i heq
        exact absurd (List.cons.inj heq).1 hc
      · rw [hread]
        rfl
  · rw [decimal_negSucc, List.cons_append]
    simp only [readInt, readNat_toDigits (n + 1) hs, Option.map_some]
    rfl

end Text
