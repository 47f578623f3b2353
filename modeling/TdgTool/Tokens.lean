/-
TdgTool/Tokens.lean

`parse_tokens` of `init.cc`: split an environment string at its commas.

The number of tokens is counted beforehand into an `unsigned int`, the loop
counts with an `int`, and the positions come from `find`, which returns `npos`
behind the last comma, so that `last_pos` wraps to 0 there.  `parseTokens_eq`
says what the loop appends: the first `numTokens` fields of the string.  The
positions are always in range; the counter is not, and `splits_iff` states how
many commas it can take.
-/
import Mathlib
import TdgTool.Lib.Text

namespace Tdg

open Text

/-! ### Strings -/

/-- `std::string::npos`, the largest `size_t`. -/
def npos : ℕ := 2 ^ 64 - 1

/-- A `std::string`: its length is a `size_t` below `npos`. -/
structure StdString where
  chars : List Char
  size_lt : chars.length < npos

/-- The ways in which the loop of `parse_tokens` can go wrong: `substr` throws
`std::out_of_range`, or `++i` overflows, which is undefined for an `int`. -/
inductive Fault
  | outOfRange
  | overflow
  deriving DecidableEq, Repr

namespace StdString

/-- `std::string::size`. -/
def size (s : StdString) : ℕ := s.chars.length

/-- `std::string::find( c, pos )`. -/
def find (s : StdString) (c : Char) (pos : ℕ) : ℕ :=
  match (s.chars.drop pos).idxOf? c with
  | some k => pos + k
  | none => npos

/-- `std::string::substr( pos, n )`. -/
def substr (s : StdString) (pos n : ℕ) : Except Fault (List Char) :=
  if s.size < pos then .error .outOfRange else .ok ((s.chars.drop pos).take n)

/-! ### The loop -/

/-- `num_tokens`, an `unsigned int`. -/
def numTokens (s : StdString) : ℕ :=
  if 0 < s.size then (s.chars.count ',' + 1) % 2 ^ 32 else 0

/-- The loop body: the token that starts at `last_pos`, and the next
`last_pos`. -/
def nextToken (s : StdString) (lastPos : ℕ) : Except Fault (List Char × ℕ) := do
  let currPos := s.find ',' lastPos
  let token ← s.substr lastPos (if currPos = npos then npos else currPos - lastPos)
  .ok (token, (currPos + 1) % 2 ^ 64)

/-- The loop with `rounds` tokens to go: `i` is the loop variable, an `int`. -/
def tokenLoop (s : StdString) : ℕ → ℕ → ℕ → List (List Char) → Except Fault (List (List Char))
  | 0, _, _, tokensV => .ok tokensV
  | rounds + 1, i, lastPos, tokensV => do
      let (token, lastPos) ← s.nextToken lastPos
      if i + 1 = 2 ^ 31 then .error .overflow
      else tokenLoop s rounds (i + 1) lastPos (tokensV ++ [token])

end StdString

/-- `parse_tokens`; a null pointer is `none`. -/
def parseTokens (envVar : Option StdString) (tokensV : List (List Char)) :
    Except Fault (List (List Char)) :=
  match envVar with
  | none => .ok tokensV
  | some s => s.tokenLoop s.numTokens 0 0 tokensV

/-! ### One token -/

namespace StdString

variable {s : StdString} {p u v : List Char} {n i : ℕ} {tokensV : List (List Char)}

theorem find_comma (hs : s.chars = p ++ (v ++ ',' :: u)) (hv : ',' ∉ v) :
    s.find ',' p.length = p.length + v.length := by
  simp [find, hs, idxOf?_append_cons hv]

/-- Behind the last comma `find` returns `npos`. -/
theorem find_none (hs : s.chars = p ++ v) (hv : ',' ∉ v) : s.find ',' p.length = npos := by
  simp [find, hs, List.idxOf?_eq_none_iff.mpr hv]

/-- A token before a comma. -/
theorem nextToken_comma (hs : s.chars = p ++ (v ++ ',' :: u)) (hv : ',' ∉ v) :
    s.nextToken p.length = .ok (v, (p ++ v ++ [',']).length) := by
  have hlen : s.chars.length = p.length + (v.length + (u.length + 1)) := by simp [hs]
  have hlt := s.size_lt
  have hpos : p.length + v.length ≠ npos := by omega
  have hsub : s.substr p.length v.length = .ok v := by
    rw [substr, if_neg (by simp only [size]; omega)]
    simp [hs]
  have hmod : (p.length + v.length + 1) % 2 ^ 64 = p.length + v.length + 1 :=
    Nat.mod_eq_of_lt (by unfold npos at hlt; omega)
  simp only [nextToken, find_comma hs hv, if_neg hpos, Nat.add_sub_cancel_left, hsub, hmod]
  simp [bind, Except.bind, Nat.add_assoc]

/-- The last token.  `last_pos` wraps to 0 behind it. -/
theorem nextToken_last (hs : s.chars = p ++ v) (hv : ',' ∉ v) :
    s.nextToken p.length = .ok (v, 0) := by
  have hlen : s.chars.length = p.length + v.length := by simp [hs]
  have hlt := s.size_lt
  have hsub : s.substr p.length npos = .ok v := by
    rw [substr, if_neg (by simp only [size]; omega)]
    simp [hs, List.take_of_length_le (show v.length ≤ npos by omega)]
  simp only [nextToken, find_none hs hv, if_true, hsub]
  rfl

/-! ### The loop -/

/-- The loop appends the next fields of the rest `u` of the string, unless the
loop variable overflows first. -/
theorem tokenLoop_eq (hs : s.chars = p ++ u) (hi : i < 2 ^ 31)
    (hn : n ≤ (u.splitOn ',').length) :
    s.tokenLoop n i p.length tokensV =
      if i + n < 2 ^ 31 then .ok (tokensV ++ (u.splitOn ',').take n) else .error .overflow := by
  induction n generalizing i p u tokensV with
  | zero =>
    rw [tokenLoop, Nat.add_zero, if_pos hi, List.take_zero, List.append_nil]
  | succ n ih =>
    by_cases hu : ',' ∈ u
    · -- one token, then the loop on the rest behind the comma
      obtain ⟨v, w, rfl, hv⟩ := List.eq_append_cons_of_mem hu
      have hsplit : (v ++ ',' :: w).splitOn ',' = v :: w.splitOn ',' :=
        List.splitOn_append_cons_self_of_not_mem hv w
      have hloop : s.tokenLoop (n + 1) i p.length tokensV = if i + 1 = 2 ^ 31 then .error .overflow
          else s.tokenLoop n (i + 1) (p ++ v ++ [',']).length (tokensV ++ [v]) := by
        rw [tokenLoop, nextToken_comma hs hv]
        rfl
      have hrest : s.chars = p ++ v ++ [','] ++ w := by simp [hs]
      have hcount : n ≤ (w.splitOn ',').length := by simpa [hsplit] using hn
      rw [hloop, hsplit]
      split
      · rw [if_neg (by omega)]
      · rw [ih hrest (by omega) hcount]
        simp [Nat.add_right_comm, Nat.add_assoc]
    · -- the last token
      have hsplit : u.splitOn ',' = [u] := List.splitOn_eq_singleton hu
      obtain rfl : n = 0 := by simpa [hsplit] using hn
      have hloop : s.tokenLoop 1 i p.length tokensV = if i + 1 = 2 ^ 31 then .error .overflow
          else .ok (tokensV ++ [u]) := by
        rw [tokenLoop, nextToken_last hs hu]
        rfl
      rw [hloop, hsplit]
      split
      · rw [if_neg (by omega)]
      · rw [if_pos (by omega)]
        rfl

theorem numTokens_le (s : StdString) : s.numTokens ≤ (s.chars.splitOn ',').length := by
  rw [length_splitOn, numTokens]
  split
  · exact Nat.mod_le _ _
  · exact Nat.zero_le _

end StdString

/-- **What `parse_tokens` appends**: the first `numTokens` fields, unless there
are too many for the loop variable. -/
theorem parseTokens_eq (s : StdString) (tokensV : List (List Char)) :
    parseTokens (some s) tokensV =
      if s.numTokens < 2 ^ 31 then .ok (tokensV ++ (s.chars.splitOn ',').take s.numTokens)
      else .error .overflow := by
  have hloop : s.tokenLoop s.numTokens 0 0 tokensV = if 0 + s.numTokens < 2 ^ 31 then
      .ok (tokensV ++ (s.chars.splitOn ',').take s.numTokens) else .error .overflow :=
    StdString.tokenLoop_eq (p := []) (List.nil_append s.chars).symm (by decide) s.numTokens_le
  rw [Nat.zero_add] at hloop
  exact hloop

example : parseTokens (some ⟨",a,,b,".toList, by decide⟩) ["x".toList] =
    .ok ["x".toList, [], "a".toList, [], "b".toList, []] := by decide

/-! ### When the string is split at its commas -/

/-- The text of the environment string; a null pointer has none. -/
def envText : Option StdString → List Char
  | none => []
  | some s => s.chars

/-- `parse_tokens` splits the environment string exactly at its commas and
keeps the tokens that are there. -/
def Splits (envVar : Option StdString) (tokensV : List (List Char)) : Prop :=
  ∃ new, parseTokens envVar tokensV = .ok (tokensV ++ new) ∧
    (∀ token ∈ new, ',' ∉ token) ∧
    [','].intercalate new = envText envVar ∧
    new.length = if envText envVar = [] then 0 else (envText envVar).count ',' + 1

/-- No start position is beyond the end of the string, whatever the string. -/
theorem parseTokens_inRange (envVar : Option StdString) (tokensV : List (List Char)) :
    parseTokens envVar tokensV ≠ .error .outOfRange := by
  cases envVar with
  | none => simp [parseTokens]
  | some s =>
    rw [parseTokens_eq]
    split <;> simp

theorem numTokens_of_lt {s : StdString} (hne : s.chars ≠ []) (h : s.chars.count ',' + 1 < 2 ^ 31) :
    s.numTokens = (s.chars.splitOn ',').length := by
  have hsize : 0 < s.size := List.length_pos_iff.mpr hne
  rw [StdString.numTokens, if_pos hsize, length_splitOn]
  exact Nat.mod_eq_of_lt (by omega)

/-- As long as the count fits an `int` all fields are appended. -/
theorem splits_of_lt {envVar : Option StdString} (h : (envText envVar).count ',' + 1 < 2 ^ 31)
    (tokensV : List (List Char)) : Splits envVar tokensV := by
  cases envVar with
  | none => exact ⟨[], by simp [parseTokens], by simp, by simp [envText], by simp [envText]⟩
  | some s =>
    rcases eq_or_ne s.chars [] with hs | hs
    · refine ⟨[], ?_, by simp, by simp [envText, hs], by simp [envText, hs]⟩
      rw [parseTokens_eq]
      simp [StdString.numTokens, StdString.size, hs]
    · replace h : s.chars.count ',' + 1 < 2 ^ 31 := h
      have hnum := numTokens_of_lt hs h
      refine ⟨s.chars.splitOn ',', ?_, fun token ht => notMem_of_mem_splitOn ht,
        List.intercalate_splitOn ',', ?_⟩
      · rw [parseTokens_eq, hnum, length_splitOn, if_pos h, ← length_splitOn, List.take_length]
      · rw [length_splitOn, envText, if_neg hs]

/-- The loop never appends 2^31 tokens: a larger count wraps to fewer, or the
loop variable overflows. -/
theorem lt_of_splits {envVar : Option StdString} {tokensV : List (List Char)}
    (h : Splits envVar tokensV) : (envText envVar).count ',' + 1 < 2 ^ 31 := by
  cases envVar with
  | none => decide
  | some s =>
    obtain ⟨new, hnew, -, -, hlen⟩ := h
    rw [parseTokens_eq] at hnew
    split at hnew
    · next hnum =>
      obtain rfl : (s.chars.splitOn ',').take s.numTokens = new := by simpa using hnew
      have hle : s.numTokens ≤ (s.chars.splitOn ',').length := s.numTokens_le
      rw [List.length_take, Nat.min_eq_left hle] at hlen
      show s.chars.count ',' + 1 < 2 ^ 31
      rcases eq_or_ne s.chars [] with hs | hs
      · rw [hs]
        decide
      · rw [envText, if_neg hs] at hlen
        omega
    · cases hnew

/-- **`parse_tokens` splits at the commas if and only if there are fewer than
2^31 - 1 of them.** -/
theorem splits_iff (envVar : Option StdString) (tokensV : List (List Char)) :
    parseTokens envVar tokensV ≠ .error .outOfRange ∧
      (Splits envVar tokensV ↔ (envText envVar).count ',' + 1 < 2 ^ 31) :=
  ⟨parseTokens_inRange envVar tokensV, lt_of_splits, fun h => splits_of_lt h tokensV⟩

/-- A string of 2^32 - 1 commas. -/
def manyCommas : StdString where
  chars := List.replicate (2 ^ 32 - 1) ','
  size_lt := by
    rw [List.length_replicate]
    decide

/-- Its 2^32 tokens are counted as 0, and nothing is appended. -/
theorem manyCommas_not_splits :
    parseTokens (some manyCommas) [] = .ok [] ∧ ¬ Splits (some manyCommas) [] := by
  have hcount : manyCommas.chars.count ',' = 2 ^ 32 - 1 := List.count_replicate_self
  have hnum : manyCommas.numTokens = 0 := by
    rw [StdString.numTokens, hcount]
    split <;> rfl
  have hparse : parseTokens (some manyCommas) [] = .ok [] := by
    rw [parseTokens_eq, hnum]
    rfl
  refine ⟨hparse, ?_⟩
  rintro ⟨new, hnew, -, -, hlen⟩
  obtain rfl : new = [] := by simpa [hparse] using hnew
  have hne : manyCommas.chars ≠ [] := by
    rintro h
    rw [h] at hcount
    exact absurd hcount (by decide)
  rw [envText, if_neg hne, List.length_nil] at hlen
  omega

end Tdg
