/-
TdgTool/CriticalPath.lean

`CriticalPathMetric::computeCriticalPath` finds a longest path.

The scan over the sorted list is two instances of `LongestPath.solve`, one for
the number of edges and one for the times, and sets a back pointer at the last
predecessor that improved the time.  A back pointer is set only to a node with
a positive path time, and before it is scanned a node has path time 0: so a
back pointer leads backwards in the list, whether the graph is acyclic or not
(`Scan.Inv`), and the marking loop ends.
-/
import TdgTool.TopoSort

namespace Tdg

open Doubles

namespace Graph

variable {g : Graph} {m : NodeRef → Marks} {n u v x : NodeRef} {nd : Node}
  {l l₁ l₂ post : List NodeRef} {fuel : ℕ}

/-! ### The scan over marks -/

/-- The path members of the nodes. -/
structure Scan where
  len : NodeRef → ℤ
  time : NodeRef → ℚ
  prev : NodeRef → Option NodeRef

/-- Marks with other path members. -/
def withPath (m : NodeRef → Marks) (s : Scan) : NodeRef → Marks :=
  fun n => { m n with pathLength := s.len n, pathTime := s.time n, prevCritical := s.prev n }

namespace Scan

/-- Set the back pointer of a node. -/
def setPrev (s : Scan) (x : NodeRef) (p : Option NodeRef) : Scan :=
  { s with prev := Function.update s.prev x p }

/-- The longest path to a node, in edges. -/
abbrev bestLen (g : Graph) (s : Scan) (x : NodeRef) : ℤ :=
  LongestPath.best g.sources (fun _ => 0) (fun _ => 1) s.len x

/-- The longest path to a node, in time. -/
abbrev bestTime (g : Graph) (s : Scan) (x : NodeRef) : ℚ :=
  LongestPath.best g.sources g.totalTime g.totalTime s.time x

/-- The last predecessor that improves the time, and the time. -/
def choose (g : Graph) (s : Scan) (x : NodeRef) (us : List NodeRef)
    (a : Option NodeRef × ℚ) : Option NodeRef × ℚ :=
  us.foldl (fun a u => if a.2 < s.time u + g.totalTime x then (some u, s.time u + g.totalTime x)
    else a) a

/-- Scan one node. -/
def step (g : Graph) (s : Scan) (x : NodeRef) : Scan where
  len := Function.update s.len x (s.bestLen g x)
  time := Function.update s.time x (s.bestTime g x)
  prev := Function.update s.prev x (s.choose g x (g.sources x) (s.prev x, g.totalTime x)).1

theorem choose_snd (g : Graph) (s : Scan) (x : NodeRef) (us : List NodeRef)
    (a : Option NodeRef × ℚ) :
    (s.choose g x us a).2 = us.foldl (fun t u => max t (s.time u + g.totalTime x)) a.2 := by
  induction us generalizing a with
  | nil => rfl
  | cons u us ih =>
    rw [choose, List.foldl_cons, List.foldl_cons]
    by_cases h : a.2 < s.time u + g.totalTime x
    · rw [if_pos h, max_eq_right h.le]
      exact ih _
    · rw [if_neg h, max_eq_left (not_lt.mp h)]
      exact ih _

/-- Either no predecessor improves the time, or the chosen one has it. -/
theorem choose_spec (g : Graph) (s : Scan) (x : NodeRef) (us : List NodeRef)
    (a : Option NodeRef × ℚ) :
    s.choose g x us a = a ∨ ∃ u ∈ us, a.2 < s.time u + g.totalTime x ∧
      s.choose g x us a = (some u, s.time u + g.totalTime x) := by
  induction us generalizing a with
  | nil => exact .inl rfl
  | cons u us ih =>
    have hcons : s.choose g x (u :: us) a = s.choose g x us
        (if a.2 < s.time u + g.totalTime x then (some u, s.time u + g.totalTime x) else a) := rfl
    rw [hcons]
    by_cases h : a.2 < s.time u + g.totalTime x
    · rw [if_pos h]
      rcases ih (some u, s.time u + g.totalTime x) with h1 | ⟨w, hw, h1, h2⟩
      · exact .inr ⟨u, List.mem_cons_self, h, h1⟩
      · exact .inr ⟨w, List.mem_cons_of_mem u hw, h.trans h1, h2⟩
    · rw [if_neg h]
      rcases ih a with h1 | ⟨w, hw, h1, h2⟩
      · exact .inl h1
      · exact .inr ⟨w, List.mem_cons_of_mem u hw, h1, h2⟩

end Scan

/-- The running maximum of the scan. -/
def CriticalPath.update (cp : CriticalPath) (x : NodeRef) (len : ℤ) (time : ℚ) : CriticalPath :=
  let cp := if cp.len < len then { cp with len := len } else cp
  if cp.timeLen < time then { cp with timeLen := time, lastCriticalNode := some x } else cp

/-- One predecessor in the scan of a node. -/
theorem relaxEntry_eq (hnd : g.nodes x = some nd) {nu : Node} (hnu : g.nodes u = some nu)
    (s : Scan) (p : Option NodeRef) (t : ℚ) (k : ℤ) :
    relaxEntry .exact x (g.totalTime x)
        (g.mark (withPath m (s.setPrev x p)), t, k) u
      = some
        (g.mark (withPath m (s.setPrev x (if t < s.time u + g.totalTime x then some u else p))),
        max t (s.time u + g.totalTime x), max k (s.len u + 1)) := by
  have hmax : ∀ {α : Type} [LinearOrder α] (a b : α), (if a < b then b else a) = max a b := by
    intro α _ a b
    by_cases h : a < b
    · rw [if_pos h, max_eq_right h.le]
    · rw [if_neg h, max_eq_left (not_lt.mp h)]
  -- the node that is scanned gets a back pointer; the predecessor is only read
  have hset : (g.mark (withPath m (s.setPrev x p))).setNode x
      (fun nd => nd.setPrevCritical u)
        = some (g.mark (withPath m (s.setPrev x (some u)))) := by
    rw [setNode_mark (φ := fun k => { k with prevCritical := some u }) hnd fun _ _ => rfl]
    congr 2
    funext k
    rcases eq_or_ne k x with rfl | hk
    · simp [withPath, Scan.setPrev]
    · simp [withPath, Scan.setPrev, hk]
  have hread : (g.mark (withPath m (s.setPrev x p))).nodes u
      = some (nu.onData fun d => d.mark
        (withPath m (s.setPrev x p) u)) := nodes_mark hnu
  have hlen : (nu.onData fun d => d.mark
      (withPath m (s.setPrev x p) u)).pathLength = s.len u := rfl
  have htime : (nu.onData fun d => d.mark
      (withPath m (s.setPrev x p) u)).pathTime = s.time u := rfl
  simp only [relaxEntry, Arith.exact_add, hread, Option.bind_eq_bind, Option.bind_some, hlen,
    htime, hset, hmax]
  -- strictly more time, or the earlier predecessor keeps its place
  by_cases h : t < s.time u + g.totalTime x
  · simp [h, max_eq_right h.le]
  · simp [h, max_eq_left (not_lt.mp h)]

/-- **The scan of a node.** -/
theorem scanNode_eq (hc : g.Closed) (hx : g.Present x) (s : Scan) (cp : CriticalPath) :
    scanNode .exact (g.mark (withPath m s), cp) x
      = some (g.mark (withPath m (s.step g x)), cp.update x (s.bestLen g x) (s.bestTime g x)) := by
  obtain ⟨nd, hnd⟩ := hc.node x hx
  -- the loop over the entry edges: back pointer and time together, the length apart
  have hscan : ∀ (us : List NodeRef) (a : Option NodeRef × ℚ) (k : ℤ), (∀ u ∈ us, g.Present u) →
      us.foldlM (relaxEntry .exact x (g.totalTime x))
          (g.mark (withPath m (s.setPrev x a.1)), a.2, k)
        = some (g.mark (withPath m (s.setPrev x (s.choose g x us a).1)), (s.choose g x us a).2,
          us.foldl (fun k u => max k (s.len u + 1)) k) := by
    intro us
    induction us with
    | nil => exact fun a k _ => rfl
    | cons u us ih =>
      intro a k hus
      obtain ⟨nu, hnu⟩ := hc.node u (hus u List.mem_cons_self)
      rw [List.foldlM_cons, relaxEntry_eq hnd hnu, Option.bind_eq_bind, Option.bind_some]
      have hrest := ih (if a.2 < s.time u + g.totalTime x
        then (some u, s.time u + g.totalTime x) else a) (max k (s.len u + 1))
        fun w hw => hus w (List.mem_cons_of_mem u hw)
      by_cases h : a.2 < s.time u + g.totalTime x
      · simpa [h, max_eq_right h.le, Scan.choose] using hrest
      · simpa [h, max_eq_left (not_lt.mp h), Scan.choose] using hrest
  have hstart : s.setPrev x (s.prev x) = s := by simp [Scan.setPrev]
  have hloop := hscan (g.sources x) (s.prev x, g.totalTime x) 0 (hc.sources hx)
  rw [hstart, Scan.choose_snd] at hloop
  have hsrc : (nd.onData fun d => d.mark (withPath m s x)).entryEdges.map Edge.source
      = g.sources x := (sources_eq hnd).symm
  have htotal : (nd.onData fun d => d.mark (withPath m s x)).totalTime = g.totalTime x :=
    (totalTime_eq hnd).symm
  -- length and time are written after the loop, so the loop reads old values
  have hset : ∀ (s' : Scan) (k : ℤ) (t : ℚ), (g.mark (withPath m s')).setNode x
      (fun nd => (nd.setPathLength k).setPathTime t)
        = some (g.mark (withPath m { s' with
            len := Function.update s'.len x k, time := Function.update s'.time x t })) := by
    intro s' k t
    rw [setNode_mark (φ := fun a => { a with pathLength := k, pathTime := t }) hnd fun _ _ => rfl]
    congr 2
    funext j
    rcases eq_or_ne j x with rfl | hj
    · simp [withPath]
    · simp [withPath, hj]
  simp only [scanNode, nodes_mark hnd, Option.bind_eq_bind, Option.bind_some, hsrc, htotal, hloop,
    hset]
  rfl

/-! ### The invariant of the scan -/

namespace Scan

/-- After the nodes `done` have been scanned.  A back pointer leads to a node
scanned earlier, with a positive path time; the nodes still to come have path
time 0. -/
structure Inv (g : Graph) (s : Scan) (done : List NodeRef) (cp : CriticalPath) : Prop where
  fresh : ∀ x, g.Present x → x ∉ done → s.time x = 0 ∧ s.prev x = none
  back : ∀ l₁ x l₂, done = l₁ ++ x :: l₂ →
    s.prev x = none ∧ s.time x = g.totalTime x ∨
    ∃ u ∈ l₁, u ∈ g.sources x ∧ s.prev x = some u ∧ s.time x = s.time u + g.totalTime x ∧
      0 < s.time u
  len_nonneg : 0 ≤ cp.len
  len_le : ∀ x ∈ done, s.len x ≤ cp.len
  len_eq : cp.len = 0 ∨ ∃ x ∈ done, cp.len = s.len x
  time_le : ∀ x ∈ done, s.time x ≤ cp.timeLen
  last : cp.lastCriticalNode = none ∧ cp.timeLen = 0 ∨
    ∃ x ∈ done, cp.lastCriticalNode = some x ∧ cp.timeLen = s.time x ∧ 0 < s.time x

theorem inv_init {s : Scan} (h : ∀ x, g.Present x → s.time x = 0 ∧ s.prev x = none) :
    Inv g s [] {} where
  fresh := fun x hx _ => h x hx
  back := by simp
  len_nonneg := le_rfl
  len_le := by simp
  len_eq := .inl rfl
  time_le := by simp
  last := .inl ⟨rfl, rfl⟩

section Step

variable {s : Scan} {done : List NodeRef} {cp : CriticalPath}

theorem step_of_ne (hne : n ≠ x) :
    (s.step g x).len n = s.len n ∧ (s.step g x).time n = s.time n ∧
      (s.step g x).prev n = s.prev n := by
  simp [step, hne]

/-- The back pointer and the time that a node gets. -/
theorem step_self (h : Inv g s done cp) (hc : g.Closed) (hx : g.Present x) (hdone : x ∉ done) :
    (s.step g x).prev x = none ∧ (s.step g x).time x = g.totalTime x ∨
    ∃ u ∈ done, u ∈ g.sources x ∧ (s.step g x).prev x = some u ∧
      (s.step g x).time x = s.time u + g.totalTime x ∧ 0 < s.time u := by
  have hprev : (s.step g x).prev x
      = (s.choose g x (g.sources x) (s.prev x, g.totalTime x)).1 := by simp [step]
  have htime : (s.step g x).time x
      = (s.choose g x (g.sources x) (s.prev x, g.totalTime x)).2 := by
    rw [choose_snd]
    simp [step, LongestPath.best]
  rw [hprev, htime]
  rcases choose_spec g s x (g.sources x) (s.prev x, g.totalTime x) with h1 | ⟨u, hu, h1, h2⟩
  · rw [h1]
    exact .inl ⟨(h.fresh x hx hdone).2, rfl⟩
  · rw [h2]
    have hpos : 0 < s.time u := by simpa using h1
    -- a positive path time: the predecessor has been scanned
    have hdone' : u ∈ done := by
      by_contra hu'
      rw [(h.fresh u (hc.sources hx u hu) hu').1] at hpos
      exact lt_irrefl _ hpos
    exact .inr ⟨u, hdone', hu, rfl, rfl, hpos⟩

theorem step_back (h : Inv g s done cp) (hc : g.Closed) (hx : g.Present x) (hdone : x ∉ done) :
    ∀ l₁ y l₂, done ++ [x] = l₁ ++ y :: l₂ →
      (s.step g x).prev y = none ∧ (s.step g x).time y = g.totalTime y ∨
      ∃ u ∈ l₁, u ∈ g.sources y ∧ (s.step g x).prev y = some u ∧
        (s.step g x).time y = (s.step g x).time u + g.totalTime y ∧ 0 < (s.step g x).time u := by
  intro l₁ y l₂ hsplit
  have hne : ∀ {w}, w ∈ done → w ≠ x := fun hw hwx => hdone (hwx ▸ hw)
  -- the node scanned last, or one scanned before, whose members stay
  rcases List.eq_nil_or_concat l₂ with rfl | ⟨l₂, z, rfl⟩
  · obtain ⟨rfl, hxy⟩ := List.append_inj' hsplit rfl
    obtain rfl : x = y := by simpa using hxy
    refine (step_self h hc hx hdone).imp_right ?_
    rintro ⟨u, hu, h1, h2, h3, h4⟩
    have hu' := (step_of_ne (g := g) (s := s) (hne hu)).2.1
    exact ⟨u, hu, h1, h2, by rw [h3, hu'], by rwa [hu']⟩
  · have hsplit' : done ++ [x] = (l₁ ++ y :: l₂) ++ [z] := by simpa using hsplit
    obtain ⟨rfl, -⟩ := List.append_inj' hsplit' rfl
    obtain ⟨-, hy1, hy2⟩ := step_of_ne (g := g) (s := s) (hne (w := y) (by simp))
    rw [hy1, hy2]
    refine (h.back l₁ y l₂ rfl).imp_right ?_
    rintro ⟨u, hu, h1, h2, h3, h4⟩
    have hu' := (step_of_ne (g := g) (s := s) (hne (w := u) (by simp [hu]))).2.1
    exact ⟨u, hu, h1, h2, by rw [hu', h3], by rwa [hu']⟩

/-- **The scan of a node keeps the invariant.** -/
theorem Inv.step (h : Inv g s done cp) (hc : g.Closed) (hx : g.Present x) (hdone : x ∉ done) :
    Inv g (s.step g x) (done ++ [x]) (cp.update x (s.bestLen g x) (s.bestTime g x)) := by
  have hne : ∀ {w}, w ∈ done → w ≠ x := fun hw hwx => hdone (hwx ▸ hw)
  have hold : ∀ {w}, w ∈ done → (s.step g x).len w = s.len w ∧ (s.step g x).time w = s.time w :=
    fun hw => ⟨(step_of_ne (hne hw)).1, (step_of_ne (hne hw)).2.1⟩
  have hlen : (s.step g x).len x = s.bestLen g x := by simp [Scan.step]
  have htime : (s.step g x).time x = s.bestTime g x := by simp [Scan.step]
  have hlen' : (cp.update x (s.bestLen g x) (s.bestTime g x)).len = max cp.len (s.bestLen g x) := by
    unfold CriticalPath.update
    by_cases h1 : cp.len < s.bestLen g x
    · simp only [h1, if_true, max_eq_right h1.le]
      split_ifs <;> rfl
    · simp only [h1, if_false, max_eq_left (not_lt.mp h1)]
      split_ifs <;> rfl
  -- time and last node change together, whatever the length does
  have htop : (cp.update x (s.bestLen g x) (s.bestTime g x)).timeLen
      = max cp.timeLen (s.bestTime g x) ∧
      (cp.update x (s.bestLen g x) (s.bestTime g x)).lastCriticalNode
        = if cp.timeLen < s.bestTime g x then some x else cp.lastCriticalNode := by
    unfold CriticalPath.update
    have hcp : (if cp.len < s.bestLen g x then { cp with len := s.bestLen g x } else cp).timeLen
        = cp.timeLen ∧ (if cp.len < s.bestLen g x then { cp with len := s.bestLen g x }
          else cp).lastCriticalNode = cp.lastCriticalNode := by
      split_ifs <;> exact ⟨rfl, rfl⟩
    by_cases h1 : cp.timeLen < s.bestTime g x
    · simp [hcp.1, h1, max_eq_right h1.le]
    · simp [hcp.1, hcp.2, h1, max_eq_left (not_lt.mp h1)]
  have hnonneg : 0 ≤ cp.timeLen := by
    rcases h.last with ⟨-, h1⟩ | ⟨y, -, -, h1, h2⟩
    · exact h1.ge
    · exact h1 ▸ h2.le
  -- a maximum over the list with `x` is the old one or the value of `x`
  refine ⟨?_, step_back h hc hx hdone, ?_, ?_, ?_, ?_, ?_⟩
  · intro y hy hmem
    obtain ⟨h1, h2⟩ : y ∉ done ∧ y ≠ x := by simpa [not_or] using hmem
    obtain ⟨-, h3, h4⟩ := step_of_ne (g := g) (s := s) h2
    rw [h3, h4]
    exact h.fresh y hy h1
  · rw [hlen']
    exact h.len_nonneg.trans (le_max_left _ _)
  · intro y hy
    rw [hlen']
    rcases List.mem_append.mp hy with hy | hy
    · rw [(hold hy).1]
      exact (h.len_le y hy).trans (le_max_left _ _)
    · rw [List.mem_singleton.mp hy, hlen]
      exact le_max_right _ _
  · rw [hlen']
    rcases max_choice cp.len (s.bestLen g x) with hm | hm
    · rw [hm]
      refine h.len_eq.imp_right ?_
      rintro ⟨y, hy, h1⟩
      exact ⟨y, by simp [hy], by rw [(hold hy).1, h1]⟩
    · rw [hm]
      exact .inr ⟨x, by simp, hlen.symm⟩
  · intro y hy
    rw [htop.1]
    rcases List.mem_append.mp hy with hy | hy
    · rw [(hold hy).2]
      exact (h.time_le y hy).trans (le_max_left _ _)
    · rw [List.mem_singleton.mp hy, htime]
      exact le_max_right _ _
  · rw [htop.1, htop.2]
    by_cases hlt : cp.timeLen < s.bestTime g x
    · rw [if_pos hlt, max_eq_right hlt.le]
      exact .inr ⟨x, by simp, rfl, htime.symm, by rw [htime]; exact hnonneg.trans_lt hlt⟩
    · rw [if_neg hlt, max_eq_left (not_lt.mp hlt)]
      refine h.last.imp_right ?_
      rintro ⟨y, hy, h1, h2, h3⟩
      exact ⟨y, by simp [hy], h1, by rw [(hold hy).2, h2], by rwa [(hold hy).2]⟩

end Step

end Scan

/-- **The scan of a list.** -/
theorem foldlM_scanNode (hc : g.Closed) {s : Scan} {done : List NodeRef} {cp : CriticalPath}
    (h : Scan.Inv g s done cp) (hl : ∀ x ∈ l, g.Present x) (hnd : (done ++ l).Nodup) :
    ∃ cp', l.foldlM (scanNode .exact) (g.mark (withPath m s), cp)
        = some (g.mark (withPath m (l.foldl (Scan.step g) s)), cp') ∧
      Scan.Inv g (l.foldl (Scan.step g) s) (done ++ l) cp' := by
  induction l generalizing s done cp with
  | nil => exact ⟨cp, rfl, by simpa using h⟩
  | cons x l ih =>
    have hx := hl x List.mem_cons_self
    have hdone : x ∉ done := fun hmem =>
      (List.nodup_append.mp hnd).2.2 x hmem x List.mem_cons_self rfl
    obtain ⟨cp', h1, h2⟩ := ih (h.step hc hx hdone) (fun y hy => hl y (List.mem_cons_of_mem x hy))
      (by simpa using hnd)
    refine ⟨cp', ?_, by simpa using h2⟩
    rw [List.foldlM_cons, scanNode_eq hc hx]
    exact h1

/-! ### The marking loop -/

/-- The nodes met when the back pointers are followed. -/
inductive Trail (prev : NodeRef → Option NodeRef) : Option NodeRef → List NodeRef → Prop
  | stop : Trail prev none []
  | go {n : NodeRef} {q : List NodeRef} (h : Trail prev (prev n) q) : Trail prev (some n) (n :: q)

/-- Back pointers lead backwards in the list, so following them ends, at a node
whose path time is its own time. -/
theorem Scan.Inv.exists_trail {s : Scan} {cp : CriticalPath} (h : Scan.Inv g s l cp)
    (hnd : l.Nodup) (hsplit : l = l₁ ++ x :: l₂) :
    ∃ q, Trail s.prev (some x) (x :: q) ∧ (∀ w ∈ q, w ∈ l₁) ∧ (x :: q).Nodup ∧
      ((x :: q).map g.totalTime).sum = s.time x ∧ (x :: q).IsChain fun b a => a ∈ g.sources b := by
  -- on the position in the list: the back pointer leads to a smaller one
  induction hk : l₁.length using Nat.strong_induction_on generalizing l₁ x l₂ with
  | _ k ih =>
    rcases h.back l₁ x l₂ hsplit with ⟨h1, h2⟩ | ⟨u, hu, h1, h2, h3, -⟩
    · refine ⟨[], .go ?_, by simp, by simp, by simp [h2], List.isChain_singleton x⟩
      rw [h1]
      exact .stop
    · obtain ⟨l₃, l₄, rfl⟩ := List.append_of_mem hu
      obtain ⟨q, h4, h5, h6, h7, h8⟩ := @ih l₃.length (by simp [← hk]) u l₃ (l₄ ++ x :: l₂)
        (by simp [hsplit]) rfl
      have hsub : ∀ w ∈ u :: q, w ∈ l₃ ++ u :: l₄ := by
        intro w hw
        rcases List.mem_cons.mp hw with rfl | hw
        · simp
        · simp [h5 w hw]
      -- what is behind a back pointer stands before `x`, and the list has no node twice
      have hx : x ∉ u :: q := fun hmem => by
        rw [hsplit] at hnd
        exact (List.nodup_append.mp hnd).2.2 x (hsub x hmem) x List.mem_cons_self rfl
      refine ⟨u :: q, .go ?_, hsub, List.nodup_cons.mpr ⟨hx, h6⟩, ?_,
        List.isChain_cons_cons.mpr ⟨h1, h8⟩⟩
      · rw [h2]
        exact h4
      · rw [List.map_cons, List.sum_cons, h7, h3, add_comm]

/-- Marks with the nodes of a list critical. -/
def withCritical (m : NodeRef → Marks) (q : List NodeRef) : NodeRef → Marks :=
  fun n => { m n with isCritical := (m n).isCritical || decide (n ∈ q) }

/-- **The marking loop marks the nodes of the trail.** -/
theorem markCritical_eq (hc : g.Closed) {start : Option NodeRef} {q : List NodeRef}
    (h : Trail (fun n => (m n).prevCritical) start q) (hq : ∀ w ∈ q, g.Present w)
    (hfuel : q.length ≤ fuel) :
    markCritical fuel (g.mark m) start = some (g.mark (withCritical m q)) := by
  -- marking a node leaves the back pointers alone, so the trail can be fixed first
  generalize hprev : (fun n => (m n).prevCritical) = prev at h
  induction h generalizing m fuel with
  | stop =>
    have hm : withCritical m [] = m := by
      funext n
      simp [withCritical]
    rw [hm]
    cases fuel <;> rfl
  | @go n q h ih =>
    obtain ⟨fuel, rfl⟩ : ∃ k, fuel = k + 1 := ⟨fuel - 1, by simp at hfuel; omega⟩
    obtain ⟨nd, hnd⟩ := hc.node n (hq n List.mem_cons_self)
    set m' := Function.update m n { m n with isCritical := true } with hm'
    have hset : (g.mark m).setNode n (fun nd => nd.setIsCritical true) = some (g.mark m') :=
      setNode_mark (φ := fun k => { k with isCritical := true }) hnd fun _ _ => rfl
    have hprev' : (fun k => (m' k).prevCritical) = prev := by
      rw [← hprev]
      funext k
      rcases eq_or_ne k n with rfl | hk
      · simp [hm']
      · simp [hm', hk]
    have hnext : (nd.onData fun d => d.mark (m' n)).prevCritical = prev n :=
      congrFun hprev' n
    have hall : withCritical m' q = withCritical m (n :: q) := by
      funext k
      rcases eq_or_ne k n with rfl | hk
      · simp [withCritical, hm']
      · simp [withCritical, hm', hk]
    have hrest := @ih m' fuel (fun w hw => hq w (List.mem_cons_of_mem n hw))
      (by simpa using hfuel) hprev'
    rw [markCritical, hset, Option.bind_eq_bind, Option.bind_some, nodes_mark hnd,
      Option.bind_eq_bind, Option.bind_some, hnext, hrest, hall]

/-! ### The whole computation -/

/-- The metric members that the computation reads are as the constructor left
them. -/
structure Fresh (g : Graph) : Prop where
  visited : ∀ n nd, g.Present n → g.nodes n = some nd → nd.visited = false
  pathTime : ∀ n nd, g.Present n → g.nodes n = some nd → nd.pathTime = 0
  prevCritical : ∀ n nd, g.Present n → g.nodes n = some nd → nd.prevCritical = none

/-- What `computeCriticalPath` leaves behind: the order `l` it has scanned, the
path members `s`, and the list `q` of nodes it has marked. -/
structure Computed (g g' : Graph) (cp : CriticalPath) (m : NodeRef → Marks)
    (post l : List NodeRef) (s : Scan) (q : List NodeRef) : Prop where
  sorted : TopoSorted g m post l
  graph : g' = g.mark (withCritical (withPath m s) q)
  scan : s = l.foldl (Scan.step g)
    ⟨fun n => (m n).pathLength, fun n => (m n).pathTime, fun n => (m n).prevCritical⟩
  inv : Scan.Inv g s l cp
  trail : Trail s.prev cp.lastCriticalNode q
  mem : ∀ w ∈ q, g.Present w
  nodup : q.Nodup
  chain : q.IsChain fun b a => a ∈ g.sources b
  sum : (q.map g.totalTime).sum = cp.timeLen

/-- **`computeCriticalPath` ends on every graph**, cyclic or not. -/
theorem computeCriticalPath_computed (hc : g.Closed) (hf : g.Fresh) :
    ∃ g' cp m post l s q, g.computeCriticalPath = some (g', cp) ∧
      Computed g g' cp m post l s q := by
  obtain ⟨m, post, l, hsort⟩ := topoSort_sorted hc hf.visited
  set s₀ : Scan :=
    ⟨fun n => (m n).pathLength, fun n => (m n).pathTime, fun n => (m n).prevCritical⟩ with hs₀
  have hstart : withPath m s₀ = m := rfl
  have hfresh : ∀ x, g.Present x → s₀.time x = 0 ∧ s₀.prev x = none := by
    intro x hx
    obtain ⟨nd, hnd⟩ := hc.node x hx
    obtain ⟨vis, -, -, rfl⟩ := hsort.marks
    refine ⟨?_, ?_⟩
    · simpa [hs₀, withLevel, withVisited, marks, hnd, NodeData.marks] using hf.pathTime x nd hx hnd
    · simpa [hs₀, withLevel, withVisited, marks, hnd, NodeData.marks]
        using hf.prevCritical x nd hx hnd
  obtain ⟨cp, h1, h2⟩ := foldlM_scanNode (m := m) hc (Scan.inv_init hfresh)
    (fun x hx => hsort.mem_list.mp hx) (by simpa using hsort.nodup_list)
  rw [hstart] at h1
  set s := l.foldl (Scan.step g) s₀ with hs
  rw [List.nil_append] at h2
  -- the trail from the last critical node
  obtain ⟨q, h3, h4, h5, h6, h7⟩ : ∃ q, Trail s.prev cp.lastCriticalNode q ∧ (∀ w ∈ q, w ∈ l) ∧
      q.Nodup ∧ (q.map g.totalTime).sum = cp.timeLen ∧ q.IsChain fun b a => a ∈ g.sources b := by
    rcases h2.last with ⟨hnone, hzero⟩ | ⟨x, hx, hsome, htime, -⟩
    · rw [hnone, hzero]
      exact ⟨[], .stop, by simp, by simp, by simp, List.isChain_nil⟩
    · obtain ⟨l₁, l₂, hsplit⟩ := List.append_of_mem hx
      obtain ⟨q, h3, h4, h5, h6, h7⟩ := h2.exists_trail hsort.nodup_list hsplit
      rw [hsome, htime]
      refine ⟨x :: q, h3, List.forall_mem_cons.mpr ⟨hx, fun w hw => ?_⟩, h5, h6, h7⟩
      rw [hsplit]
      exact List.mem_append_left _ (h4 w hw)
  have hpresent : ∀ w ∈ q, g.Present w := fun w hw => hsort.mem_list.mp (h4 w hw)
  have hmark := markCritical_eq (m := withPath m s) hc h3 hpresent
    (List.subperm_of_subset h5 h4).length_le
  refine ⟨_, cp, m, post, l, s, q, ?_, hsort, rfl, hs, h2, h3, hpresent, h5, h7, h6⟩
  simp only [computeCriticalPath, computeCriticalPathIn, hsort.eq, Option.bind_eq_bind,
    Option.bind_some, h1, hmark]

/-! ### Termination on every graph -/

theorem Trail.congr {prev prev' : NodeRef → Option NodeRef} {start : Option NodeRef}
    {q : List NodeRef} (h : Trail prev start q) (hq : ∀ n ∈ q, prev n = prev' n) :
    Trail prev' start q := by
  induction h with
  | stop => exact .stop
  | @go n q _ ih =>
    refine .go ?_
    rw [← hq n List.mem_cons_self]
    exact ih fun w hw => hq w (List.mem_cons_of_mem n hw)

namespace Computed

variable {g' : Graph} {cp : CriticalPath} {s : Scan} {q : List NodeRef}

/-- The marks left behind. -/
theorem marks_eq (h : Computed g g' cp m post l s q) (hc : g.Closed) (hn : g.Present n) :
    g'.marks n = withCritical (withPath m s) q n := by
  obtain ⟨nd, hnd⟩ := hc.node n hn
  rw [h.graph, marks_mark hnd]

theorem marks_of_nodes (hnd : g'.nodes n = some nd) :
    (g'.marks n).prevCritical = nd.prevCritical ∧ (g'.marks n).isCritical = nd.isCritical := by
  simp [marks, hnd, NodeData.marks]

theorem trail_marks (h : Computed g g' cp m post l s q) (hc : g.Closed) :
    Trail (fun n => (g'.marks n).prevCritical) cp.lastCriticalNode q :=
  h.trail.congr fun n hn => by rw [h.marks_eq hc (h.mem n hn)]; rfl

/-- A back pointer leads to a node earlier in the list. -/
theorem back_before (h : Computed g g' cp m post l s q) (hc : g.Closed) (hn : g.Present n)
    (hprev : (g'.marks n).prevCritical = some u) : u ∈ l ∧ l.idxOf u < l.idxOf n := by
  rw [h.marks_eq hc hn] at hprev
  obtain ⟨l₁, l₂, hsplit⟩ := List.append_of_mem (h.sorted.mem_list.mpr hn)
  have hprev' : s.prev n = some u := hprev
  rcases h.inv.back l₁ n l₂ hsplit with ⟨h1, -⟩ | ⟨w, hw, -, h1, -⟩
  · rw [h1] at hprev'
    cases hprev'
  · obtain rfl : w = u := Option.some.inj (h1.symm.trans hprev')
    have hn₁ : n ∉ l₁ := fun hmem => by
      have hnd := h.sorted.nodup_list
      rw [hsplit] at hnd
      exact (List.nodup_append.mp hnd).2.2 n hmem n List.mem_cons_self rfl
    refine ⟨by simp [hsplit, hw], ?_⟩
    rw [hsplit, List.idxOf_append_of_mem hw, List.idxOf_append_of_notMem hn₁]
    exact (List.idxOf_lt_length_of_mem hw).trans_le (Nat.le_add_right _ _)

end Computed

/-- **The critical path computation ends on every graph**, cyclic or not: the
list holds each node once, a back pointer leads to a node strictly earlier in
the list, and the walk along the back pointers meets no node twice. -/
theorem computeCriticalPath_ends (hc : g.Closed) (hf : g.Fresh) :
    ∃ g₁ l g' cp, g.topoSort = some (g₁, l) ∧ g.computeCriticalPath = some (g', cp) ∧
      l.Nodup ∧ (∀ n, n ∈ l ↔ g.Present n) ∧
      (∀ n nd u, g.Present n → g'.nodes n = some nd → nd.prevCritical = some u →
        u ∈ l ∧ l.idxOf u < l.idxOf n) ∧
      ∃ q, Trail (fun n => (g'.marks n).prevCritical) cp.lastCriticalNode q ∧ q.Nodup := by
  obtain ⟨g', cp, m, post, l, s, q, heq, h⟩ := computeCriticalPath_computed hc hf
  refine ⟨_, l, g', cp, h.sorted.eq, heq, h.sorted.nodup_list, fun n => h.sorted.mem_list, ?_,
    q, h.trail_marks hc, h.nodup⟩
  intro n nd u hn hnd hprev
  exact h.back_before hc hn ((Computed.marks_of_nodes hnd).1.trans hprev)

/-- Two nodes in a cycle, one of them with an edge to itself. -/
def cycle : Graph where
  nodes := fun n =>
    match n with
    | 0 => some { Node.new 0 .rootTask 1 with
        entryEdges := [⟨1, 0⟩], exitEdges := [⟨0, 1⟩] }
    | 1 => some { Node.new 1 .impTask 2 with
        entryEdges := [⟨1, 1⟩, ⟨0, 1⟩], exitEdges := [⟨1, 1⟩, ⟨1, 0⟩] }
    | _ => none
  graphNodes := ⟨[(0, 0), (1, 1)], by decide⟩

theorem cycle_present (h : cycle.Present n) : n = 0 ∨ n = 1 := by
  obtain ⟨id, h⟩ := h
  simp only [cycle, List.mem_cons, Prod.mk.injEq, List.not_mem_nil, or_false] at h
  tauto

theorem cycle_closed : cycle.Closed where
  node := by
    intro n hn
    obtain rfl | rfl := cycle_present hn <;> exact ⟨_, rfl⟩
  exits := by
    intro n nd hn hnd
    obtain rfl | rfl := cycle_present hn <;> cases hnd <;> simp [Present, cycle, Node.new]
  entries := by
    intro n nd hn hnd
    obtain rfl | rfl := cycle_present hn <;> cases hnd <;> simp [Present, cycle, Node.new]

theorem cycle_fresh : cycle.Fresh where
  visited := by
    intro n nd hn hnd
    obtain rfl | rfl := cycle_present hn <;> cases hnd <;> rfl
  pathTime := by
    intro n nd hn hnd
    obtain rfl | rfl := cycle_present hn <;> cases hnd <;> rfl
  prevCritical := by
    intro n nd hn hnd
    obtain rfl | rfl := cycle_present hn <;> cases hnd <;> rfl

theorem computeCriticalPath_ends_cycle :
    cycle.Adj 0 1 ∧ cycle.Adj 1 0 ∧ ∃ (l : List NodeRef) (g' : Graph) (cp : CriticalPath),
      cycle.computeCriticalPath = some (g', cp) ∧ l.Nodup ∧ (0 : NodeRef) ∈ l ∧ ∃ q,
        Trail (fun n => (g'.marks n).prevCritical) cp.lastCriticalNode q ∧ q.Nodup := by
  obtain ⟨-, l, g', cp, -, h1, h2, h3, -, h4⟩ := computeCriticalPath_ends cycle_closed cycle_fresh
  exact ⟨⟨_, rfl, ⟨0, 1⟩, by simp, rfl⟩, ⟨_, rfl, ⟨1, 0⟩, by simp, rfl⟩, l, g', cp, h1, h2,
    (h3 0).mpr (by simp [Present, cycle]), h4⟩

/-! ### Longest paths of acyclic graphs -/

/-- The time of a path. -/
def timeOf (g : Graph) (p : List NodeRef) : ℚ := (p.map g.totalTime).sum

/-- No node has a negative time. -/
def NonnegTimes (g : Graph) : Prop := ∀ n nd, g.Present n → g.nodes n = some nd → 0 ≤ nd.totalTime

theorem NonnegTimes.totalTime (h : g.NonnegTimes) (hc : g.Closed) (hn : g.Present n) :
    0 ≤ g.totalTime n := by
  obtain ⟨nd, hnd⟩ := hc.node n hn
  rw [totalTime_eq hnd]
  exact h n nd hn hnd

theorem value_time (p : List NodeRef) :
    LongestPath.value g.totalTime g.totalTime p = g.timeOf p := by
  obtain - | ⟨a, p⟩ := p <;> simp [LongestPath.value, timeOf]

/-- The scan solves the recursion equations of both lengths. -/
theorem foldl_step (l : List NodeRef) (s : Scan) :
    (l.foldl (Scan.step g) s).len
        = LongestPath.solve g.sources (fun _ => 0) (fun _ => 1) l s.len ∧
      (l.foldl (Scan.step g) s).time
        = LongestPath.solve g.sources g.totalTime g.totalTime l s.time := by
  induction l generalizing s with
  | nil => exact ⟨rfl, rfl⟩
  | cons x l ih => exact ih (s.step g x)

namespace Computed

variable {g' : Graph} {cp : CriticalPath} {s : Scan} {q p : List NodeRef}

theorem solves_len (h : Computed g g' cp m post l s q) (hc : g.Closed) (hm : g.Mirrored)
    (hac : Paths.Acyclic g.Within) :
    LongestPath.Solves g.sources (fun _ => 0) (fun _ => 1) s.len l := by
  rw [h.scan, (foldl_step l _).1]
  exact LongestPath.solve_solves (h.sorted.precedes hc hm hac) h.sorted.nodup_list

theorem solves_time (h : Computed g g' cp m post l s q) (hc : g.Closed) (hm : g.Mirrored)
    (hac : Paths.Acyclic g.Within) :
    LongestPath.Solves g.sources g.totalTime g.totalTime s.time l := by
  rw [h.scan, (foldl_step l _).2]
  exact LongestPath.solve_solves (h.sorted.precedes hc hm hac) h.sorted.nodup_list

theorem path_iff (h : Computed g g' cp m post l s q) (hc : g.Closed) (hm : g.Mirrored) :
    g.IsPath p ↔ LongestPath.IsPath g.sources p ∧ ∀ w ∈ p, w ∈ l := by
  rw [isPath_iff hc hm]
  simp only [h.sorted.mem_list]

/-- No path takes more time. -/
theorem timeOf_le (h : Computed g g' cp m post l s q) (hc : g.Closed) (hm : g.Mirrored)
    (hac : Paths.Acyclic g.Within) (hp : g.IsPath p) (hne : p ≠ []) : g.timeOf p ≤ cp.timeLen := by
  obtain ⟨p, v, rfl⟩ := (List.eq_nil_or_concat p).resolve_left hne
  rw [List.concat_eq_append] at hp ⊢
  obtain ⟨h1, h2⟩ := (h.path_iff hc hm).mp hp
  have hle := LongestPath.value_le (h.solves_time hc hm hac) h1 h2
  rw [value_time] at hle
  exact hle.trans (h.inv.time_le v (h2 v (by simp)))

/-- No path has more edges. -/
theorem length_le (h : Computed g g' cp m post l s q) (hc : g.Closed) (hm : g.Mirrored)
    (hac : Paths.Acyclic g.Within) (hp : g.IsPath p) : (p.length : ℤ) ≤ cp.len + 1 := by
  rcases List.eq_nil_or_concat p with rfl | ⟨p, v, rfl⟩
  · have := h.inv.len_nonneg
    simp
    omega
  · rw [List.concat_eq_append] at hp ⊢
    obtain ⟨h1, h2⟩ := (h.path_iff hc hm).mp hp
    have hle := LongestPath.value_le (h.solves_len hc hm hac) h1 h2
    rw [value_edges] at hle
    have := h.inv.len_le v (h2 v (by simp))
    simp
    omega

/-- Some path has as many edges. -/
theorem exists_length (h : Computed g g' cp m post l s q) (hc : g.Closed) (hm : g.Mirrored)
    (hac : Paths.Acyclic g.Within) (hne : l ≠ []) :
    ∃ p, g.IsPath p ∧ (p.length : ℤ) = cp.len + 1 := by
  rcases h.inv.len_eq with hzero | ⟨x, hx, hlen⟩
  · obtain ⟨x, hx⟩ := List.exists_mem_of_ne_nil l hne
    exact ⟨[x], (h.path_iff hc hm).mpr ⟨List.isChain_singleton x, by simpa using hx⟩,
      by simp [hzero]⟩
  · obtain ⟨p, h1, h2, h3⟩ := LongestPath.exists_value_eq (h.solves_len hc hm hac)
      (h.sorted.precedes hc hm hac) x hx
    rw [value_edges] at h3
    exact ⟨p ++ [x], (h.path_iff hc hm).mpr ⟨h1, h2⟩, by simp [h3, hlen]⟩

/-- The marked nodes, from the first to the last, are a path. -/
theorem isPath_marked (h : Computed g g' cp m post l s q) (hc : g.Closed) (hm : g.Mirrored) :
    g.IsPath q.reverse ∧ g.timeOf q.reverse = cp.timeLen := by
  refine ⟨(isPath_iff hc hm).mpr ⟨List.isChain_reverse.mpr h.chain, ?_⟩, ?_⟩
  · exact fun w hw => h.mem w (List.mem_reverse.mp hw)
  · rw [timeOf, List.map_reverse, List.sum_reverse]
    exact h.sum

/-- **The computed time is that of a longest path.** -/
theorem isGreatest_timeLen (h : Computed g g' cp m post l s q) (hc : g.Closed) (hm : g.Mirrored)
    (hac : Paths.Acyclic g.Within) (hpos : g.NonnegTimes) (hne : l ≠ []) :
    IsGreatest {t | ∃ p, p ≠ [] ∧ g.IsPath p ∧ g.timeOf p = t} cp.timeLen := by
  refine ⟨?_, ?_⟩
  · rcases h.inv.last with ⟨-, hzero⟩ | ⟨x, -, hsome, -, -⟩
    · -- the time of a single node is neither negative nor more than the maximum
      obtain ⟨x, hx⟩ := List.exists_mem_of_ne_nil l hne
      have hpath : g.IsPath [x] :=
        (h.path_iff hc hm).mpr ⟨List.isChain_singleton x, by simpa using hx⟩
      refine ⟨[x], by simp, hpath, le_antisymm (h.timeOf_le hc hm hac hpath (by simp)) ?_⟩
      rw [hzero]
      simpa [timeOf] using hpos.totalTime hc (h.sorted.mem_list.mp hx)
    · obtain ⟨h1, h2⟩ := h.isPath_marked hc hm
      refine ⟨q.reverse, ?_, h1, h2⟩
      have htrail := h.trail
      rw [hsome] at htrail
      cases htrail
      simp
  · rintro t ⟨p, hp, hpath, rfl⟩
    exact h.timeOf_le hc hm hac hpath hp

end Computed

/-- The metric members that the computation sets but does not read are as the
constructor left them. -/
def Uncritical (g : Graph) : Prop :=
  ∀ n nd, g.Present n → g.nodes n = some nd → nd.isCritical = false

theorem Computed.isCritical_iff {g' : Graph} {cp : CriticalPath} {s : Scan} {q : List NodeRef}
    (h : Computed g g' cp m post l s q) (hc : g.Closed) (hu : g.Uncritical) (hn : g.Present n)
    {nd' : Node} (hnd' : g'.nodes n = some nd') : nd'.isCritical = true ↔ n ∈ q := by
  obtain ⟨nd, hnd⟩ := hc.node n hn
  obtain ⟨vis, -, -, hm⟩ := h.sorted.marks
  have hold : (m n).isCritical = false := by
    rw [hm]
    simpa [withLevel, withVisited, marks, hnd, NodeData.marks] using hu n nd hn hnd
  rw [← (Computed.marks_of_nodes hnd').2, h.marks_eq hc hn]
  simp [withCritical, withPath, hold]

/-- **Critical path correctness.**  The computed time is the largest time of a
directed path.  If it is positive, the critical nodes are those of one path
that takes this time, found along the back pointers; if it is 0, no node is
critical. -/
theorem computeCriticalPath_spec (hc : g.Closed) (hm : g.Mirrored)
    (hac : Paths.Acyclic g.Within) (hf : g.Fresh) (hu : g.Uncritical) (hpos : g.NonnegTimes) :
    ∃ g' cp, g.computeCriticalPath = some (g', cp) ∧
      (g.graphNodes.entries = [] → cp.timeLen = 0) ∧
      (g.graphNodes.entries ≠ [] →
        IsGreatest {t | ∃ p, p ≠ [] ∧ g.IsPath p ∧ g.timeOf p = t} cp.timeLen) ∧
      (0 < cp.timeLen → ∃ p, p ≠ [] ∧ g.IsPath p ∧ g.timeOf p = cp.timeLen ∧
        Trail (fun n => (g'.marks n).prevCritical) p.getLast? p.reverse ∧
        ∀ n nd, g.Present n → g'.nodes n = some nd → (nd.isCritical = true ↔ n ∈ p)) ∧
      (cp.timeLen = 0 → ∀ n nd, g.Present n → g'.nodes n = some nd → nd.isCritical = false) := by
  obtain ⟨g', cp, m, post, l, s, q, heq, h⟩ := computeCriticalPath_computed hc hf
  have hlist : l = [] ↔ g.graphNodes.entries = [] := by
    rw [List.eq_nil_iff_forall_not_mem, List.eq_nil_iff_forall_not_mem]
    constructor
    · intro hl a ha
      exact hl a.2 (h.sorted.mem_list.mpr ⟨a.1, ha⟩)
    · rintro he n hn
      obtain ⟨id, hid⟩ := h.sorted.mem_list.mp hn
      exact he _ hid
  refine ⟨g', cp, heq, fun he => ?_, fun he => ?_, fun hlt => ?_, fun hzero n nd hn hnd => ?_⟩
  · rcases h.inv.last with ⟨-, hzero⟩ | ⟨x, hx, -⟩
    · exact hzero
    · rw [hlist.mpr he] at hx
      cases hx
  · exact h.isGreatest_timeLen hc hm hac hpos fun hl => he (hlist.mp hl)
  · obtain ⟨h1, h2⟩ := h.isPath_marked hc hm
    have hne : q ≠ [] := by
      rintro rfl
      have hsum := h.sum
      simp only [List.map_nil, List.sum_nil] at hsum
      exact absurd hlt (by rw [← hsum]; exact lt_irrefl _)
    have hstart : cp.lastCriticalNode = q.head? := by
      have htrail := h.trail
      generalize cp.lastCriticalNode = start at htrail
      cases htrail <;> rfl
    refine ⟨q.reverse, by simpa using hne, h1, h2, ?_, fun n nd hn hnd => ?_⟩
    · rw [List.getLast?_reverse, List.reverse_reverse, ← hstart]
      exact h.trail_marks hc
    · rw [List.mem_reverse]
      exact h.isCritical_iff hc hu hn hnd
  · have hq : q = [] := by
      have htrail := h.trail
      rcases h.inv.last with ⟨hnone, -⟩ | ⟨x, -, -, h1, h2⟩
      · rw [hnone] at htrail
        cases htrail
        rfl
      · rw [← h1, hzero] at h2
        exact absurd h2 (lt_irrefl _)
    refine Bool.eq_false_iff.mpr fun hcrit => ?_
    have := (h.isCritical_iff hc hu hn hnd).mp hcrit
    rw [hq] at this
    cases this

theorem diamond_fresh : diamond.Fresh where
  visited := diamond_unvisited
  pathTime := by
    intro n nd hn hnd
    obtain rfl | rfl | rfl | rfl := diamond_present hn <;> cases hnd <;> rfl
  prevCritical := by
    intro n nd hn hnd
    obtain rfl | rfl | rfl | rfl := diamond_present hn <;> cases hnd <;> rfl

theorem diamond_uncritical : diamond.Uncritical := by
  intro n nd hn hnd
  obtain rfl | rfl | rfl | rfl := diamond_present hn <;> cases hnd <;> rfl

theorem diamond_nonneg : diamond.NonnegTimes := by
  intro n nd hn hnd
  obtain rfl | rfl | rfl | rfl := diamond_present hn <;> cases hnd <;> simp [Node.new]

theorem computeCriticalPath_spec_diamond :
    ∃ g' cp, diamond.computeCriticalPath = some (g', cp) ∧
      IsGreatest {t | ∃ p, p ≠ [] ∧ diamond.IsPath p ∧ diamond.timeOf p = t} cp.timeLen := by
  obtain ⟨g', cp, h1, -, h2, -⟩ := computeCriticalPath_spec diamond_closed diamond_mirrored
    diamond_acyclic diamond_fresh diamond_uncritical diamond_nonneg
  exact ⟨g', cp, h1, h2 (by simp [diamond])⟩

/-! ### A second computation -/

@[simp] theorem present_mark : (g.mark m).Present n ↔ g.Present n := Iff.rfl

theorem nodes_mark_iff {nd' : Node} : (g.mark m).nodes n = some nd' ↔
    ∃ nd, g.nodes n = some nd ∧ nd' = nd.onData fun d => d.mark (m n) := by
  simp [mark, eq_comm]

theorem Closed.mark (h : g.Closed) : (g.mark m).Closed where
  node := fun n hn => by
    obtain ⟨nd, hnd⟩ := h.node n hn
    exact ⟨_, nodes_mark hnd⟩
  exits := by
    intro n nd' hn hnd'
    obtain ⟨nd, hnd, rfl⟩ := nodes_mark_iff.mp hnd'
    exact h.exits n nd hn hnd
  entries := by
    intro n nd' hn hnd'
    obtain ⟨nd, hnd, rfl⟩ := nodes_mark_iff.mp hnd'
    exact h.entries n nd hn hnd

/-- An edge of a marked graph is one of the graph. -/
@[simp] theorem adj_mark : (g.mark m).Adj u v ↔ g.Adj u v := by
  constructor
  · rintro ⟨nd', hnd', he⟩
    obtain ⟨nd, hnd, rfl⟩ := nodes_mark_iff.mp hnd'
    exact ⟨nd, hnd, he⟩
  · rintro ⟨nd, hnd, he⟩
    exact ⟨_, nodes_mark hnd, he⟩

theorem within_mark : (g.mark m).Within = g.Within := by
  funext u v
  exact propext (and_congr_right fun _ => adj_mark)

theorem Mirrored.mark (h : g.Mirrored) : (g.mark m).Mirrored where
  exits := by
    intro n nd' hn hnd' e he
    obtain ⟨nd, hnd, rfl⟩ := nodes_mark_iff.mp hnd'
    obtain ⟨hsrc, tgt, htgt, hmem⟩ := h.exits n nd hn hnd e he
    exact ⟨hsrc, _, nodes_mark htgt, hmem⟩
  entries := by
    intro n nd' hn hnd' e he
    obtain ⟨nd, hnd, rfl⟩ := nodes_mark_iff.mp hnd'
    obtain ⟨htgt, src, hsrc, hmem⟩ := h.entries n nd hn hnd e he
    exact ⟨htgt, _, nodes_mark hsrc, hmem⟩

theorem NonnegTimes.mark (h : g.NonnegTimes) : (g.mark m).NonnegTimes := by
  intro n nd' hn hnd'
  obtain ⟨nd, hnd, rfl⟩ := nodes_mark_iff.mp hnd'
  exact h n nd hn hnd

/-- A computation leaves every node visited, and changes nothing but marks. -/
theorem Computed.visited {g' : Graph} {cp : CriticalPath} {s : Scan} {q : List NodeRef}
    (h : Computed g g' cp m post l s q) : (∃ k, g' = g.mark k) ∧
      ∀ n nd, g'.Present n → g'.nodes n = some nd → nd.visited = true := by
  refine ⟨⟨_, h.graph⟩, fun n nd' hn hnd' => ?_⟩
  rw [h.graph] at hn hnd'
  obtain ⟨nd, hnd, rfl⟩ := nodes_mark_iff.mp hnd'
  obtain ⟨vis, hvis, -, rfl⟩ := h.sorted.marks
  exact hvis n hn

/-- A critical path computation on a graph whose nodes are all visited finds no
node. -/
theorem computeCriticalPath_visited (hc : g.Closed)
    (hv : ∀ n nd, g.Present n → g.nodes n = some nd → nd.visited = true) :
    g.computeCriticalPath = some (g, {}) := by
  have hys : ∀ y ∈ g.graphNodes.entries.map Prod.snd, g.Present y := by
    intro y hy
    simpa [Present] using hy
  have hvis : ∀ y ∈ g.graphNodes.entries.map Prod.snd, (g.marks y).visited = true := by
    intro y hy
    obtain ⟨nd, hnd⟩ := hc.node y (hys y hy)
    simpa [marks, hnd, NodeData.marks] using hv y nd (hys y hy) hnd
  -- the search enters no node, so the list stays empty and nothing is scanned
  have hloop := foldlM_visit (m := g.marks) hc (g.graphNodes.entries.length + 1)
    (fun hx => visitNode_eq hc hx _) hys (fun n => (g.marks n).visited, [])
  have hstart : g.searched g.marks (fun n => (g.marks n).visited, []) = (g, []) := by
    have hm : withVisited g.marks (fun n => (g.marks n).visited) = g.marks := rfl
    simp [searched, hm]
  rw [DepthFirst.explore_marked g.targets hvis, Option.map_some, hstart] at hloop
  have hall : g.visitAll = some (g, []) := hloop
  have hsort : g.topoSort = some (g, []) := by
    simp only [topoSort, hall, Option.bind_eq_bind, Option.bind_some]
    rfl
  simp only [computeCriticalPath, computeCriticalPathIn, hsort, Option.bind_eq_bind,
    Option.bind_some]
  rfl

theorem getMetric_new : g.getMetric .new = g.computeCriticalPath :=
  if_pos (by simp [CriticalPath.new])

/-- The graph when `k` new critical path metrics have been printed on it. -/
def afterCritical : ℕ → Graph → Option Graph
  | 0, g => some g
  | k + 1, g => do
      let (g, _) ← g.getMetric .new
      afterCritical k g

/-- The first metric visits all nodes, so a metric behind it computes time 0 and
length 0 and changes nothing. -/
theorem afterCritical_succ (hc : g.Closed) (hf : g.Fresh) (k : ℕ) :
    ∃ m, afterCritical (k + 1) g = some (g.mark m) ∧
      (g.mark m).getMetric .new = some (g.mark m, {}) := by
  obtain ⟨g', cp, m, post, l, s, q, heq, h⟩ := computeCriticalPath_computed hc hf
  obtain ⟨⟨m', rfl⟩, hv⟩ := h.visited
  have hsecond : (g.mark m').getMetric .new = some (g.mark m', {}) := by
    rw [getMetric_new]
    exact computeCriticalPath_visited hc.mark hv
  refine ⟨m', ?_, hsecond⟩
  have hrest : ∀ k, afterCritical k (g.mark m') = some (g.mark m') := by
    intro k
    induction k with
    | zero => rfl
    | succ k ih =>
      rw [afterCritical, hsecond, Option.bind_eq_bind, Option.bind_some]
      exact ih
  rw [afterCritical, getMetric_new, heq, Option.bind_eq_bind, Option.bind_some]
  exact hrest k

/-- No node has taken any time. -/
def Idle (g : Graph) : Prop := ∀ n nd, g.Present n → g.nodes n = some nd → nd.totalTime ≤ 0

end Graph

end Tdg
