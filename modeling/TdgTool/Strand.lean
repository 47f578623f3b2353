/-
TdgTool/Strand.lean

What one thread adds to the graph.

The acts of a thread alone, without those of any other, say where it is and
which nodes and edges it adds: `Member.step` and `Member.made` follow the
callbacks, and `Runs` is the judgement that a list of acts leads from one strand
to another and makes the given pieces.  It composes (`Runs.append`), so a script
is evaluated along the program: chunks, loops, phases, the whole thread.

What the threads of a region make is the region's part of the reference graph,
apart from the nodes behind the last barrier, which are created when the barrier
is reached and belong to nobody (`mem_pieces`).
-/
import TdgTool.Program

namespace Tdg

/-! ### Strands -/

/-- How far a thread is: its node, the barrier node it comes from, the loops it
has finished, the chunks of the present one, and the barriers it has reached. -/
structure Strand where
  cur : Role := .root
  bar : Option Role := none
  loops : ℕ := 0
  chunks : ℕ := 0
  arrived : ℕ := 0

/-- A thread of a team, in a region that was encountered at `entry`. -/
structure Member where
  region : RegionId
  num : ℕ
  threads : ℕ
  entry : Role

namespace Member

variable (m : Member)

abbrev task : TaskId := .implicit m.region m.num

/-- Where an act leads. -/
def step (s : Strand) : Act → Strand
  | .enter => { s with cur := .imp m.region m.num 0, bar := none }
  | .chunk _ _ => { s with chunks := s.chunks + 1 }
  | .loopEnd => { s with cur := .loopSink m.task s.loops, loops := s.loops + 1, chunks := 0 }
  | .arrive =>
      if 1 < m.threads then
        { s with
          cur := .imp m.region m.num (s.arrived + 1)
          bar := some (.barrier m.region s.arrived)
          arrived := s.arrived + 1 }
      else { s with arrived := s.arrived + 1 }
  | _ => s

/-- What an act makes.  A barrier node is made by everyone who reaches it. -/
def made (s : Strand) : Act → List Piece
  | .enter => [.node (.imp m.region m.num 0) 0 0, .edge m.entry (.imp m.region m.num 0)]
  | .loopBegin lower upper =>
      [.node (.ws m.task s.loops) lower upper, .edge s.cur (.ws m.task s.loops),
        .node (.loopSink m.task s.loops) 0 0]
  | .chunk lower upper =>
      [.node (.chunk m.task s.loops s.chunks) lower upper,
        .edge (.ws m.task s.loops) (.chunk m.task s.loops s.chunks),
        .edge (.chunk m.task s.loops s.chunks) (.loopSink m.task s.loops)]
  | .loopEnd =>
      if s.chunks = 0 then [.edge (.ws m.task s.loops) (.loopSink m.task s.loops)] else []
  | .arrive =>
      if 1 < m.threads then
        [.node (.barrier m.region s.arrived) 0 0, .edge s.cur (.barrier m.region s.arrived),
          .node (.imp m.region m.num (s.arrived + 1)) 0 0,
          .edge (.barrier m.region s.arrived) (.imp m.region m.num (s.arrived + 1))]
      else []
  | .exit =>
      match s.bar with
      | some b => if m.num = 0 then [.edge b (.sink m.region)] else []
      | none => [.edge s.cur (.sink m.region)]
  | _ => []

def after (s : Strand) (as : List Act) : Strand := as.foldl m.step s

def trace : Strand → List Act → List Piece
  | _, [] => []
  | s, a :: as => m.made s a ++ trace (m.step s a) as

theorem after_append (s : Strand) (as bs : List Act) :
    m.after s (as ++ bs) = m.after (m.after s as) bs :=
  List.foldl_append

theorem trace_append (s : Strand) (as bs : List Act) :
    m.trace s (as ++ bs) = m.trace s as ++ m.trace (m.after s as) bs := by
  induction as generalizing s with
  | nil => rfl
  | cons a as ih =>
    simp only [List.cons_append, trace, after, List.foldl_cons, ih, List.append_assoc]

/-! ### Evaluation -/

/-- The acts lead from one strand to another and make the pieces. -/
def Runs (s : Strand) (as : List Act) (s' : Strand) (ps : List Piece) : Prop :=
  m.after s as = s' ∧ m.trace s as = ps

variable {m} {s s' s'' : Strand} {as bs : List Act} {ps qs : List Piece}

theorem Runs.append (h : m.Runs s as s' ps) (h' : m.Runs s' bs s'' qs) :
    m.Runs s (as ++ bs) s'' (ps ++ qs) := by
  obtain ⟨rfl, rfl⟩ := h
  obtain ⟨rfl, rfl⟩ := h'
  exact ⟨m.after_append _ _ _, m.trace_append _ _ _⟩

theorem runs_nil : m.Runs s [] s [] := ⟨rfl, rfl⟩

theorem runs_single (a : Act) : m.Runs s [a] (m.step s a) (m.made s a) :=
  ⟨rfl, List.append_nil _⟩

/-- Rounds of the same kind, one after the other. -/
theorem runs_range {σ : ℕ → Strand} {f : ℕ → List Act} {p : ℕ → List Piece}
    (h : ∀ j, m.Runs (σ j) (f j) (σ (j + 1)) (p j)) (k : ℕ) :
    m.Runs (σ 0) ((List.range k).flatMap f) (σ k) ((List.range k).flatMap p) := by
  induction k with
  | zero => exact runs_nil
  | succ k ih =>
    simp only [List.range_succ, List.flatMap_append, List.flatMap_singleton]
    exact ih.append (h k)

theorem runs_chunks (cs : List (ℤ × ℤ)) (s : Strand) :
    m.Runs s (cs.map fun b => .chunk b.1 b.2) { s with chunks := s.chunks + cs.length }
      (chunkPieces m.task s.loops s.chunks cs) := by
  induction cs generalizing s with
  | nil => exact runs_nil
  | cons b cs ih =>
    have hrest := ih { s with chunks := s.chunks + 1 }
    have hone : m.Runs s [.chunk b.1 b.2] { s with chunks := s.chunks + 1 } _ := runs_single _
    have hall := hone.append hrest
    have hlen : s.chunks + 1 + cs.length = s.chunks + (b :: cs).length := by
      rw [List.length_cons]
      omega
    rw [show ({ s with chunks := s.chunks + 1 } : Strand).chunks = s.chunks + 1 from rfl, hlen]
      at hall
    exact hall

theorem runs_loop (L : Loop) (h : s.chunks = 0) :
    m.Runs s L.script
      { s with cur := .loopSink m.task s.loops, loops := s.loops + 1, chunks := 0 }
      (loopPieces m.task s.cur s.loops L) := by
  have hbegin : m.Runs s [.loopBegin L.lower L.upper] s _ := runs_single _
  have hend : m.Runs { s with chunks := s.chunks + L.chunks.length } [.loopEnd]
      { s with cur := .loopSink m.task s.loops, loops := s.loops + 1, chunks := 0 }
      (if L.chunks = [] then [.edge (.ws m.task s.loops) (.loopSink m.task s.loops)] else []) := by
    have hiff : s.chunks + L.chunks.length = 0 ↔ L.chunks = [] := by
      rw [h, Nat.zero_add, List.length_eq_zero_iff]
    exact ⟨rfl, by simp only [trace, made, hiff, List.append_nil]⟩
  have hall := (hbegin.append (runs_chunks L.chunks s)).append hend
  rw [h] at hall
  exact hall

theorem runs_loops (Ls : List Loop) (s : Strand) (h : s.chunks = 0) :
    m.Runs s (Ls.flatMap Loop.script)
      { s with
        cur := chainEnd m.task s.cur s.loops Ls
        loops := s.loops + Ls.length
        chunks := 0 }
      (chain m.task s.cur s.loops Ls) := by
  induction Ls generalizing s with
  | nil =>
    obtain ⟨cur, bar, loops, chunks, arrived⟩ := s
    obtain rfl : chunks = 0 := h
    exact runs_nil
  | cons L Ls ih =>
    have hrest := ih
      { s with cur := .loopSink m.task s.loops, loops := s.loops + 1, chunks := 0 } rfl
    have hall := (runs_loop (m := m) L h).append hrest
    have hlen : s.loops + 1 + Ls.length = s.loops + (L :: Ls).length := by
      rw [List.length_cons]
      omega
    rw [hlen] at hall
    exact hall

/-! ### Scripts -/

variable {R : Region}

theorem loopsBefore_succ (R : Region) (t j : ℕ) :
    R.loopsBefore t (j + 1) = R.loopsBefore t j ++ R.loops t j := by
  simp [Region.loopsBefore, List.range_succ]

theorem chain_append (τ : TaskId) (x : Role) (l : ℕ) (Ls Ls' : List Loop) :
    chain τ x l (Ls ++ Ls')
      = chain τ x l Ls ++ chain τ (chainEnd τ x l Ls) (l + Ls.length) Ls' := by
  induction Ls generalizing x l with
  | nil => rfl
  | cons L Ls ih =>
    have hlen : l + 1 + Ls.length = l + (L :: Ls).length := by
      rw [List.length_cons]
      omega
    simp only [List.cons_append, chain, chainEnd, ih, hlen, List.append_assoc]

theorem chainEnd_append (τ : TaskId) (x : Role) (l : ℕ) (Ls Ls' : List Loop) :
    chainEnd τ x l (Ls ++ Ls') = chainEnd τ (chainEnd τ x l Ls) (l + Ls.length) Ls' := by
  induction Ls generalizing x l with
  | nil => rfl
  | cons L Ls ih =>
    have hlen : l + 1 + Ls.length = l + (L :: Ls).length := by
      rw [List.length_cons]
      omega
    simp only [List.cons_append, chainEnd, ih, hlen]

/-- A thread of several at the beginning of phase `j`. -/
def inPhase (m : Member) (R : Region) (j : ℕ) : Strand where
  cur := .imp m.region m.num j
  bar := if j = 0 then none else some (.barrier m.region (j - 1))
  loops := (R.loopsBefore m.num j).length
  arrived := j

/-- What a thread of several makes in phase `j`: its loops, the barrier, and the
node behind it. -/
def phaseMade (m : Member) (R : Region) (j : ℕ) : List Piece :=
  chain m.task (.imp m.region m.num j) (R.loopsBefore m.num j).length (R.loops m.num j) ++
    [.node (.barrier m.region j) 0 0,
      .edge (chainEnd m.task (.imp m.region m.num j) (R.loopsBefore m.num j).length
        (R.loops m.num j)) (.barrier m.region j),
      .node (.imp m.region m.num (j + 1)) 0 0,
      .edge (.barrier m.region j) (.imp m.region m.num (j + 1))]

theorem runs_phase (hm : 1 < m.threads) (j : ℕ) :
    m.Runs (inPhase m R j) (R.phaseScript m.num j) (inPhase m R (j + 1)) (phaseMade m R j) := by
  have hloops := runs_loops (m := m) (R.loops m.num j) (inPhase m R j) rfl
  refine hloops.append ⟨?_, ?_⟩
  · simp [after, step, hm, inPhase, loopsBefore_succ]
  · simp [trace, made, hm, inPhase]

/-- What a thread of several makes in all. -/
theorem runs_team (hm : 1 < m.threads) :
    m.Runs {} (R.script m.num) (inPhase m R R.phases)
      ([.node (.imp m.region m.num 0) 0 0, .edge m.entry (.imp m.region m.num 0)] ++
        (List.range R.phases).flatMap (phaseMade m R) ++
        if m.num = 0 then [.edge (.barrier m.region (R.phases - 1)) (.sink m.region)] else []) := by
  have hbegin : m.Runs {} [.enter] (inPhase m R 0) _ := runs_single _
  have hk : R.phases ≠ 0 := by
    have := R.phases_pos
    omega
  refine (hbegin.append (runs_range (runs_phase hm) R.phases)).append ⟨rfl, ?_⟩
  simp [trace, made, inPhase, hk]

/-- A thread on its own at the beginning of phase `j`. -/
def alone (m : Member) (R : Region) (j : ℕ) : Strand where
  cur := chainEnd m.task (.imp m.region m.num 0) 0 (R.loopsBefore m.num j)
  loops := (R.loopsBefore m.num j).length
  arrived := j

/-- What a thread on its own makes in all. -/
theorem runs_alone (hm : ¬1 < m.threads) :
    m.Runs {} (R.script m.num) (alone m R R.phases)
      ([.node (.imp m.region m.num 0) 0 0, .edge m.entry (.imp m.region m.num 0)] ++
        chain m.task (.imp m.region m.num 0) 0 (R.loopsBefore m.num R.phases) ++
        [.edge (chainEnd m.task (.imp m.region m.num 0) 0 (R.loopsBefore m.num R.phases))
          (.sink m.region)]) := by
  have hbegin : m.Runs {} [.enter] (alone m R 0) _ := runs_single _
  have hphases : ∀ k, m.Runs (alone m R 0) ((List.range k).flatMap (R.phaseScript m.num))
      (alone m R k) (chain m.task (.imp m.region m.num 0) 0 (R.loopsBefore m.num k)) := by
    intro k
    induction k with
    | zero => exact runs_nil
    | succ k ih =>
      -- one more phase: its loops go on where those before it ended
      have hloops := runs_loops (m := m) (R.loops m.num k) (alone m R k) rfl
      have harrive : m.Runs
          { alone m R k with
            cur := chainEnd m.task (alone m R k).cur (alone m R k).loops (R.loops m.num k)
            loops := (alone m R k).loops + (R.loops m.num k).length
            chunks := 0 } [.arrive] (alone m R (k + 1)) [] := by
        refine ⟨?_, ?_⟩
        · simp [after, step, hm, alone, loopsBefore_succ, chainEnd_append]
        · simp [trace, made, hm]
      have hall := ih.append (hloops.append harrive)
      simp only [List.range_succ, List.flatMap_append, List.flatMap_singleton, loopsBefore_succ,
        chain_append, Nat.zero_add]
      rw [List.append_nil] at hall
      exact hall
  exact (hbegin.append (hphases R.phases)).append ⟨rfl, rfl⟩

end Member

/-! ### The pieces of a region -/

/-- The node that a piece is, or leads to. -/
def Piece.top : Piece → Role
  | .node x _ _ => x
  | .edge _ y => y

theorem top_chunkPieces {τ : TaskId} {l c : ℕ} {cs : List (ℤ × ℤ)} {p : Piece}
    (hp : p ∈ chunkPieces τ l c cs) (r : RegionId) (t j : ℕ) : p.top ≠ .imp r t j := by
  induction cs generalizing c with
  | nil => cases hp
  | cons b cs ih =>
    rcases List.mem_append.mp hp with hp | hp
    · simp only [List.mem_cons, List.not_mem_nil, or_false] at hp
      rcases hp with rfl | rfl | rfl <;> simp [Piece.top]
    · exact ih hp

/-- Loops do not lead to the first node of a phase. -/
theorem top_chain {τ : TaskId} {x : Role} {l : ℕ} {Ls : List Loop} {p : Piece}
    (hp : p ∈ chain τ x l Ls) (r : RegionId) (t j : ℕ) : p.top ≠ .imp r t j := by
  induction Ls generalizing x l with
  | nil => cases hp
  | cons L Ls ih =>
    simp only [chain, loopPieces, List.mem_append, List.mem_cons, List.not_mem_nil,
      or_false] at hp
    rcases hp with (((rfl | rfl | rfl) | hp) | hp) | hp
    · simp [Piece.top]
    · simp [Piece.top]
    · simp [Piece.top]
    · exact top_chunkPieces hp r t j
    · split_ifs at hp
      · obtain rfl := List.mem_singleton.mp hp
        simp [Piece.top]
      · cases hp
    · exact ih hp

namespace Region

variable {r : RegionId} {R : Region} {x y : Role} {p : Piece}

/-- The node behind the last barrier, which a thread of several creates on its
arrival and gives up at its end. -/
def Spare (r : RegionId) (R : Region) (y : Role) : Prop :=
  1 < R.threads ∧ ∃ t, y = .imp r t R.phases

/-- Thread `t` of the region. -/
def member (r : RegionId) (R : Region) (x : Role) (t : ℕ) : Member := ⟨r, t, R.threads, x⟩

theorem mem_team (hn : 1 < R.threads) {t : ℕ} :
    p ∈ (R.member r x t).trace {} (R.script t) ↔
      p = .node (.imp r t 0) 0 0 ∨ p = .edge x (.imp r t 0) ∨
      (∃ j < R.phases, p ∈ (R.member r x t).phaseMade R j) ∨
      t = 0 ∧ p = .edge (.barrier r (R.phases - 1)) (.sink r) := by
  have hruns := Member.runs_team (m := R.member r x t) (R := R) hn
  rw [show (R.member r x t).num = t from rfl] at hruns
  rw [hruns.2]
  simp only [List.mem_append, List.mem_cons, List.not_mem_nil, or_false, List.mem_flatMap,
    List.mem_range]
  split_ifs with ht
  · simp [ht, member, or_assoc]
  · simp [ht, member, or_assoc]

/-- **A team of several makes its pieces of the reference graph.** -/
theorem mem_teamPieces (hn : 1 < R.threads) :
    p ∈ R.pieces r x ↔ p = .node (.sink r) 0 0 ∨
      ∃ t < R.threads, p ∈ (R.member r x t).trace {} (R.script t) ∧ ¬R.Spare r p.top := by
  have hk := R.phases_pos
  have hpieces : p ∈ R.pieces r x ↔ p = .node (.sink r) 0 0 ∨
      (∃ t < R.threads, p = .edge x (.imp r t 0)) ∨
      (∃ t < R.threads, ∃ j < R.phases, p ∈ R.phasePieces r t j) ∨
      ∃ j < R.phases, p ∈ R.barrierPieces r j := by
    simp only [pieces, if_pos hn, teamPieces, List.cons_append, List.mem_cons, List.mem_append,
      List.mem_map, List.mem_flatMap, List.mem_range, eq_comm]
  rw [hpieces]
  constructor
  · rintro (rfl | ⟨t, ht, rfl⟩ | ⟨t, ht, j, hj, hp⟩ | ⟨j, hj, hp⟩)
    · exact .inl rfl
    · refine .inr ⟨t, ht, (mem_team hn).mpr (.inr (.inl rfl)), ?_⟩
      rintro ⟨-, t', he⟩
      have := (Role.imp.inj he).2.2
      omega
    · simp only [phasePieces, List.cons_append, List.mem_cons, List.mem_append, List.not_mem_nil,
        or_false] at hp
      rcases hp with rfl | hp | rfl
      · -- the first node of a phase is made on arrival at the barrier before it
        refine .inr ⟨t, ht, (mem_team hn).mpr ?_, ?_⟩
        · rcases j with - | i
          · exact .inl rfl
          · exact .inr (.inr (.inl ⟨i, by omega, by simp [Member.phaseMade, member]⟩))
        · rintro ⟨-, t', he⟩
          have := (Role.imp.inj he).2.2
          omega
      · refine .inr ⟨t, ht, (mem_team hn).mpr (.inr (.inr (.inl ⟨j, hj, ?_⟩))), ?_⟩
        · exact List.mem_append_left _ hp
        · rintro ⟨-, t', he⟩
          exact top_chain hp _ _ _ he
      · refine .inr ⟨t, ht, (mem_team hn).mpr (.inr (.inr (.inl ⟨j, hj, ?_⟩))), ?_⟩
        · simp [Member.phaseMade, member]
        · rintro ⟨-, t', he⟩
          cases he
    · simp only [barrierPieces, List.mem_cons] at hp
      rcases hp with rfl | hp
      · -- any thread makes the barrier node
        refine .inr ⟨0, by omega, (mem_team hn).mpr (.inr (.inr (.inl ⟨j, hj, ?_⟩))), ?_⟩
        · simp [Member.phaseMade, member]
        · rintro ⟨-, t', he⟩
          cases he
      · split_ifs at hp with hj'
        · obtain ⟨t, ht, rfl⟩ := List.mem_map.mp hp
          refine .inr ⟨t, List.mem_range.mp ht,
            (mem_team hn).mpr (.inr (.inr (.inl ⟨j, hj, ?_⟩))), ?_⟩
          · simp [Member.phaseMade, member]
          · rintro ⟨-, t', he⟩
            have := (Role.imp.inj he).2.2
            omega
        · obtain rfl := List.mem_singleton.mp hp
          obtain rfl : j = R.phases - 1 := by omega
          refine .inr ⟨0, by omega, (mem_team hn).mpr (.inr (.inr (.inr ⟨rfl, rfl⟩))), ?_⟩
          rintro ⟨-, t', he⟩
          cases he
  · rintro (rfl | ⟨t, ht, hp, hkeep⟩)
    · exact .inl rfl
    · rcases (mem_team hn).mp hp with rfl | rfl | ⟨j, hj, hp⟩ | ⟨rfl, rfl⟩
      · exact .inr (.inr (.inl ⟨t, ht, 0, hk, by simp [phasePieces]⟩))
      · exact .inr (.inl ⟨t, ht, rfl⟩)
      · simp only [Member.phaseMade, member, List.mem_append, List.mem_cons, List.not_mem_nil,
          or_false] at hp
        have hnext : ∀ {u}, p.top = .imp r u (j + 1) → j + 1 < R.phases := by
          intro u hu
          by_contra hge
          obtain he : j + 1 = R.phases := by omega
          exact hkeep ⟨hn, u, he ▸ hu⟩
        rcases hp with hp | rfl | rfl | rfl | rfl
        · exact .inr (.inr (.inl ⟨t, ht, j, hj, by simp [phasePieces, hp]⟩))
        · exact .inr (.inr (.inr ⟨j, hj, by simp [barrierPieces]⟩))
        · exact .inr (.inr (.inl ⟨t, ht, j, hj, by simp [phasePieces]⟩))
        · exact .inr (.inr (.inl ⟨t, ht, j + 1, hnext rfl, by simp [phasePieces]⟩))
        · have hj' := hnext (u := t) rfl
          refine .inr (.inr (.inr ⟨j, hj, ?_⟩))
          simp [barrierPieces, hj', ht]
      · refine .inr (.inr (.inr ⟨R.phases - 1, by omega, ?_⟩))
        have hlast : ¬R.phases - 1 + 1 < R.phases := by omega
        simp [barrierPieces, hlast]

/-- A thread on its own makes its pieces of the reference graph. -/
theorem mem_alonePieces (hn : ¬1 < R.threads) :
    p ∈ R.pieces r x ↔ p = .node (.sink r) 0 0 ∨
      p ∈ (R.member r x 0).trace {} (R.script 0) := by
  have hone : R.threads = 1 := by
    have := R.threads_pos
    omega
  have hruns := Member.runs_alone (m := R.member r x 0) (R := R) hn
  rw [show (R.member r x 0).num = 0 from rfl] at hruns
  rw [hruns.2]
  simp only [pieces, hone, lt_self_iff_false, if_false, alonePieces, member, Member.task,
    List.range_one, List.map_singleton, List.cons_append, List.nil_append, List.mem_cons,
    List.mem_append, List.not_mem_nil, or_false]
  tauto

/-- **The threads of a region make its part of the reference graph.** -/
theorem mem_pieces :
    p ∈ R.pieces r x ↔ p = .node (.sink r) 0 0 ∨
      ∃ t < R.threads, p ∈ (R.member r x t).trace {} (R.script t) ∧ ¬R.Spare r p.top := by
  by_cases hn : 1 < R.threads
  · exact mem_teamPieces hn
  · have hspare : ∀ {y}, ¬R.Spare r y := fun h => hn h.1
    have hone : R.threads = 1 := by
      have := R.threads_pos
      omega
    rw [mem_alonePieces hn]
    refine or_congr_right ⟨fun hp => ⟨0, R.threads_pos, hp, hspare⟩, ?_⟩
    rintro ⟨t, ht, hp, -⟩
    obtain rfl : t = 0 := by omega
    exact hp

end Region

/-! ### The pieces of a program -/

namespace Program

variable {P : Program} {p : Piece}

/-- Thread `t` of region `r`. -/
def member (P : Program) (r : RegionId) (t : ℕ) : Member :=
  (P.region r).member r (entryFrom .root P.order r) t

theorem mem_regionPieces {x : Role} {rs : List RegionId} (hnodup : rs.Nodup) :
    p ∈ P.regionPieces x rs ↔ ∃ r ∈ rs, p ∈ (P.region r).pieces r (entryFrom x rs r) := by
  induction rs generalizing x with
  | nil => simp [regionPieces]
  | cons s rest ih =>
    obtain ⟨hs, hrest⟩ := List.nodup_cons.mp hnodup
    have hne : ∀ r ∈ rest, entryFrom x (s :: rest) r = entryFrom (.sink s) rest r := by
      intro r hr
      have hsr : s ≠ r := fun e => hs (e ▸ hr)
      simp [entryFrom, hsr]
    simp only [regionPieces, List.mem_append, ih hrest, List.exists_mem_cons_iff]
    refine or_congr (by simp [entryFrom]) ?_
    constructor
    · rintro ⟨r, hr, hp⟩
      exact ⟨r, hr, by rwa [hne r hr]⟩
    · rintro ⟨r, hr, hp⟩
      exact ⟨r, hr, by rwa [hne r hr] at hp⟩

/-- **The reference graph is what the tasks make**, without the spare nodes. -/
theorem mem_pieces :
    p ∈ P.pieces ↔ p = .node .root 0 0 ∨ ∃ r ∈ P.order, p = .node (.sink r) 0 0 ∨
      ∃ t < (P.region r).threads,
        p ∈ (P.member r t).trace {} ((P.region r).script t) ∧ ¬(P.region r).Spare r p.top := by
  simp only [pieces, List.mem_cons, mem_regionPieces P.nodup, Region.mem_pieces, member]

end Program

end Tdg
