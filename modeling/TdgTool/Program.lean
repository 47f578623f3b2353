/-
TdgTool/Program.lean

Fork-join programs, and the graph that each of them stands for.

A `Program` says what is executed and not how: one initial task that runs
parallel regions one after the other, each with a team whose threads go through
phases of dynamic loops, every phase closed by a barrier.  `Program.pieces` is
the reference graph, put together along the program; no state of the tool and
no order of callbacks enters it.  `Program.script` is what each task does, and a
run `Executes` the program when every task does just that, however the
callbacks of different tasks are interleaved.
-/
import TdgTool.Roles
import TdgTool.Lib.LabelledGraph

namespace Tdg

/-! ### Programs -/

/-- A dynamically scheduled loop: its bounds, and the bounds of its chunks. -/
structure Loop where
  lower : ℤ
  upper : ℤ
  chunks : List (ℤ × ℤ)
  deriving DecidableEq, Repr

/-- A parallel region: the size of its team, the number of its barriers, and the
loops that a thread executes in a phase. -/
structure Region where
  threads : ℕ
  phases : ℕ
  loops : ℕ → ℕ → List Loop
  threads_pos : 1 ≤ threads
  phases_pos : 1 ≤ phases

/-- A sequence of parallel regions. -/
structure Program where
  order : List RegionId
  nodup : order.Nodup
  region : RegionId → Region

/-- The loops of a thread before phase `j`. -/
def Region.loopsBefore (R : Region) (t j : ℕ) : List Loop := (List.range j).flatMap (R.loops t)

/-! ### The reference graph -/

/-- A node with its bounds, or an edge. -/
inductive Piece
  | node (x : Role) (lower upper : ℤ)
  | edge (x y : Role)
  deriving DecidableEq, Repr

section Loops

variable (τ : TaskId)

/-- The chunks of a loop, from number `c` on. -/
def chunkPieces (l : ℕ) : ℕ → List (ℤ × ℤ) → List Piece
  | _, [] => []
  | c, b :: rest =>
      [.node (.chunk τ l c) b.1 b.2, .edge (.ws τ l) (.chunk τ l c),
        .edge (.chunk τ l c) (.loopSink τ l)] ++ chunkPieces l (c + 1) rest

/-- A loop that begins at `x`: a start node, the chunks side by side, and a sink. -/
def loopPieces (x : Role) (l : ℕ) (L : Loop) : List Piece :=
  [.node (.ws τ l) L.lower L.upper, .edge x (.ws τ l), .node (.loopSink τ l) 0 0] ++
    chunkPieces τ l 0 L.chunks ++
    if L.chunks = [] then [.edge (.ws τ l) (.loopSink τ l)] else []

/-- Loops one after the other, the first of them with number `l` and from `x` on. -/
def chain : Role → ℕ → List Loop → List Piece
  | _, _, [] => []
  | x, l, L :: rest => loopPieces τ x l L ++ chain (.loopSink τ l) (l + 1) rest

/-- Where the loops lead. -/
def chainEnd : Role → ℕ → List Loop → Role
  | x, _, [] => x
  | _, l, _ :: rest => chainEnd (.loopSink τ l) (l + 1) rest

end Loops

namespace Region

variable (r : RegionId) (R : Region)

/-- Phase `j` of thread `t`: its first node, its loops, and the way to the barrier. -/
def phasePieces (t j : ℕ) : List Piece :=
  .node (.imp r t j) 0 0 ::
    chain (.implicit r t) (.imp r t j) (R.loopsBefore t j).length (R.loops t j) ++
    [.edge (chainEnd (.implicit r t) (.imp r t j) (R.loopsBefore t j).length (R.loops t j))
      (.barrier r j)]

/-- Barrier `j`: behind it every thread has its next phase, and behind the last
one is the sink. -/
def barrierPieces (j : ℕ) : List Piece :=
  .node (.barrier r j) 0 0 ::
    if j + 1 < R.phases then
      (List.range R.threads).map fun t => .edge (.barrier r j) (.imp r t (j + 1))
    else [.edge (.barrier r j) (.sink r)]

/-- A team of several threads. -/
def teamPieces : List Piece :=
  ((List.range R.threads).flatMap fun t => (List.range R.phases).flatMap (R.phasePieces r t)) ++
    (List.range R.phases).flatMap (R.barrierPieces r)

/-- A team of one has no barriers: its loops form one chain, whatever the phases. -/
def alonePieces : List Piece :=
  .node (.imp r 0 0) 0 0 ::
    chain (.implicit r 0) (.imp r 0 0) 0 (R.loopsBefore 0 R.phases) ++
    [.edge (chainEnd (.implicit r 0) (.imp r 0 0) 0 (R.loopsBefore 0 R.phases)) (.sink r)]

/-- A region encountered at `x`: the first nodes of its threads are below `x`. -/
def pieces (x : Role) : List Piece :=
  .node (.sink r) 0 0 :: (List.range R.threads).map (fun t => .edge x (.imp r t 0)) ++
    if 1 < R.threads then R.teamPieces r else R.alonePieces r

end Region

namespace Program

variable (P : Program)

/-- Regions one after the other, the first of them encountered at `x`. -/
def regionPieces : Role → List RegionId → List Piece
  | _, [] => []
  | x, r :: rest => (P.region r).pieces r x ++ regionPieces (.sink r) rest

/-- The reference graph, piece by piece. -/
def pieces : List Piece := .node .root 0 0 :: P.regionPieces .root P.order

/-- The bounds that the reference graph gives to a node. -/
def bounds (x : Role) : ℤ × ℤ :=
  (P.pieces.findSome? fun
    | .node y lower upper => if y = x then some (lower, upper) else none
    | .edge _ _ => none).getD (0, 0)

/-- The reference graph. -/
def graph : LabelledGraph Role (NodeType × ℤ × ℤ) where
  nodes := {x | ∃ lower upper, .node x lower upper ∈ P.pieces}
  label x := (x.type, P.bounds x)
  edges x y := if .edge x y ∈ P.pieces then 1 else 0

end Program

/-- What is compared with it: the stored nodes with their types and bounds, and
the edges in their exit vectors. -/
def Graph.labelled (g : Graph) : LabelledGraph NodeRef (NodeType × ℤ × ℤ) where
  nodes := {n | g.Present n}
  label n := (g.nodes n).elim (.rootTask, 0, 0) fun nd => (nd.type, nd.lower, nd.upper)
  edges n m := (g.nodes n).elim 0 fun nd => nd.exitEdges.countP fun e => e.target = m

/-- The edges from `n` in the entry vector of `m`. -/
def Graph.entriesFrom (g : Graph) (n m : NodeRef) : ℕ :=
  (g.nodes m).elim 0 fun nd => nd.entryEdges.countP fun e => e.source = n

/-! ### What the tasks of a program do -/

/-- What a task does that concerns the graph. -/
inductive Act
  | create
  | spawn
  | fork (r : RegionId) (requested teamSize barriers : ℕ)
  | join (r : RegionId)
  | enter
  | loopBegin (lower upper : ℤ)
  | chunk (lower upper : ℤ)
  | loopEnd
  | arrive
  | exit
  deriving DecidableEq, Repr

/-- The task that a callback belongs to, and what that task does.  The ends of
barriers, and the calls without a chunk, are left to the runtime. -/
def Event.act (e : Event) : Option (TaskId × Act) :=
  match e.call with
  | .taskCreate _ new .initial => some (new, .create)
  | .taskCreate parent _ .explicit => some (parent, .spawn)
  | .parallelBegin parent r requested teamSize barriers =>
      some (parent, .fork r requested teamSize barriers)
  | .parallelEnd r task => some (task, .join r)
  | .implicitTask .scopeBegin _ task _ _ => some (task, .enter)
  | .implicitTask .scopeEnd _ task _ _ => some (task, .exit)
  | .syncRegion .barrier .scopeBegin _ (.implicit r t) => some (.implicit r t, .arrive)
  | .extLoop .scopeBegin task lower upper => some (task, .loopBegin lower upper)
  | .extLoop .scopeEnd task _ _ => some (task, .loopEnd)
  | .extChunk task lower upper false => some (task, .chunk lower upper)
  | _ => none

/-- What a task does in the course of a run. -/
def acts (τ : TaskId) (es : List Event) : List Act :=
  es.filterMap fun e => e.act.bind fun a => if a.1 = τ then some a.2 else none

def Loop.script (L : Loop) : List Act :=
  .loopBegin L.lower L.upper :: L.chunks.map (fun b => .chunk b.1 b.2) ++ [.loopEnd]

namespace Region

variable (R : Region)

def phaseScript (t j : ℕ) : List Act := (R.loops t j).flatMap Loop.script ++ [.arrive]

/-- A thread of the region, from its beginning to its end. -/
def script (t : ℕ) : List Act :=
  .enter :: (List.range R.phases).flatMap (R.phaseScript t) ++ [.exit]

end Region

namespace Program

variable (P : Program)

/-- The regions, each of them forked and joined. -/
def regionScript (rs : List RegionId) : List Act :=
  rs.flatMap fun r =>
    [.fork r (P.region r).threads (P.region r).threads (P.region r).phases, .join r]

/-- What each task does. -/
def script : TaskId → List Act
  | .initial 0 => .create :: P.regionScript P.order
  | .implicit r t =>
      if r ∈ P.order ∧ t < (P.region r).threads then (P.region r).script t else []
  | _ => []

/-- A run of the program, with all its callbacks delivered. -/
def Executes (es : List Event) : Prop := ∀ τ, acts τ es = P.script τ

end Program

/-! ### Acts in the course of a run -/

section Acts

variable {es : List Event} {e : Event} {τ : TaskId} {a : Act}

theorem acts_append {es' : List Event} : acts τ (es ++ es') = acts τ es ++ acts τ es' :=
  List.filterMap_append

/-- An act of the task itself. -/
theorem acts_snoc_of_act (h : e.act = some (τ, a)) : acts τ (es ++ [e]) = acts τ es ++ [a] := by
  rw [acts_append]
  simp [acts, h]

/-- An act of another task, or none. -/
theorem acts_snoc_of_other (h : ∀ a, e.act ≠ some (τ, a)) : acts τ (es ++ [e]) = acts τ es := by
  have hnone : (e.act.bind fun a => if a.1 = τ then some a.2 else none) = none := by
    rcases he : e.act with - | ⟨σ, b⟩
    · rfl
    · have hne : σ ≠ τ := by
        rintro rfl
        exact h b he
      simp [hne]
  rw [acts_append]
  simp [acts, hnone]

end Acts

/-- An act of a team's thread. -/
def Act.ofThread : Act → Bool
  | .enter | .loopBegin _ _ | .chunk _ _ | .loopEnd | .arrive | .exit => true
  | _ => false

/-- An act of the initial task. -/
def Act.ofInitial : Act → Bool
  | .create | .fork _ _ _ _ | .join _ => true
  | _ => false

theorem Region.ofThread_of_mem {R : Region} {t : ℕ} {a : Act} (ha : a ∈ R.script t) :
    a.ofThread = true := by
  simp only [Region.script, Region.phaseScript, Loop.script, List.cons_append, List.mem_cons,
    List.mem_append, List.mem_flatMap, List.mem_range, List.mem_map, List.not_mem_nil,
    or_false] at ha
  rcases ha with rfl | ⟨j, -, ⟨L, -, rfl | ⟨b, -, rfl⟩ | rfl⟩ | rfl⟩ | rfl <;> rfl

namespace Program

variable {P : Program} {a : Act} {r : RegionId} {τ : TaskId}

theorem mem_script_initial : a ∈ P.script (.initial 0) ↔ a = .create ∨ ∃ r ∈ P.order,
    a = .fork r (P.region r).threads (P.region r).threads (P.region r).phases ∨ a = .join r := by
  simp [script, regionScript]

/-- Who acts in a program, and how. -/
theorem mem_script (ha : a ∈ P.script τ) : τ = .initial 0 ∧ a.ofInitial = true ∨
    ∃ r t, τ = .implicit r t ∧ r ∈ P.order ∧ t < (P.region r).threads ∧ a.ofThread = true := by
  rcases τ with (- | i) | ⟨r, t⟩ | n
  · rcases mem_script_initial.mp ha with rfl | ⟨r, -, rfl | rfl⟩ <;> exact .inl ⟨rfl, rfl⟩
  · cases ha
  · simp only [script] at ha
    split_ifs at ha with hrt
    · exact .inr ⟨r, t, rfl, hrt.1, hrt.2, Region.ofThread_of_mem ha⟩
    · cases ha
  · cases ha

/-! ### The node of the initial task -/

/-- The node at which a region is encountered, when regions follow one another from
`x` on. -/
def entryFrom (x : Role) : List RegionId → RegionId → Role
  | [], _ => x
  | s :: rest, r => if s = r then x else entryFrom (.sink s) rest r

/-- The node of the initial task after one more act. -/
def homeStep (x : Role) : Act → Role
  | .create => .root
  | .join r => .sink r
  | _ => x

/-- The node of the initial task. -/
def homeAfter (as : List Act) : Role := as.foldl homeStep .root

theorem entry_of_fork {q m k : ℕ} {x : Role} {rs : List RegionId} (hnodup : rs.Nodup)
    {as : List Act} (hpre : as ++ [.fork r q m k] <+: P.regionScript rs) :
    r ∈ rs ∧ as.foldl homeStep x = entryFrom x rs r := by
  induction rs generalizing x as with
  | nil =>
    have hnil := List.prefix_nil.mp hpre
    simp at hnil
  | cons s rest ih =>
    obtain ⟨hs, hrest⟩ := List.nodup_cons.mp hnodup
    simp only [regionScript, List.flatMap_cons, List.cons_append, List.nil_append] at hpre
    -- the region is this one, or its fork comes after this one is joined
    rcases as with - | ⟨a, - | ⟨b, as⟩⟩
    · obtain ⟨hfork, -⟩ := List.cons_prefix_cons.mp hpre
      obtain rfl : r = s := (Act.fork.inj hfork).1
      simp [entryFrom]
    · obtain ⟨-, hpre⟩ := List.cons_prefix_cons.mp hpre
      obtain ⟨hjoin, -⟩ := List.cons_prefix_cons.mp hpre
      cases hjoin
    · obtain ⟨rfl, hjoin⟩ := List.cons_prefix_cons.mp hpre
      obtain ⟨rfl, hrec⟩ := List.cons_prefix_cons.mp hjoin
      obtain ⟨hr, hfold⟩ := ih (x := .sink s) hrest hrec
      have hsr : s ≠ r := fun e => hs (e ▸ hr)
      exact ⟨List.mem_cons_of_mem _ hr, by simpa [entryFrom, hsr, homeStep] using hfold⟩

/-- While a region is open, the initial task is where it encountered it. -/
theorem homeAfter_fork {q m k : ℕ} {as : List Act}
    (hpre : as ++ [.fork r q m k] <+: P.script (.initial 0)) :
    homeAfter (as ++ [.fork r q m k]) = entryFrom .root P.order r := by
  have hlast : homeAfter (as ++ [.fork r q m k]) = homeAfter as := by
    simp [homeAfter, homeStep]
  rw [hlast]
  rcases as with - | ⟨a, as⟩
  · obtain ⟨hfork, -⟩ := List.cons_prefix_cons.mp hpre
    cases hfork
  · obtain ⟨rfl, hrest⟩ := List.cons_prefix_cons.mp hpre
    exact (entry_of_fork P.nodup hrest).2

end Program

end Tdg
