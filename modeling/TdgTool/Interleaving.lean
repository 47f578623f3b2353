/-
TdgTool/Interleaving.lean

`connectNodes` and `disconnectNodes` of several threads at once.

`connectNodes` gives the mutex of the exits back between its look at them and the
new edge.  Two threads that connect the same two nodes can both find no edge, and
then both store one (`connectNodes_race`).

The callbacks never do that: each pair of nodes is connected and disconnected by
one thread only.  The vectors are still shared, since a node has edges of many
threads, but what a thread sees of its own pairs is changed by itself alone.  So any
schedule of the instructions leaves the edges that the same calls leave when they
are done one after the other (`edges_interleaved`); only the order inside the vectors
may differ.
-/
import TdgTool.Adjacency
import TdgTool.Deadlock

namespace Tdg

namespace Locked

open Threads Threads.Code
open Tdg.Graph (EdgeOp)

variable {s s' : Tool} {u v n : NodeRef} {f : Node → Node} {op : EdgeOp} {l : List EdgeOp}

/-! ### The edges of one pair of nodes -/

/-- The edges from `u` to `v`, in the exits of `u` and in the entries of `v`. -/
def pairEdges (u v : NodeRef) (s : Tool) : Option (List Edge) × Option (List Edge) :=
  ((s.nodes u).map fun nd => nd.exitEdges.filter fun e => e.target = v,
    (s.nodes v).map fun nd => nd.entryEdges.filter fun e => e.source = u)

/-- What the calls do not change: the nodes without their vectors, and the map of
the ids. -/
def frame (s : Tool) : (NodeRef → Option NodeData) × OrdMap ℤ NodeRef :=
  (fun n => (s.nodes n).map Node.toNodeData, s.graphNodes)

theorem frame_touch (hf : ∀ nd, (f nd).toNodeData = nd.toNodeData) :
    frame (s.touch n f) = frame s := by
  refine Prod.ext (funext fun m => ?_) rfl
  show (Function.update s.nodes n ((s.nodes n).map f) m).map Node.toNodeData = _
  rcases eq_or_ne m n with rfl | hm
  · rw [Function.update_self, Option.map_map]
    exact congrArg (fun g => (s.nodes m).map g) (funext hf)
  · rw [Function.update_of_ne hm]
    rfl

/-- A change of a node that the edges from `u` to `v` are not in. -/
theorem pairEdges_touch
    (hexit : n = u → ∀ nd, (f nd).exitEdges.filter (fun e => e.target = v) =
      nd.exitEdges.filter fun e => e.target = v)
    (hentry : n = v → ∀ nd, (f nd).entryEdges.filter (fun e => e.source = u) =
      nd.entryEdges.filter fun e => e.source = u) :
    pairEdges u v (s.touch n f) = pairEdges u v s := by
  refine Prod.ext ?_ ?_
  · show (Function.update s.nodes n ((s.nodes n).map f) u).map _ = _
    rcases eq_or_ne u n with rfl | hu
    · rw [Function.update_self, Option.map_map]
      exact congrArg (fun g => (s.nodes u).map g) (funext (hexit rfl))
    · rw [Function.update_of_ne hu]
      rfl
  · show (Function.update s.nodes n ((s.nodes n).map f) v).map _ = _
    rcases eq_or_ne v n with rfl | hv
    · rw [Function.update_self, Option.map_map]
      exact congrArg (fun g => (s.nodes v).map g) (funext (hentry rfl))
    · rw [Function.update_of_ne hv]
      rfl

section Lists

variable {α : Type*} {p q : α → Bool}

theorem filter_eraseP_of_disjoint (h : ∀ a, p a = true → q a = false) (l : List α) :
    (l.eraseP p).filter q = l.filter q := by
  induction l with
  | nil => rfl
  | cons a l ih =>
    by_cases hp : p a = true
    · rw [List.eraseP_cons_of_pos hp, List.filter_cons_of_neg (by simp [h a hp])]
    · rw [List.eraseP_cons_of_neg hp, List.filter_cons, List.filter_cons, ih]

theorem filter_eraseP_self (l : List α) : (l.eraseP p).filter p = (l.filter p).tail := by
  induction l with
  | nil => rfl
  | cons a l ih =>
    by_cases hp : p a = true
    · rw [List.eraseP_cons_of_pos hp, List.filter_cons_of_pos hp, List.tail_cons]
    · rw [List.eraseP_cons_of_neg hp, List.filter_cons_of_neg hp, List.filter_cons_of_neg hp, ih]

end Lists

/-- The first of the four writes of the two operations, seen by its own pair. -/
theorem pairEdges_pushExit : pairEdges u v (s.touch u (Node.pushExit ⟨u, v⟩)) =
    ((pairEdges u v s).1.map (· ++ [⟨u, v⟩]), (pairEdges u v s).2) := by
  refine Prod.ext ?_ ?_
  · simp [pairEdges, Tool.touch, Node.pushExit, Function.comp_def]
  · rcases eq_or_ne v u with rfl | hv
    · simp [pairEdges, Tool.touch, Node.pushExit, Function.comp_def]
    · simp [pairEdges, Tool.touch, hv]

theorem pairEdges_pushEntry : pairEdges u v (s.touch v (Node.pushEntry ⟨u, v⟩)) =
    ((pairEdges u v s).1, (pairEdges u v s).2.map (· ++ [⟨u, v⟩])) := by
  refine Prod.ext ?_ ?_
  · rcases eq_or_ne u v with rfl | hu
    · simp [pairEdges, Tool.touch, Node.pushEntry, Function.comp_def]
    · simp [pairEdges, Tool.touch, hu]
  · simp [pairEdges, Tool.touch, Node.pushEntry, Function.comp_def]

theorem pairEdges_eraseExit : pairEdges u v (s.touch u (Node.eraseExit v)) =
    ((pairEdges u v s).1.map List.tail, (pairEdges u v s).2) := by
  refine Prod.ext ?_ ?_
  · simp [pairEdges, Tool.touch, Node.eraseExit, Function.comp_def, filter_eraseP_self]
  · rcases eq_or_ne v u with rfl | hv
    · simp [pairEdges, Tool.touch, Node.eraseExit, Function.comp_def]
    · simp [pairEdges, Tool.touch, hv]

theorem pairEdges_eraseEntry : pairEdges u v (s.touch v (Node.eraseEntry u)) =
    ((pairEdges u v s).1, (pairEdges u v s).2.map List.tail) := by
  refine Prod.ext ?_ ?_
  · rcases eq_or_ne u v with rfl | hu
    · simp [pairEdges, Tool.touch, Node.eraseEntry, Function.comp_def]
    · simp [pairEdges, Tool.touch, hu]
  · simp [pairEdges, Tool.touch, Node.eraseEntry, Function.comp_def, filter_eraseP_self]

/-- `isConnectedWith` looks at the edges of the pair only. -/
theorem connected_pairEdges :
    ((s.nodes u).elim false fun nd => nd.isConnectedWith v) =
      (pairEdges u v s).1.elim false fun es => !es.isEmpty := by
  rcases hu : s.nodes u with - | nd
  · simp [pairEdges, hu]
  · simp only [pairEdges, hu, Option.elim_some, Option.map_some, Node.isConnectedWith]
    rw [Bool.eq_iff_iff]
    simp [List.filter_eq_nil_iff]

/-! ### What a call sees and what it leaves alone -/

/-- The code of a call. -/
def edgeOp : EdgeOp → Prog Unit
  | .connect source target => connectNodes source target
  | .disconnect source target => disconnectNodes source target

/-- The code of a thread that does one call after the other. -/
def edgeOps (ops : List EdgeOp) : Prog Unit := seq (ops.map edgeOp)

/-- The calls take their mutexes by rank. -/
theorem ranked_edgeOps (ops : List EdgeOp) : (edgeOps ops).Ranked Mutex.rank [] [] := by
  refine ranked_seq fun k hk => ?_
  obtain ⟨op, -, rfl⟩ := List.mem_map.mp hk
  cases op with
  | connect source target => exact ranked_connectNodes (by simp)
  | disconnect source target => exact ranked_disconnectNodes (by simp)

theorem each_connectNodes {P : ∀ A : Type, (Tool → A × Tool) → Prop}
    (hlook : P Bool fun s => ((s.nodes u).elim false fun nd => nd.isConnectedWith v, s))
    (hexit : P PUnit fun s => (⟨⟩, s.touch u (Node.pushExit ⟨u, v⟩)))
    (hentry : P PUnit fun s => (⟨⟩, s.touch v (Node.pushEntry ⟨u, v⟩))) :
    (connectNodes u v).Each P := by
  refine Each.bind ⟨hlook, fun _ => trivial⟩ fun connected => ?_
  cases connected with
  | false => exact ⟨hexit, fun _ => ⟨hentry, fun _ => trivial⟩⟩
  | true => trivial

theorem each_disconnectNodes {P : ∀ A : Type, (Tool → A × Tool) → Prop}
    (hexit : P PUnit fun s => (⟨⟩, s.touch u (Node.eraseExit v)))
    (hentry : P PUnit fun s => (⟨⟩, s.touch v (Node.eraseEntry u))) :
    (disconnectNodes u v).Each P :=
  ⟨hexit, fun _ => ⟨hentry, fun _ => trivial⟩⟩

/-- A call works on the edges of its own pair. -/
theorem within_edgeOp (op : EdgeOp) :
    (edgeOp op).Within (pairEdges op.pair.1 op.pair.2) := by
  cases op with
  | connect u v =>
    refine each_connectNodes (fun s s' h => ⟨?_, h⟩) (fun s s' h => ⟨rfl, ?_⟩)
      fun s s' h => ⟨rfl, ?_⟩
    · show ((s.nodes u).elim false _) = (s'.nodes u).elim false _
      rw [connected_pairEdges, connected_pairEdges, show pairEdges u v s = pairEdges u v s' from h]
    · exact pairEdges_pushExit.trans (h ▸ pairEdges_pushExit.symm)
    · exact pairEdges_pushEntry.trans (h ▸ pairEdges_pushEntry.symm)
  | disconnect u v =>
    refine each_disconnectNodes (fun s s' h => ⟨rfl, ?_⟩) fun s s' h => ⟨rfl, ?_⟩
    · exact pairEdges_eraseExit.trans (h ▸ pairEdges_eraseExit.symm)
    · exact pairEdges_eraseEntry.trans (h ▸ pairEdges_eraseEntry.symm)

/-- A call does not see the edges of another pair. -/
theorem avoids_edgeOp (h : op.pair ≠ (u, v)) : (edgeOp op).Avoids (pairEdges u v) := by
  cases op with
  | connect u' v' =>
    refine each_connectNodes (fun s => rfl) (fun s => ?_) fun s => ?_
    · refine pairEdges_touch (fun hu nd => ?_) fun _ _ => rfl
      have hv : v' ≠ v := fun hv => h (Prod.ext hu hv)
      simp [Node.pushExit, hv]
    · refine pairEdges_touch (fun _ _ => rfl) fun hv nd => ?_
      have hu : u' ≠ u := fun hu => h (Prod.ext hu hv)
      simp [Node.pushEntry, hu]
  | disconnect u' v' =>
    refine each_disconnectNodes (fun s => ?_) fun s => ?_
    · refine pairEdges_touch (fun hu nd => ?_) fun _ _ => rfl
      have hv : v' ≠ v := fun hv => h (Prod.ext hu hv)
      refine filter_eraseP_of_disjoint (fun e he => ?_) _
      rw [decide_eq_true_eq] at he
      exact decide_eq_false fun hev => hv (he.symm.trans hev)
    · refine pairEdges_touch (fun _ _ => rfl) fun hv nd => ?_
      have hu : u' ≠ u := fun hu => h (Prod.ext hu hv)
      refine filter_eraseP_of_disjoint (fun e he => ?_) _
      rw [decide_eq_true_eq] at he
      exact decide_eq_false fun hev => hu (he.symm.trans hev)

/-- A call changes nothing but edges. -/
theorem avoids_frame (op : EdgeOp) : (edgeOp op).Avoids frame := by
  cases op with
  | connect u v =>
    exact each_connectNodes (fun _ => rfl) (fun _ => frame_touch fun _ => rfl)
      fun _ => frame_touch fun _ => rfl
  | disconnect u v =>
    exact each_disconnectNodes (fun _ => frame_touch fun _ => rfl)
      fun _ => frame_touch fun _ => rfl

/-! ### The calls one after the other -/

/-- Both nodes of the call exist. -/
def Live (s : Tool) (op : EdgeOp) : Prop :=
  (∃ nd, s.nodes op.pair.1 = some nd) ∧ ∃ nd, s.nodes op.pair.2 = some nd

theorem live_congr (h : frame s' = frame s) (hop : Live s op) : Live s' op := by
  have hnode : ∀ n, (s'.nodes n).map Node.toNodeData = (s.nodes n).map Node.toNodeData :=
    congrFun (Prod.mk.inj h).1
  have hkeep : ∀ n, (∃ nd, s.nodes n = some nd) → ∃ nd, s'.nodes n = some nd := by
    rintro n ⟨nd, hnd⟩
    have hn := hnode n
    rw [hnd] at hn
    obtain ⟨nd', hnd', -⟩ := Option.map_eq_some_iff.mp hn
    exact ⟨nd', hnd'⟩
  exact ⟨hkeep _ hop.1, hkeep _ hop.2⟩

/-- A call on nodes that exist succeeds. -/
theorem exists_run (hop : Live s op) : ∃ g, op.run s.toGraph = some g ∧
    ((edgeOp op).alone s).2 = { s with toGraph := g } := by
  have hmodify : ∀ {g : Graph} {n : NodeRef} {nd : Node} (f : Node → Node),
      g.nodes n = some nd → ∃ g', g.modifyNode n f = some g' ∧
        ∀ m, (∃ nd, g.nodes m = some nd) → ∃ nd, g'.nodes m = some nd := by
    intro g n nd f hn
    refine ⟨_, by rw [Graph.modifyNode, hn]; rfl, fun m hm => ?_⟩
    rcases eq_or_ne m n with rfl | hne
    · exact ⟨_, Function.update_self ..⟩
    · obtain ⟨nd', hm⟩ := hm
      exact ⟨nd', (Function.update_of_ne hne ..).trans hm⟩
  cases op with
  | connect u v =>
    obtain ⟨⟨nu, hnu⟩, hv⟩ : (∃ nd, s.nodes u = some nd) ∧
        ∃ nd, s.nodes v = some nd := hop
    have hsome : ∃ g, s.toGraph.connectNodes u v = some g := by
      simp only [Graph.connectNodes, Option.bind_eq_bind]
      rw [show s.nodes u = some nu from hnu, Option.bind_some]
      split_ifs
      · exact ⟨_, rfl⟩
      · obtain ⟨g₁, hg₁, hkeep⟩ := hmodify (Node.pushExit ⟨u, v⟩) hnu
        obtain ⟨nv, hnv⟩ := hkeep v hv
        obtain ⟨g₂, hg₂, -⟩ := hmodify (Node.pushEntry ⟨u, v⟩) hnv
        exact ⟨g₂, by rw [hg₁, Option.bind_some, hg₂]⟩
    obtain ⟨g, hg⟩ := hsome
    have hs : s.connectNodes u v = some { s with toGraph := g } := by
      simp only [Tool.connectNodes, hg, Option.bind_eq_bind, Option.bind_some]
    exact ⟨g, hg, congrArg Prod.snd (alone_connectNodes _ hs)⟩
  | disconnect u v =>
    obtain ⟨⟨nu, hnu⟩, hv⟩ : (∃ nd, s.nodes u = some nd) ∧
        ∃ nd, s.nodes v = some nd := hop
    have hsome : ∃ g, s.toGraph.disconnectNodes u v = some g := by
      obtain ⟨g₁, hg₁, hkeep⟩ := hmodify (Node.eraseExit v) hnu
      obtain ⟨nv, hnv⟩ := hkeep v hv
      obtain ⟨g₂, hg₂, -⟩ := hmodify (Node.eraseEntry u) hnv
      refine ⟨g₂, ?_⟩
      simp only [Graph.disconnectNodes, Option.bind_eq_bind]
      rw [hg₁, Option.bind_some, hg₂]
    obtain ⟨g, hg⟩ := hsome
    have hs : s.disconnectNodes u v = some { s with toGraph := g } := by
      simp only [Tool.disconnectNodes, hg, Option.bind_eq_bind, Option.bind_some]
    exact ⟨g, hg, congrArg Prod.snd (alone_disconnectNodes _ hs)⟩

/-- Alone, the calls do what they do in the atomic model. -/
theorem exists_runEdgeOps (hl : ∀ op ∈ l, Live s op) :
    ∃ g, s.toGraph.runEdgeOps l = some g ∧
      ((edgeOps l).alone s).2 = { s with toGraph := g } := by
  induction l generalizing s with
  | nil => exact ⟨s.toGraph, rfl, rfl⟩
  | cons op l ih =>
    obtain ⟨g₁, hg₁, halone₁⟩ := exists_run (hl op List.mem_cons_self)
    have hframe : frame { s with toGraph := g₁ } = frame s := by
      rw [← halone₁]
      exact (avoids_frame op).alone s
    obtain ⟨g, hg, halone⟩ := ih (s := { s with toGraph := g₁ }) fun op' hop' =>
      live_congr hframe (hl op' (List.mem_cons_of_mem op hop'))
    refine ⟨g, ?_, ?_⟩
    · rw [Graph.runEdgeOps, List.foldlM_cons, hg₁]
      exact hg
    · show ((edgeOp op >>= fun _ => edgeOps l).alone s).2 = _
      rw [alone_bind, halone₁, halone]

section Sequential

variable {θ : Type} [DecidableEq θ] {own : NodeRef × NodeRef → θ}

/-- The calls of a list that belong to a thread. -/
def callsOf (own : NodeRef × NodeRef → θ) (l : List EdgeOp) (t : θ) : List EdgeOp :=
  l.filter fun op => own op.pair = t

/-- What a thread sees: the edges of its pairs. -/
def ownEdges (own : NodeRef × NodeRef → θ) (t : θ) (s : Tool)
    (p : {p : NodeRef × NodeRef // own p = t}) : Option (List Edge) × Option (List Edge) :=
  pairEdges p.1.1 p.1.2 s

omit [DecidableEq θ] in
theorem within_own {t : θ} (h : own op.pair = t) : (edgeOp op).Within (ownEdges own t) :=
  Within.family (fun p : NodeRef × NodeRef => pairEdges p.1 p.2) (i := op.pair)
    (within_edgeOp op) h fun _ hp => avoids_edgeOp (Ne.symm hp)

omit [DecidableEq θ] in
theorem avoids_own {t : θ} (h : own op.pair ≠ t) : (edgeOp op).Avoids (ownEdges own t) := by
  refine Avoids.family (fun p : NodeRef × NodeRef => pairEdges p.1 p.2) fun p hp =>
    avoids_edgeOp fun he => h ?_
  rw [show op.pair = p from he]
  exact hp

/-- The calls of an owner work on its own edges. -/
theorem within_callsOf (l : List EdgeOp) (t : θ) :
    (edgeOps (callsOf own l t)).Within (ownEdges own t) := by
  refine each_seq fun k hk => ?_
  obtain ⟨op, hop, rfl⟩ := List.mem_map.mp hk
  exact within_own (of_decide_eq_true (List.mem_filter.mp hop).2)

theorem avoids_callsOf (l : List EdgeOp) {t t' : θ} (h : t' ≠ t) :
    (edgeOps (callsOf own l t')).Avoids (ownEdges own t) := by
  refine each_seq fun k hk => ?_
  obtain ⟨op, hop, rfl⟩ := List.mem_map.mp hk
  have hown : own op.pair = t' := of_decide_eq_true (List.mem_filter.mp hop).2
  exact avoids_own fun he => h (hown.symm.trans he)

/-- What the calls leave of the pairs of a thread is decided by its own calls. -/
theorem alone_callsOf (l : List EdgeOp) (t : θ) (s : Tool) :
    ownEdges own t ((edgeOps l).alone s).2 =
      ownEdges own t ((edgeOps (callsOf own l t)).alone s).2 := by
  induction l generalizing s with
  | nil => rfl
  | cons op l ih =>
    have hcons : ((edgeOps (op :: l)).alone s).2 =
        ((edgeOps l).alone ((edgeOp op).alone s).2).2 := by
      show ((edgeOp op >>= fun _ => edgeOps l).alone s).2 = _
      rw [alone_bind]
    rw [hcons, ih]
    by_cases hop : own op.pair = t
    · rw [callsOf, callsOf, List.filter_cons_of_pos (by simpa using hop)]
      show _ = ownEdges own t ((edgeOp op >>= fun _ => edgeOps (callsOf own l t)).alone s).2
      rw [alone_bind]
      rfl
    · rw [callsOf, callsOf, List.filter_cons_of_neg (by simpa using hop)]
      -- a call on another pair is not seen
      exact (within_callsOf l t).alone_congr ((avoids_own hop).alone s)

end Sequential

/-! ### Any schedule of the instructions -/

/-- The graphs differ at most in the order inside the edge vectors. -/
structure SameEdges (g h : Graph) : Prop where
  graphNodes : h.graphNodes = g.graphNodes
  node : ∀ n, Option.Rel (fun nd nd' => nd'.toNodeData = nd.toNodeData ∧
    nd'.exitEdges.Perm nd.exitEdges ∧ nd'.entryEdges.Perm nd.entryEdges) (g.nodes n) (h.nodes n)

/-- Lists that agree in the parts of all keys agree up to the order. -/
theorem perm_of_filter {α β : Type*} [DecidableEq α] [DecidableEq β] {key : α → β}
    {l l' : List α}
    (h : ∀ b, l.filter (fun a => key a = b) = l'.filter fun a => key a = b) : l.Perm l' := by
  refine List.perm_iff_count.mpr fun a => ?_
  have hcount := congrArg (List.count a) (h (key a))
  rwa [List.count_filter (by simp), List.count_filter (by simp)] at hcount

/-- Graphs with the same edges for every pair have the same edges, up to their order. -/
theorem sameEdges_of_views {g : Graph} (hframe : frame s' = frame { s with toGraph := g })
    (hpairs : ∀ u v, pairEdges u v s' = pairEdges u v { s with toGraph := g }) :
    SameEdges g s'.toGraph := by
  obtain ⟨hnodes, hmap⟩ := Prod.mk.inj hframe
  refine ⟨hmap, fun n => ?_⟩
  have hdata : (s'.nodes n).map Node.toNodeData = (g.nodes n).map Node.toNodeData :=
    congrFun hnodes n
  have hexit : ∀ v, (s'.nodes n).map (fun nd => nd.exitEdges.filter fun e => e.target = v) =
      (g.nodes n).map fun nd => nd.exitEdges.filter fun e => e.target = v :=
    fun v => (Prod.mk.inj (hpairs n v)).1
  have hentry : ∀ u, (s'.nodes n).map (fun nd => nd.entryEdges.filter fun e => e.source = u) =
      (g.nodes n).map fun nd => nd.entryEdges.filter fun e => e.source = u :=
    fun u => (Prod.mk.inj (hpairs u n)).2
  rcases hg : g.nodes n with - | nd <;> rcases hs : s'.nodes n with - | nd'
  · exact .none
  · rw [hg, hs] at hdata
    cases hdata
  · rw [hg, hs] at hdata
    cases hdata
  · rw [hg, hs] at hdata hexit hentry
    refine .some ⟨Option.some.inj hdata, ?_, ?_⟩
    · exact perm_of_filter fun v => Option.some.inj (hexit v)
    · exact perm_of_filter fun u => Option.some.inj (hentry u)

/-- **The edges do not depend on the schedule.**  Take a list of calls, and threads
to each of which some pairs of nodes belong.  Let each thread do the calls on its
pairs, and let the instructions of the threads be interleaved in any way.  When all
have ended, the graph is the one that the calls leave when they are done in the
order of the list, up to the order inside the vectors. -/
theorem edges_interleaved {θ : Type} [DecidableEq θ] (own : NodeRef × NodeRef → θ)
    (hlive : ∀ op ∈ l, Live s op) {ts : List θ} {c : Conf Tool Mutex θ}
    (hrun : (Conf.start s fun t => edgeOps (callsOf own l t)).run ts = some c)
    (hend : ∀ t, c.Ended t) :
    ∃ g, s.toGraph.runEdgeOps l = some g ∧ SameEdges g c.mem.toGraph := by
  obtain ⟨g, hg, halone⟩ := exists_runEdgeOps hlive
  have hseq : ∀ ops : List EdgeOp, (edgeOps ops).Avoids frame := fun ops =>
    each_seq fun k hk => by
      obtain ⟨op, -, rfl⟩ := List.mem_map.mp hk
      exact avoids_frame op
  refine ⟨g, hg, sameEdges_of_views (s := s) ?_ fun u v => ?_⟩
  · have hkeep : frame c.mem = frame s := Conf.avoids_run (fun t => hseq _) hrun
    rw [← halone, hkeep]
    exact ((hseq l).alone s).symm
  · -- the thread that the pair belongs to ends as if it had been alone
    have hprivate : Conf.Private (ownEdges own (own (u, v))) (own (u, v))
        (Conf.start s fun t => edgeOps (callsOf own l t)) :=
      ⟨within_callsOf l _, fun t' ht' => avoids_callsOf l ht'⟩
    have hseen := hprivate.seen_alone hrun (hend _)
    have hpair : ownEdges own (own (u, v)) c.mem =
        ownEdges own (own (u, v)) ((edgeOps l).alone s).2 :=
      hseen.trans (alone_callsOf l _ s).symm
    rw [halone] at hpair
    exact congrFun hpair ⟨(u, v), rfl⟩

/-! ### Several threads and one pair -/

section Race

variable {θ : Type} [DecidableEq θ] {threads : List θ} {c : Conf Tool Mutex θ}

/-- The threads find no edge, one after the other. -/
theorem all_look (hnodup : threads.Nodup) (hfree : c.holder = fun _ => none)
    (hcode : ∀ t ∈ threads, c.code t = connectNodes u v)
    (hnew : ((c.mem.nodes u).elim false fun nd => nd.isConnectedWith v) = false) :
    ∃ ts, c.run ts = some ⟨c.mem, fun _ => none,
      fun t => if t ∈ threads then pushEdge u v else c.code t⟩ := by
  induction threads generalizing c with
  | nil =>
    refine ⟨[], ?_⟩
    rw [← hfree]
    simp [Conf.run]
  | cons t threads ih =>
    obtain ⟨hnot, hnodup⟩ := List.nodup_cons.mp hnodup
    obtain ⟨ts₁, holder, hrun₁, hsole⟩ := Conf.run_piece (hcode t List.mem_cons_self)
      (show (isConnectedWith u v).Ranked Mutex.rank [] [] from ranked_isConnectedWith (by simp))
      (hfree ▸ Conf.sole_nil)
    have hrest : ∀ t' ∈ threads,
        Function.update c.code t (pushEdge u v) t' = connectNodes u v := by
      intro t' ht'
      have hne : t' ≠ t := fun he => hnot (he ▸ ht')
      rw [Function.update_of_ne hne]
      exact hcode t' (List.mem_cons_of_mem t ht')
    obtain ⟨ts₂, hrun₂⟩ :=
      ih (c := ⟨c.mem, holder, Function.update c.code t (pushEdge u v)⟩)
      hnodup hsole.eq_none hrest hnew
    refine ⟨ts₁ ++ ts₂, ?_⟩
    have hres : ((isConnectedWith u v).alone c.mem).1 = false := hnew
    rw [Conf.run_append, hrun₁, hres]
    refine hrun₂.trans (congrArg some (congrArg (Conf.mk _ _) (funext fun t' => ?_)))
    rcases eq_or_ne t' t with rfl | ht'
    · simp
    · simp [ht']

/-- The threads store their edges, one after the other. -/
theorem all_push (hnodup : threads.Nodup) (hfree : c.holder = fun _ => none)
    (hcode : ∀ t, c.code t = if t ∈ threads then pushEdge u v else .ret ⟨⟩) :
    ∃ ts c', c.run ts = some c' ∧ (∀ t, c'.Ended t) ∧ pairEdges u v c'.mem =
      ((pairEdges u v c.mem).1.map (· ++ List.replicate threads.length ⟨u, v⟩),
        (pairEdges u v c.mem).2.map (· ++ List.replicate threads.length ⟨u, v⟩)) := by
  induction threads generalizing c with
  | nil =>
    refine ⟨[], c, rfl, fun t => by simpa [Conf.Ended] using hcode t, ?_⟩
    simp
  | cons t threads ih =>
    obtain ⟨hnot, hnodup⟩ := List.nodup_cons.mp hnodup
    have ht : c.code t = pushEdge u v >>= fun _ => .ret ⟨⟩ := by
      rw [hcode t, if_pos List.mem_cons_self]
      rfl
    obtain ⟨ts₁, holder, hrun₁, hsole⟩ := Conf.run_piece ht
      (show (pushEdge u v).Ranked Mutex.rank [] [] from ranked_pushEdge (by simp))
      (hfree ▸ Conf.sole_nil)
    have hrest : ∀ t', Function.update c.code t (.ret ⟨⟩) t' =
        if t' ∈ threads then pushEdge u v else .ret ⟨⟩ := by
      intro t'
      rcases eq_or_ne t' t with rfl | ht'
      · rw [Function.update_self, if_neg hnot]
      · rw [Function.update_of_ne ht', hcode t']
        simp [ht']
    obtain ⟨ts₂, c', hrun₂, hend, hpairs⟩ :=
      ih (c := ⟨((pushEdge u v).alone c.mem).2, holder,
      Function.update c.code t (.ret ⟨⟩)⟩) hnodup hsole.eq_none hrest
    refine ⟨ts₁ ++ ts₂, c', ?_, hend, hpairs.trans ?_⟩
    · rw [Conf.run_append, hrun₁]
      exact hrun₂
    · have hmem : pairEdges u v ((pushEdge u v).alone c.mem).2 =
          ((pairEdges u v c.mem).1.map (· ++ [⟨u, v⟩]),
            (pairEdges u v c.mem).2.map (· ++ [⟨u, v⟩])) := by
        show pairEdges u v ((c.mem.touch u (Node.pushExit ⟨u, v⟩)).touch v
          (Node.pushEntry ⟨u, v⟩)) = _
        rw [pairEdges_pushEntry, pairEdges_pushExit]
      rw [hmem]
      simp [Function.comp_def, List.replicate_succ]

/-- **The race of `connectNodes`.**  Threads that connect the same two nodes, which
exist and are not connected yet, can store as many edges as there are threads. -/
theorem connectNodes_race {nu : Node} (hnodup : threads.Nodup) (hu : s.nodes u = some nu)
    (hnew : nu.isConnectedWith v = false) :
    ∃ ts c, (Conf.start s fun t => if t ∈ threads then connectNodes u v else .ret ⟨⟩).run ts
        = some c ∧ (∀ t, c.Ended t) ∧ pairEdges u v c.mem =
      (some (List.replicate threads.length ⟨u, v⟩),
        (pairEdges u v s).2.map (· ++ List.replicate threads.length ⟨u, v⟩)) := by
  have hlook : ((s.nodes u).elim false fun nd => nd.isConnectedWith v) = false := by
    rw [hu]
    exact hnew
  obtain ⟨ts₁, hrun₁⟩ := all_look (u := u) (v := v)
    (c := Conf.start s fun t => if t ∈ threads then connectNodes u v else .ret ⟨⟩) hnodup rfl
    (fun t ht => if_pos ht) hlook
  obtain ⟨ts₂, c', hrun₂, hend, hpairs⟩ :=
    all_push (u := u) (v := v) (c := ⟨s, fun _ => none, fun t =>
    if t ∈ threads then pushEdge u v
    else if t ∈ threads then connectNodes u v else .ret ⟨⟩⟩)
    hnodup rfl fun t => by by_cases ht : t ∈ threads <;> simp [ht]
  refine ⟨ts₁ ++ ts₂, c', ?_, hend, hpairs.trans (Prod.ext ?_ rfl)⟩
  · rw [Conf.run_append, hrun₁]
    exact hrun₂
  · -- no edge of the pair is there before
    have hempty : (pairEdges u v s).1 = some [] := by
      rw [pairEdges, hu, Option.map_some, List.filter_eq_nil_iff.mpr fun e he => ?_]
      have hno := List.any_eq_false.mp hnew e he
      simpa using hno
    show (pairEdges u v s).1.map _ = _
    rw [hempty]
    rfl

/-- Two nodes without edges. -/
def unconnected : Tool :=
  { Tool.init with nodes := fun n => if n < 2 then some (Node.new n .impTask 0) else none }

theorem connectNodes_race_unconnected : ∃ ts c,
    (Conf.start unconnected fun t : ℕ =>
      if t ∈ [4, 7] then connectNodes 0 1 else .ret ⟨⟩).run ts
      = some c ∧ (∀ t, c.Ended t) ∧
    pairEdges 0 1 c.mem = (some [⟨0, 1⟩, ⟨0, 1⟩], some [⟨0, 1⟩, ⟨0, 1⟩]) :=
  connectNodes_race (by decide) rfl rfl

end Race

end Locked

end Tdg
