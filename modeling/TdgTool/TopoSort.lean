/-
TdgTool/TopoSort.lean

`Graph::topoSort` is a topological sort by levels.

The traversals write only the metric members of the nodes.  `Graph.mark` puts
these members (`Marks`) into a graph that is otherwise fixed, so a traversal is
a function on marks: the depth first search of `visitNode` is the search of
`DepthFirst` over the exit edges, and the level loop is `LongestPath.solve`
over the entry edges.  The list that `topoSort` returns is the finishing list
of the search, stably sorted by level.
-/
import TdgTool.Metrics
import TdgTool.Lib.DepthFirst
import TdgTool.Lib.LongestPath

namespace Tdg

open Relation

/-! ### Marks -/

/-- The members of a node that the metrics write. -/
structure Marks where
  visited : Bool := false
  level : ℤ := -1
  pathLength : ℤ := 0
  pathTime : ℚ := 0
  prevCritical : Option NodeRef := none
  isCritical : Bool := false
  deriving DecidableEq, Repr

namespace NodeData

def marks (nd : NodeData) : Marks :=
  ⟨nd.visited, nd.level, nd.pathLength, nd.pathTime, nd.prevCritical, nd.isCritical⟩

def mark (nd : NodeData) (k : Marks) : NodeData :=
  { nd with
    visited := k.visited
    level := k.level
    pathLength := k.pathLength
    pathTime := k.pathTime
    prevCritical := k.prevCritical
    isCritical := k.isCritical }

end NodeData

namespace Graph

variable {g : Graph} {m : NodeRef → Marks} {n u v x : NodeRef} {nd : Node} {l : List NodeRef}
  {fuel : ℕ}

/-- The graph with other marks. -/
def mark (g : Graph) (m : NodeRef → Marks) : Graph :=
  { g with nodes := fun n => (g.nodes n).map (Node.onData fun nd => nd.mark (m n)) }

/-- The marks of a graph. -/
def marks (g : Graph) (n : NodeRef) : Marks :=
  match g.nodes n with
  | some nd => nd.toNodeData.marks
  | none => {}

@[simp] theorem graphNodes_mark : (g.mark m).graphNodes = g.graphNodes := rfl

@[simp] theorem mark_mark {m' : NodeRef → Marks} : (g.mark m).mark m' = g.mark m' := by
  have hnodes : ((g.mark m).mark m').nodes = (g.mark m').nodes := by
    funext n
    rcases h : g.nodes n with - | nd <;> simp [mark, h, Node.onData, NodeData.mark]
  calc (g.mark m).mark m' = ⟨((g.mark m).mark m').nodes, g.graphNodes⟩ := rfl
    _ = g.mark m' := by rw [hnodes]; rfl

@[simp] theorem mark_marks : g.mark g.marks = g := by
  have hnodes : (g.mark g.marks).nodes = g.nodes := by
    funext n
    rcases h : g.nodes n with - | nd
    · simp [mark, h]
    · simp [mark, marks, h, Node.onData, NodeData.mark, NodeData.marks]
  calc g.mark g.marks = ⟨(g.mark g.marks).nodes, g.graphNodes⟩ := rfl
    _ = g := by rw [hnodes]

theorem nodes_mark (h : g.nodes n = some nd) :
    (g.mark m).nodes n = some (nd.onData fun d => d.mark (m n)) := by
  simp [mark, h]

theorem marks_mark (h : g.nodes n = some nd) : (g.mark m).marks n = m n := by
  simp [marks, nodes_mark h, Node.onData, NodeData.mark, NodeData.marks]

/-- A setter of marks. -/
theorem setNode_mark (h : g.nodes n = some nd) {f : NodeData → NodeData} {φ : Marks → Marks}
    (hf : ∀ (d : NodeData) (k : Marks), f (d.mark k) = d.mark (φ k)) :
    (g.mark m).setNode n f = some (g.mark (Function.update m n (φ (m n)))) := by
  have hnodes : Function.update (g.mark m).nodes n
      (some ((nd.onData fun d => d.mark (m n)).onData f))
        = (g.mark (Function.update m n (φ (m n)))).nodes := by
    funext k
    rcases eq_or_ne k n with rfl | hk
    · simp [mark, h, Node.onData, hf]
    · simp [mark, hk]
  rw [setNode, modifyNode, nodes_mark h, Option.map_some, hnodes]
  rfl

/-! ### The fixed part of a graph -/

/-- The nodes that the exit edges of a node lead to. -/
def targets (g : Graph) (n : NodeRef) : List NodeRef :=
  match g.nodes n with
  | some nd => nd.exitEdges.map Edge.target
  | none => []

/-- The nodes that the entry edges of a node come from. -/
def sources (g : Graph) (n : NodeRef) : List NodeRef :=
  match g.nodes n with
  | some nd => nd.entryEdges.map Edge.source
  | none => []

/-- The total time of the node at an address. -/
def totalTime (g : Graph) (n : NodeRef) : ℚ :=
  match g.nodes n with
  | some nd => nd.totalTime
  | none => 0

theorem targets_eq (h : g.nodes n = some nd) : g.targets n = nd.exitEdges.map Edge.target := by
  simp [targets, h]

theorem sources_eq (h : g.nodes n = some nd) : g.sources n = nd.entryEdges.map Edge.source := by
  simp [sources, h]

theorem totalTime_eq (h : g.nodes n = some nd) : g.totalTime n = nd.totalTime := by
  simp [totalTime, h]

theorem mem_targets : v ∈ g.targets u ↔ g.Adj u v := by
  unfold targets Adj
  rcases g.nodes u with - | nd <;> simp

/-- The nodes of `_graphNodes`. -/
def nodeSet (g : Graph) : Finset NodeRef := (g.graphNodes.entries.map Prod.snd).toFinset

@[simp] theorem mem_nodeSet : n ∈ g.nodeSet ↔ g.Present n := by
  simp [nodeSet, Present]

/-- The values of `_graphNodes` are nodes, and the ends of their edges are
values of `_graphNodes`. -/
structure Closed (g : Graph) : Prop where
  node : ∀ n, g.Present n → ∃ nd, g.nodes n = some nd
  exits : ∀ n nd, g.Present n → g.nodes n = some nd → ∀ e ∈ nd.exitEdges, g.Present e.target
  entries : ∀ n nd, g.Present n → g.nodes n = some nd → ∀ e ∈ nd.entryEdges, g.Present e.source

/-- An edge is in its source's exits if and only if it is in its target's
entries. -/
structure Mirrored (g : Graph) : Prop where
  exits : ∀ n nd, g.Present n → g.nodes n = some nd → ∀ e ∈ nd.exitEdges,
    e.source = n ∧ ∃ nd', g.nodes e.target = some nd' ∧ e ∈ nd'.entryEdges
  entries : ∀ n nd, g.Present n → g.nodes n = some nd → ∀ e ∈ nd.entryEdges,
    e.target = n ∧ ∃ nd', g.nodes e.source = some nd' ∧ e ∈ nd'.exitEdges

/-- An edge between nodes of `_graphNodes`. -/
def Within (g : Graph) (u v : NodeRef) : Prop := g.Present u ∧ g.Adj u v

/-- A directed path of the graph: its nodes in order. -/
def IsPath (g : Graph) (p : List NodeRef) : Prop :=
  p.IsChain g.Adj ∧ ∀ n ∈ p, g.Present n

/-- No node of the graph has been visited. -/
def Unvisited (g : Graph) : Prop :=
  ∀ n nd, g.Present n → g.nodes n = some nd → nd.visited = false

theorem Closed.targets (h : g.Closed) (hx : g.Present x) : ∀ y ∈ g.targets x, g.Present y := by
  obtain ⟨nd, hnd⟩ := h.node x hx
  intro y hy
  rw [targets_eq hnd] at hy
  obtain ⟨e, he, rfl⟩ := List.mem_map.mp hy
  exact h.exits x nd hx hnd e he

theorem Closed.sources (h : g.Closed) (hx : g.Present x) : ∀ y ∈ g.sources x, g.Present y := by
  obtain ⟨nd, hnd⟩ := h.node x hx
  intro y hy
  rw [sources_eq hnd] at hy
  obtain ⟨e, he, rfl⟩ := List.mem_map.mp hy
  exact h.entries x nd hx hnd e he

theorem Closed.present_of_adj (h : g.Closed) (hu : g.Present u) (huv : g.Adj u v) :
    g.Present v := h.targets hu v (mem_targets.mpr huv)

/-- Entry edges and exit edges are the same edges. -/
theorem Mirrored.mem_sources (h : g.Mirrored) (hc : g.Closed) (hu : g.Present u)
    (hv : g.Present v) : u ∈ g.sources v ↔ g.Adj u v := by
  obtain ⟨nu, hnu⟩ := hc.node u hu
  obtain ⟨nv, hnv⟩ := hc.node v hv
  rw [sources_eq hnv, List.mem_map]
  constructor
  · rintro ⟨e, he, rfl⟩
    obtain ⟨rfl, nd, hnd, he'⟩ := h.entries v nv hv hnv e he
    exact ⟨nd, hnd, e, he', rfl⟩
  · rintro ⟨nd, hnd, e, he, rfl⟩
    obtain ⟨rfl, nd', hnd', he'⟩ := h.exits u nd hu hnd e he
    obtain rfl : nd' = nv := Option.some.inj (hnd'.symm.trans hnv)
    exact ⟨e, he', rfl⟩

/-! ### The depth first search -/

/-- Marks with other visited flags. -/
def withVisited (m : NodeRef → Marks) (vis : NodeRef → Bool) : NodeRef → Marks :=
  fun n => { m n with visited := vis n }

/-- The heap state that stands for a state of the search. -/
def searched (g : Graph) (m : NodeRef → Marks) (s : DepthFirst.State NodeRef) :
    Graph × List NodeRef := (g.mark (withVisited m s.1), s.2)

/-- The loop over a list of nodes, for a function that visits one node. -/
theorem foldlM_visit (hc : g.Closed) (fuel : ℕ)
    (hvisit : ∀ {x s}, g.Present x →
      visitNode fuel (g.searched m s).1 x s.2
        = (DepthFirst.visit g.targets fuel x s).map (g.searched m))
    {ys : List NodeRef} (hys : ∀ y ∈ ys, g.Present y) (s : DepthFirst.State NodeRef) :
    ys.foldlM (fun (s : Graph × List NodeRef) y => do
        let adj ← s.1.nodes y
        if adj.visited then some s else visitNode fuel s.1 y s.2) (g.searched m s)
      = (DepthFirst.explore g.targets fuel ys s).map (g.searched m) := by
  induction ys generalizing s with
  | nil => rfl
  | cons y ys ih =>
    obtain ⟨nd, hnd⟩ := hc.node y (hys y List.mem_cons_self)
    have hrest := ih fun z hz => hys z (List.mem_cons_of_mem y hz)
    have hread : (g.searched m s).1.nodes y
        = some (nd.onData fun d => d.mark (withVisited m s.1 y)) := nodes_mark hnd
    have hflag : (nd.onData fun d => d.mark (withVisited m s.1 y)).visited = s.1 y := rfl
    rw [List.foldlM_cons, hread]
    simp only [Option.bind_eq_bind, Option.bind_some, hflag, DepthFirst.explore_cons]
    -- the flag is read from the heap as the siblings before have left it
    by_cases hy : s.1 y = true
    · simp only [hy, if_true, Option.bind_some]
      exact hrest s
    · simp only [hy]
      have hsnd : (g.searched m s).2 = s.2 := rfl
      rw [hsnd, hvisit (hys y List.mem_cons_self)]
      rcases DepthFirst.visit g.targets fuel y s with - | s'
      · rfl
      · exact hrest s'

/-- **`visitNode` is a depth first search over the exit edges.** -/
theorem visitNode_eq (hc : g.Closed) (hx : g.Present x) (s : DepthFirst.State NodeRef) :
    visitNode fuel (g.searched m s).1 x s.2
      = (DepthFirst.visit g.targets fuel x s).map (g.searched m) := by
  induction fuel generalizing x s with
  | zero => rfl
  | succ fuel ih =>
    obtain ⟨nd, hnd⟩ := hc.node x hx
    have hread : (g.searched m s).1.nodes x
        = some (nd.onData fun d => d.mark (withVisited m s.1 x)) := nodes_mark hnd
    -- the node is marked before its successors are visited
    have hset : (g.searched m s).1.setNode x (fun nd => nd.setVisited true)
        = some (g.searched m (Function.update s.1 x true, s.2)).1 := by
      have hm : Function.update (withVisited m s.1) x { withVisited m s.1 x with visited := true }
          = withVisited m (Function.update s.1 x true) := by
        funext k
        rcases eq_or_ne k x with rfl | hk
        · simp [withVisited]
        · simp [withVisited, hk]
      simp only [searched]
      rw [setNode_mark (φ := fun k => { k with visited := true }) hnd fun _ _ => rfl, hm]
    have hexits : (nd.onData fun d => d.mark (withVisited m s.1 x)).exitEdges.map Edge.target
        = g.targets x := (targets_eq hnd).symm
    have hloop := foldlM_visit hc fuel (fun hx => ih hx _) (hc.targets hx)
      (Function.update s.1 x true, s.2)
    rw [visitNode, hread, Option.bind_eq_bind, Option.bind_some, hset, Option.bind_eq_bind,
      Option.bind_some, hexits, DepthFirst.visit_succ]
    refine (congrArg (fun z => Option.bind z _) hloop).trans ?_
    rcases DepthFirst.explore g.targets fuel (g.targets x) (Function.update s.1 x true, s.2)
      with - | s' <;> rfl

/-- The first loop of `topoSort` leaves every node once. -/
theorem visitAll_spec (hc : g.Closed) (hu : g.Unvisited) :
    ∃ vis post, g.visitAll = some (g.mark (withVisited g.marks vis), post) ∧
      (∀ n, g.Present n → vis n = true) ∧ post.Nodup ∧ (∀ n, n ∈ post ↔ g.Present n) ∧
      (Paths.Acyclic g.Within → DepthFirst.Ordered g.targets post) := by
  set vis₀ : NodeRef → Bool := fun n => (g.marks n).visited with hvis₀
  have hys : ∀ y ∈ g.graphNodes.entries.map Prod.snd, g.Present y := by
    intro y hy
    simpa [Present] using hy
  have hstart : g.searched g.marks (vis₀, []) = (g, []) := by
    have hm : withVisited g.marks vis₀ = g.marks := rfl
    simp [searched, hm]
  have hloop := foldlM_visit (m := g.marks) hc (g.graphNodes.entries.length + 1)
    (fun hx => visitNode_eq hc hx _) hys (vis₀, [])
  rw [hstart] at hloop
  have hfresh : ∀ x ∈ g.nodeSet, vis₀ x = false := by
    intro x hx
    obtain ⟨nd, hnd⟩ := hc.node x (mem_nodeSet.mp hx)
    simpa [hvis₀, marks, hnd, NodeData.marks] using hu x nd (mem_nodeSet.mp hx) hnd
  -- no exit edge leaves the graph, so the fuel never runs out
  have hN : ∀ x ∈ g.nodeSet, ∀ y ∈ g.targets x, y ∈ g.nodeSet := fun x hx y hy =>
    mem_nodeSet.mpr (hc.targets (mem_nodeSet.mp hx) y hy)
  have hcard : g.nodeSet.card ≤ g.graphNodes.entries.length + 1 := by
    have := List.toFinset_card_le (g.graphNodes.entries.map Prod.snd)
    rw [List.length_map] at this
    exact this.trans (Nat.le_succ _)
  obtain ⟨s', h1, h2, h3, h4⟩ := DepthFirst.explore_all hN
    (g.graphNodes.entries.map Prod.snd) (fun y => by simp [nodeSet]) hfresh hcard
  rw [h1] at hloop
  refine ⟨s'.1, s'.2, hloop, fun n hn => (h4 n).mpr (.inr (mem_nodeSet.mpr hn)), h2,
    fun n => (h3 n).trans mem_nodeSet, fun hac => ?_⟩
  refine DepthFirst.explore_all_ordered (N := g.nodeSet) ?_ hN ?_ hfresh h1
  · refine hac.mono fun a b hab => ⟨mem_nodeSet.mp hab.1, mem_targets.mp hab.2⟩
  · exact fun y hy => mem_nodeSet.mpr (hys y hy)

/-! ### Levels -/

/-- Marks with other levels. -/
def withLevel (m : NodeRef → Marks) (lv : NodeRef → ℤ) : NodeRef → Marks :=
  fun n => { m n with level := lv n }

/-- One more than the largest level of the predecessors, at least 0. -/
abbrev nextLevel (g : Graph) (lv : NodeRef → ℤ) (n : NodeRef) : ℤ :=
  LongestPath.best g.sources (fun _ => 0) (fun _ => 1) lv n

/-- The levels after the second loop of `topoSort`. -/
abbrev levels (g : Graph) (l : List NodeRef) (lv : NodeRef → ℤ) : NodeRef → ℤ :=
  LongestPath.solve g.sources (fun _ => 0) (fun _ => 1) l lv

theorem levelNode_eq (hc : g.Closed) (hx : g.Present x) {lv : NodeRef → ℤ} {k : ℤ} :
    levelNode (g.mark (withLevel m lv), k) x
      = some (g.mark (withLevel m (Function.update lv x (g.nextLevel lv x))),
          max k (g.nextLevel lv x)) := by
  obtain ⟨nd, hnd⟩ := hc.node x hx
  -- the loop over the entry edges reads levels only, and writes none
  have hscan : ∀ (us : List NodeRef) (b : ℤ), (∀ u ∈ us, g.Present u) →
      us.foldlM (fun (k : ℤ) u => ((g.mark (withLevel m lv)).nodes u).bind
          fun src => some (max (src.level + 1) k)) b
        = some (us.foldl (fun k u => max k (lv u + 1)) b) := by
    intro us
    induction us with
    | nil => exact fun b _ => rfl
    | cons u us ih =>
      intro b hus
      obtain ⟨nu, hnu⟩ := hc.node u (hus u List.mem_cons_self)
      rw [List.foldlM_cons, nodes_mark hnu, List.foldl_cons, max_comm b (lv u + 1)]
      exact ih _ fun w hw => hus w (List.mem_cons_of_mem u hw)
  have hsrc : (nd.onData fun d => d.mark (withLevel m lv x)).entryEdges.map Edge.source
      = g.sources x := (sources_eq hnd).symm
  have hset : (g.mark (withLevel m lv)).setNode x (fun nd => nd.setLevel (g.nextLevel lv x))
      = some (g.mark (withLevel m (Function.update lv x (g.nextLevel lv x)))) := by
    have hm : Function.update (withLevel m lv) x
          { withLevel m lv x with level := g.nextLevel lv x }
        = withLevel m (Function.update lv x (g.nextLevel lv x)) := by
      funext k
      rcases eq_or_ne k x with rfl | hk
      · simp [withLevel]
      · simp [withLevel, hk]
    rw [setNode_mark (φ := fun k => { k with level := g.nextLevel lv x }) hnd fun _ _ => rfl, hm]
  have hbest : (g.sources x).foldl (fun k u => max k (lv u + 1)) 0 = g.nextLevel lv x := rfl
  rw [levelNode]
  simp only [Option.bind_eq_bind, nodes_mark hnd, Option.bind_some, hsrc]
  rw [hscan _ _ (hc.sources hx), Option.bind_some, hbest, hset, Option.bind_some]

/-- **The second loop of `topoSort`** computes the levels, and a bound for
them. -/
theorem foldlM_levelNode (hc : g.Closed) (lv : NodeRef → ℤ) (k : ℤ)
    (hl : ∀ x ∈ l, g.Present x) (hnd : l.Nodup) :
    ∃ k', l.foldlM levelNode (g.mark (withLevel m lv), k)
        = some (g.mark (withLevel m (g.levels l lv)), k') ∧
      k ≤ k' ∧ ∀ x ∈ l, 0 ≤ g.levels l lv x ∧ g.levels l lv x ≤ k' := by
  induction l generalizing lv k with
  | nil => exact ⟨k, rfl, le_rfl, by simp⟩
  | cons x l ih =>
    obtain ⟨hx, hnd'⟩ := List.nodup_cons.mp hnd
    obtain ⟨k', h1, h2, h3⟩ := ih (Function.update lv x (g.nextLevel lv x))
      (max k (g.nextLevel lv x)) (fun y hy => hl y (List.mem_cons_of_mem x hy)) hnd'
    refine ⟨k', ?_, (le_max_left _ _).trans h2, List.forall_mem_cons.mpr ⟨?_, h3⟩⟩
    · rw [List.foldlM_cons, levelNode_eq hc (hl x List.mem_cons_self)]
      exact h1
    · have hval : g.levels (x :: l) lv x = g.nextLevel lv x := by
        change g.levels l (Function.update lv x (g.nextLevel lv x)) x = _
        rw [levels, LongestPath.solve_of_notMem hx, Function.update_self]
      rw [hval]
      exact ⟨LongestPath.base_le_best g.sources (fun _ => 0) (fun _ => 1) lv x,
        (le_max_right _ _).trans h2⟩

/-! ### Ordering by level -/

/-- `l'` is `l`, sorted by `key`, with the order of equal keys kept. -/
structure StableSort {α : Type*} (key : α → ℤ) (l l' : List α) : Prop where
  perm : l'.Perm l
  sorted : l'.Pairwise fun a b => key a ≤ key b
  stable : ∀ i, l'.filter (fun a => key a = i) = l.filter fun a => key a = i

theorem StableSort.congr {α : Type*} {key key' : α → ℤ} {l l' : List α}
    (h : StableSort key l l') (hk : ∀ a ∈ l, key a = key' a) : StableSort key' l l' where
  perm := h.perm
  sorted := by
    refine h.sorted.imp_of_mem fun ha hb hab => ?_
    rwa [hk _ (h.perm.mem_iff.mp ha), hk _ (h.perm.mem_iff.mp hb)] at hab
  stable := by
    have hfilter : ∀ i (l₁ : List α), (∀ a ∈ l₁, a ∈ l) →
        l₁.filter (fun a => key a = i) = l₁.filter fun a => key' a = i :=
      fun i l₁ hl₁ => List.filter_congr fun a ha => by rw [hk a (hl₁ a ha)]
    intro i
    rw [← hfilter i l' fun a ha => h.perm.mem_iff.mp ha, ← hfilter i l fun a ha => ha, h.stable i]

/-- One round of the third loop of `topoSort`. -/
theorem orderLevels_cons (level : NodeRef → ℤ) (i : ℤ) (is : List ℤ) (front back : List NodeRef) :
    (∀ n ∈ back, level n = i) ∧ orderLevels level (i :: is) front back = front ++ back ∨
    ∃ take start rest, back = take ++ start :: rest ∧ (∀ n ∈ take, level n = i) ∧
      level start ≠ i ∧ orderLevels level (i :: is) front back
        = orderLevels level is (front ++ take ++ rest.filter fun n => level n = i)
            (start :: rest.filter fun n => level n ≠ i) := by
  have hback := List.takeWhile_append_dropWhile (p := fun n => decide (level n = i)) (l := back)
  have htake : ∀ n ∈ back.takeWhile fun n => level n = i, level n = i := fun n hn => by
    simpa using List.mem_takeWhile_imp hn
  rw [orderLevels]
  -- `start_iter` reaches the end of the list, or stops at a node of another level
  rcases hdrop : back.dropWhile fun n => level n = i with - | ⟨start, rest⟩
  · rw [hdrop, List.append_nil] at hback
    exact .inl ⟨fun n hn => htake n (by rwa [hback]), rfl⟩
  · have hstart : level start ≠ i := by
      have := List.head?_dropWhile_not (fun n => decide (level n = i)) back
      rw [hdrop] at this
      simpa using this
    rw [hdrop] at hback
    exact .inr ⟨_, start, rest, hback.symm, htake, hstart, rfl⟩

theorem orderLevels_perm (level : NodeRef → ℤ) (is : List ℤ) (front back : List NodeRef) :
    (orderLevels level is front back).Perm (front ++ back) := by
  induction is generalizing front back with
  | nil => exact .refl _
  | cons i is ih =>
    obtain ⟨-, h⟩ | ⟨take, start, rest, rfl, -, -, h⟩ := orderLevels_cons level i is front back
    · rw [h]
    · rw [h]
      refine (ih _ _).trans ?_
      simp only [List.append_assoc]
      refine List.Perm.append_left _ (List.Perm.append_left _ ?_)
      -- `start` stays where the list is split; the rest is divided by level
      refine List.perm_middle.trans (List.Perm.cons start ?_)
      simpa using List.filter_append_perm (fun n => decide (level n = i)) rest

theorem orderLevels_filter (level : NodeRef → ℤ) (is : List ℤ) (front back : List NodeRef)
    (j : ℤ) : (orderLevels level is front back).filter (fun n => level n = j)
      = (front ++ back).filter fun n => level n = j := by
  induction is generalizing front back with
  | nil => rfl
  | cons i is ih =>
    obtain ⟨-, h⟩ | ⟨take, start, rest, rfl, -, hstart, h⟩ := orderLevels_cons level i is front back
    · rw [h]
    · rw [h, ih]
      simp only [List.filter_append, List.append_assoc, List.filter_cons, List.filter_filter]
      -- the level that is moved comes out in its order, the others are not moved past each other
      rcases eq_or_ne j i with rfl | hij
      · simp [hstart]
      · have h1 : ∀ n, (decide (level n = j) && decide (level n = i)) = false := by
          intro n
          by_cases hn : level n = j <;> simp [hn, hij]
        have h2 : ∀ n, (decide (level n = j) && decide (level n ≠ i)) = decide (level n = j) := by
          intro n
          by_cases hn : level n = j <;> simp [hn, hij]
        simp only [h1, h2, List.filter_false, List.nil_append]

/-- After the rounds `a, …, a + c - 1` a list with levels from `a` to `a + c` is
sorted. -/
theorem orderLevels_sorted (level : NodeRef → ℤ) (a c : ℕ) (front back : List NodeRef)
    (hfront : front.Pairwise fun x y => level x ≤ level y) (hlt : ∀ x ∈ front, level x ≤ a)
    (hge : ∀ x ∈ back, (a : ℤ) ≤ level x ∧ level x ≤ a + c) :
    (orderLevels level ((List.range' a c).map Int.ofNat) front back).Pairwise
      fun x y => level x ≤ level y := by
  -- after round `a` everything up to level `a` is in front, sorted
  induction c generalizing a front back with
  | zero =>
    refine List.pairwise_append.mpr ⟨hfront, ?_, fun x hx y hy => (hlt x hx).trans (hge y hy).1⟩
    refine List.pairwise_of_forall_mem_list fun x hx y hy => ?_
    have := hge x hx
    have := hge y hy
    omega
  | succ c ih =>
    rw [List.range'_succ, List.map_cons]
    obtain ⟨hall, h⟩ | ⟨take, start, rest, rfl, htake, hstart, h⟩ := orderLevels_cons level
      (Int.ofNat a) ((List.range' (a + 1) c).map Int.ofNat) front back
    · rw [h]
      refine List.pairwise_append.mpr ⟨hfront, ?_, fun x hx y hy => (hlt x hx).trans (hge y hy).1⟩
      refine List.pairwise_of_forall_mem_list fun x hx y hy => ?_
      rw [hall x hx, hall y hy]
    · rw [h]
      -- the moved nodes have level `a`, those left behind a greater one
      have hmoved : ∀ x ∈ take ++ rest.filter (fun n => level n = Int.ofNat a), level x = a := by
        intro x hx
        rcases List.mem_append.mp hx with hx | hx
        · exact htake x hx
        · simpa using (List.mem_filter.mp hx).2
      refine ih (a + 1) _ _ ?_ ?_ ?_
      · rw [List.append_assoc]
        refine List.pairwise_append.mpr ⟨hfront, ?_, fun x hx y hy => ?_⟩
        · refine List.pairwise_of_forall_mem_list fun x hx y hy => ?_
          rw [hmoved x hx, hmoved y hy]
        · rw [hmoved y hy]
          exact hlt x hx
      · intro x hx
        rw [List.append_assoc] at hx
        rcases List.mem_append.mp hx with hx | hx
        · have := hlt x hx
          omega
        · have := hmoved x hx
          omega
      · intro x hx
        have hx' : x ∈ take ++ start :: rest ∧ level x ≠ a := by
          rcases List.mem_cons.mp hx with rfl | hx
          · exact ⟨by simp, hstart⟩
          · obtain ⟨h1, h2⟩ := List.mem_filter.mp hx
            exact ⟨by simp [h1], by simpa using h2⟩
        have := hge x hx'.1
        have := hx'.2
        push_cast
        omega

/-- **The third loop of `topoSort` is a stable sort by level.** -/
theorem orderLevels_stableSort (level : NodeRef → ℤ) {k : ℤ}
    (h : ∀ x ∈ l, 0 ≤ level x ∧ level x ≤ k) :
    StableSort level l (orderLevels level ((List.range k.toNat).map Int.ofNat) [] l) where
  perm := orderLevels_perm level _ [] l
  sorted := by
    rw [List.range_eq_range']
    refine orderLevels_sorted level 0 k.toNat [] l List.Pairwise.nil (by simp) fun x hx => ?_
    have := h x hx
    omega
  stable := fun i => orderLevels_filter level _ [] l i

/-! ### The whole function -/

theorem levelOf_mark (h : g.nodes n = some nd) : (g.mark m).levelOf n = (m n).level := by
  rw [levelOf, nodes_mark h]
  rfl

/-- What `topoSort` returns for any graph, cyclic or not: the marks it leaves
and the order it finds. -/
structure TopoSorted (g : Graph) (m : NodeRef → Marks) (post l : List NodeRef) : Prop where
  eq : g.topoSort = some (g.mark m, l)
  marks : ∃ vis, (∀ n, g.Present n → vis n = true) ∧
    g.visitAll = some (g.mark (withVisited g.marks vis), post) ∧
    m = withLevel (withVisited g.marks vis) (g.levels post fun n => (g.marks n).level)
  nodup : post.Nodup
  mem : ∀ n, n ∈ post ↔ g.Present n
  stable : StableSort (fun n => (m n).level) post l
  ordered : Paths.Acyclic g.Within → DepthFirst.Ordered g.targets post

theorem topoSort_sorted (hc : g.Closed) (hu : g.Unvisited) : ∃ m post l, TopoSorted g m post l := by
  obtain ⟨vis, post, h1, h2, h3, h4, h5⟩ := visitAll_spec hc hu
  set lv := g.levels post fun n => (g.marks n).level with hlv
  obtain ⟨k, h6, -, h7⟩ := foldlM_levelNode (m := withVisited g.marks vis) hc
    (fun n => (g.marks n).level) (-1) (fun x hx => (h4 x).mp hx) h3
  have hstart : withLevel (withVisited g.marks vis) (fun n => (g.marks n).level)
      = withVisited g.marks vis := rfl
  rw [hstart] at h6
  -- the third loop reads the levels that the second one has left in the nodes
  have hlevel : ∀ x ∈ post, (g.mark (withLevel (withVisited g.marks vis) lv)).levelOf x = lv x := by
    intro x hx
    obtain ⟨nd, hnd⟩ := hc.node x ((h4 x).mp hx)
    exact levelOf_mark hnd
  have hsort := orderLevels_stableSort (l := post) (k := k)
    (g.mark (withLevel (withVisited g.marks vis) lv)).levelOf fun x hx => by
      rw [hlevel x hx]
      exact h7 x hx
  have heq : g.topoSort = some (g.mark (withLevel (withVisited g.marks vis) lv), orderLevels
      (g.mark (withLevel (withVisited g.marks vis) lv)).levelOf
      ((List.range k.toNat).map Int.ofNat) [] post) := by
    simp only [topoSort, h1, Option.bind_eq_bind, Option.bind_some, h6]
    rfl
  refine ⟨_, post, _, heq, ⟨vis, h2, h1, rfl⟩, h3, h4, hsort.congr hlevel, h5⟩

/-! ### Acyclic graphs -/

section Acyclic

variable {post : List NodeRef}

/-- Paths over the entry edges are paths over the exit edges. -/
theorem isPath_iff (hc : g.Closed) (hm : g.Mirrored) {p : List NodeRef} :
    g.IsPath p ↔ LongestPath.IsPath g.sources p ∧ ∀ n ∈ p, g.Present n := by
  refine and_congr_left fun hp => ?_
  constructor
  · intro h
    refine List.IsChain.imp_of_mem_imp (fun a b ha hb hab => ?_) h
    exact (hm.mem_sources hc (hp a ha) (hp b hb)).mpr hab
  · intro h
    refine List.IsChain.imp_of_mem_imp (fun a b ha hb hab => ?_) h
    exact (hm.mem_sources hc (hp a ha) (hp b hb)).mp hab

theorem value_edges (p : List NodeRef) (n : NodeRef) :
    LongestPath.value (fun _ => (0 : ℤ)) (fun _ => 1) (p ++ [n]) = p.length := by
  obtain - | ⟨a, p⟩ := p
  · simp [LongestPath.value]
  · simp [LongestPath.value]

namespace TopoSorted

theorem mem_list (h : TopoSorted g m post l) : n ∈ l ↔ g.Present n :=
  h.stable.perm.mem_iff.trans (h.mem n)

theorem nodup_list (h : TopoSorted g m post l) : l.Nodup := h.stable.perm.nodup_iff.mpr h.nodup

/-- The finishing order of an acyclic graph has predecessors first. -/
theorem precedes_post (h : TopoSorted g m post l) (hc : g.Closed) (hm : g.Mirrored)
    (hac : Paths.Acyclic g.Within) : LongestPath.Precedes g.sources post := by
  rintro l₁ v l₂ rfl u hu
  have hv : g.Present v := (h.mem v).mp (by simp)
  have hu' : g.Present u := hc.sources hv u hu
  exact (h.ordered hac).mem_before h.nodup ((h.mem u).mpr hu')
    (mem_targets.mpr ((hm.mem_sources hc hu' hv).mp hu))

/-- The levels solve the recursion equation. -/
theorem solves (h : TopoSorted g m post l) (hc : g.Closed) (hm : g.Mirrored)
    (hac : Paths.Acyclic g.Within) :
    LongestPath.Solves g.sources (fun _ => 0) (fun _ => 1) (fun n => (m n).level) post := by
  obtain ⟨vis, -, -, rfl⟩ := h.marks
  exact LongestPath.solve_solves (h.precedes_post hc hm hac) h.nodup

/-- Levels increase along edges. -/
theorem level_lt (h : TopoSorted g m post l) (hc : g.Closed) (hm : g.Mirrored)
    (hac : Paths.Acyclic g.Within) (hu : g.Present u) (huv : g.Adj u v) :
    (m u).level < (m v).level := by
  have hv := hc.present_of_adj hu huv
  have hle := LongestPath.le_best (fun _ => (0 : ℤ)) (fun _ => 1) (fun n => (m n).level)
    ((hm.mem_sources hc hu hv).mpr huv)
  rw [← h.solves hc hm hac v ((h.mem v).mpr hv)] at hle
  exact Int.lt_of_add_one_le hle

/-- So the sorted list has predecessors first, too. -/
theorem precedes (h : TopoSorted g m post l) (hc : g.Closed) (hm : g.Mirrored)
    (hac : Paths.Acyclic g.Within) : LongestPath.Precedes g.sources l := by
  rintro l₁ v l₂ rfl u hu
  have hv : g.Present v := h.mem_list.mp (by simp)
  have hu' : g.Present u := hc.sources hv u hu
  have hlt := h.level_lt hc hm hac hu' ((hm.mem_sources hc hu' hv).mp hu)
  -- a predecessor behind `v` would have at least the level of `v`
  refine (List.mem_append.mp (h.mem_list.mpr hu')).resolve_right fun hmem => ?_
  rcases List.mem_cons.mp hmem with rfl | hmem
  · exact lt_irrefl _ hlt
  · have hle := (List.pairwise_cons.mp (List.pairwise_append.mp h.stable.sorted).2.1).1 u hmem
    exact absurd hlt (not_lt.mpr hle)

/-- The level of a node is the number of edges of a longest path to it. -/
theorem level_isGreatest (h : TopoSorted g m post l) (hc : g.Closed) (hm : g.Mirrored)
    (hac : Paths.Acyclic g.Within) (hn : g.Present n) :
    IsGreatest {k : ℤ | ∃ p, g.IsPath (p ++ [n]) ∧ (p.length : ℤ) = k} (m n).level := by
  have hpath : ∀ p, g.IsPath (p ++ [n]) ↔
      LongestPath.IsPath g.sources (p ++ [n]) ∧ ∀ w ∈ p ++ [n], w ∈ post := by
    intro p
    rw [isPath_iff hc hm]
    simp only [h.mem]
  obtain ⟨⟨p, h1, h2, h3⟩, hub⟩ := LongestPath.isGreatest_of_solves (h.solves hc hm hac)
    (h.precedes_post hc hm hac) ((h.mem n).mpr hn)
  refine ⟨⟨p, (hpath p).mpr ⟨h1, h2⟩, (value_edges p n).symm.trans h3⟩, ?_⟩
  rintro k ⟨q, hq, rfl⟩
  exact hub ⟨q, ((hpath q).mp hq).1, ((hpath q).mp hq).2, value_edges q n⟩

end TopoSorted

/-- **`topoSort` is a stable sort by level.**  For an acyclic graph the list
holds every node once, it is the finishing list of the depth first search
sorted by level with the order inside a level kept, the level of a node is the
number of edges of a longest path that ends there, and every edge leads
forward in the list. -/
theorem topoSort_spec (hc : g.Closed) (hm : g.Mirrored) (hac : Paths.Acyclic g.Within)
    (hu : g.Unvisited) :
    ∃ g₁ post g' l, g.visitAll = some (g₁, post) ∧ g.topoSort = some (g', l) ∧
      l.Nodup ∧ (∀ n, n ∈ l ↔ g.Present n) ∧
      (∀ n, g.Present n → IsGreatest {k : ℤ | ∃ p, g.IsPath (p ++ [n]) ∧ (p.length : ℤ) = k}
        (g'.levelOf n)) ∧
      StableSort g'.levelOf post l ∧
      ∀ u v, g.Present u → g.Adj u v → l.idxOf u < l.idxOf v := by
  obtain ⟨m, post, l, h⟩ := topoSort_sorted hc hu
  obtain ⟨vis, -, hvisit, -⟩ := h.marks
  have hlevel : ∀ n, g.Present n → (g.mark m).levelOf n = (m n).level := by
    intro n hn
    obtain ⟨nd, hnd⟩ := hc.node n hn
    exact levelOf_mark hnd
  refine ⟨_, post, _, l, hvisit, h.eq, h.nodup_list, fun n => h.mem_list, fun n hn => ?_, ?_, ?_⟩
  · rw [hlevel n hn]
    exact h.level_isGreatest hc hm hac hn
  · exact h.stable.congr fun n hn => (hlevel n ((h.mem n).mp hn)).symm
  · intro u v hu huv
    have hv := hc.present_of_adj hu huv
    obtain ⟨l₁, l₂, hl⟩ := List.append_of_mem (h.mem_list.mpr hv)
    have hu₁ := h.precedes hc hm hac l₁ v l₂ hl u ((hm.mem_sources hc hu hv).mpr huv)
    -- the first position of `v` is the one where the list was split
    have hv₁ : v ∉ l₁ := fun hmem => by
      have hnd := h.nodup_list
      rw [hl] at hnd
      exact (List.nodup_append.mp hnd).2.2 v hmem v List.mem_cons_self rfl
    rw [hl, List.idxOf_append_of_mem hu₁, List.idxOf_append_of_notMem hv₁]
    exact (List.idxOf_lt_length_of_mem hu₁).trans_le (Nat.le_add_right _ _)

/-- Four nodes, the last behind the two successors of the first. -/
def diamond : Graph where
  nodes := fun n =>
    match n with
    | 0 => some { Node.new 0 .rootTask 2 with exitEdges := [⟨0, 1⟩, ⟨0, 2⟩] }
    | 1 => some { Node.new 1 .impTask 1 with entryEdges := [⟨0, 1⟩], exitEdges := [⟨1, 3⟩] }
    | 2 => some { Node.new 2 .impTask 3 with entryEdges := [⟨0, 2⟩], exitEdges := [⟨2, 3⟩] }
    | 3 => some { Node.new 3 .impTask 0 with entryEdges := [⟨1, 3⟩, ⟨2, 3⟩] }
    | _ => none
  graphNodes := ⟨[(0, 0), (1, 1), (2, 2), (3, 3)], by decide⟩

theorem diamond_present (h : diamond.Present n) : n = 0 ∨ n = 1 ∨ n = 2 ∨ n = 3 := by
  obtain ⟨id, h⟩ := h
  simp only [diamond, List.mem_cons, Prod.mk.injEq, List.not_mem_nil, or_false] at h
  tauto

theorem diamond_closed : diamond.Closed where
  node := by
    intro n hn
    obtain rfl | rfl | rfl | rfl := diamond_present hn <;> exact ⟨_, rfl⟩
  exits := by
    intro n nd hn hnd
    obtain rfl | rfl | rfl | rfl := diamond_present hn <;> cases hnd <;>
      simp [Present, diamond, Node.new]
  entries := by
    intro n nd hn hnd
    obtain rfl | rfl | rfl | rfl := diamond_present hn <;> cases hnd <;>
      simp [Present, diamond, Node.new]

theorem diamond_mirrored : diamond.Mirrored where
  exits := by
    intro n nd hn hnd
    obtain rfl | rfl | rfl | rfl := diamond_present hn <;> cases hnd <;> simp [diamond, Node.new]
  entries := by
    intro n nd hn hnd
    obtain rfl | rfl | rfl | rfl := diamond_present hn <;> cases hnd <;> simp [diamond, Node.new]

theorem diamond_acyclic : Paths.Acyclic diamond.Within := by
  refine Paths.acyclic_of_rank (f := id) ?_
  rintro u v ⟨hu, nd, hnd, e, he, rfl⟩
  obtain rfl | rfl | rfl | rfl := diamond_present hu <;> cases hnd <;>
    simp [Node.new] at he
  · obtain rfl | rfl := he <;> decide
  · subst he
    decide
  · subst he
    decide

theorem diamond_unvisited : diamond.Unvisited := by
  intro n nd hn hnd
  obtain rfl | rfl | rfl | rfl := diamond_present hn <;> cases hnd <;> rfl

theorem topoSort_spec_diamond :
    ∃ g' l, diamond.topoSort = some (g', l) ∧ l.Nodup ∧ l.idxOf 2 < l.idxOf 3 := by
  obtain ⟨-, -, g', l, -, h1, h2, -, -, -, h3⟩ :=
    topoSort_spec diamond_closed diamond_mirrored diamond_acyclic diamond_unvisited
  exact ⟨g', l, h1, h2, h3 2 3 (by simp [Present, diamond]) ⟨_, rfl, ⟨2, 3⟩, by simp, rfl⟩⟩

end Acyclic

end Graph

end Tdg
