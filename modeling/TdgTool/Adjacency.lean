/-
TdgTool/Adjacency.lean

The edge vectors of the nodes as one list of edges.

`connectNodes` and `disconnectNodes` update the exit vector of one node and the
entry vector of another.  Both vectors are views of one list, the edges in the
order in which they were added: the exits of a node are the edges that start
there, and its entries those that end there (`Graph.withEdges`).  On this list
`connectNodes` appends a new edge and `disconnectNodes` erases one
(`connectNodes_withEdges`, `disconnectNodes_withEdges`), so the two sides
cannot drift apart, over any sequence of calls (`runEdgeOps_withEdges`).
-/
import TdgTool.Graph

namespace Tdg

/-! ### Views of a list -/

section Lists

variable {α : Type*} [DecidableEq α] {p q : α → Bool} {a : α}

theorem filter_erase_of_neg (hq : q a = false) (l : List α) :
    (l.erase a).filter q = l.filter q := by
  induction l with
  | nil => rfl
  | cons b l ih =>
    rcases eq_or_ne b a with rfl | hb
    · simp [hq]
    · rw [List.erase_cons_tail (by simpa using hb), List.filter_cons, List.filter_cons, ih]

/-- Erasing from a view that has one candidate. -/
theorem eraseP_filter (hq : q a = true) (hp : ∀ b, q b = true → (p b = true ↔ b = a))
    (l : List α) : (l.filter q).eraseP p = (l.erase a).filter q := by
  induction l with
  | nil => rfl
  | cons b l ih =>
    rcases eq_or_ne b a with rfl | hb
    · rw [List.erase_cons_head, List.filter_cons_of_pos hq,
        List.eraseP_cons_of_pos ((hp b hq).mpr rfl)]
    · rw [List.erase_cons_tail (by simpa using hb), List.filter_cons, List.filter_cons]
      -- what the view leaves out cannot be the candidate
      split
      · next hqb =>
        have hpb : ¬ p b = true := fun h => hb ((hp b hqb).mp h)
        rw [List.eraseP_cons_of_neg hpb, ih]
      · exact ih

end Lists

/-! ### The graph of a list of edges -/

namespace Graph

/-- The nodes of `g` with other edge vectors. -/
def withVectors (g : Graph) (exits entries : NodeRef → List Edge) : Graph :=
  { g with
    nodes := fun n => (g.nodes n).map fun nd =>
      { nd with exitEdges := exits n, entryEdges := entries n } }

/-- The exits of a node in a list of edges. -/
def exitsAt (edges : List Edge) (n : NodeRef) : List Edge := edges.filter fun e => e.source = n

/-- The entries of a node in a list of edges. -/
def entriesAt (edges : List Edge) (n : NodeRef) : List Edge := edges.filter fun e => e.target = n

/-- The nodes of `g` with the edge vectors of a list of edges. -/
def withEdges (g : Graph) (edges : List Edge) : Graph :=
  g.withVectors (exitsAt edges) (entriesAt edges)

variable {g : Graph} {exits entries : NodeRef → List Edge} {edges : List Edge}
  {u v n : NodeRef} {nd : Node}

theorem nodes_withVectors (hn : g.nodes n = some nd) : (g.withVectors exits entries).nodes n =
    some { nd with exitEdges := exits n, entryEdges := entries n } := by
  simp [withVectors, hn]

/-- An update of one exit vector. -/
theorem modifyNode_exits (f : Node → Node) (fexits : List Edge → List Edge)
    (hf : ∀ nd, f nd = { nd with exitEdges := fexits nd.exitEdges })
    (hu : ∃ nd, g.nodes u = some nd) : (g.withVectors exits entries).modifyNode u f =
      some (g.withVectors (Function.update exits u (fexits (exits u))) entries) := by
  obtain ⟨nd, hnd⟩ := hu
  rw [modifyNode, nodes_withVectors hnd, Option.map_some, hf]
  refine congrArg some ?_
  simp only [withVectors, Graph.mk.injEq, and_true]
  funext n
  rcases eq_or_ne n u with rfl | hn
  · simp [hnd]
  · simp [hn]

/-- An update of one entry vector. -/
theorem modifyNode_entries (f : Node → Node) (fentries : List Edge → List Edge)
    (hf : ∀ nd, f nd = { nd with entryEdges := fentries nd.entryEdges })
    (hv : ∃ nd, g.nodes v = some nd) : (g.withVectors exits entries).modifyNode v f =
      some (g.withVectors exits (Function.update entries v (fentries (entries v)))) := by
  obtain ⟨nd, hnd⟩ := hv
  rw [modifyNode, nodes_withVectors hnd, Option.map_some, hf]
  refine congrArg some ?_
  simp only [withVectors, Graph.mk.injEq, and_true]
  funext n
  rcases eq_or_ne n v with rfl | hn
  · simp [hnd]
  · simp [hn]

/-! ### The two operations on the list -/

theorem exitsAt_append (edges : List Edge) (u v : NodeRef) :
    exitsAt (edges ++ [⟨u, v⟩])
      = Function.update (exitsAt edges) u (exitsAt edges u ++ [⟨u, v⟩]) := by
  funext n
  rcases eq_or_ne n u with rfl | hn
  · simp [exitsAt]
  · simp [exitsAt, hn, hn.symm]

theorem entriesAt_append (edges : List Edge) (u v : NodeRef) : entriesAt (edges ++ [⟨u, v⟩]) =
    Function.update (entriesAt edges) v (entriesAt edges v ++ [⟨u, v⟩]) := by
  funext n
  rcases eq_or_ne n v with rfl | hn
  · simp [entriesAt]
  · simp [entriesAt, hn, hn.symm]

/-- The first exit of `u` that leads to `v` is the edge itself. -/
theorem exitsAt_erase (edges : List Edge) (u v : NodeRef) : exitsAt (edges.erase ⟨u, v⟩) =
    Function.update (exitsAt edges) u ((exitsAt edges u).eraseP fun e => e.target = v) := by
  funext n
  rcases eq_or_ne n u with rfl | hn
  · rw [Function.update_self]
    refine (eraseP_filter (by simp) ?_ edges).symm
    rintro ⟨source, target⟩ he
    obtain rfl : source = n := by simpa using he
    simp
  · rw [Function.update_of_ne hn]
    exact filter_erase_of_neg (by simpa using hn.symm) edges

theorem entriesAt_erase (edges : List Edge) (u v : NodeRef) : entriesAt (edges.erase ⟨u, v⟩) =
    Function.update (entriesAt edges) v ((entriesAt edges v).eraseP fun e => e.source = u) := by
  funext n
  rcases eq_or_ne n v with rfl | hn
  · rw [Function.update_self]
    refine (eraseP_filter (by simp) ?_ edges).symm
    rintro ⟨source, target⟩ he
    obtain rfl : target = n := by simpa using he
    simp
  · rw [Function.update_of_ne hn]
    exact filter_erase_of_neg (by simpa using hn.symm) edges

theorem isConnectedWith_iff (h : nd.exitEdges = exitsAt edges u) :
    nd.isConnectedWith v = true ↔ (⟨u, v⟩ : Edge) ∈ edges := by
  simp only [Node.isConnectedWith, h, List.any_eq_true, exitsAt, List.mem_filter,
    decide_eq_true_eq]
  constructor
  · rintro ⟨⟨_, _⟩, ⟨he, rfl⟩, rfl⟩
    exact he
  · intro he
    exact ⟨⟨u, v⟩, ⟨he, rfl⟩, rfl⟩

/-- **`connectNodes` appends a new edge.** -/
theorem connectNodes_withEdges (hu : ∃ nd, g.nodes u = some nd) (hv : ∃ nd, g.nodes v = some nd) :
    (g.withEdges edges).connectNodes u v =
      some (g.withEdges (if ⟨u, v⟩ ∈ edges then edges else edges ++ [⟨u, v⟩])) := by
  obtain ⟨nd, hnd⟩ := hu
  have hsrc : (g.withVectors (exitsAt edges) (entriesAt edges)).nodes u =
      some { nd with exitEdges := exitsAt edges u, entryEdges := entriesAt edges u } :=
    nodes_withVectors hnd
  have hconn : ({ nd with exitEdges := exitsAt edges u, entryEdges := entriesAt edges u } :
      Node).isConnectedWith v = true ↔ (⟨u, v⟩ : Edge) ∈ edges := isConnectedWith_iff rfl
  rw [connectNodes, withEdges, hsrc, Option.bind_eq_bind, Option.bind_some]
  by_cases he : (⟨u, v⟩ : Edge) ∈ edges
  · rw [if_pos (hconn.mpr he), if_pos he]
    rfl
  · rw [if_neg (fun h => he (hconn.mp h)), if_neg he]
    simp only [modifyNode_exits (Node.pushExit ⟨u, v⟩) (· ++ [⟨u, v⟩]) (fun _ => rfl) ⟨nd, hnd⟩,
      Option.bind_eq_bind, Option.bind_some,
      modifyNode_entries (Node.pushEntry ⟨u, v⟩) (· ++ [⟨u, v⟩]) (fun _ => rfl) hv]
    rw [withEdges, exitsAt_append, entriesAt_append]

/-- **`disconnectNodes` erases an edge.** -/
theorem disconnectNodes_withEdges (hu : ∃ nd, g.nodes u = some nd)
    (hv : ∃ nd, g.nodes v = some nd) :
    (g.withEdges edges).disconnectNodes u v = some (g.withEdges (edges.erase ⟨u, v⟩)) := by
  rw [disconnectNodes, withEdges,
    modifyNode_exits (Node.eraseExit v) (fun l => l.eraseP fun e => e.target = v) (fun _ => rfl) hu,
    Option.bind_eq_bind, Option.bind_some,
    modifyNode_entries (Node.eraseEntry u) (fun l => l.eraseP fun e => e.source = u)
      (fun _ => rfl) hv,
    withEdges, exitsAt_erase, entriesAt_erase]

/-! ### Sequences of calls -/

/-- A call of one of the two operations. -/
inductive EdgeOp
  | connect (source target : NodeRef)
  | disconnect (source target : NodeRef)
  deriving DecidableEq, Repr

namespace EdgeOp

/-- The two nodes of a call. -/
def pair : EdgeOp → NodeRef × NodeRef
  | connect source target => (source, target)
  | disconnect source target => (source, target)

/-- The call. -/
def run (g : Graph) : EdgeOp → Option Graph
  | connect source target => g.connectNodes source target
  | disconnect source target => g.disconnectNodes source target

/-- The call on the list of edges. -/
def onEdges (edges : List Edge) : EdgeOp → List Edge
  | connect source target =>
      if ⟨source, target⟩ ∈ edges then edges else edges ++ [⟨source, target⟩]
  | disconnect source target => edges.erase ⟨source, target⟩

/-- The call replayed on the set of connected pairs. -/
def replay (pairs : Finset (NodeRef × NodeRef)) : EdgeOp → Finset (NodeRef × NodeRef)
  | connect source target => insert (source, target) pairs
  | disconnect source target => pairs.erase (source, target)

end EdgeOp

/-- A sequence of calls. -/
def runEdgeOps (g : Graph) (ops : List EdgeOp) : Option Graph := ops.foldlM EdgeOp.run g

variable {ops : List EdgeOp} {op : EdgeOp} {pairs : Finset (NodeRef × NodeRef)}

/-- The list holds each connected pair once. -/
structure Holds (edges : List Edge) (pairs : Finset (NodeRef × NodeRef)) : Prop where
  nodup : edges.Nodup
  mem : ∀ u v, (⟨u, v⟩ : Edge) ∈ edges ↔ (u, v) ∈ pairs

theorem Holds.step (h : Holds edges pairs) (op : EdgeOp) :
    Holds (op.onEdges edges) (op.replay pairs) := by
  cases op with
  | connect source target =>
    -- a pair that is connected already is not stored twice
    by_cases he : (⟨source, target⟩ : Edge) ∈ edges
    · have hin : (source, target) ∈ pairs := (h.mem _ _).mp he
      have hsame : insert (source, target) pairs = pairs := Finset.insert_eq_of_mem hin
      simpa only [EdgeOp.onEdges, EdgeOp.replay, if_pos he, hsame] using h
    · simp only [EdgeOp.onEdges, EdgeOp.replay, if_neg he]
      refine ⟨List.nodup_append.mpr ⟨h.nodup, List.nodup_singleton _, ?_⟩, fun u v => ?_⟩
      · rintro e hmem e' he' rfl
        exact he (List.mem_singleton.mp he' ▸ hmem)
      · rw [List.mem_append, h.mem, List.mem_singleton, Finset.mem_insert, Edge.mk.injEq,
          Prod.mk.injEq, or_comm]
  | disconnect source target =>
    refine ⟨h.nodup.erase _, fun u v => ?_⟩
    rw [EdgeOp.onEdges, EdgeOp.replay, h.nodup.mem_erase_iff, Finset.mem_erase, h.mem]
    simp

theorem Holds.run (h : Holds edges pairs) (ops : List EdgeOp) :
    Holds (ops.foldl EdgeOp.onEdges edges) (ops.foldl EdgeOp.replay pairs) := by
  induction ops generalizing edges pairs with
  | nil => exact h
  | cons op ops ih => exact ih (h.step op)

/-- An edge of the list is an old one or joins the nodes of the call. -/
theorem EdgeOp.mem_onEdges {e : Edge} (he : e ∈ op.onEdges edges) :
    e ∈ edges ∨ (e.source, e.target) = op.pair := by
  cases op with
  | connect source target =>
    simp only [onEdges] at he
    split at he
    · exact Or.inl he
    · obtain he | he := List.mem_append.mp he
      · exact Or.inl he
      · obtain rfl := List.mem_singleton.mp he
        exact Or.inr rfl
  | disconnect source target => exact Or.inl (List.mem_of_mem_erase he)

/-- Every edge of the list joins nodes of the graph. -/
theorem live_run (hlive : ∀ op ∈ ops,
      (∃ nd, g.nodes op.pair.1 = some nd) ∧ ∃ nd, g.nodes op.pair.2 = some nd)
    (h : ∀ e ∈ edges, (∃ nd, g.nodes e.source = some nd) ∧ ∃ nd, g.nodes e.target = some nd) :
    ∀ e ∈ ops.foldl EdgeOp.onEdges edges,
      (∃ nd, g.nodes e.source = some nd) ∧ ∃ nd, g.nodes e.target = some nd := by
  induction ops generalizing edges with
  | nil => exact h
  | cons op ops ih =>
    refine ih (fun o ho => hlive o (List.mem_cons_of_mem op ho)) fun e he => ?_
    obtain hold | hpair := EdgeOp.mem_onEdges he
    · exact h e hold
    · obtain ⟨hsource, htarget⟩ := Prod.mk.inj hpair
      rw [hsource, htarget]
      exact hlive op List.mem_cons_self

/-- **The graph refines the list** over any sequence of calls on its nodes. -/
theorem runEdgeOps_withEdges (hlive : ∀ op ∈ ops,
      (∃ nd, g.nodes op.pair.1 = some nd) ∧ ∃ nd, g.nodes op.pair.2 = some nd) :
    (g.withEdges edges).runEdgeOps ops = some (g.withEdges (ops.foldl EdgeOp.onEdges edges)) := by
  induction ops generalizing edges with
  | nil => rfl
  | cons op ops ih =>
    obtain ⟨hu, hv⟩ := hlive op List.mem_cons_self
    -- one call at a time, on the views of whatever the list has become
    have hstep : op.run (g.withEdges edges) = some (g.withEdges (op.onEdges edges)) := by
      cases op with
      | connect source target => exact connectNodes_withEdges hu hv
      | disconnect source target => exact disconnectNodes_withEdges hu hv
    rw [runEdgeOps, List.foldlM_cons, hstep, Option.bind_eq_bind, Option.bind_some]
    exact ih fun o ho => hlive o (List.mem_cons_of_mem op ho)

/-! ### The set that the edge vectors represent -/

/-- The edge vectors represent a set of pairs of nodes: every edge is in both
vectors, each pair has at most one edge, and the connected pairs are those of
the set. -/
structure Represents (g : Graph) (pairs : Finset (NodeRef × NodeRef)) : Prop where
  exits : ∀ n nd, g.nodes n = some nd → ∀ e ∈ nd.exitEdges,
    e.source = n ∧ ∃ nd', g.nodes e.target = some nd' ∧ e ∈ nd'.entryEdges
  entries : ∀ n nd, g.nodes n = some nd → ∀ e ∈ nd.entryEdges,
    e.target = n ∧ ∃ nd', g.nodes e.source = some nd' ∧ e ∈ nd'.exitEdges
  exitOnce : ∀ n nd, g.nodes n = some nd → (nd.exitEdges.map Edge.target).Nodup
  entryOnce : ∀ n nd, g.nodes n = some nd → (nd.entryEdges.map Edge.source).Nodup
  connected : ∀ u v, g.Adj u v ↔ (u, v) ∈ pairs

theorem nodes_withEdges_iff {nd' : Node} : (g.withEdges edges).nodes n = some nd' ↔
    ∃ nd, g.nodes n = some nd ∧
      { nd with exitEdges := exitsAt edges n, entryEdges := entriesAt edges n } = nd' := by
  simp [withEdges, withVectors]

theorem mem_exitsAt {e : Edge} : e ∈ exitsAt edges n ↔ e ∈ edges ∧ e.source = n := by
  simp [exitsAt]

theorem mem_entriesAt {e : Edge} : e ∈ entriesAt edges n ↔ e ∈ edges ∧ e.target = n := by
  simp [entriesAt]

/-- Edges of one source have different targets, and conversely. -/
theorem nodup_map_exitsAt (h : edges.Nodup) (n : NodeRef) :
    ((exitsAt edges n).map Edge.target).Nodup := by
  refine List.Nodup.map_on ?_ (h.filter _)
  rintro ⟨source, target⟩ he ⟨source', target'⟩ he' rfl
  obtain rfl : source = n := (mem_exitsAt.mp he).2
  obtain rfl : source' = source := (mem_exitsAt.mp he').2
  rfl

theorem nodup_map_entriesAt (h : edges.Nodup) (n : NodeRef) :
    ((entriesAt edges n).map Edge.source).Nodup := by
  refine List.Nodup.map_on ?_ (h.filter _)
  rintro ⟨source, target⟩ he ⟨source', target'⟩ he' rfl
  obtain rfl : target = n := (mem_entriesAt.mp he).2
  obtain rfl : target' = target := (mem_entriesAt.mp he').2
  rfl

theorem adj_withEdges_iff (hlive : ∀ e ∈ edges, ∃ nd, g.nodes e.source = some nd) :
    (g.withEdges edges).Adj u v ↔ (⟨u, v⟩ : Edge) ∈ edges := by
  constructor
  · rintro ⟨nd', hnd', ⟨source, target⟩, he, rfl⟩
    obtain ⟨nd, -, rfl⟩ := nodes_withEdges_iff.mp hnd'
    obtain ⟨hmem, rfl⟩ := mem_exitsAt.mp he
    exact hmem
  · intro he
    obtain ⟨nd, hnd⟩ := hlive _ he
    exact ⟨_, nodes_withEdges_iff.mpr ⟨nd, hnd, rfl⟩, _, mem_exitsAt.mpr ⟨he, rfl⟩, rfl⟩

/-- **A list of edges between nodes is represented by its views.** -/
theorem Holds.represents (h : Holds edges pairs) (hlive : ∀ e ∈ edges,
      (∃ nd, g.nodes e.source = some nd) ∧ ∃ nd, g.nodes e.target = some nd) :
    Represents (g.withEdges edges) pairs where
  exits := by
    intro n nd' hnd' e he
    obtain ⟨nd, -, rfl⟩ := nodes_withEdges_iff.mp hnd'
    obtain ⟨hmem, rfl⟩ := mem_exitsAt.mp he
    obtain ⟨ndt, hndt⟩ := (hlive e hmem).2
    exact ⟨rfl, _, nodes_withEdges_iff.mpr ⟨ndt, hndt, rfl⟩, mem_entriesAt.mpr ⟨hmem, rfl⟩⟩
  entries := by
    intro n nd' hnd' e he
    obtain ⟨nd, -, rfl⟩ := nodes_withEdges_iff.mp hnd'
    obtain ⟨hmem, rfl⟩ := mem_entriesAt.mp he
    obtain ⟨nds, hnds⟩ := (hlive e hmem).1
    exact ⟨rfl, _, nodes_withEdges_iff.mpr ⟨nds, hnds, rfl⟩, mem_exitsAt.mpr ⟨hmem, rfl⟩⟩
  exitOnce := by
    intro n nd' hnd'
    obtain ⟨nd, -, rfl⟩ := nodes_withEdges_iff.mp hnd'
    exact nodup_map_exitsAt h.nodup n
  entryOnce := by
    intro n nd' hnd'
    obtain ⟨nd, -, rfl⟩ := nodes_withEdges_iff.mp hnd'
    exact nodup_map_entriesAt h.nodup n
  connected := fun u v => (adj_withEdges_iff fun e he => (hlive e he).1).trans (h.mem u v)

/-- A graph without edges is that of the empty list. -/
theorem withEdges_nil (hempty : ∀ n nd, g.nodes n = some nd →
    nd.exitEdges = [] ∧ nd.entryEdges = []) : g.withEdges [] = g := by
  obtain ⟨nodes, graphNodes⟩ := g
  simp only [withEdges, withVectors, Graph.mk.injEq, and_true]
  funext n
  cases hn : nodes n with
  | none => rfl
  | some nd =>
    obtain ⟨hexits, hentries⟩ := hempty n nd hn
    obtain ⟨data, entryEdges, exitEdges⟩ := nd
    cases hexits
    cases hentries
    rfl

/-- **Undoing a new edge** restores the edge vectors. -/
theorem connect_disconnect (hlive : ∀ e ∈ edges, ∃ nd, g.nodes e.source = some nd)
    (hu : ∃ nd, g.nodes u = some nd) (hv : ∃ nd, g.nodes v = some nd)
    (hnew : ¬ (g.withEdges edges).Adj u v) :
    ((g.withEdges edges).connectNodes u v).bind (fun g => g.disconnectNodes u v) =
      some (g.withEdges edges) := by
  have hnot : (⟨u, v⟩ : Edge) ∉ edges := fun he => hnew ((adj_withEdges_iff hlive).mpr he)
  rw [connectNodes_withEdges hu hv, if_neg hnot, Option.bind_some, disconnectNodes_withEdges hu hv,
    List.erase_append_right _ hnot, List.erase_cons_head, List.append_nil]

/-- **The edge vectors represent the replayed calls**, after every sequence of
calls on the nodes of a graph that has no edges at first; and a
`disconnectNodes` takes back a `connectNodes` that added an edge. -/
theorem runEdgeOps_spec
    (hempty : ∀ n nd, g.nodes n = some nd → nd.exitEdges = [] ∧ nd.entryEdges = [])
    (hlive : ∀ op ∈ ops,
      (∃ nd, g.nodes op.pair.1 = some nd) ∧ ∃ nd, g.nodes op.pair.2 = some nd) :
    ∃ g', g.runEdgeOps ops = some g' ∧ g'.Represents (ops.foldl EdgeOp.replay ∅) ∧
      ∀ u v, (∃ nd, g'.nodes u = some nd) → (∃ nd, g'.nodes v = some nd) → ¬ g'.Adj u v →
        (g'.connectNodes u v).bind (fun g => g.disconnectNodes u v) = some g' := by
  -- the empty list holds the empty set, and every call keeps the two in step
  have hinit : Holds [] ∅ := ⟨List.nodup_nil, by simp⟩
  have hedges : ∀ e ∈ ops.foldl EdgeOp.onEdges [],
      (∃ nd, g.nodes e.source = some nd) ∧ ∃ nd, g.nodes e.target = some nd :=
    live_run hlive (by simp)
  have hrun : (g.withEdges []).runEdgeOps ops =
      some (g.withEdges (ops.foldl EdgeOp.onEdges [])) := runEdgeOps_withEdges hlive
  rw [withEdges_nil hempty] at hrun
  refine ⟨_, hrun, (hinit.run ops).represents hedges, fun u v hu hv hnew => ?_⟩
  -- the calls do not add or delete nodes, so the two nodes were there at first
  obtain ⟨_, hu⟩ := hu
  obtain ⟨_, hv⟩ := hv
  obtain ⟨ndu, hndu, -⟩ := nodes_withEdges_iff.mp hu
  obtain ⟨ndv, hndv, -⟩ := nodes_withEdges_iff.mp hv
  exact connect_disconnect (fun e he => (hedges e he).1) ⟨ndu, hndu⟩ ⟨ndv, hndv⟩ hnew

/-- Two nodes without edges. -/
def twoNodes : Graph where
  nodes := fun n => if n < 2 then some (Node.new n .impTask 0) else none
  graphNodes := (OrdMap.empty.insert 0 0).insert 1 1

theorem runEdgeOps_spec_twoNodes :
    ∃ g', twoNodes.runEdgeOps [.connect 0 1, .connect 1 1, .connect 0 1, .disconnect 1 0,
        .disconnect 0 1] = some g' ∧ g'.Represents {(1, 1)} := by
  have hempty : ∀ n nd, twoNodes.nodes n = some nd → nd.exitEdges = [] ∧ nd.entryEdges = [] := by
    intro n nd hnd
    obtain rfl := Option.some.inj (Option.ite_none_right_eq_some.mp hnd).2
    exact ⟨rfl, rfl⟩
  have hlive : ∀ op ∈ [EdgeOp.connect 0 1, .connect 1 1, .connect 0 1, .disconnect 1 0,
      .disconnect 0 1], (∃ nd, twoNodes.nodes op.pair.1 = some nd) ∧
        ∃ nd, twoNodes.nodes op.pair.2 = some nd := by
    simp [EdgeOp.pair, twoNodes]
  obtain ⟨g', hrun, hrep, -⟩ := runEdgeOps_spec hempty hlive
  exact ⟨g', hrun, hrep⟩

end Graph

end Tdg
