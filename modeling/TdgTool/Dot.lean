/-
TdgTool/Dot.lean

`Graph::printDotFile` and a reader for what it writes.

The text is a list of characters.  How a `double` is written is left open
(`showTime`); all that matters is that it holds no quotation mark.  The reader
follows the grammar of the file and knows nothing of the graph: a statement is
a number followed by an arrow and a number, or by attributes in brackets; the
type of a node is its attribute `type`, and it is critical if it has the
attribute `shape`.
-/
import TdgTool.TopoSort
import TdgTool.Lib.Text

namespace Tdg

open Text

/-! ### Writing -/

/-- `Node::_typeStrings`. -/
def NodeType.typeStr : NodeType → List Char
  | .rootTask => "ROOT_TASK".toList
  | .impTask => "IMP_TASK".toList
  | .wsTask => "WS_TASK".toList
  | .chunkTask => "CHUNK_TASK".toList
  | .expTask => "EXP_TASK".toList
  | .barrier => "BARRIER".toList
  | .taskwait => "TASKWAIT".toList

/-- `Node::_fillColors`. -/
def NodeType.fillColor : NodeType → List Char
  | .rootTask => "dimgray".toList
  | .impTask => "darkgoldenrod1".toList
  | .wsTask => "darkolivegreen3".toList
  | .chunkTask => "bisque".toList
  | .expTask => "deepskyblue".toList
  | .barrier => "firebrick1".toList
  | .taskwait => "crimson".toList

namespace Node

/-- `Node::idToStr`.  A loop counter that was never set is written as 0. -/
def idToStr (nd : Node) : List Char :=
  match nd.type with
  | .chunkTask => decimal (nd.loopCounter.getD 0) ++ " [".toList ++ decimal nd.lower ++
      ", ".toList ++ decimal nd.upper ++ "]".toList
  | _ => decimal nd.id

/-- `Node::papiValsToStr`. -/
def papiValsToStr (nd : Node) (sepStr : List Char) : List Char :=
  nd.papiVals.flatMap fun v => sepStr ++ decimal v

/-- `Node::printToStream`. -/
def printToStream (showTime : ℚ → List Char) (nd : Node) : List Char :=
  decimal nd.id ++ " [style=\"filled\" label=\"".toList ++ showTime nd.totalTime ++
    " * ".toList ++ nd.idToStr ++ nd.papiValsToStr " * ".toList ++
    "\" type=\"".toList ++ nd.type.typeStr ++ "\"".toList ++
    (if nd.isCritical then " shape=\"doublecircle\"".toList else []) ++
    " fillcolor=\"".toList ++ nd.type.fillColor ++ "\"];\n".toList

end Node

namespace Graph

/-- The lines of one node: the node and its exit edges. -/
def printNode (g : Graph) (showTime : ℚ → List Char) (currNode : NodeRef) :
    Option (List Char) := do
  let nd ← g.nodes currNode
  let edges ← (nd.exitEdges.map Edge.target).mapM fun adjNode => do
    let adj ← g.nodes adjNode
    some (decimal nd.id ++ " -> ".toList ++ decimal adj.id ++ ";\n".toList)
  some (nd.printToStream showTime ++ edges.flatten)

/-- `Graph::printDotFile`: the text of the file. -/
def printDotFile (g : Graph) (showTime : ℚ → List Char) : Option (List Char) := do
  let lines ← (g.graphNodes.entries.map Prod.snd).mapM (g.printNode showTime)
  some ("digraph \x7b\n".toList ++ lines.flatten ++ "\x7d\n".toList)

end Graph

/-! ### Reading -/

namespace Dot

/-- A statement of the file. -/
inductive Stmt
  | node (id : ℤ) (type : NodeType) (critical : Bool)
  | edge (source target : ℤ)
  deriving DecidableEq, Repr

/-- Attributes `name="value"`, separated by blanks, up to the closing
bracket. -/
def readAttrs : ℕ → List Char → Option (List (List Char × List Char) × List Char)
  | 0, _ => none
  | fuel + 1, s => do
      let (name, s) ← readUntil '=' s
      let s ← expect ['"'] s
      let (value, s) ← readUntil '"' s
      -- a blank announces another attribute
      match expect [' '] s with
      | some s => do
          let (attrs, s) ← readAttrs fuel s
          some ((name, value) :: attrs, s)
      | none => do
          let s ← expect "];\n".toList s
          some ([(name, value)], s)

/-- The node type of a name. -/
def readType (s : List Char) : Option NodeType :=
  [NodeType.rootTask, .impTask, .wsTask, .chunkTask, .expTask, .barrier, .taskwait].find? fun t =>
    t.typeStr = s

/-- The node that a number and attributes declare. -/
def nodeStmt (id : ℤ) (attrs : List (List Char × List Char)) : Option Stmt := do
  let name ← attrs.lookup "type".toList
  let type ← readType name
  some (.node id type (attrs.lookup "shape".toList = some "doublecircle".toList))

def readStmt (s : List Char) : Option (Stmt × List Char) := do
  let (id, s) ← readInt s
  match expect " -> ".toList s with
  | some s => do
      let (target, s) ← readInt s
      let s ← expect ";\n".toList s
      some (.edge id target, s)
  | none => do
      let s ← expect " [".toList s
      let (attrs, s) ← readAttrs s.length s
      let st ← nodeStmt id attrs
      some (st, s)

def readStmts : ℕ → List Char → Option (List Stmt)
  | 0, _ => none
  | fuel + 1, s =>
      -- a closing brace ends the file, and nothing may follow it
      match expect "\x7d\n".toList s with
      | some [] => some []
      | some _ => none
      | none => do
          let (st, s) ← readStmt s
          let sts ← readStmts fuel s
          some (st :: sts)

/-- Read a whole file. -/
def read (s : List Char) : Option (List Stmt) := do
  let s ← expect "digraph \x7b\n".toList s
  readStmts (s.length + 1) s

/-! ### Reading attributes back -/

/-- How attributes are written. -/
def writeAttrs : List (List Char × List Char) → List Char
  | [] => []
  | [a] => a.1 ++ "=\"".toList ++ a.2 ++ "\"];\n".toList
  | a :: b :: l => a.1 ++ "=\"".toList ++ a.2 ++ "\" ".toList ++ writeAttrs (b :: l)

theorem length_le_writeAttrs (attrs : List (List Char × List Char)) :
    attrs.length ≤ (writeAttrs attrs).length := by
  induction attrs with
  | nil => exact Nat.le_refl 0
  | cons a l ih =>
    rcases l with - | ⟨b, l⟩
    · simp [writeAttrs]
      omega
    · simp only [writeAttrs, List.length_append, List.length_cons] at ih ⊢
      have : 1 ≤ "=\"".toList.length := by decide
      omega

theorem readAttrs_writeAttrs {attrs : List (List Char × List Char)} (hne : attrs ≠ [])
    (h : ∀ a ∈ attrs, '=' ∉ a.1 ∧ '"' ∉ a.2) {fuel : ℕ} (hfuel : attrs.length ≤ fuel)
    (s : List Char) : readAttrs fuel (writeAttrs attrs ++ s) = some (attrs, s) := by
  -- one attribute, whatever follows: a name without `=` and a value without quotes
  have hattr : ∀ (a : List Char × List Char) (s : List Char), '=' ∉ a.1 → '"' ∉ a.2 →
      ∀ {fuel}, readAttrs (fuel + 1) (a.1 ++ '=' :: '"' :: (a.2 ++ '"' :: s))
        = match expect [' '] s with
          | some s => (readAttrs fuel s).bind fun b => some (a :: b.1, b.2)
          | none => (expect "];\n".toList s).bind fun s => some ([a], s) := by
    intro a s h1 h2 fuel
    rw [readAttrs, readUntil_append h1]
    simp only [Option.bind_eq_bind, Option.bind_some, expect, if_true, readUntil_append h2]
  induction attrs generalizing fuel with
  | nil => exact absurd rfl hne
  | cons a l ih =>
    obtain ⟨fuel, rfl⟩ : ∃ k, fuel = k + 1 := ⟨fuel - 1, by simp at hfuel; omega⟩
    obtain ⟨h1, h2⟩ := h a List.mem_cons_self
    -- the last attribute is followed by the bracket, the others by a blank
    rcases l with - | ⟨b, l⟩
    · have htext : writeAttrs [a] ++ s
          = a.1 ++ '=' :: '"' :: (a.2 ++ '"' :: ("];\n".toList ++ s)) := by
        simp [writeAttrs]
      rw [htext, hattr a _ h1 h2]
      simp [expect]
    · have htext : writeAttrs (a :: b :: l) ++ s
          = a.1 ++ '=' :: '"' :: (a.2 ++ '"' :: (' ' :: (writeAttrs (b :: l) ++ s))) := by
        simp [writeAttrs]
      have hrest := @ih (by simp) (fun c hc => h c (List.mem_cons_of_mem a hc)) fuel
        (by simpa using hfuel)
      rw [htext, hattr a _ h1 h2]
      simp [expect, hrest]

/-! ### Reading statements back -/

/-- The attributes of a node statement. -/
def attrs (showTime : ℚ → List Char) (nd : Node) : List (List Char × List Char) :=
  ("style".toList, "filled".toList) ::
  ("label".toList, showTime nd.totalTime ++ " * ".toList ++ nd.idToStr ++
    nd.papiValsToStr " * ".toList) ::
  ("type".toList, nd.type.typeStr) ::
  ((if nd.isCritical then [("shape".toList, "doublecircle".toList)] else []) ++
    [("fillcolor".toList, nd.type.fillColor)])

theorem printToStream_eq (showTime : ℚ → List Char) (nd : Node) :
    nd.printToStream showTime = decimal nd.id ++ " [".toList ++ writeAttrs (attrs showTime nd) := by
  unfold Node.printToStream attrs
  cases nd.isCritical <;> simp [writeAttrs]

variable {showTime : ℚ → List Char}

theorem quote_notMem_label (htime : ∀ t, '"' ∉ showTime t) (nd : Node) :
    '"' ∉ showTime nd.totalTime ++ " * ".toList ++ nd.idToStr ++
      nd.papiValsToStr " * ".toList := by
  have hnum : ∀ i, '"' ∉ decimal i := fun i => notMem_decimal (by decide) (by decide)
  -- a number has digits and a sign, the time is free of quotes by assumption
  have hid : '"' ∉ nd.idToStr := by
    unfold Node.idToStr
    split <;> simp [hnum]
  have hpapi : '"' ∉ nd.papiValsToStr " * ".toList := by
    simp [Node.papiValsToStr, hnum]
  simp only [List.mem_append, not_or]
  exact ⟨⟨⟨htime _, by decide⟩, hid⟩, hpapi⟩

theorem attrs_ok (htime : ∀ t, '"' ∉ showTime t) (nd : Node) :
    ∀ a ∈ attrs showTime nd, '=' ∉ a.1 ∧ '"' ∉ a.2 := by
  have htype : '"' ∉ nd.type.typeStr := by cases nd.type <;> decide
  have hcolor : '"' ∉ nd.type.fillColor := by cases nd.type <;> decide
  have hlabel := quote_notMem_label htime nd
  intro a ha
  simp only [attrs, List.mem_cons, List.mem_append, List.not_mem_nil, or_false] at ha
  rcases ha with rfl | rfl | rfl | ha | rfl
  · exact ⟨by decide, by decide⟩
  · exact ⟨(by decide : '=' ∉ "label".toList), hlabel⟩
  · exact ⟨(by decide : '=' ∉ "type".toList), htype⟩
  · by_cases hcrit : nd.isCritical = true
    · rw [if_pos hcrit, List.mem_singleton] at ha
      rw [ha]
      exact ⟨by decide, by decide⟩
    · rw [if_neg hcrit] at ha
      cases ha
  · exact ⟨(by decide : '=' ∉ "fillcolor".toList), hcolor⟩

theorem readType_typeStr (t : NodeType) : readType t.typeStr = some t := by cases t <;> decide

theorem nodeStmt_attrs (nd : Node) :
    nodeStmt nd.id (attrs showTime nd) = some (.node nd.id nd.type nd.isCritical) := by
  have htype : (attrs showTime nd).lookup "type".toList = some nd.type.typeStr := by
    have h1 : ("type".toList == "style".toList) = false := by decide
    have h2 : ("type".toList == "label".toList) = false := by decide
    simp only [attrs, List.lookup_cons, h1, h2, beq_self_eq_true]
  -- `shape` stands in the list only for a critical node
  have hshape : (attrs showTime nd).lookup "shape".toList
      = if nd.isCritical then some "doublecircle".toList else none := by
    have h1 : ("shape".toList == "style".toList) = false := by decide
    have h2 : ("shape".toList == "label".toList) = false := by decide
    have h3 : ("shape".toList == "type".toList) = false := by decide
    have h4 : ("shape".toList == "fillcolor".toList) = false := by decide
    simp only [attrs, List.lookup_cons, h1, h2, h3]
    cases nd.isCritical
    · simp only [Bool.false_eq_true, if_false, List.nil_append, List.lookup_cons, h4,
        List.lookup_nil]
    · simp only [if_true, List.cons_append, List.lookup_cons, beq_self_eq_true]
  rw [nodeStmt, htype, Option.bind_eq_bind, Option.bind_some, readType_typeStr,
    Option.bind_eq_bind, Option.bind_some, hshape]
  cases nd.isCritical <;> rfl

/-- A node statement is read back as the node. -/
theorem readStmt_node (htime : ∀ t, '"' ∉ showTime t) (nd : Node) (s : List Char) :
    readStmt (nd.printToStream showTime ++ s)
      = some (.node nd.id nd.type nd.isCritical, s) := by
  have hlen : (attrs showTime nd).length ≤ (writeAttrs (attrs showTime nd) ++ s).length := by
    rw [List.length_append]
    exact (length_le_writeAttrs _).trans (Nat.le_add_right _ _)
  have hne : attrs showTime nd ≠ [] := List.cons_ne_nil _ _
  have hattrs := readAttrs_writeAttrs hne (attrs_ok htime nd) hlen s
  have htext : nd.printToStream showTime ++ s
      = decimal nd.id ++ (" [".toList ++ (writeAttrs (attrs showTime nd) ++ s)) := by
    rw [printToStream_eq, List.append_assoc, List.append_assoc]
  rw [htext]
  generalize writeAttrs (attrs showTime nd) ++ s = t at hattrs
  -- the number ends at the blank
  have hno : NoDigit (" [".toList ++ t) := by
    intro c hc
    obtain rfl : ' ' = c := by simpa using hc
    decide
  have harrow : expect " -> ".toList (" [".toList ++ t) = none := by simp [expect]
  rw [readStmt, readInt_decimal nd.id hno]
  simp only [Option.bind_eq_bind, Option.bind_some, harrow, expect_append, hattrs,
    nodeStmt_attrs]

/-- An edge statement is read back as the edge. -/
theorem readStmt_edge (a b : ℤ) (s : List Char) :
    readStmt (decimal a ++ " -> ".toList ++ decimal b ++ ";\n".toList ++ s)
      = some (.edge a b, s) := by
  have htext : decimal a ++ " -> ".toList ++ decimal b ++ ";\n".toList ++ s
      = decimal a ++ (" -> ".toList ++ (decimal b ++ (";\n".toList ++ s))) := by simp
  have h1 : NoDigit (" -> ".toList ++ (decimal b ++ (";\n".toList ++ s))) := by
    intro c hc
    obtain rfl : ' ' = c := by simpa using hc
    decide
  have h2 : NoDigit (";\n".toList ++ s) := by
    intro c hc
    obtain rfl : ';' = c := by simpa using hc
    decide
  rw [htext, readStmt, readInt_decimal a h1]
  simp only [Option.bind_eq_bind, Option.bind_some, expect_append, readInt_decimal b h2]

/-- A number is not the end of the file. -/
theorem expect_end_decimal (i : ℤ) (s : List Char) :
    expect "\x7d\n".toList (decimal i ++ s) = none := by
  have hmem : '}' ∉ decimal i := notMem_decimal (by decide) (by decide)
  -- a number is not empty, and no character of it is a brace
  rcases hi : decimal i with - | ⟨c, cs⟩
  · have := readInt_decimal i (s := []) (by simp [NoDigit])
    rw [hi] at this
    simp [readInt, readNat] at this
  · have hc : '}' ≠ c := by
      rintro rfl
      exact hmem (by simp [hi])
    exact expect_of_ne hc _ _

/-- The text of a statement: what is read back from it, whatever follows. -/
structure Writes (w : List Char) (st : Stmt) : Prop where
  read : ∀ s, readStmt (w ++ s) = some (st, s)
  notEnd : ∀ s, expect "\x7d\n".toList (w ++ s) = none
  ne_nil : w ≠ []

theorem writes_node (htime : ∀ t, '"' ∉ showTime t) (nd : Node) :
    Writes (nd.printToStream showTime) (.node nd.id nd.type nd.isCritical) where
  read := readStmt_node htime nd
  notEnd := fun s => by
    rw [printToStream_eq, List.append_assoc, List.append_assoc]
    exact expect_end_decimal nd.id _
  ne_nil := by
    rw [printToStream_eq]
    simp

theorem writes_edge (a b : ℤ) :
    Writes (decimal a ++ " -> ".toList ++ decimal b ++ ";\n".toList) (.edge a b) where
  read := fun s => readStmt_edge a b s
  notEnd := fun s => by
    simp only [List.append_assoc]
    exact expect_end_decimal a _
  ne_nil := by simp

theorem length_le_flatten {ws : List (List Char)} {sts : List Stmt}
    (h : List.Forall₂ Writes ws sts) : sts.length ≤ ws.flatten.length := by
  induction h with
  | nil => exact Nat.le_refl 0
  | cons hw _ ih =>
    have := List.length_pos_iff.mpr hw.ne_nil
    simp only [List.length_cons, List.flatten_cons, List.length_append]
    omega

/-- **A sequence of statements is read back.** -/
theorem readStmts_flatten {ws : List (List Char)} {sts : List Stmt}
    (h : List.Forall₂ Writes ws sts) {fuel : ℕ} (hfuel : sts.length < fuel) :
    readStmts fuel (ws.flatten ++ "\x7d\n".toList) = some sts := by
  induction h generalizing fuel with
  | nil =>
    obtain ⟨fuel, rfl⟩ : ∃ k, fuel = k + 1 := ⟨fuel - 1, by simp at hfuel; omega⟩
    simp [readStmts, expect]
  | @cons w st ws sts hw _ ih =>
    obtain ⟨fuel, rfl⟩ : ∃ k, fuel = k + 1 := ⟨fuel - 1, by simp at hfuel; omega⟩
    rw [List.flatten_cons, List.append_assoc, readStmts, hw.notEnd]
    simp only [hw.read, Option.bind_eq_bind, Option.bind_some]
    rw [ih (by simpa using hfuel)]
    rfl

/-- The number and the node of a node statement. -/
def Stmt.id? : Stmt → Option ℤ
  | .node id _ _ => some id
  | .edge _ _ => none

/-- The ends of an edge statement. -/
def Stmt.edge? : Stmt → Option (ℤ × ℤ)
  | .node _ _ _ => none
  | .edge source target => some (source, target)

end Dot

/-! ### The file of a graph -/

namespace Graph

open Dot

variable {g : Graph} {n u v : NodeRef} {nd : Node} {showTime : ℚ → List Char}

/-- Every key is the id of its node, the exit edges stay in the graph, and no
two of a node lead to the same target. -/
structure Listed (g : Graph) : Prop where
  ids : ∀ a ∈ g.graphNodes.entries, ∃ nd, g.nodes a.2 = some nd ∧ nd.id = a.1
  exits : ∀ n nd, g.Present n → g.nodes n = some nd → ∀ e ∈ nd.exitEdges, g.Present e.target
  single : ∀ n nd, g.Present n → g.nodes n = some nd → (nd.exitEdges.map Edge.target).Nodup

/-- The id of the node at an address. -/
def idOf (g : Graph) (n : NodeRef) : ℤ :=
  match g.nodes n with
  | some nd => nd.id
  | none => 0

theorem idOf_eq (h : g.nodes n = some nd) : g.idOf n = nd.id := by simp [idOf, h]

theorem Listed.entry (h : g.Listed) {id : ℤ} (hn : (id, n) ∈ g.graphNodes.entries) :
    ∃ nd, g.nodes n = some nd ∧ nd.id = id ∧ g.idOf n = id := by
  obtain ⟨nd, hnd, hid⟩ := h.ids (id, n) hn
  exact ⟨nd, hnd, hid, (idOf_eq hnd).trans hid⟩

theorem Listed.entry_idOf (h : g.Listed) (hn : g.Present n) :
    (g.idOf n, n) ∈ g.graphNodes.entries := by
  obtain ⟨id, hid⟩ := hn
  obtain ⟨-, -, -, h1⟩ := h.entry hid
  rwa [h1]

/-- Two nodes of the graph have different ids. -/
theorem Listed.idOf_inj (h : g.Listed) (hu : g.Present u) (hv : g.Present v)
    (huv : g.idOf u = g.idOf v) : u = v := by
  have h1 := h.entry_idOf hu
  have h2 := h.entry_idOf hv
  rw [huv] at h1
  exact congrArg Prod.snd (OrdMap.entry_unique h1 h2 rfl)

theorem Listed.targets (h : g.Listed) (hn : g.Present n) : ∀ v ∈ g.targets n, g.Present v := by
  obtain ⟨id, hid⟩ := id hn
  obtain ⟨nd, hnd, -⟩ := h.ids _ hid
  intro v hv
  rw [targets_eq hnd] at hv
  obtain ⟨e, he, rfl⟩ := List.mem_map.mp hv
  exact h.exits n nd hn hnd e he

/-- The edge statements of a node. -/
def edgeStmts (g : Graph) (n : NodeRef) : List Stmt :=
  (g.targets n).map fun v => .edge (g.idOf n) (g.idOf v)

/-- The statements of a node. -/
def nodeStmts (g : Graph) (n : NodeRef) : List Stmt :=
  match g.nodes n with
  | some nd => .node nd.id nd.type nd.isCritical :: g.edgeStmts n
  | none => []

/-- The statements of the graph. -/
def stmts (g : Graph) : List Stmt := (g.graphNodes.entries.map Prod.snd).flatMap g.nodeStmts

theorem nodeStmts_eq (h : g.nodes n = some nd) :
    g.nodeStmts n = .node nd.id nd.type nd.isCritical :: g.edgeStmts n := by
  simp [nodeStmts, h]

/-- The lines of a node. -/
theorem printNode_writes (h : g.Listed) (htime : ∀ t, '"' ∉ showTime t) (hn : g.Present n) :
    ∃ ws, g.printNode showTime n = some ws.flatten ∧
      List.Forall₂ Writes ws (g.nodeStmts n) := by
  obtain ⟨nd, hnd, -, hid⟩ := h.entry (h.entry_idOf hn)
  -- the loop over the exit edges writes one statement for each target
  have hedges : ∀ vs : List NodeRef, (∀ v ∈ vs, g.Present v) →
      ∃ ws, vs.mapM (fun v => (g.nodes v).bind fun adj =>
          some (decimal nd.id ++ " -> ".toList ++ decimal adj.id ++ ";\n".toList)) = some ws ∧
        List.Forall₂ Writes ws (vs.map fun v => .edge (g.idOf n) (g.idOf v)) := by
    intro vs
    induction vs with
    | nil => exact fun _ => ⟨[], rfl, .nil⟩
    | cons v vs ih =>
      intro hvs
      obtain ⟨ws, h1, h2⟩ := ih fun w hw => hvs w (List.mem_cons_of_mem v hw)
      obtain ⟨nv, hnv, -, -⟩ := h.entry (h.entry_idOf (hvs v List.mem_cons_self))
      refine ⟨_ :: ws, ?_, .cons (writes_edge (g.idOf n) (g.idOf v)) h2⟩
      rw [List.mapM_cons, hnv, h1, idOf_eq hnd, idOf_eq hnv]
      rfl
  obtain ⟨ws, h1, h2⟩ := hedges (g.targets n) (h.targets hn)
  refine ⟨nd.printToStream showTime :: ws, ?_, ?_⟩
  · rw [targets_eq hnd] at h1
    rw [printNode, hnd]
    simp only [Option.bind_eq_bind, Option.bind_some, h1, List.flatten_cons]
  · rw [nodeStmts_eq hnd]
    exact .cons (writes_node htime nd) h2

/-- **The file is read back as the statements of the graph.** -/
theorem read_printDotFile (h : g.Listed) (htime : ∀ t, '"' ∉ showTime t) :
    ∃ text, g.printDotFile showTime = some text ∧ Dot.read text = some g.stmts := by
  have hlines : ∀ ns : List NodeRef, (∀ n ∈ ns, g.Present n) →
      ∃ lines ws, ns.mapM (g.printNode showTime) = some lines ∧ lines.flatten = ws.flatten ∧
        List.Forall₂ Writes ws (ns.flatMap g.nodeStmts) := by
    intro ns
    induction ns with
    | nil => exact fun _ => ⟨[], [], rfl, rfl, .nil⟩
    | cons n ns ih =>
      intro hns
      obtain ⟨lines, ws, h1, h2, h3⟩ := ih fun w hw => hns w (List.mem_cons_of_mem n hw)
      obtain ⟨ws', h4, h5⟩ := printNode_writes h htime (hns n List.mem_cons_self)
      refine ⟨ws'.flatten :: lines, ws' ++ ws, ?_, by simp [h2], List.rel_append h5 h3⟩
      rw [List.mapM_cons, h4, h1]
      rfl
  obtain ⟨lines, ws, h1, h2, h3⟩ := hlines (g.graphNodes.entries.map Prod.snd) fun n hn => by
    simpa [Present] using hn
  refine ⟨_, by rw [printDotFile, h1]; rfl, ?_⟩
  -- every statement takes at least one character, so the length of the text is fuel enough
  have hlen : g.stmts.length ≤ ws.flatten.length := length_le_flatten h3
  rw [Dot.read, List.append_assoc, expect_append, Option.bind_eq_bind, Option.bind_some, h2]
  refine readStmts_flatten h3 ?_
  rw [List.length_append]
  exact Nat.lt_succ_of_le (hlen.trans (Nat.le_add_right _ _))

/-! ### What the statements say -/

/-- The node statements are those of the nodes of the graph. -/
theorem Listed.mem_node (h : g.Listed) {id : ℤ} {type : NodeType} {critical : Bool} :
    .node id type critical ∈ g.stmts ↔ ∃ n nd, (id, n) ∈ g.graphNodes.entries ∧
      g.nodes n = some nd ∧ nd.type = type ∧ nd.isCritical = critical := by
  have hedge : ∀ n, Stmt.node id type critical ∉ g.edgeStmts n := by simp [edgeStmts]
  simp only [stmts, List.mem_flatMap, List.mem_map]
  constructor
  · rintro ⟨n, ⟨a, ha, rfl⟩, hst⟩
    obtain ⟨nd, hnd, hid⟩ := h.ids a ha
    rw [nodeStmts_eq hnd, List.mem_cons] at hst
    have heq := hst.resolve_right (hedge _)
    injection heq with h1 h2 h3
    exact ⟨a.2, nd, by rw [h1, hid]; exact ha, hnd, h2.symm, h3.symm⟩
  · rintro ⟨n, nd, ha, hnd, rfl, rfl⟩
    obtain ⟨nd', hnd', hid⟩ := h.ids _ ha
    obtain rfl : nd' = nd := Option.some.inj (hnd'.symm.trans hnd)
    refine ⟨n, ⟨_, ha, rfl⟩, ?_⟩
    rw [nodeStmts_eq hnd]
    simp [hid]

/-- The edge statements are those of the edges of the graph. -/
theorem Listed.mem_edge (h : g.Listed) {a b : ℤ} :
    .edge a b ∈ g.stmts ↔ ∃ u v, g.Present u ∧ g.Adj u v ∧ g.idOf u = a ∧ g.idOf v = b := by
  simp only [stmts, List.mem_flatMap, List.mem_map]
  constructor
  · rintro ⟨n, ⟨e, he, rfl⟩, hst⟩
    obtain ⟨nd, hnd, -⟩ := h.ids e he
    rw [nodeStmts_eq hnd, List.mem_cons] at hst
    have hst := hst.resolve_left (by simp)
    obtain ⟨v, hv, heq⟩ := List.mem_map.mp hst
    injection heq with h1 h2
    exact ⟨e.2, v, ⟨e.1, he⟩, mem_targets.mp hv, h1, h2⟩
  · rintro ⟨u, v, ⟨id, hu⟩, huv, rfl, rfl⟩
    obtain ⟨nd, hnd, -⟩ := h.ids _ hu
    refine ⟨u, ⟨_, hu, rfl⟩, ?_⟩
    rw [nodeStmts_eq hnd]
    exact List.mem_cons_of_mem _ (List.mem_map.mpr ⟨v, mem_targets.mpr huv, rfl⟩)

/-- Every node is declared once, in the order of the ids. -/
theorem Listed.ids_stmts (h : g.Listed) :
    g.stmts.filterMap Stmt.id? = g.graphNodes.entries.map Prod.fst := by
  have hedges : ∀ n, (g.edgeStmts n).filterMap Stmt.id? = [] := by
    intro n
    simp [edgeStmts, Stmt.id?]
  unfold stmts
  have hids := h.ids
  generalize g.graphNodes.entries = entries at hids ⊢
  induction entries with
  | nil => rfl
  | cons a l ih =>
    obtain ⟨nd, hnd, hid⟩ := hids a List.mem_cons_self
    rw [List.map_cons, List.flatMap_cons, List.filterMap_append, nodeStmts_eq hnd,
      List.filterMap_cons, hedges, ih fun b hb => hids b (List.mem_cons_of_mem a hb)]
    simp [Stmt.id?, hid]

/-- Every edge is written once. -/
theorem Listed.edges_nodup (h : g.Listed) : (g.stmts.filterMap Stmt.edge?).Nodup := by
  have hedges : ∀ a ∈ g.graphNodes.entries, (g.nodeStmts a.2).filterMap Stmt.edge?
      = (g.targets a.2).map fun v => (a.1, g.idOf v) := by
    intro a ha
    obtain ⟨nd, hnd, -, hid⟩ := h.entry ha
    rw [nodeStmts_eq hnd, List.filterMap_cons]
    simp [Stmt.edge?, edgeStmts, hid, List.filterMap_map, Function.comp_def]
  have hall : g.stmts.filterMap Stmt.edge?
      = g.graphNodes.entries.flatMap fun a => (g.targets a.2).map fun v => (a.1, g.idOf v) := by
    rw [stmts, List.flatMap_map, List.filterMap_flatMap]
    exact List.flatMap_congr hedges
  rw [hall, List.nodup_flatMap]
  refine ⟨fun a ha => ?_, ?_⟩
  · obtain ⟨nd, hnd, -⟩ := h.ids a ha
    have hsingle := h.single a.2 nd ⟨a.1, ha⟩ hnd
    rw [← targets_eq hnd] at hsingle
    -- within a node: different targets have different ids
    refine hsingle.map_on fun v hv w hw hvw => ?_
    have hpresent := h.targets ⟨a.1, ha⟩
    exact h.idOf_inj (hpresent v hv) (hpresent w hw) (congrArg Prod.snd hvw)
  -- across nodes: the ids of the sources differ
  · refine g.graphNodes.sorted.imp fun {a b} hab => ?_
    intro x hx hy
    obtain ⟨v, -, rfl⟩ := List.mem_map.mp hx
    obtain ⟨w, -, hw⟩ := List.mem_map.mp hy
    exact absurd (congrArg Prod.fst hw) hab.ne'

/-- What the graph declares in its file. -/
def DotNode (g : Graph) (id : ℤ) (type : NodeType) (critical : Bool) : Prop :=
  ∃ n nd, (id, n) ∈ g.graphNodes.entries ∧ g.nodes n = some nd ∧ nd.type = type ∧
    nd.isCritical = critical

def DotEdge (g : Graph) (a b : ℤ) : Prop :=
  ∃ u v, g.Present u ∧ g.Adj u v ∧ g.idOf u = a ∧ g.idOf v = b

/-- **The DOT file determines the graph.**  Reading the text gives every node
once with its type and critical flag and every edge once, with both ends
declared; so graphs with the same text have the same nodes and edges. -/
theorem printDotFile_determines (h : g.Listed) (htime : ∀ t, '"' ∉ showTime t ∧ '\n' ∉ showTime t) :
    (∃ text sts, g.printDotFile showTime = some text ∧ Dot.read text = some sts ∧
      (∀ id type critical, .node id type critical ∈ sts ↔ g.DotNode id type critical) ∧
      (sts.filterMap Stmt.id?).Nodup ∧
      (∀ a b, .edge a b ∈ sts ↔ g.DotEdge a b) ∧
      (sts.filterMap Stmt.edge?).Nodup ∧
      ∀ a b, .edge a b ∈ sts → a ∈ sts.filterMap Stmt.id? ∧ b ∈ sts.filterMap Stmt.id?) ∧
    ∀ g' : Graph, g'.Listed → g'.printDotFile showTime = g.printDotFile showTime →
      (∀ id type critical, g'.DotNode id type critical ↔ g.DotNode id type critical) ∧
      ∀ a b, g'.DotEdge a b ↔ g.DotEdge a b := by
  have hquote := fun t => (htime t).1
  obtain ⟨text, h1, h2⟩ := read_printDotFile h hquote
  refine ⟨⟨text, g.stmts, h1, h2, fun _ _ _ => h.mem_node, ?_, fun _ _ => h.mem_edge,
    h.edges_nodup, ?_⟩, ?_⟩
  · rw [h.ids_stmts]
    exact g.graphNodes.keys_nodup
  · intro a b hab
    obtain ⟨u, v, hu, huv, rfl, rfl⟩ := h.mem_edge.mp hab
    have hv := h.targets hu v (mem_targets.mpr huv)
    rw [h.ids_stmts]
    exact ⟨List.mem_map.mpr ⟨_, h.entry_idOf hu, rfl⟩, List.mem_map.mpr ⟨_, h.entry_idOf hv, rfl⟩⟩
  · intro g' h' heq
    obtain ⟨text', h3, h4⟩ := read_printDotFile h' hquote
    obtain rfl : text' = text := Option.some.inj (h3.symm.trans (heq.trans h1))
    -- what is read depends on the text alone
    have hsts : g'.stmts = g.stmts := Option.some.inj (h4.symm.trans h2)
    refine ⟨fun id type critical => ?_, fun a b => ?_⟩
    · exact h'.mem_node.symm.trans (by rw [hsts]; exact h.mem_node)
    · exact h'.mem_edge.symm.trans (by rw [hsts]; exact h.mem_edge)

theorem diamond_listed : diamond.Listed where
  ids := by
    intro a ha
    simp only [diamond, List.mem_cons, List.not_mem_nil, or_false] at ha
    obtain rfl | rfl | rfl | rfl := ha <;> exact ⟨_, rfl, rfl⟩
  exits := diamond_closed.exits
  single := by
    intro n nd hn hnd
    obtain rfl | rfl | rfl | rfl := diamond_present hn <;> cases hnd <;> decide

theorem printDotFile_determines_diamond :
    ∃ text sts, diamond.printDotFile (fun t => decimal t.num) = some text ∧
      Dot.read text = some sts ∧ .edge 0 2 ∈ sts := by
  obtain ⟨⟨text, sts, h1, h2, -, -, h3, -⟩, -⟩ := @printDotFile_determines
    diamond (fun t => decimal t.num) diamond_listed fun t =>
      ⟨notMem_decimal (by decide) (by decide), notMem_decimal (by decide) (by decide)⟩
  refine ⟨text, sts, h1, h2, (h3 0 2).mpr ⟨0, 2, by simp [Present, diamond], ?_, rfl, rfl⟩⟩
  exact ⟨_, rfl, ⟨0, 2⟩, by simp, rfl⟩

end Graph

end Tdg
