import Gauv.Worklist
import Gauv.Backend.Assertions

/-!
# Graphs that differ in the order of EVAL inputs

Iterating an unordered set in another order permutes the inputs of new EVALs,
the addresses of new operations and the out-lists.  The shape of an edge is what
is left: its hash, its type, its output, and its inputs, in order unless it is
an EVAL.  Two graphs are alike when their in-lists show the same shapes in the
same order.  Nothing the prover reads off a graph tells alike graphs apart.
-/

namespace Gauv

open GraphBase

/-! ## The in-lists of a rewritten graph -/

namespace Graph

variable {g : Graph}

/-- An eliminated edge leaves the in-list it stood in, the rest of which stays in
order. -/
theorem inEdges_eliminateEdge {e : Operation} (hg : g.WellFormed) (he : g.HasEdge e) (v : ℕ) :
    (g.eliminateEdge e).inEdges v = (g.inEdges v).filter (fun f => f ≠ e) := by
  rw [eliminateEdge_inEdges]
  split
  · rw [eraseP_eq_erase (a := e), (hg.nodup_inEdges v).erase_eq_filter]
    · exact List.filter_congr fun f _ => by rw [Bool.eq_iff_iff]; simp
    · intro f hf
      rw [beq_iff_eq]
      exact id_eq_iff hg he (Or.inl ⟨v, hf⟩)
  · rename_i hne
    refine (List.filter_eq_self.2 fun f hf => ?_).symm
    have hfv := (hg.mem_inEdges.1 hf).2
    simp only [ne_eq, decide_not, Bool.not_eq_true', decide_eq_false_iff_not]
    exact fun h => hne (h ▸ hfv)

/-- Eliminated edges leave the in-lists, the rest of which stays in order. -/
theorem inEdges_eliminateEdges {es : List Operation} (hg : g.WellFormed) (h : g.Removable es)
    (v : ℕ) : (g.eliminateEdges es).inEdges v = (g.inEdges v).filter (fun f => f ∉ es) := by
  induction es generalizing g with
  | nil => simp [eliminateEdges]
  | cons e es ih =>
      have he := h.present e (List.mem_cons_self ..)
      rw [eliminateEdges, List.foldl_cons, ← eliminateEdges,
        ih (wellFormed_eliminateEdge hg he) (h.tail hg), inEdges_eliminateEdge hg he,
        List.filter_filter]
      refine List.filter_congr fun f _ => ?_
      simp only [List.mem_cons, not_or, Bool.decide_and, Bool.and_comm]

/-- New edges stand behind the ones that were there, in the order they are added in. -/
theorem inEdges_addEdges {es : List Operation} (hg : g.WellFormed) (h : g.AddableAll es)
    (v : ℕ) : (g.addEdges es).inEdges v =
      g.inEdges v ++ es.filter (fun f => f.output.guid = v) := by
  induction es generalizing g with
  | nil => simp [addEdges]
  | cons e es ih =>
      have he := h.each e (List.mem_cons_self ..)
      rw [addEdges, List.foldl_cons, ← addEdges, ih (wellFormed_addEdge hg he) (h.tail hg),
        addEdge_inEdges hg he, List.filter_cons]
      by_cases hv : e.output.guid = v
      · simp [hv]
      · simp [hv]

/-- Both counters moved as their recounts did. -/
structure Drift (g g' : Graph) : Prop where
  random : g'.randomNodeCnt - g.randomNodeCnt = g'.countRandom - g.countRandom
  bubble : g'.bubbleCnt - g.bubbleCnt =
    g'.countBubble g.corruptedParties - g.countBubble g.corruptedParties

theorem Drift.refl (g : Graph) : Drift g g := ⟨by simp, by simp⟩

/-- Two changes drift together. -/
theorem Drift.trans {g' g'' : Graph} (h : Drift g g') (h' : Drift g' g'')
    (hc : g'.corruptedParties = g.corruptedParties) : Drift g g'' := by
  have hb := h'.bubble
  rw [hc] at hb
  exact ⟨by linarith [h.random, h'.random], by linarith [h.bubble]⟩

/-- Eliminating an edge keeps the counters as far from a recount as they were. -/
theorem drift_eliminateEdge {e : Operation} (hg : g.WellFormed) (he : g.HasEdge e) :
    Drift g (g.eliminateEdge e) where
  random := by
    rw [countRandom_eliminateEdge hg he]
    simp [eliminateEdge]
  bubble := by
    rw [countBubble_eliminateEdge hg he]
    simp [eliminateEdge]

/-- Adding an edge keeps the counters as far from a recount as they were. -/
theorem drift_addEdge {e : Operation} (hg : g.WellFormed) (ha : g.Addable e) :
    Drift g (g.addEdge e) where
  random := by
    rw [countRandom_addEdge hg ha]
    simp [addEdge]
  bubble := by
    rw [countBubble_addEdge hg ha]
    simp [addEdge]

/-- So does eliminating several edges. -/
theorem drift_eliminateEdges {es : List Operation} (hg : g.WellFormed) (h : g.Removable es) :
    Drift g (g.eliminateEdges es) := by
  induction es generalizing g with
  | nil => exact .refl g
  | cons e es ih =>
      have he := h.present e (List.mem_cons_self ..)
      exact (drift_eliminateEdge hg he).trans (ih (wellFormed_eliminateEdge hg he) (h.tail hg)) rfl

/-- So does adding several edges. -/
theorem drift_addEdges {es : List Operation} (hg : g.WellFormed) (h : g.AddableAll es) :
    Drift g (g.addEdges es) := by
  induction es generalizing g with
  | nil => exact .refl g
  | cons e es ih =>
      have he := h.each e (List.mem_cons_self ..)
      exact (drift_addEdge hg he).trans (ih (wellFormed_addEdge hg he) (h.tail hg)) rfl

end Graph

namespace Plan

variable {g : Graph} {p : Plan}

/-- The in-list of a node after a rewrite: what stays of the old one, then the
new edges. -/
theorem inEdges_result (hg : g.WellFormed) (hp : p.Valid g) (team v : ℕ) :
    (p.result team g).inEdges v = (g.inEdges v).filter (fun f => f ∉ p.edgesToEliminate) ++
      (p.added team g).filter (fun f => f.output.guid = v) := by
  rw [result, ← added, Graph.inEdges_addEdges (Graph.wellFormed_eliminateEdges hg hp.removable)
    (addableAll_added hg hp team), Graph.inEdges_eliminateEdges hg hp.removable]

/-- **A rewrite keeps the counters as far from a recount as they were.** -/
theorem drift_result (hg : g.WellFormed) (hp : p.Valid g) (team : ℕ) :
    Graph.Drift g (p.result team g) :=
  (Graph.drift_eliminateEdges hg hp.removable).trans
    (Graph.drift_addEdges (Graph.wellFormed_eliminateEdges hg hp.removable)
      (addableAll_added hg hp team))
    (Graph.sameFrame_eliminateEdges g p.edgesToEliminate).corrupted

end Plan

/-! ## Shapes -/

/-- What an edge shows apart from its address: the inputs of an EVAL without
their order. -/
structure Shape where
  hash : UInt64
  type : Operator
  output : Node
  bag : Multiset Node
  inputs : List Node

namespace Operation

def shape (e : Operation) : Shape :=
  ⟨e.hash, e.type, e.output, e.inputs, if e.type = .eval then [] else e.inputs⟩

@[simp] theorem shape_hash (e : Operation) : e.shape.hash = e.hash := rfl

@[simp] theorem shape_type (e : Operation) : e.shape.type = e.type := rfl

@[simp] theorem shape_output (e : Operation) : e.shape.output = e.output := rfl

@[simp] theorem shape_bag (e : Operation) : e.shape.bag = e.inputs := rfl

/-- Edges of one shape have the same inputs, up to their order. -/
theorem inputs_perm_of_shape {e f : Operation} (h : f.shape = e.shape) :
    f.inputs.Perm e.inputs := Multiset.coe_eq_coe.1 (congrArg Shape.bag h)

/-- Unless they are EVALs, edges of one shape have the same inputs in order. -/
theorem inputs_eq_of_shape {e f : Operation} (h : f.shape = e.shape) (ht : e.type ≠ .eval) :
    f.inputs = e.inputs := by
  have htype : f.type = e.type := congrArg Shape.type h
  have hin := congrArg Shape.inputs h
  simpa only [shape, htype, if_neg ht] using hin

end Operation

/-- How often the node `u` occurs among the inputs. -/
def Shape.inputCount (s : Shape) (u : ℕ) : ℕ := s.bag.countP (fun n => n.guid = u)

/-- The shape tells how often a node is read. -/
theorem Operation.inputCount_shape (e : Operation) (u : ℕ) :
    e.shape.inputCount u = e.inputCount u := by
  rw [Shape.inputCount, Operation.inputCount, shape_bag, Multiset.coe_countP, List.count,
    List.countP_map]
  exact List.countP_congr fun n _ => by simp

/-! ## The out-lists -/

namespace GraphBase

variable {g : GraphBase}

/-- All edges, by their outputs. -/
def edges (g : GraphBase) : List Operation := (List.range g.nodeSize).flatMap g.inEdges

/-- The edges of the in-lists are all edges. -/
theorem WellFormed.mem_edges (hg : g.WellFormed) {e : Operation} :
    e ∈ g.edges ↔ g.HasEdge e := by
  rw [edges, List.mem_flatMap]
  constructor
  · rintro ⟨v, -, he⟩
    exact (hg.mem_inEdges.1 he).1
  · exact fun he => ⟨e.output.guid, List.mem_range.2 (lt_of_node? (hg.output_live he)), he⟩

/-- Every edge stands in the in-lists once. -/
theorem WellFormed.nodup_edges (hg : g.WellFormed) : g.edges.Nodup := by
  rw [edges, List.nodup_flatMap]
  refine ⟨fun v _ => hg.nodup_inEdges v, List.nodup_range.imp fun hvw e he he' => hvw ?_⟩
  exact (hg.mem_inEdges.1 he).2.symm.trans (hg.mem_inEdges.1 he').2

/-- The in-lists determine the out-lists up to order. -/
theorem WellFormed.outEdges_perm (hg : g.WellFormed) (u : ℕ) :
    (g.outEdges u).Perm (g.edges.flatMap fun e => List.replicate (e.inputCount u) e) := by
  rw [List.perm_iff_count]
  intro e
  rw [hg.out_count, count_flatMap_replicate hg.nodup_edges]
  simp only [hg.mem_edges]

end GraphBase

/-! ## Alike graphs -/

/-- The graphs have the same nodes and counters, and in-lists of the same
shapes. -/
structure Graph.Alike (g h : Graph) : Prop where
  left : g.WellFormed
  right : h.WellFormed
  frame : g.SameFrame h
  random : h.randomNodeCnt = g.randomNodeCnt
  bubble : h.bubbleCnt = g.bubbleCnt
  ins : ∀ v, (h.inEdges v).map Operation.shape = (g.inEdges v).map Operation.shape

section Degrees

variable {g h : Graph} (hf : g.SameFrame h) (hd : ∀ v, h.inDeg v = g.inDeg v)

include hf hd

/-- The number of random nodes is a function of the nodes and the in-degrees. -/
theorem countRandom_of_inDeg : h.countRandom = g.countRandom := by
  have heq : h.isRandom = g.isRandom := by
    funext n
    rw [isRandom, isRandom, hd]
  rw [countRandom, countRandom, hf.nodes, heq]

/-- So is the number of bubbles. -/
theorem countBubble_of_inDeg (C : Finset PartyDecl) : h.countBubble C = g.countBubble C := by
  have heq : h.isBubble C = g.isBubble C := by
    funext n
    rw [isBubble, isBubble, hd]
  rw [countBubble, countBubble, hf.nodes, heq]

end Degrees

/-- The shapes of the in-lists tell the in-degrees. -/
theorem inDeg_of_ins {g h : Graph}
    (hi : ∀ v, (h.inEdges v).map Operation.shape = (g.inEdges v).map Operation.shape) (v : ℕ) :
    h.inDeg v = g.inDeg v := by
  rw [inDeg, inDeg, ← List.length_map Operation.shape, hi, List.length_map]

namespace Graph.Alike

variable {g h : Graph}

theorem refl (hg : g.WellFormed) : g.Alike g := ⟨hg, hg, .refl g, rfl, rfl, fun _ => rfl⟩

/-- All edges have the same shapes. -/
theorem edges (ha : g.Alike h) : h.edges.map Operation.shape = g.edges.map Operation.shape := by
  rw [GraphBase.edges, GraphBase.edges, List.map_flatMap, List.map_flatMap, ha.frame.nodeSize]
  exact List.flatMap_congr fun v _ => ha.ins v

/-- Each node feeds edges of the same shapes, in some order. -/
theorem outs (ha : g.Alike h) (u : ℕ) :
    ((h.outEdges u).map Operation.shape).Perm ((g.outEdges u).map Operation.shape) := by
  have hlist : ∀ k : GraphBase, (k.edges.flatMap fun e =>
      List.replicate (e.inputCount u) e).map Operation.shape =
      (k.edges.map Operation.shape).flatMap fun s => List.replicate (s.inputCount u) s := by
    intro k
    rw [List.map_flatMap, List.flatMap_map]
    exact List.flatMap_congr fun e _ => by rw [List.map_replicate, Operation.inputCount_shape]
  have hp := (ha.right.outEdges_perm u).map Operation.shape
  rw [hlist, ha.edges, ← hlist] at hp
  exact hp.trans ((ha.left.outEdges_perm u).map Operation.shape).symm

theorem inDeg (ha : g.Alike h) (v : ℕ) : h.inDeg v = g.inDeg v := inDeg_of_ins ha.ins v

/-- Each node keeps its out-degree. -/
theorem outDeg (ha : g.Alike h) (u : ℕ) : h.outDeg u = g.outDeg u := by
  rw [GraphBase.outDeg, GraphBase.outDeg, ← List.length_map Operation.shape,
    (ha.outs u).length_eq, List.length_map]

theorem isCorrupted (ha : g.Alike h) (n : Node) : h.isCorrupted n = g.isCorrupted n := by
  rw [Graph.isCorrupted, Graph.isCorrupted, ha.frame.corrupted]

theorem isRandom (ha : g.Alike h) (n : Node) : h.isRandom n = g.isRandom n := by
  rw [GraphBase.isRandom, GraphBase.isRandom, ha.inDeg]

/-- The same nodes are random. -/
theorem isRandomNode (ha : g.Alike h) (i : ℕ) : h.isRandomNode i = g.isRandomNode i := by
  rw [GraphBase.isRandomNode, GraphBase.isRandomNode, ha.frame.node?, ha.inDeg]

theorem countRandom (ha : g.Alike h) : h.countRandom = g.countRandom :=
  countRandom_of_inDeg ha.frame ha.inDeg

theorem countBubble (ha : g.Alike h) (C : Finset PartyDecl) :
    h.countBubble C = g.countBubble C := countBubble_of_inDeg ha.frame ha.inDeg C

/-- Both graphs have bubbles or neither has. -/
theorem hasBubble (ha : g.Alike h) : h.hasBubble = g.hasBubble := by
  rw [Graph.hasBubble, Graph.hasBubble, ha.bubble]

end Graph.Alike

/-! ## The rank function -/

namespace Graph

variable {g h : Graph}

/-- The nodes that edges into node `i` read. -/
def operands (g : Graph) (i : ℕ) : List ℕ :=
  (g.inEdges i).flatMap fun e => e.inputs.map Node.guid

/-- The node is live and at an honest party. -/
def isHonest (g : Graph) (i : ℕ) : Bool := (g.node? i).any fun n => !g.isCorrupted n

/-- The live nodes at corrupted parties. -/
def corruptedNodes (g : Graph) : List ℕ :=
  (List.range g.nodeSize).filter fun i => (g.node? i).any fun n => g.isCorrupted n

/-- The loop of the code is the search of a worklist. -/
theorem searchLoop_eq (g : Graph) (fuel : ℕ) (q visited : List ℕ) (n : ℕ) :
    g.searchLoop fuel q visited n = Worklist.search g.operands g.isHonest fuel q visited n := by
  induction fuel generalizing q visited n with
  | zero => rfl
  | succ fuel ih =>
      cases q with
      | nil => rfl
      | cons i q =>
          rw [searchLoop, Worklist.search]
          split
          · exact ih q visited n
          · exact ih _ _ _

/-- Only nodes of the graph have operands. -/
theorem mem_range_of_operands {i : ℕ} (hi : g.operands i ≠ []) :
    i ∈ Finset.range g.inEdgesOf.length := by
  rw [Finset.mem_range]
  by_contra hlt
  refine hi ?_
  rw [operands, inEdges, OpTable.at'_of_le (not_lt.1 hlt)]
  rfl

/-- The fuel of the search covers its work. -/
theorem work_lt_searchFuel (g : Graph) :
    Worklist.work g.operands (Finset.range g.inEdgesOf.length) g.corruptedNodes [] <
      g.searchFuel := by
  have hstart : g.corruptedNodes.length ≤ g.nodeSize := by
    refine (List.length_filter_le _ _).trans ?_
    rw [List.length_range]
  have hsum : ∑ i ∈ Finset.range g.inEdgesOf.length, (g.operands i).length =
      (g.inEdgesOf.map fun es => (es.map fun e => e.inputs.length).sum).sum := by
    rw [← sum_getD (fun es : List Operation => (es.map fun e => e.inputs.length).sum) []]
    refine Finset.sum_congr rfl fun i _ => ?_
    rw [operands, List.length_flatMap]
    simp only [List.length_map]
    rfl
  rw [Worklist.work, searchFuel, ← hsum]
  simp only [List.not_mem_nil, not_false_eq_true, Finset.filter_true]
  omega

/-- **The second component of the rank**: the honest nodes a corrupted node
depends on. -/
theorem numReachableNodes_eq (g : Graph) : g.numReachableNodes =
    {i | g.isHonest i = true ∧ Worklist.Reached g.operands g.corruptedNodes i}.ncard := by
  rw [numReachableNodes, searchLoop_eq]
  exact Worklist.search_eq_ncard (fun _ => mem_range_of_operands) g.work_lt_searchFuel

namespace Alike

/-- Each node is computed from the same nodes. -/
theorem mem_operands (ha : g.Alike h) (i j : ℕ) : j ∈ h.operands i ↔ j ∈ g.operands i := by
  have hshape : ∀ k : Graph, j ∈ k.operands i ↔
      ∃ s ∈ (k.inEdges i).map Operation.shape, ∃ n ∈ s.bag, n.guid = j := by
    intro k
    simp [Graph.operands]
  rw [hshape, hshape, ha.ins]

theorem isHonest (ha : g.Alike h) (i : ℕ) : h.isHonest i = g.isHonest i := by
  rw [Graph.isHonest, Graph.isHonest, ha.frame.node?]
  simp only [ha.isCorrupted]

theorem corruptedNodes (ha : g.Alike h) : h.corruptedNodes = g.corruptedNodes := by
  rw [Graph.corruptedNodes, Graph.corruptedNodes, ha.frame.nodeSize]
  simp only [ha.frame.node?, ha.isCorrupted]

/-- The backward searches find equally many honest nodes. -/
theorem numReachableNodes (ha : g.Alike h) : h.numReachableNodes = g.numReachableNodes := by
  have hreach : ∀ q i, Worklist.Reached h.operands q i ↔ Worklist.Reached g.operands q i := by
    intro q i
    simp only [Worklist.Reached, ha.mem_operands]
  rw [numReachableNodes_eq, numReachableNodes_eq]
  simp only [ha.isHonest, ha.corruptedNodes, hreach]

/-- **Alike graphs have the same potential.** -/
theorem potential (ha : g.Alike h) : h.potential = g.potential := by
  have hsum : h.sumTopoRandomNodes = g.sumTopoRandomNodes := by
    simp only [sumTopoRandomNodes, ha.frame.nodeSize, ha.frame.node?, ha.inDeg, ha.isCorrupted]
  rw [Graph.potential, Graph.potential, ha.bubble, ha.numReachableNodes, ha.frame.nodeSize, hsum]

/-- They have the same hash, as an in-list is hashed by its xors. -/
theorem generateHash (ha : g.Alike h) (team : ℕ) :
    GraphBase.generateHash team h.inEdgesOf = GraphBase.generateHash team g.inEdgesOf := by
  have htable : h.inEdgesOf.map (fun l => l.map Operation.shape) =
      g.inEdgesOf.map fun l => l.map Operation.shape := by
    refine List.ext_getElem ?_ fun v hv hv' => ?_
    · rw [List.length_map, List.length_map, ha.right.inLength, ha.left.inLength, ha.frame.nodeSize]
    · rw [List.length_map] at hv hv'
      rw [List.getElem_map, List.getElem_map]
      have := ha.ins v
      rwa [GraphBase.inEdges, GraphBase.inEdges, OpTable.at', OpTable.at',
        List.getD_eq_getElem _ _ hv, List.getD_eq_getElem _ _ hv'] at this
  have hfold : ∀ t : OpTable, GraphBase.generateHash team t =
      (t.map fun l => l.map Operation.shape).foldl (fun res l =>
        res * 1000000009 + if team % 2 = 1 then l.foldl (fun r s => r ^^^ s.hash) 0 else 0) 0 := by
    intro t
    rw [List.foldl_map]
    simp only [List.foldl_map]
    rfl
  rw [hfold, hfold, htable]

/-- To the visited set they are one graph. -/
theorem key (ha : g.Alike h) (team : ℕ) : h.key team = g.key team := by
  rw [Graph.key, Graph.key, ha.generateHash, ha.random, ha.bubble]

end Alike

end Graph

end Gauv
