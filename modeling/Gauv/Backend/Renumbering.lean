import Gauv.Backend.EmbeddedPlans

/-!
# Renumbered graphs

A renumbering moves every node to another index; the edges follow.  The two
operands of an ADD may be swapped on the way, the inputs of an EVAL and the
edges of one list may stand in any order, and hashes and addresses are each
graph's own.  What the rules test of a node or of an edge does not change.
-/

namespace Gauv

open GraphBase Relation

/-! ## Renumbered nodes and edges -/

/-- The node at its new index. -/
def Node.renumber (σ : Equiv.Perm ℕ) (n : Node) : Node := { n with guid := σ n.guid }

namespace Node

variable (σ : Equiv.Perm ℕ) (n : Node)

@[simp] theorem renumber_guid : (n.renumber σ).guid = σ n.guid := rfl

@[simp] theorem renumber_party : (n.renumber σ).party = n.party := rfl

@[simp] theorem renumber_isInput : (n.renumber σ).isInput = n.isInput := rfl

@[simp] theorem renumber_isOutput : (n.renumber σ).isOutput = n.isOutput := rfl

/-- Renumbering back undoes a renumbering. -/
@[simp] theorem renumber_symm : (n.renumber σ).renumber σ.symm = n := by
  simp [renumber]

/-- A node, from its renumbered copy. -/
theorem eq_renumber_symm {m n : Node} (h : m = n.renumber σ) : n = m.renumber σ.symm := by
  rw [h, renumber_symm]

end Node

/-- `f` does to the renumbered nodes what `e` does to the nodes.  The operands of
an ADD and the inputs of an EVAL may stand in another order. -/
structure NewEdge.Renumbered (σ : Equiv.Perm ℕ) (e f : NewEdge) : Prop where
  type : f.type = e.type
  output : f.output = e.output.renumber σ
  bag : f.inputs.Perm (e.inputs.map (Node.renumber σ))
  inputs : e.type ≠ .eval → e.type ≠ .add → f.inputs = e.inputs.map (Node.renumber σ)

namespace NewEdge.Renumbered

variable {σ : Equiv.Perm ℕ} {e f : NewEdge}

/-- The edges correspond the other way round. -/
theorem symm (h : e.Renumbered σ f) : f.Renumbered σ.symm e where
  type := h.type.symm
  output := Node.eq_renumber_symm σ h.output
  bag := by
    have hback := (h.bag.map (Node.renumber σ.symm)).symm
    simpa only [List.map_map, Function.comp_def, Node.renumber_symm, List.map_id'] using hback
  inputs := fun hev hadd => by
    rw [h.inputs (h.type ▸ hev) (h.type ▸ hadd)]
    simp only [List.map_map, Function.comp_def, Node.renumber_symm, List.map_id']

/-- A renumbered edge is a relabelled one, with an order for some inputs. -/
theorem relabelled (h : e.Renumbered σ f) : e.Relabelled σ f := ⟨h.type, h.output, h.bag⟩

end NewEdge.Renumbered

/-! ## Renumbered graphs -/

/-- `h` is `g` with its nodes renumbered by `σ`. -/
structure Graph.Renumbered (σ : Equiv.Perm ℕ) (g h : Graph) : Prop where
  left : g.WellFormed
  right : h.WellFormed
  exactLeft : g.Exact
  exactRight : h.Exact
  index : ∀ i, σ i < h.nodeSize ↔ i < g.nodeSize
  nodes : ∀ i, h.node? (σ i) = (g.node? i).map (Node.renumber σ)
  inEdges : ∀ v, PairsOff (fun e f => e.args.Renumbered σ f.args) (g.inEdges v) (h.inEdges (σ v))
  partyCnt : h.partyCnt = g.partyCnt
  T : h.T = g.T
  corrupted : h.corruptedParties = g.corruptedParties

namespace Graph.Renumbered

variable {σ : Equiv.Perm ℕ} {g h : Graph}

theorem symm (hr : g.Renumbered σ h) : h.Renumbered σ.symm g where
  left := hr.right
  right := hr.left
  exactLeft := hr.exactRight
  exactRight := hr.exactLeft
  index := fun i => by rw [← hr.index, Equiv.apply_symm_apply]
  nodes := fun i => by
    have hi := hr.nodes (σ.symm i)
    rw [Equiv.apply_symm_apply] at hi
    rw [hi, Option.map_map]
    simp only [Function.comp_def, Node.renumber_symm, Option.map_id']
  inEdges := fun v => by
    have hv := hr.inEdges (σ.symm v)
    rw [Equiv.apply_symm_apply] at hv
    exact hv.flip.mono fun _ _ _ _ hef => hef.symm
  partyCnt := hr.partyCnt.symm
  T := hr.T.symm
  corrupted := hr.corrupted.symm

/-- The renumbered graph holds the graph. -/
theorem embedsIn (hr : g.Renumbered σ h) : g.EmbedsIn σ h where
  injective := σ.injective
  nodes := hr.nodes
  inEdges := fun v => (hr.inEdges v).mono fun _ _ _ _ hef => hef.relabelled
  partyCnt := hr.partyCnt
  T := hr.T

/-- Each node keeps its in-degree. -/
theorem inDeg (hr : g.Renumbered σ h) (v : ℕ) : h.inDeg (σ v) = g.inDeg v := hr.embedsIn.inDeg v

/-! ### The out-lists -/

/-- All edges correspond. -/
theorem edges (hr : g.Renumbered σ h) :
    PairsOff (fun e f => e.args.Renumbered σ f.args) g.edges h.edges := by
  have hrange : (List.range h.nodeSize).Perm ((List.range g.nodeSize).map σ) := by
    refine (List.perm_ext_iff_of_nodup List.nodup_range
      (List.nodup_range.map σ.injective)).2 fun j => ?_
    rw [List.mem_map, List.mem_range]
    constructor
    · intro hj
      refine ⟨σ.symm j, List.mem_range.2 ?_, Equiv.apply_symm_apply σ j⟩
      rwa [← hr.index, Equiv.apply_symm_apply]
    · rintro ⟨i, hi, rfl⟩
      exact (hr.index i).2 (List.mem_range.1 hi)
  exact (PairsOff.of_perm_map hrange).flatMap fun i _ j _ hij => hij ▸ hr.inEdges i

/-- The out-edges of each node correspond. -/
theorem outEdges (hr : g.Renumbered σ h) (u : ℕ) :
    PairsOff (fun e f => e.args.Renumbered σ f.args) (g.outEdges u) (h.outEdges (σ u)) := by
  refine PairsOff.of_perm ?_ (hr.left.outEdges_perm u) (hr.right.outEdges_perm (σ u))
  refine hr.edges.flatMap fun e _ f _ hef => ?_
  have hcount : f.inputCount (σ u) = e.inputCount u := hef.relabelled.inputCount σ.injective u
  rw [hcount]
  exact PairsOff.replicate (r := fun e f : Operation => e.args.Renumbered σ f.args) hef _

/-- Each node keeps its out-degree. -/
theorem outDeg (hr : g.Renumbered σ h) (u : ℕ) : h.outDeg (σ u) = g.outDeg u :=
  (hr.outEdges u).length_eq

/-! ### Nodes -/

/-- Each node keeps its party, and with it whether that is corrupted. -/
theorem isCorrupted (hr : g.Renumbered σ h) (n : Node) :
    h.isCorrupted (n.renumber σ) = g.isCorrupted n := by
  rw [Graph.isCorrupted, Graph.isCorrupted, hr.corrupted, Node.renumber_party]

theorem isRandom (hr : g.Renumbered σ h) (n : Node) :
    h.isRandom (n.renumber σ) = g.isRandom n := hr.embedsIn.isRandom n

/-- The random nodes are the renumbered ones. -/
theorem isRandomNode (hr : g.Renumbered σ h) (i : ℕ) :
    h.isRandomNode (σ i) = g.isRandomNode i := hr.embedsIn.isRandomNode i

/-- As many nodes pass a test in the one graph as in the other. -/
theorem countP_nodes (hr : g.Renumbered σ h) {p q : Node → Bool}
    (hpq : ∀ n : Node, q (n.renumber σ) = p n) :
    h.nodes.countP (fun o => o.any q) = g.nodes.countP (fun o => o.any p) := by
  have hany : ∀ i, (h.node? (σ i)).any q = (g.node? i).any p := by
    intro i
    rw [hr.nodes, Option.any_map]
    exact congrArg (fun p => (g.node? i).any p) (funext hpq)
  have himage : {j | (h.node? j).any q = true} = σ '' {i | (g.node? i).any p = true} := by
    ext j
    constructor
    · intro hj
      refine ⟨σ.symm j, ?_, Equiv.apply_symm_apply σ j⟩
      refine (hany (σ.symm j)).symm.trans ?_
      rwa [Equiv.apply_symm_apply]
    · rintro ⟨i, hi, rfl⟩
      exact (hany i).trans hi
  rw [GraphBase.countP_nodes, GraphBase.countP_nodes, himage,
    Set.ncard_image_of_injective _ σ.injective]

/-- There are as many random nodes as before. -/
theorem random (hr : g.Renumbered σ h) : h.randomNodeCnt = g.randomNodeCnt := by
  rw [hr.exactRight.random, hr.exactLeft.random, countRandom, countRandom,
    hr.countP_nodes hr.isRandom]

/-! ### Transits -/

/-- The out-edges of each node, without the order of the inputs. -/
theorem relabelled_outEdges (hr : g.Renumbered σ h) (u : ℕ) :
    PairsOff (fun e f => e.args.Relabelled σ f.args) (g.outEdges u) (h.outEdges (σ u)) :=
  (hr.outEdges u).mono fun _ _ _ _ hef => hef.relabelled

/-- A share is sent on by corresponding TRANSITs, or by none. -/
theorem transitOut (hr : g.Renumbered σ h) (s : Node) :
    Option.Rel (fun e f => e.args.Renumbered σ f.args ∧ e.type = .transit) (g.transitOut s)
      (h.transitOut (s.renumber σ)) :=
  rel_soleTransit (fun _ _ hef => hef.type) (hr.outEdges s.guid)

/-- A share comes from corresponding TRANSITs, or from none. -/
theorem transitIn (hr : g.Renumbered σ h) (s : Node) :
    Option.Rel (fun e f => e.args.Renumbered σ f.args ∧ e.type = .transit) (g.transitIn s)
      (h.transitIn (s.renumber σ)) :=
  rel_soleTransit (fun _ _ hef => hef.type) (hr.inEdges s.guid)

/-- The final holder of a share is the renumbered one. -/
theorem afterTransit (hr : g.Renumbered σ h) (s : Node) :
    h.afterTransit (s.renumber σ) = (g.afterTransit s).renumber σ :=
  EmbedsIn.afterTransit_of_transitOut (EmbedsIn.transitOut (hr.relabelled_outEdges s.guid))

theorem beforeTransit (hr : g.Renumbered σ h) (s : Node) :
    h.beforeTransit (s.renumber σ) = (g.beforeTransit s).map (Node.renumber σ) :=
  hr.embedsIn.beforeTransit s

/-- A share was sent from the renumbered node. -/
theorem origin (hr : g.Renumbered σ h) (s : Node) :
    h.origin (s.renumber σ) = (g.origin s).renumber σ := hr.embedsIn.origin s

variable {src : Finset PartyDecl} {e f : Operation}

theorem isSourceOperand (hr : g.Renumbered σ h) (s : Node) :
    isSourceOperand h src (s.renumber σ) = isSourceOperand g src s :=
  hr.embedsIn.isSourceOperand s

theorem isSentDst (hr : g.Renumbered σ h) (s : Node) :
    isSentDst h src (s.renumber σ) = isSentDst g src s := hr.embedsIn.isSentDst s

theorem isSourceShare (hr : g.Renumbered σ h) (hef : e.args.Renumbered σ f.args) :
    isSourceShare h src f = isSourceShare g src e :=
  EmbedsIn.isSourceShare hef.relabelled (hr.afterTransit e.output)

/-! ### The patterns -/

/-- A match of the sharing rules stays one. -/
theorem sharingMatch (hr : g.Renumbered σ h) {v : ℕ} (hm : SharingMatch g src v) :
    SharingMatch h src (σ v) :=
  (EmbedsIn.sharingMatch_iff hr.embedsIn (hr.relabelled_outEdges v)
    fun e _ => hr.afterTransit e.output).2 hm

/-- **The test for secrets answers the same** of a node and of the renumbered one. -/
theorem isRewritableSecret (hr : g.Renumbered σ h) (v : ℕ) (src : Finset PartyDecl) :
    isRewritableSecret h (σ v) src = isRewritableSecret g v src :=
  EmbedsIn.isRewritableSecret hr.embedsIn (hr.relabelled_outEdges v)
    (fun e _ => hr.afterTransit e.output) hr.left hr.right (hr.index v) src

/-- The test for openings answers the same where the operands keep their order. -/
theorem isRewritableReconstruction (hr : g.Renumbered σ h) (hef : e.args.Renumbered σ f.args)
    (hin : f.inputs = e.inputs.map (Node.renumber σ)) :
    isRewritableReconstruction h src f = isRewritableReconstruction g src e :=
  hr.embedsIn.isRewritableReconstruction hef.relabelled hin

end Graph.Renumbered

end Gauv
