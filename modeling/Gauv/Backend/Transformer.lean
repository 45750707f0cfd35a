import Gauv.Backend.Graph
import Gauv.Lists

/-!
# The rewriting rules

Each transformer takes a graph to the list of graphs one application of its
rule can give, together with the node it rewrote.  An assertion that fails
aborts the run, which is `none` here.

The source collects the destinations of the new edges in an `unordered_set` of
pointers, whose iteration order is unspecified.  An `IterOrder` is one such
order; the transformers take one for each node they rewrite.
-/

namespace Gauv

/-- The order in which an unordered set is iterated: some arrangement of what
was inserted. -/
structure IterOrder where
  run : List Node → List Node
  perm : ∀ l, (run l).Perm l

namespace IterOrder

/-- Iterate in insertion order. -/
def insertion : IterOrder := ⟨id, fun _ => .refl _⟩

instance : Inhabited IterOrder := ⟨insertion⟩

end IterOrder

/-- The rewritten node and the rewritten graph, for each match of a rule. -/
abbrev ResultsType := List (Node × Graph)

/-! ## New operations -/

/-- The arguments of a `make_shared<Operation>`. -/
structure NewEdge where
  type : Operator
  inputs : List Node
  output : Node
  deriving DecidableEq, Repr

namespace GraphBase

/-- An address that no operation of the graph has. -/
def freshId (g : GraphBase) : ℕ := (g.inEdgesOf.flatten.map Operation.id).foldr max 0 + 1

end GraphBase

/-- Allocate operations one after the other, from the address `fresh` on. -/
def makeShared (team fresh : ℕ) (es : List NewEdge) : List Operation :=
  es.zipIdx.map fun p => Operation.make team (fresh + p.2) p.1.type p.1.inputs p.1.output

/-- Insert nodes into a set of pointers, keeping one of each. -/
def insertNodes (l : List Node) : List Node :=
  l.foldr (fun n acc => if acc.any (fun m => m.guid == n.guid) then acc else n :: acc) []

/-! ## Plans -/

/-- What one match of a rule collects before it builds the new graph: the node
it rewrites, the edges to eliminate, the TRANSITs it turns round, and the
sources and destinations of the new edges of type `op`. -/
structure Plan where
  node : Node
  edgesToEliminate : List Operation
  turned : List NewEdge
  op : Operator
  srcs : List Node
  dsts : List Node
  deriving DecidableEq, Repr

namespace Plan

/-- The edges that compute the destinations from the sources. -/
def computed (p : Plan) : List NewEdge := p.dsts.map fun dst => ⟨p.op, p.srcs, dst⟩

/-- `edges_to_add`, in the order the source allocates them. -/
def edgesToAdd (p : Plan) : List NewEdge := p.turned ++ p.computed

/-- Build the new graph. -/
def result (p : Plan) (team : ℕ) (g : Graph) : Graph :=
  (g.eliminateEdges p.edgesToEliminate).addEdges (makeShared team g.freshId p.edgesToAdd)

end Plan

/-- The graphs of a list of plans, without those that change the number of
random nodes. -/
def filterResults (team : ℕ) (g : Graph) (plans : List Plan) : ResultsType :=
  (plans.map fun p => (p.node, p.result team g)).filter
    fun r => r.2.randomNodeCnt == g.randomNodeCnt

/-! ## The transit of a share -/

/-- The only out-edge of `share`, if there is exactly one and it is a TRANSIT. -/
def GraphBase.transitOut (g : GraphBase) (share : Node) : Option Operation :=
  match g.outEdges share.guid with
  | [e] => if e.type = .transit then some e else none
  | _ => none

/-- The only in-edge of `share`, if there is exactly one and it is a TRANSIT. -/
def GraphBase.transitIn (g : GraphBase) (share : Node) : Option Operation :=
  match g.inEdges share.guid with
  | [e] => if e.type = .transit then some e else none
  | _ => none

/-- A share as its final holder has it: behind its TRANSIT, if it has one. -/
def GraphBase.afterTransit (g : GraphBase) (share : Node) : Node :=
  match g.transitOut share with
  | some e => e.output
  | none => share

/-! ## The sharing pattern -/

/-- The loop over the out-edges in `isRewritableSecret`.  It ends in `some none`
where the source returns false, and in the collected source ids otherwise. -/
def scanOutEdges (g : Graph) (srcParties : Finset PartyDecl) :
    List Operation → Finset ℕ → Finset PartyDecl → Option (Option (Finset ℕ))
  | [], srcIds, _ => some (some srcIds)
  | edge :: edges, srcIds, parties =>
      if edge.inputs.length ≠ g.T + 1 then some none
      else
        let srcIds := srcIds ∪ (edge.inputs.map Node.guid).toFinset
        if edge.type = .eval then
          let share := g.afterTransit edge.output
          if share.party ∈ parties then some none
          else if share.party ∈ srcParties then
            if g.inDeg share.guid = 0 then none
            else if g.inDeg share.guid > 1 then some none
            else scanOutEdges g srcParties edges srcIds (insert share.party parties)
          else scanOutEdges g srcParties edges srcIds (insert share.party parties)
        else scanOutEdges g srcParties edges srcIds parties

/-- Whether the node is the secret of a sharing whose shares at `srcParties`
can become random nodes. -/
def isRewritableSecret (g : Graph) (nodeId : ℕ) (srcParties : Finset PartyDecl) : Option Bool :=
  if ¬ nodeId < g.nodeSize then none
  else if ¬ g.T < g.partyCnt then none
  else if g.outDeg nodeId ≠ g.partyCnt then some false
  else do
    match ← scanOutEdges g srcParties (g.outEdges nodeId) ∅ ∅ with
    | none => some false
    | some srcIds =>
        if srcIds.card ≠ g.T + 1 then some false
        else if nodeId ∉ srcIds then none
        else some (decide (∀ i ∈ srcIds, i ≠ nodeId → g.isRandomNode i = true))

/-! ## The addition rule -/

/-- Reverse one in-edge of node `nodeId`, if it is an addition:
`c = a + b` becomes `a = c - b` or `b = c - a`. -/
def reverseAddition (g : Graph) (nodeId : ℕ) (edge : Operation) : Option (List Plan) :=
  if edge.type = .add then
    match edge.inputs with
    | [src0, src1] =>
        let dst := edge.output
        if g.node? nodeId = some dst then
          some [⟨dst, [edge], [], .sub, [dst, src1], [src0]⟩,
            ⟨dst, [edge], [], .sub, [dst, src0], [src1]⟩]
        else none
    | _ => none
  else some []

/-- The matches of the addition rule, for every in-edge of every node. -/
def AdditionTransformer.plans (g : Graph) : Option (List Plan) :=
  collect (fun nodeId => collect (reverseAddition g nodeId) (g.inEdges nodeId))
    (List.range g.nodeSize)

/-! ## The sharing rules -/

/-- The edges removed for one EVAL edge of a sharing: the edge itself, and the
TRANSIT that takes its share to a source party. -/
def sharingEliminated (g : Graph) (srcParties : Finset PartyDecl) (edge : Operation) :
    List Operation :=
  match g.transitOut edge.output with
  | some t => if t.output.party ∈ srcParties then [edge, t] else [edge]
  | none => [edge]

/-- The TRANSIT turned round for one EVAL edge of a sharing. -/
def sharingTurned (g : Graph) (srcParties : Finset PartyDecl) (edge : Operation) :
    List NewEdge :=
  match g.transitOut edge.output with
  | some t =>
      if t.output.party ∈ srcParties then [⟨.transit, [t.output], edge.output⟩] else []
  | none => []

/-- The share of one EVAL edge ends at a source party. -/
def isSourceShare (g : Graph) (srcParties : Finset PartyDecl) (edge : Operation) : Bool :=
  (g.afterTransit edge.output).party ∈ srcParties

/-- The destinations one EVAL edge contributes: its other inputs, and its share
unless that is a source. -/
def sharingDsts (g : Graph) (srcParties : Finset PartyDecl) (nodeId : ℕ) (edge : Operation) :
    List Node :=
  edge.inputs.filter (fun n => n.guid ≠ nodeId) ++
    if isSourceShare g srcParties edge then [] else [edge.output]

/-- The body the two sharing transformers share, for one matched node: `srcs₀`
and `dsts₀` say on which side of the new edges the node itself stands. -/
def planSharing (order : IterOrder) (g : Graph) (srcParties : Finset PartyDecl)
    (node : Node) (nodeId : ℕ) (srcs₀ dsts₀ : List Node) : Option Plan :=
  let edges := g.outEdges nodeId
  if edges.all (fun e => e.type = .eval) then
    let srcs := srcs₀ ++ (edges.filter (isSourceShare g srcParties)).map Operation.output
    let dsts := insertNodes (dsts₀ ++ edges.flatMap (sharingDsts g srcParties nodeId))
    if dsts.length = g.partyCnt then
      some ⟨node, edges.flatMap (sharingEliminated g srcParties),
        edges.flatMap (sharingTurned g srcParties), .eval, srcs, order.run dsts⟩
    else none
  else none

/-- The match of `SharingTransformer` at one node. -/
def SharingTransformer.planAt (order : ℕ → IterOrder) (srcParties : Finset PartyDecl)
    (g : Graph) (nodeId : ℕ) : Option (List Plan) := do
  let rewritable ← isRewritableSecret g nodeId srcParties
  if rewritable then
    let node ← g.node? nodeId
    let plan ← planSharing (order nodeId) g srcParties node nodeId [node] []
    return [plan]
  else return []

/-- The matches of the sharing rule: the secret and `t` shares become the
sources, the coefficients and the other shares the destinations. -/
def SharingTransformer.plans (order : ℕ → IterOrder) (srcParties : Finset PartyDecl)
    (g : Graph) : Option (List Plan) :=
  collect (planAt order srcParties g) (List.range g.nodeSize)

/-- The match of `RandomSharingTransformer` at one node. -/
def RandomSharingTransformer.planAt (order : ℕ → IterOrder) (srcParties : Finset PartyDecl)
    (g : Graph) (nodeId : ℕ) : Option (List Plan) :=
  if g.isRandomNode nodeId then do
    let rewritable ← isRewritableSecret g nodeId srcParties
    if rewritable then
      let node ← g.node? nodeId
      let plan ← planSharing (order nodeId) g srcParties node nodeId [] [node]
      return [plan]
    else return []
  else some []

/-- The matches of the random sharing rule: `t + 1` shares become the sources,
the random secret, the coefficients and the other shares the destinations. -/
def RandomSharingTransformer.plans (order : ℕ → IterOrder) (srcParties : Finset PartyDecl)
    (g : Graph) : Option (List Plan) :=
  collect (planAt order srcParties g) (List.range g.nodeSize)

/-! ## The reconstruction rule -/

/-- The node a share was sent from: before its TRANSIT, if it has one.  The
assertion that a TRANSIT has one input fails otherwise. -/
def GraphBase.beforeTransit (g : GraphBase) (share : Node) : Option Node :=
  match g.transitIn share with
  | some t =>
      match t.inputs with
      | [before] => some before
      | _ => none
  | none => some share

/-- The loop over the operands in `isRewritableReconstruction`.  It ends in
`some none` where the source returns false, and in the number of random
destinations otherwise. -/
def scanOperands (g : Graph) (srcParties : Finset PartyDecl) :
    List Node → Finset PartyDecl → ℕ → Option (Option ℕ)
  | [], _, randomDsts => some (some randomDsts)
  | share :: shares, parties, randomDsts => do
      let share ← g.beforeTransit share
      if share.party ∈ parties then some none
      else
        let randomDsts :=
          if share.party ∈ srcParties then randomDsts
          else randomDsts + (if g.isRandom share then 1 else 0)
        scanOperands g srcParties shares (insert share.party parties) randomDsts

/-- Whether the reconstruction can be reversed: the shares come from different
parties, and the secret becomes random exactly when a destination share was. -/
def isRewritableReconstruction (g : Graph) (srcParties : Finset PartyDecl) (edge : Operation) :
    Option Bool :=
  if edge.inputs.length ≠ g.partyCnt then none
  else do
    match ← scanOperands g srcParties edge.inputs ∅ 0 with
    | none => some false
    | some randomDsts =>
        let secret := edge.output
        let secretRandom := g.inDeg secret.guid = 1 && !secret.isInput && !secret.isOutput
        some (randomDsts == if secretRandom then 1 else 0)

/-- The node a share was sent from, once the assertion has passed. -/
def GraphBase.origin (g : GraphBase) (share : Node) : Node := (g.beforeTransit share).getD share

/-- The operand comes from a source party. -/
def isSourceOperand (g : Graph) (srcParties : Finset PartyDecl) (share : Node) : Bool :=
  (g.origin share).party ∈ srcParties

/-- The edges removed for one operand: the TRANSIT of a destination. -/
def operandEliminated (g : Graph) (srcParties : Finset PartyDecl) (share : Node) :
    List Operation :=
  if isSourceOperand g srcParties share then [] else (g.transitIn share).toList

/-- The TRANSIT turned round for one operand that is a destination. -/
def operandTurned (g : Graph) (srcParties : Finset PartyDecl) (share : Node) : List NewEdge :=
  if isSourceOperand g srcParties share then []
  else match g.transitIn share with
    | some _ => [⟨.transit, [share], g.origin share⟩]
    | none => []

/-- The plan for the reconstruction edge `edge` of `node`. -/
def planReconstruction (order : IterOrder) (g : Graph) (srcParties : Finset PartyDecl)
    (node : Node) (edge : Operation) : Option Plan :=
  let shares := edge.inputs
  if shares.all (fun s => (g.beforeTransit s).isSome) then
    let srcs := node :: shares.filter (isSourceOperand g srcParties)
    let dsts := insertNodes (shares.filter (fun s => !isSourceOperand g srcParties s))
    let plan : Plan :=
      ⟨node, edge :: shares.flatMap (operandEliminated g srcParties),
        shares.flatMap (operandTurned g srcParties), .eval, srcs, order.run dsts⟩
    let rest : ℤ := g.partyCnt - g.T - 1
    if (plan.edgesToEliminate.length : ℤ) ≥ rest ∧
        (plan.edgesToAdd.length : ℤ) ≥ 2 * rest - 1 then
      some plan
    else none
  else none

/-- The match of `ReconstructionTransformer` at one node. -/
def ReconstructionTransformer.planAt (order : ℕ → IterOrder) (srcParties : Finset PartyDecl)
    (g : Graph) (nodeId : ℕ) : Option (List Plan) :=
  match g.inEdges nodeId with
  | [edge] =>
      if edge.type = .reconstruct then do
        let rewritable ← isRewritableReconstruction g srcParties edge
        if rewritable then
          let node ← g.node? nodeId
          let plan ← planReconstruction (order nodeId) g srcParties node edge
          return [plan]
        else return []
      else some []
  | _ => some []

/-- The matches of the reconstruction rule: the opened value and the shares of
the source parties become the sources, the other shares the destinations. -/
def ReconstructionTransformer.plans (order : ℕ → IterOrder) (srcParties : Finset PartyDecl)
    (g : Graph) : Option (List Plan) :=
  collect (planAt order srcParties g) (List.range g.nodeSize)

/-! ## The transformers -/

/-- The four transformer classes, with the source parties they were built with. -/
inductive Transformer where
  | addition
  | sharing (srcParties : Finset PartyDecl)
  | randomSharing (srcParties : Finset PartyDecl)
  | reconstruction (srcParties : Finset PartyDecl)

namespace Transformer

/-- The matches of the transformer in `g`. -/
def plans (order : ℕ → IterOrder) (g : Graph) : Transformer → Option (List Plan)
  | .addition => AdditionTransformer.plans g
  | .sharing src => SharingTransformer.plans order src g
  | .randomSharing src => RandomSharingTransformer.plans order src g
  | .reconstruction src => ReconstructionTransformer.plans order src g

/-- `apply`: build the graph of every match, and keep those with as many random
nodes as `g`. -/
def apply (team : ℕ) (order : ℕ → IterOrder) (g : Graph) (tr : Transformer) :
    Option ResultsType :=
  (tr.plans order g).map (filterResults team g)

end Transformer

end Gauv
