import Gauv.Backend.Operation

/-!
# The persistent protocol graph

`GraphBase` keeps, for every node, the list of operations that compute it and
the list of operations it feeds.  `Graph` adds the corrupted parties and the
two counters the search looks at.  Every update returns a new graph.

The counters are machine integers in the source; they are integers here, so
that an underflow would show as a negative value.  An index outside a table
cannot be read in the source either; the accessors return an empty list there.
-/

namespace Gauv

/-! ## Adjacency tables -/

/-- A table of operation lists, one for each node. -/
abbrev OpTable := List (List Operation)

namespace OpTable

/-- The list stored for node `i`. -/
def at' (t : OpTable) (i : ℕ) : List Operation := t.getD i []

/-- `t.set(i, t[i].push_back(e))`. -/
def push (t : OpTable) (i : ℕ) (e : Operation) : OpTable := t.set i (t.at' i ++ [e])

/-- Erase the first pointer to `e` from the list of node `i`, if there is one. -/
def erase (t : OpTable) (i : ℕ) (e : Operation) : OpTable :=
  t.set i ((t.at' i).eraseP (fun x => x.id == e.id))

end OpTable

/-! ## The graph without corruption -/

/-- `GraphBase`: the two adjacency tables and the nodes.  An eliminated node is
`none`, the null pointer. -/
structure GraphBase where
  inEdgesOf : OpTable
  outEdgesOf : OpTable
  nodes : List (Option Node)
  deriving DecidableEq, Repr

namespace GraphBase

def nodeSize (g : GraphBase) : ℕ := g.nodes.length

/-- The operations that compute node `i`. -/
def inEdges (g : GraphBase) (i : ℕ) : List Operation := g.inEdgesOf.at' i

/-- The operations that node `i` feeds. -/
def outEdges (g : GraphBase) (i : ℕ) : List Operation := g.outEdgesOf.at' i

def inDeg (g : GraphBase) (i : ℕ) : ℕ := (g.inEdges i).length

def outDeg (g : GraphBase) (i : ℕ) : ℕ := (g.outEdges i).length

/-- The node stored at index `i`; `none` for an eliminated node. -/
def node? (g : GraphBase) (i : ℕ) : Option Node := g.nodes.getD i none

/-- `isRandomNode` of a node object. -/
def isRandom (g : GraphBase) (n : Node) : Bool :=
  g.inDeg n.guid = 0 && !n.isInput && !n.isOutput

/-- `isRandomNode` of an index.  The source reads through the node pointer, so
an eliminated node has no answer; it is not random here. -/
def isRandomNode (g : GraphBase) (i : ℕ) : Bool :=
  match g.node? i with
  | some n => g.inDeg i = 0 && !n.isInput && !n.isOutput
  | none => false

/-- `GraphBase::generateHash`: a polynomial in the xors of the in-edge hashes.
The xor stands in a `parallel reduction` region of `team` threads. -/
def generateHash (team : ℕ) (t : OpTable) : UInt64 :=
  t.foldl (fun res inEdges =>
    let once := inEdges.foldl (fun r e => r ^^^ e.hash) 0
    res * 1000000009 + if team % 2 = 1 then once else 0) 0

end GraphBase

/-! ## The graph with corrupted parties -/

/-- `Graph`: a graph together with the parties of the proof attempt and the
incrementally kept counters. -/
structure Graph extends GraphBase where
  randomNodeCnt : ℤ
  bubbleCnt : ℤ
  partyCnt : ℕ
  T : ℕ
  corruptedParties : Finset PartyDecl
  deriving DecidableEq

namespace Graph

/-- The party of the node is corrupted. -/
def isCorrupted (g : Graph) (n : Node) : Bool := n.party ∈ g.corruptedParties

end Graph

namespace GraphBase

/-- What one node adds to the bubble count: an input or output counts at an
honest party, and at a corrupted party as long as it has an in-edge. -/
def isBubble (g : GraphBase) (corrupted : Finset PartyDecl) (n : Node) : Bool :=
  if n.party ∈ corrupted then n.isInOut && g.inDeg n.guid != 0 else n.isInOut

/-- The random node count, computed from scratch. -/
def countRandom (g : GraphBase) : ℤ :=
  g.nodes.countP (fun o => o.any g.isRandom)

/-- The bubble count, computed from scratch. -/
def countBubble (g : GraphBase) (corrupted : Finset PartyDecl) : ℤ :=
  g.nodes.countP (fun o => o.any (g.isBubble corrupted))

/-- The four-argument constructor `Graph(g, partyCnt, T, corruptedParties)`,
which recomputes both counters. -/
def toGraph (g : GraphBase) (partyCnt T : ℕ) (corrupted : Finset PartyDecl) : Graph :=
  { g with
    randomNodeCnt := g.countRandom
    bubbleCnt := g.countBubble corrupted
    partyCnt := partyCnt
    T := T
    corruptedParties := corrupted }

end GraphBase

namespace Graph

/-- `1` if the condition holds, as the source converts a `bool` to an `int`. -/
def ofBool (b : Bool) : ℤ := if b then 1 else 0

/-- Remove one edge from the in-list of its output and once, for each
occurrence of an input, from the out-list of that input. -/
def eliminateEdge (g : Graph) (edge : Operation) : Graph :=
  let dst := edge.output
  { g with
    inEdgesOf := g.inEdgesOf.erase dst.guid edge
    outEdgesOf := edge.inputs.foldl (fun t src => t.erase src.guid edge) g.outEdgesOf
    randomNodeCnt := g.randomNodeCnt
      + ofBool (g.inDeg dst.guid = 1 && !dst.isInput && !dst.isOutput)
    bubbleCnt := g.bubbleCnt
      - ofBool (g.inDeg dst.guid = 1 && (dst.isInput || dst.isOutput) && g.isCorrupted dst) }

def eliminateEdges (g : Graph) (edges : List Operation) : Graph :=
  edges.foldl eliminateEdge g

/-- Append one edge to the in-list of its output and to the out-list of each
input. -/
def addEdge (g : Graph) (edge : Operation) : Graph :=
  let dst := edge.output
  { g with
    inEdgesOf := g.inEdgesOf.push dst.guid edge
    outEdgesOf := edge.inputs.foldl (fun t src => t.push src.guid edge) g.outEdgesOf
    randomNodeCnt := g.randomNodeCnt
      - ofBool (g.inDeg dst.guid = 0 && !dst.isInput && !dst.isOutput)
    bubbleCnt := g.bubbleCnt
      + ofBool (g.inDeg dst.guid = 0 && (dst.isInput || dst.isOutput) && g.isCorrupted dst) }

def addEdges (g : Graph) (edges : List Operation) : Graph :=
  edges.foldl addEdge g

/-- Delete a node with its in-edges and out-edges.  The random node count is
left as it is. -/
def eliminateNode (g : Graph) (node : Node) : Graph :=
  let inEdgesOf := g.inEdgesOf.set node.guid []
  let outEdgesOf := g.outEdgesOf.set node.guid []
  { g with
    inEdgesOf := (g.outEdges node.guid).foldl
      (fun t outEdge => t.erase outEdge.output.guid outEdge) inEdgesOf
    outEdgesOf := (g.inEdges node.guid).foldl
      (fun t inEdge => inEdge.inputs.foldl (fun t src => t.erase src.guid inEdge) t) outEdgesOf
    nodes := g.nodes.set node.guid none
    bubbleCnt := g.bubbleCnt
      - ofBool ((node.isInput || node.isOutput) && !g.isCorrupted node) }

def hasBubble (g : Graph) : Bool := g.bubbleCnt > 0

/-! ## The rank function -/

/-- The work still queued in the backward search can be at most the starting
nodes plus every input of every edge; one more step finds the queue empty. -/
def searchFuel (g : Graph) : ℕ :=
  g.nodeSize + ((g.inEdgesOf.map fun es => (es.map fun e => e.inputs.length).sum).sum) + 1

/-- The loop of the backward search: pop a node, skip it if visited, count it
if it is honest, and queue the inputs of its in-edges. -/
def searchLoop (g : Graph) : ℕ → List ℕ → List ℕ → ℕ → ℕ
  | 0, _, _, count => count
  | _ + 1, [], _, count => count
  | fuel + 1, id :: q, visited, count =>
      if id ∈ visited then searchLoop g fuel q visited count
      else
        let honest := (g.node? id).any (fun n => !g.isCorrupted n)
        let next := (g.inEdges id).flatMap (fun e => e.inputs.map Node.guid)
        searchLoop g fuel (q ++ next) (id :: visited) (if honest then count + 1 else count)

/-- The number of honest nodes found by a backward search from the nodes of the
corrupted parties. -/
def numReachableNodes (g : Graph) : ℕ :=
  let start := (List.range g.nodeSize).filter
    (fun i => (g.node? i).any (fun n => g.isCorrupted n))
  searchLoop g g.searchFuel start [] 0

/-- The sum of `nodeSize - id` over the honest nodes without in-edges. -/
def sumTopoRandomNodes (g : Graph) : ℕ :=
  ((List.range g.nodeSize).filter
    (fun i => (g.node? i).any (fun n => g.inDeg i = 0 && !g.isCorrupted n))).foldl
    (fun s i => s + (g.nodeSize - i)) 0

/-- `Graph::potential`, compared lexicographically. -/
def potential (g : Graph) : ℤ ×ₗ ℕ ×ₗ ℕ ×ₗ ℕ :=
  toLex (g.bubbleCnt, toLex (g.numReachableNodes, toLex (g.nodeSize, g.sumTopoRandomNodes)))

/-- What `operator==` and `Graph::Hash` look at: two graphs are the same to the
visited set when these three values agree. -/
def key (team : ℕ) (g : Graph) : UInt64 × ℤ × ℤ :=
  (GraphBase.generateHash team g.inEdgesOf, g.randomNodeCnt, g.bubbleCnt)

end Graph

end Gauv
