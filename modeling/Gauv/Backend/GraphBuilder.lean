import Gauv.Backend.Graph
import Gauv.Mpcgraph.Expression

/-!
# The graph builder

`importFrontend` turns an expression and everything it refers to into nodes and
operations, memoised by two tables.  The tables are function-level statics: they
outlive the builder, so a build starts from whatever earlier builds of the
process have left in them (`Memory`).

A node object is named by the build that made it and by its guid; the auxiliary
node of a polynomial, which belongs to no graph, is named by the polynomial.
`none` stands for a failed assertion, a failed `at`, or an index out of range.
-/

namespace Gauv

/-- A pointer to a node object. -/
inductive NodePtr where
  | node (build guid : ℕ)
  | aux (poly : ℕ)
  deriving DecidableEq, Repr

/-- The guid stored in the object; `-1`, which is no index, for an auxiliary node. -/
def NodePtr.guid? : NodePtr → Option ℕ
  | node _ g => some g
  | aux _ => none

/-- An operation object while the graph is built. -/
structure OpObject where
  type : Operator
  inputs : List NodePtr
  output : Option NodePtr
  deriving DecidableEq, Repr

/-- What survives a build: the two static tables and the node objects of the
builds so far. -/
structure Memory where
  frontBackMap : List (ℕ × Option NodePtr)
  polyMap : List (NodePtr × OpObject)
  earlier : List (List Node)
  deriving DecidableEq, Repr

/-- The memory of a fresh process. -/
def Memory.fresh : Memory := ⟨[], [], []⟩

/-- The state of a build.  The adjacency tables hold addresses of operations,
which are indices into `ops`. -/
structure Builder extends Memory where
  nodes : List Node
  ops : List OpObject
  inEdgesOf : List (List ℕ)
  outEdgesOf : List (List ℕ)
  deriving DecidableEq, Repr

namespace Builder

/-- The number of the current build. -/
def current (s : Builder) : ℕ := s.earlier.length

/-- `newNode`. -/
def newNode (s : Builder) (name : String) (party : PartyDecl) (type : NodeGenre) :
    Builder × NodePtr :=
  ({ s with
      nodes := s.nodes ++ [⟨s.nodes.length, name, party, type⟩]
      inEdgesOf := s.inEdgesOf ++ [[]]
      outEdgesOf := s.outEdgesOf ++ [[]] },
    .node s.current s.nodes.length)

@[simp] theorem newNode_snd (s : Builder) (name : String) (party : PartyDecl)
    (type : NodeGenre) : (s.newNode name party type).2 = .node s.current s.nodes.length := rfl

/-- `make_shared<Operation>(type)`. -/
def newOp (s : Builder) (op : OpObject) : Builder × ℕ :=
  ({ s with ops := s.ops ++ [op] }, s.ops.length)

@[simp] theorem newOp_snd (s : Builder) (op : OpObject) : (s.newOp op).2 = s.ops.length := rfl

@[simp] theorem newOp_nodes (s : Builder) (op : OpObject) : (s.newOp op).1.nodes = s.nodes := rfl

@[simp] theorem newOp_current (s : Builder) (op : OpObject) :
    (s.newOp op).1.current = s.current := rfl

def addInput (s : Builder) (o : ℕ) (p : NodePtr) : Builder :=
  { s with ops := s.ops.modify o fun op => { op with inputs := op.inputs ++ [p] } }

def setOutput (s : Builder) (o : ℕ) (p : NodePtr) : Builder :=
  { s with ops := s.ops.modify o fun op => { op with output := some p } }

/-- `outEdgesOf[p->guid].push_back(operation)`. -/
def pushOut (s : Builder) (p : NodePtr) (o : ℕ) : Option Builder :=
  match p.guid? with
  | some g =>
      if g < s.outEdgesOf.length then
        some { s with outEdgesOf := s.outEdgesOf.modify g (· ++ [o]) }
      else none
  | none => none

/-- Push the operation into the out-list of each node. -/
def pushOuts (o : ℕ) : List NodePtr → Builder → Option Builder
  | [], s => some s
  | p :: ps, s => do
      let s ← s.pushOut p o
      pushOuts o ps s

/-- `inEdgesOf[guid].push_back(operation)`, for the node just created. -/
def pushIn (s : Builder) (g o : ℕ) : Builder :=
  { s with inEdgesOf := s.inEdgesOf.modify g (· ++ [o]) }

/-- `frontBackMap[exp] = node`. -/
def memoize (s : Builder) (exp : ℕ) (p : Option NodePtr) : Builder :=
  { s with frontBackMap := (exp, p) :: s.frontBackMap }

end Builder

/-! ## Import -/

/-- What an import computes: the state after it and the node, which is null for
constants. -/
abbrev Import := Builder → Option (Builder × Option NodePtr)

/-- The loop over the operands of a simple operation: skip constants, import
the others, and record both directions of the edge. -/
def importOprands (heap : Heap) (imp : ℕ → Import) (o : ℕ) :
    List ℕ → Builder → Option Builder
  | [], s => some s
  | x :: xs, s => do
      let e ← heap[x]?
      if e.isConstant then importOprands heap imp o xs s
      else
        let (s, p) ← imp x s
        let p ← p
        let s ← (s.addInput o p).pushOut p o
        importOprands heap imp o xs s

/-- Create the coefficient nodes of a polynomial. -/
def newCoeffs (name : String) (party : PartyDecl) :
    ℕ → ℕ → Builder → Builder × List NodePtr
  | _, 0, s => (s, [])
  | i, k + 1, s =>
      let (s, p) := s.newNode (name ++ "_coeff_" ++ toString i) party .others
      let (s, ps) := newCoeffs name party (i + 1) k s
      (s, p :: ps)

/-- The cases of the switch in `importFrontend`. -/
def importCases (heap : Heap) (imp : ℕ → Import) (exp : ℕ) (e : Expression) : Import := fun s =>
  match e.op with
  | .none => some (s, none)
  | .input =>
      match e.cls with
      | .secret | .share =>
          let (s, p) := s.newNode e.name e.party .input
          some (s, some p)
      | .randomness =>
          let (s, p) := s.newNode e.name e.party .others
          some (s, some p)
      | _ => some (s, none)
  | .transit | .add | .sub | .mul | .div | .typeCast | .scalarMul | .reconstruct => do
      let (s, o) := s.newOp ⟨e.op, [], none⟩
      let s ← importOprands heap imp o e.oprands s
      let g := s.nodes.length
      let (s, p) := s.newNode e.name e.party .others
      return ((s.pushIn g o).setOutput o p, some p)
  | .eval =>
      match e.oprands with
      | [x] =>
          if e.isShare then do
            let (s, p) ← imp x s
            let p ← p
            let old ← s.polyMap.lookup p
            if old.type = .polilize then
              let (s, o) := s.newOp { old with type := .eval }
              let g := s.nodes.length
              let (s, p) := s.newNode e.name e.party .others
              let s := (s.setOutput o p).pushIn g o
              let s ← Builder.pushOuts o old.inputs s
              return (s, some p)
            else none
          else none
      | _ => none
  | .polilize =>
      match e.cls with
      | .poly degree party constTerm => do
          let (s, c) ← imp constTerm s
          let (s, coeffs) := newCoeffs e.name party 0 degree s
          let op : OpObject := ⟨.polilize, c.toList ++ coeffs, some (.aux exp)⟩
          return ({ s with polyMap := (.aux exp, op) :: s.polyMap }, some (.aux exp))
      | _ => none

/-- `importFrontend`: hit the memo table, or import and memoise. -/
def importFrontend (heap : Heap) : ℕ → ℕ → Import
  | 0, _ => fun _ => none
  | fuel + 1, exp => fun s =>
      match s.frontBackMap.lookup exp with
      | some p => some (s, p)
      | none => do
          let e ← heap[exp]?
          let (s, p) ← importCases heap (importFrontend heap fuel) exp e s
          return (s.memoize exp p, p)

/-! ## Build -/

namespace Builder

/-- `node->type = Node::OUTPUT`.  An auxiliary node is in no graph. -/
def markOutput (s : Builder) : NodePtr → Builder
  | .node b g =>
      if b = s.current then
        { s with nodes := s.nodes.modify g fun n => { n with type := .output } }
      else
        { s with earlier := s.earlier.modify b fun ns =>
            ns.modify g fun n => { n with type := .output } }
  | .aux _ => s

/-- The node object behind a pointer.  No list of a finished build names an
object that does not exist. -/
def nodeAt (s : Builder) : NodePtr → Node
  | .node b g =>
      let ns := if b = s.current then s.nodes else s.earlier.getD b []
      ns.getD g ⟨g, "", nullParty, .none⟩
  | .aux _ => ⟨0, "", nullParty, .none⟩

/-- The finished operation at address `o`, with the hash its last update left. -/
def opAt (s : Builder) (team o : ℕ) : Operation :=
  let op := s.ops.getD o ⟨.none, [], none⟩
  Operation.make team o op.type (op.inputs.map s.nodeAt) (s.nodeAt (op.output.getD (.aux 0)))

/-- The vectors of the builder, copied into a graph. -/
def toGraphBase (s : Builder) (team : ℕ) : GraphBase where
  inEdgesOf := s.inEdgesOf.map fun es => es.map (s.opAt team)
  outEdgesOf := s.outEdgesOf.map fun es => es.map (s.opAt team)
  nodes := s.nodes.map some

/-- The builder with its vectors cleared. -/
def start (mem : Memory) : Builder :=
  { mem with nodes := [], ops := [], inEdgesOf := [], outEdgesOf := [] }

/-- The loop over the outputs. -/
def importOutputs (heap : Heap) : List ℕ → Builder → Option Builder
  | [], s => some s
  | out :: outs, s => do
      let (s, p) ← importFrontend heap (heap.length + 1) out s
      let p ← p
      importOutputs heap outs (s.markOutput p)

/-- What stays behind: the tables, and the nodes among the earlier ones. -/
def leave (s : Builder) : Memory :=
  ⟨s.frontBackMap, s.polyMap, s.earlier ++ [s.nodes]⟩

end Builder

/-- `GraphBaseBuilder(outputs).build()`: the graph as it reads when the call returns.  It
shares its node objects with the tables; `Builder.readIn` says what it reads as after
later builds. -/
def build (team : ℕ) (heap : Heap) (mem : Memory) (outputs : List ℕ) :
    Option (GraphBase × Memory) := do
  let s ← Builder.importOutputs heap outputs (Builder.start mem)
  return (s.toGraphBase team, s.leave)

/-- Builds one after the other, each with its own list of outputs. -/
def builds (team : ℕ) (heap : Heap) (mem : Memory) :
    List (List ℕ) → Option (List GraphBase × Memory)
  | [] => some ([], mem)
  | outputs :: rest => do
      let (g, mem) ← build team heap mem outputs
      let (gs, mem) ← builds team heap mem rest
      return (g :: gs, mem)

end Gauv
