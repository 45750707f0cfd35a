import Mathlib

/-!
# Nodes and operations of the protocol graph

The data the prover works on: a `Node` is a value held by one party, an
`Operation` is a hyperedge from its inputs to its output.  Both are objects in
the source, compared by address.  A node is identified here by its `guid` (its
index in the graph that owns it) and an operation by its `id`, the address it
was allocated at.

Operations carry the hash that was computed when they were built.  The sums in
`generateHash` stand in an OpenMP `parallel reduction` region without a
work-sharing `for`, so each thread of the team runs the whole loop; `team` is
the size of that team.
-/

namespace Gauv

/-- A party, named by the address of its declaration. -/
abbrev PartyDecl := ℕ

/-- The operators of the front end and of the graph. -/
inductive Operator where
  | none | input | transit
  | add | sub | mul | div | scalarMul
  | eval | reconstruct | polilize
  | typeCast
  deriving DecidableEq, Repr

/-- The numeric value of an operator, as the enumeration declares it. -/
def Operator.toNat : Operator → ℕ
  | .none => 0
  | .input => 100
  | .transit => 101
  | .add => 200
  | .sub => 201
  | .mul => 202
  | .div => 203
  | .scalarMul => 204
  | .eval => 300
  | .reconstruct => 301
  | .polilize => 302
  | .typeCast => 400

/-- The genre of a node: a protocol input, a protocol output, or anything else. -/
inductive NodeGenre where
  | none | input | output | others
  deriving DecidableEq, Repr

/-- A node of the protocol graph. -/
structure Node where
  guid : ℕ
  name : String
  party : PartyDecl
  type : NodeGenre
  deriving DecidableEq, Repr

namespace Node

def isInput (n : Node) : Bool := n.type = .input

def isOutput (n : Node) : Bool := n.type = .output

/-- The node is an input or an output of the protocol. -/
def isInOut (n : Node) : Bool := n.isInput || n.isOutput

end Node

/-- A hyperedge of the graph: `type` computes `output` from `inputs`. -/
structure Operation where
  id : ℕ
  hash : UInt64
  type : Operator
  inputs : List Node
  output : Node
  deriving DecidableEq, Repr

namespace Operation

/-- `Operation::generateHash`, with the input guids summed once by each thread
of a team of size `team`. -/
def generateHash (team : ℕ) (type : Operator) (inputs : List Node) (output : Node) : UInt64 :=
  let res := UInt64.ofNat type.toNat * 2333333
  let resp := UInt64.ofNat team * inputs.foldl (fun r n => r + UInt64.ofNat n.guid) 0
  (res + resp) * 2333333 + UInt64.ofNat output.guid

/-- The constructor `Operation(type, inputs, output)` at address `id`. -/
def make (team id : ℕ) (type : Operator) (inputs : List Node) (output : Node) : Operation :=
  ⟨id, generateHash team type inputs output, type, inputs, output⟩

@[simp] theorem make_id (k i : ℕ) (t : Operator) (ns : List Node) (o : Node) :
    (make k i t ns o).id = i := rfl

@[simp] theorem make_type (k i : ℕ) (t : Operator) (ns : List Node) (o : Node) :
    (make k i t ns o).type = t := rfl

@[simp] theorem make_inputs (k i : ℕ) (t : Operator) (ns : List Node) (o : Node) :
    (make k i t ns o).inputs = ns := rfl

@[simp] theorem make_output (k i : ℕ) (t : Operator) (ns : List Node) (o : Node) :
    (make k i t ns o).output = o := rfl

/-- How often the node `u` occurs among the inputs. -/
def inputCount (e : Operation) (u : ℕ) : ℕ := (e.inputs.map Node.guid).count u

end Operation

end Gauv
