import Gauv.Mpcgraph.Expression

/-!
# Constructors and factories of the front end

The calls a protocol is written with: the placeholders, `TypeCast`, `Share` and
its operators, and `Poly`.  Each takes the addresses of the expressions it is
given and returns the address of the one it creates.
-/

namespace Gauv

open FrontM

/-! ## Placeholders and casts -/

/-- `Constant(context, name)`. -/
def newConstant (name : String) : FrontM ℕ := do
  let fe ← get
  if name ∈ fe.constants then throw (.varRedefinition name)
  set { fe with constants := name :: fe.constants }
  alloc ⟨.constant, name, .arithField, .input, [], [], nullParty⟩

/-- `Secret(context, name, type, party)`. -/
def newSecret (name : String) (type : Ty) (party : PartyDecl) : FrontM ℕ := do
  let fe ← get
  if name ∈ fe.secrets then throw (.varRedefinition name)
  set { fe with secrets := name :: fe.secrets }
  alloc ⟨.secret, name, type, .input, [], [], party⟩

/-- `Randomness(context, name, type, party)`. -/
def newRandomness (name : String) (type : Ty) (party : PartyDecl) : FrontM ℕ := do
  let fe ← get
  if name ∈ fe.randomness then throw (.varRedefinition name)
  set { fe with randomness := name :: fe.randomness }
  alloc ⟨.randomness, name, type, .input, [], [], party⟩

/-- `TypeCast(context, name, type, expr, party)`; nothing is checked. -/
def newTypeCast (name : String) (type : Ty) (expr : ℕ) (party : PartyDecl) : FrontM ℕ := do
  let _ ← deref expr
  alloc ⟨.typeCast, name, type, .typeCast, [expr], [], party⟩

/-! ## Shares -/

namespace Share

/-- The private constructor: register the name, whether or not it is taken. -/
def new (name : String) (type : Ty) (op : Operator) (oprands : List ℕ)
    (params : List PartyDecl) (party : PartyDecl) : FrontM ℕ := do
  modify (·.registerShare name)
  alloc ⟨.share, name, type, op, oprands, params, party⟩

/-- `Share::gen_share`: a share that is an input of the protocol. -/
def genShare (type : Ty) (party : PartyDecl) : FrontM ℕ := do
  let fe ← get
  new fe.shareName type .input [] [] party

/-- `_binary_op`: both operands at one party, which gets the result. -/
def binaryOp (a b : ℕ) (op : Operator) : FrontM ℕ := do
  let ea ← derefShare a
  let eb ← derefShare b
  if ea.party ≠ eb.party then throw (.partyMismatch ea.party eb.party)
  let fe ← get
  new fe.shareName ea.type op [a, b] [] ea.party

def add (a b : ℕ) : FrontM ℕ := binaryOp a b .add

def sub (a b : ℕ) : FrontM ℕ := binaryOp a b .sub

def mul (a b : ℕ) : FrontM ℕ := binaryOp a b .mul

def div (a b : ℕ) : FrontM ℕ := binaryOp a b .div

/-- `Share::scalarMul`. -/
def scalarMul (s c : ℕ) : FrontM ℕ := do
  let es ← derefShare s
  let ec ← deref c
  if !ec.isConstant then throw .undefined
  let fe ← get
  new fe.shareName es.type .scalarMul [s, c] [] es.party

/-- `Share::transfer`; a transfer to the holder is the share itself. -/
def transfer (s : ℕ) (party : PartyDecl) : FrontM ℕ := do
  let es ← derefShare s
  if es.party = party then return s
  let fe ← get
  new fe.shareName es.type .transit [s] [] party

/-- The first loop of `reconstruct`: every operand has the type of the first. -/
def checkTypes (type : Ty) : List Expression → FrontM Unit
  | [] => return ()
  | e :: es => do
      if e.type ≠ type then throw (.typeMismatch type e.type)
      checkTypes type es

/-- The second loop of `reconstruct`: every operand is at the party of the first. -/
def checkParties (party : PartyDecl) : List Expression → FrontM Unit
  | [] => return ()
  | e :: es => do
      if !e.isShare then throw .undefined
      if party ≠ e.party then throw (.partyMismatch party e.party)
      checkParties party es

/-- `Share::reconstruct`.  The party of the result is not compared with that of
the operands. -/
def reconstruct (shares : List ℕ) (party : PartyDecl) (name : String) : FrontM ℕ := do
  let es ← shares.mapM deref
  match es with
  | [] => throw .undefined
  | e₀ :: rest => do
      checkTypes e₀.type rest
      checkParties e₀.party es
      let fe ← get
      new (if name = "" then fe.shareName else name) e₀.type .reconstruct shares [] party

end Share

/-! ## Polynomials -/

namespace Poly

/-- `Poly::gen_poly`.  Only the party of a `Secret` is compared with the dealer. -/
def genPoly (party : PartyDecl) (c : ℕ) (degree : ℕ) : FrontM ℕ := do
  let ec ← deref c
  if ec.cls = .secret ∧ ec.party ≠ party then throw (.partyMismatch party ec.party)
  let fe ← get
  let name := fe.polyName
  set (fe.registerPoly name)
  alloc ⟨.poly degree party c, name, .poly ec.type, .polilize, [c], [], nullParty⟩

/-- `Poly::eval`: the dealer computes the share for `party`. -/
def eval (p : ℕ) (party : PartyDecl) : FrontM ℕ := do
  let ep ← deref p
  match ep.cls, ep.type with
  | .poly _ dealer _, .poly elemType => do
      let fe ← get
      Share.new fe.shareName elemType .eval [p] [party] dealer
  | _, _ => throw .undefined

end Poly

end Gauv
