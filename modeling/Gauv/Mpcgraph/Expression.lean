import Gauv.Backend.Operation

/-!
# Expressions of the front end

A protocol is written as a graph of expression objects that refer to one
another by pointer.  The objects of a process live in a heap; an expression is
named by its address, which is its index there.  The null party pointer, which
constants and the base class of polynomials carry, is address `0`.
-/

namespace Gauv

/-- The null pointer to a party. -/
def nullParty : PartyDecl := 0

/-! ## Types and exceptions -/

/-- The type objects.  There is one object for each type, so comparing pointers
compares types. -/
inductive Ty where
  | arithField
  | binField
  | poly (elemType : Ty)
  deriving DecidableEq, Repr

/-- What a front-end call can throw.  `undefined` stands for the calls that have
no defined behaviour: a dangling or null pointer, or an index out of range. -/
inductive Exn where
  | varRedefinition (name : String)
  | partyMismatch (want get : PartyDecl)
  | typeMismatch (dest got : Ty)
  | undefined
  deriving DecidableEq, Repr

/-! ## Expressions -/

/-- The classes that can be instantiated, with the members `Poly` adds. -/
inductive ExprClass where
  | constant
  | secret
  | randomness
  | typeCast
  | share
  | poly (degree : ℕ) (party : PartyDecl) (constTerm : ℕ)
  deriving DecidableEq, Repr

/-- An expression object: the members of the base class, its equation included.
`params` holds the party an EVAL is for. -/
structure Expression where
  cls : ExprClass
  name : String
  type : Ty
  op : Operator
  oprands : List ℕ
  params : List PartyDecl
  party : PartyDecl
  deriving DecidableEq, Repr

namespace Expression

def isShare (e : Expression) : Bool := e.cls = .share

def isConstant (e : Expression) : Bool := e.cls = .constant

def isPoly (e : Expression) : Bool :=
  match e.cls with
  | .poly .. => true
  | _ => false

/-- The pointers an expression follows: its operands and, for a polynomial, the
constant term. -/
def refs (e : Expression) : List ℕ :=
  match e.cls with
  | .poly _ _ c => c :: e.oprands
  | _ => e.oprands

theorem mem_refs {e : Expression} {x : ℕ} (h : x ∈ e.oprands) : x ∈ e.refs := by
  rw [refs]
  split
  · exact List.mem_cons_of_mem _ h
  · exact h

end Expression

/-- The expression objects of a process, by address. -/
abbrev Heap := List Expression

/-! ## The context -/

/-- The front end's state: the heap, and the names the context has registered
for each kind of object.  The context counts polynomials and shares by the
number of registered names. -/
structure Frontend where
  heap : Heap
  secrets : List String
  constants : List String
  polies : List String
  shares : List String
  randomness : List String
  deriving DecidableEq, Repr

/-- A call of the front end: it changes the state and returns, or throws. -/
abbrev FrontM := StateT Frontend (Except Exn)

namespace Frontend

def nPoly (fe : Frontend) : ℕ := fe.polies.length

def nShare (fe : Frontend) : ℕ := fe.shares.length

/-- Register a share; a name that is taken is ignored. -/
def registerShare (fe : Frontend) (name : String) : Frontend :=
  if name ∈ fe.shares then fe else { fe with shares := name :: fe.shares }

/-- Register a polynomial; a name that is taken is ignored. -/
def registerPoly (fe : Frontend) (name : String) : Frontend :=
  if name ∈ fe.polies then fe else { fe with polies := name :: fe.polies }

/-- The name the context gives to the next share. -/
def shareName (fe : Frontend) : String := "share_" ++ toString fe.nShare

/-- The name the context gives to the next polynomial. -/
def polyName (fe : Frontend) : String := "poly_" ++ toString fe.nPoly

/-- `Constant::zero`, which exists from the start of the process. -/
def zeroConstant : Expression :=
  ⟨.constant, "_const_zero", .arithField, .input, [], [], nullParty⟩

/-- The state at the start of the process. -/
def initial : Frontend := ⟨[zeroConstant], [], ["_const_zero"], [], [], []⟩

end Frontend

namespace FrontM

/-- Follow a pointer to an expression. -/
def deref (a : ℕ) : FrontM Expression := fun fe =>
  match fe.heap[a]? with
  | some e => .ok (e, fe)
  | none => .error .undefined

/-- Follow a pointer that must point to a `Share`. -/
def derefShare (a : ℕ) : FrontM Expression := do
  let e ← deref a
  if e.isShare then return e else throw .undefined

/-- `new`: put an object at the next address. -/
def alloc (e : Expression) : FrontM ℕ := fun fe =>
  .ok (fe.heap.length, { fe with heap := fe.heap ++ [e] })

end FrontM

end Gauv
