import Gauv.Mpcgraph.Share

/-!
# The BGW front end

A `Variable` is a Shamir sharing: one share for each party of the BGW context.
The operators of the class are written with the calls of the general front end.
-/

namespace Gauv

namespace Bgw

/-- `bgw::Context`: the parties, the threshold, and the number of
multiplications, which goes into the names of the Lagrange constants. -/
structure Context where
  parties : List PartyDecl
  T : ℕ
  mulCounter : ℕ
  deriving DecidableEq, Repr

def Context.N (ctx : Context) : ℕ := ctx.parties.length

/-- The addresses of the shares of a `Variable`. -/
abbrev Variable := List ℕ

namespace Variable

/-- Read a share of a variable; there is no bound check. -/
def shareAt (v : Variable) (i : ℕ) : FrontM ℕ :=
  match v[i]? with
  | some a => return a
  | none => throw .undefined

/-- `Variable(bgw_ctx, mpc_ctx, type)`: a sharing that is an input. -/
def ofInput (ctx : Context) (type : Ty) : FrontM Variable :=
  ctx.parties.mapM (Share.genShare type)

/-- One share of a fresh sharing: evaluate the polynomial for the party, and
send the share there unless the dealer keeps it. -/
def deal (poly : ℕ) (p : PartyDecl) : FrontM ℕ := do
  let s ← Poly.eval poly p
  Share.transfer s p

/-- `Variable(ctx, s)`: the holder of `s` shares it among the parties. -/
def share (ctx : Context) (s : ℕ) : FrontM Variable := do
  let es ← FrontM.deref s
  let poly ← Poly.genPoly es.party s ctx.T
  ctx.parties.mapM (deal poly)

/-- `operator=(mpc::Expression&)`: the new shares are appended. -/
def assign (ctx : Context) (v : Variable) (s : ℕ) : FrontM Variable := do
  let shares ← share ctx s
  return v ++ shares

/-- `yield`: send every share to the party, and reconstruct there. -/
def yield (v : Variable) (party : PartyDecl) (name : String) : FrontM ℕ := do
  let transferred ← v.mapM fun s => Share.transfer s party
  Share.reconstruct transferred party name

/-- `operator+`. -/
def add (ctx : Context) (lhs rhs : Variable) : FrontM Variable :=
  (List.range ctx.N).mapM fun i => do
    let a ← shareAt lhs i
    let b ← shareAt rhs i
    Share.add a b

/-- `operator*` with a constant: the first `N` shares are replaced in a copy. -/
def mulConst (ctx : Context) (lhs : Variable) (c : ℕ) : FrontM Variable := do
  let scaled ← (List.range ctx.N).mapM fun i => do
    let a ← shareAt lhs i
    Share.scalarMul a c
  return scaled ++ lhs.drop ctx.N

/-- The name of the Lagrange constant for share `i`. -/
def lambdaName (ctx : Context) (i : ℕ) : String :=
  "mul_" ++ toString ctx.mulCounter ++ "_lambda_" ++ toString i

/-- One round of the loop of `operator*`: party `i` multiplies its shares and
shares the product again; the weighted sharing is added to the sum. -/
def mulRound (ctx : Context) (lhs rhs sum : Variable) (i : ℕ) : FrontM Variable := do
  let a ← shareAt lhs i
  let b ← shareAt rhs i
  let product ← Share.mul a b
  let inter ← share ctx product
  let lambda ← newConstant (lambdaName ctx i)
  let term ← mulConst ctx inter lambda
  if i = 0 then return term else add ctx sum term

/-- `operator*` of two variables. -/
def mul (ctx : Context) (lhs rhs : Variable) : FrontM (Variable × Context) := do
  let sum ← (List.range ctx.N).foldlM (mulRound ctx lhs rhs) []
  return (sum, { ctx with mulCounter := ctx.mulCounter + 1 })

end Variable

end Bgw

end Gauv
