import Gauv.Backend.AssertedRuns
import Gauv.Backend.Executions
import Gauv.Backend.Faithful
import Gauv.Mpcgraph.Evaluation

/-!
# The builder keeps the meaning

The executions of the graph of a first build are the readings of its program:
the node of an expression has the value of the expression, that of a coefficient
the coefficient.  The edge of an expression has no input for a constant, and one
for every coefficient of a polynomial that is evaluated.
-/

namespace Gauv

open GraphBase Prover

variable {F : Type*} [Field F]

/-! ## What an edge computes -/

/-- The readings have the same parties, points and constants. -/
structure Reading.SameScheme (ρ ρ' : Reading F) : Prop where
  parties : ρ'.parties = ρ.parties
  point : ρ'.point = ρ.point
  constant : ρ'.constant = ρ.constant

namespace Heap

/-- The expressions an operation reads: the operands, or for an evaluation the
constant term. -/
def readsOf (heap : Heap) (op : Operator) (exp : Expression) : List ℕ :=
  if op = .eval then exp.oprands.flatMap heap.constTerm else exp.oprands

/-- The coefficients it is computed from. -/
def coefsOf {A : Type*} (heap : Heap) (coef : ℕ → ℕ → A) (exp : Expression) : List A :=
  if exp.op = .eval then exp.oprands.flatMap fun p => (List.range (heap.degree p)).map (coef p)
  else []

/-- Put the constants back that have no node. -/
def fill (ρ : Reading F) (heap : Heap) : List ℕ → List F → List F
  | [], as => as
  | x :: xs, as =>
      if (heap[x]?).any Expression.isConstant then
        (heap[x]?).elim 0 (fun c => ρ.constant c.name) :: fill ρ heap xs as
      else as.headD 0 :: fill ρ heap xs as.tail

end Heap

/-- The result of an operation, given the parameters and the values it reads: the
constant term and the coefficients for an evaluation, the operands otherwise. -/
def Operator.compute (ρ : Reading F) (op : Operator) (params : List PartyDecl) (as : List F) : F :=
  match op, as with
  | .transit, [a] => a
  | .typeCast, [a] => a
  | .add, [a, b] => a + b
  | .sub, [a, b] => a - b
  | .mul, [a, b] => a * b
  | .div, [a, b] => a / b
  | .scalarMul, [a, b] => a * b
  | .eval, a :: cs =>
      match params with
      | [party] => Sharing.evalPoly a cs.length (fun k => cs.getD k 0) (ρ.point party)
      | _ => 0
  | .reconstruct, as =>
      ∑ i ∈ Finset.range as.length, Sharing.weight ρ.pointAt as.length i * as.getD i 0
  | _, _ => 0

open Classical in
/-- What an edge computes from the values of its inputs.  The constants and the
party of an evaluation, which the graph does not have, are those of the
expression whose node it computes. -/
noncomputable def Heap.computation (ρ : Reading F) (heap : Heap) (outputs : List ℕ)
    (nodeOf : ℕ → ℕ) : Computation F := fun f as =>
  if h : ∃ exp e, e ∈ heap.exprsOf outputs ∧ nodeOf e = f.output.guid ∧ heap[e]? = some exp
  then f.type.compute ρ h.choose.params (heap.fill ρ (heap.readsOf f.type h.choose) as) else 0

namespace Heap

variable {ρ : Reading F} {heap : Heap} {outputs : List ℕ} {e : ℕ} {exp : Expression}

/-- Filling in the constants gives the values of all expressions. -/
theorem fill_operands {v : ℕ → F} (hv : ∀ x c, heap[x]? = some c → c.isConstant = true →
    v x = ρ.constant c.name) (xs : List ℕ) (as : List F) :
    heap.fill ρ xs ((heap.operands xs).map v ++ as) = xs.map v ++ as := by
  induction xs with
  | nil => rfl
  | cons x xs ih =>
      rw [fill, operands, List.filter_cons, ← operands]
      cases hx : heap[x]? with
      | none => simp [ih]
      | some c =>
          cases hc : c.isConstant with
          | true => simp [hc, ih, hv x c hx hc]
          | false => simp [hc, ih]

theorem value_constant (hs : heap.Sound) (he : heap[e]? = some exp)
    (hc : exp.isConstant = true) : heap.value ρ e = ρ.constant exp.name := by
  have hop := ((hs e exp he).shaped.op_of_isConstant hc).1
  rw [value_eq hs he, Expression.value, hop]
  simp [hc]

theorem value_input (hs : heap.Sound) (he : heap[e]? = some exp) (hop : exp.op = .input)
    (hc : exp.isConstant = false) : heap.value ρ e = ρ.input e := by
  rw [value_eq hs he, Expression.value, hop]
  simp [hc]

/-- Polynomials are made from one constant term, and an evaluation from one
polynomial. -/
theorem evaluated (hs : heap.Sound) (he : heap[e]? = some exp) (hop : exp.op = .eval) :
    ∃ p ep degree c, exp.oprands = [p] ∧ heap[p]? = some ep ∧ p < e ∧
      ep.cls = .poly degree exp.party c ∧ heap.degree p = degree ∧ heap.constTerm p = [c] ∧
        ∃ ec, heap[c]? = some ec ∧ c < p := by
  cases hs e exp he with
  | placeholder _ h _ => simp [h] at hop
  | typeCast _ h _ _ => simp [h] at hop
  | binary _ h _ _ _ _ _ => rcases h with h | h | h | h <;> simp [h] at hop
  | scalarMul _ h _ _ _ _ _ => simp [h] at hop
  | transit _ h _ _ _ => simp [h] at hop
  | reconstruct _ h _ => simp [h] at hop
  | poly _ h _ _ => simp [h] at hop
  | @eval p degree c ep _ _ hx hp hep =>
      obtain ⟨hp, hpe⟩ := Expression.Made.of_getElem?_take hp
      obtain ⟨hdeg, hconst⟩ := degree_eq hp hep
      obtain ⟨ec, hec⟩ := (hs p ep hp).exists_of_refs (x := c) (by simp [Expression.refs, hep])
      obtain ⟨hec, hcp⟩ := Expression.Made.of_getElem?_take hec
      exact ⟨p, ep, degree, c, hx, hp, hpe, hep, hdeg, hconst, ec, hec, hcp⟩

/-- The equation of a computed expression. -/
theorem value_eq_compute (hs : heap.Sound) (he : heap[e]? = some exp) (hop : exp.op ≠ .input)
    (hn : exp.HasNode) : heap.value ρ e = exp.op.compute ρ exp.params
      ((heap.readsOf exp.op exp).map (heap.value ρ) ++ heap.coefsOf ρ.coef exp) := by
  rw [value_eq hs he]
  by_cases hev : exp.op = .eval
  · obtain ⟨p, ep, degree, c, hx, hp, -, hcls, hdeg, hconst, -⟩ := evaluated hs he hev
    rw [readsOf, coefsOf, if_pos hev, if_pos hev, hx, List.flatMap_singleton,
      List.flatMap_singleton, hconst, hdeg]
    simp only [Expression.value, Operator.compute, hev, hx, hp, Option.map_some, hcls,
      List.map_cons, List.map_nil, List.singleton_append, List.length_map, List.length_range]
    rcases exp.params with _ | ⟨party, _ | _⟩
    · rfl
    · refine congrArg (heap.value ρ c + ·) (Finset.sum_congr rfl fun k hk => ?_)
      have hk' : k < ((List.range degree).map (ρ.coef p)).length := by simpa using hk
      beta_reduce
      rw [List.getD_eq_getElem _ _ hk', List.getElem_map, List.getElem_range]
    · rfl
  · rw [readsOf, coefsOf, if_neg hev, if_neg hev, List.append_nil]
    cases hs e exp he with
    | placeholder _ h _ => exact absurd h hop
    | typeCast _ h hx _ => simp [Expression.value, Operator.compute, h, hx]
    | binary _ h hx _ _ _ _ =>
        rcases h with h | h | h | h <;> simp [Expression.value, Operator.compute, h, hx]
    | scalarMul _ h hx _ _ _ _ => simp [Expression.value, Operator.compute, h, hx]
    | transit _ h hx _ _ => simp [Expression.value, Operator.compute, h, hx]
    | reconstruct _ h _ =>
        simp only [Expression.value, Operator.compute, h, List.length_map]
        refine Finset.sum_congr rfl fun i hi => ?_
        have hi' := Finset.mem_range.1 hi
        rw [List.getD_eq_getElem _ _ hi', List.getD_eq_getElem _ _ (by simpa using hi'),
          List.getElem_map]
    | poly h _ _ _ => exact absurd hn.2 (by simp [Expression.isPoly, h])
    | eval _ h _ _ _ => exact absurd h hev

end Heap

/-! ## Executions of a faithful graph -/

section Faithful

variable {ρ ρ' : Reading F} {heap : Heap} {outputs : List ℕ} {g : GraphBase} {nodeOf : ℕ → ℕ}
  {coeffOf : ℕ → ℕ → ℕ} {val : ℕ → F} {e : ℕ} {exp : Expression}

/-- The nodes have the values that the reading gives to their expressions. -/
structure Heap.ReadsAs (ρ : Reading F) (heap : Heap) (outputs : List ℕ) (g : GraphBase)
    (nodeOf : ℕ → ℕ) (coeffOf : ℕ → ℕ → ℕ) (val : ℕ → F) : Prop where
  expr : ∀ e ∈ heap.exprsOf outputs, val (nodeOf e) = heap.value ρ e
  coeff : ∀ p ∈ heap.poliesOf outputs, ∀ k < heap.degree p, val (coeffOf p k) = ρ.coef p k
  absent : ∀ i, g.node? i = none → val i = 0

theorem Operator.compute_congr (h : ρ.SameScheme ρ') (op : Operator) (params : List PartyDecl)
    (as : List F) : op.compute ρ' params as = op.compute ρ params as := by
  have hpoint : ρ'.pointAt = ρ.pointAt := by
    funext i
    rw [Reading.pointAt, Reading.pointAt, h.parties, h.point]
  unfold Operator.compute
  rw [h.point, hpoint]

theorem Heap.fill_congr (h : ρ.SameScheme ρ') (xs : List ℕ) (as : List F) :
    heap.fill ρ' xs as = heap.fill ρ xs as := by
  induction xs generalizing as with
  | nil => rfl
  | cons x xs ih => rw [fill, fill, h.constant, ih, ih]

/-- What the computation of an edge is. -/
theorem Faithful.computation_eq (hf : Faithful heap outputs g nodeOf coeffOf)
    (he : e ∈ heap.exprsOf outputs) (hexp : heap[e]? = some exp) {f : Operation}
    (htype : f.type = exp.op) (hout : f.output.guid = nodeOf e) (as : List F) :
    heap.computation ρ outputs nodeOf f as =
      exp.op.compute ρ exp.params (heap.fill ρ (heap.readsOf exp.op exp) as) := by
  have hex : ∃ exp e, e ∈ heap.exprsOf outputs ∧ nodeOf e = f.output.guid ∧
      heap[e]? = some exp := ⟨exp, e, he, hout.symm, hexp⟩
  obtain ⟨e', he', hnode, hexp'⟩ := hex.choose_spec
  obtain rfl : e' = e := hf.node_injOn he' he (hnode.trans hout)
  have hsame : hex.choose = exp := Option.some.inj (hexp'.symm.trans hexp)
  rw [Heap.computation, dif_pos hex, hsame, htype]

omit [Field F] in
/-- The values an edge reads. -/
theorem Heap.map_sources (hs : heap.Sound) (he : heap[e]? = some exp) (val : ℕ → F) :
    (heap.sources nodeOf coeffOf exp).map val =
      (heap.operands (heap.readsOf exp.op exp)).map (fun x => val (nodeOf x)) ++
        heap.coefsOf (fun p k => val (coeffOf p k)) exp := by
  by_cases hev : exp.op = .eval
  · obtain ⟨p, -, -, -, hx, -⟩ := Heap.evaluated hs he hev
    rw [sources, readsOf, coefsOf, if_pos hev, if_pos hev, if_pos hev, hx]
    simp only [List.flatMap_singleton, List.map_append, List.map_map]
    rfl
  · rw [sources, readsOf, coefsOf, if_neg hev, if_neg hev, if_neg hev, List.append_nil,
      List.map_map]
    rfl

/-- What an expression is computed from, constants aside, has a node of its own. -/
theorem Heap.mem_exprsOf_of_readsOf (hs : heap.Sound) (hpe : heap.PoliesEvaluated outputs)
    (he : e ∈ heap.exprsOf outputs) (hexp : heap[e]? = some exp) {x : ℕ}
    (hx : x ∈ heap.operands (heap.readsOf exp.op exp)) : x ∈ heap.exprsOf outputs ∧ x < e := by
  obtain ⟨hre, -⟩ := Heap.mem_exprsOf.1 he
  obtain ⟨hx, hc⟩ := List.mem_filter.1 hx
  rw [readsOf] at hx
  split at hx
  · rename_i hev
    obtain ⟨p, ep, degree, c, hxs, hp, hpe', hcls, -, hconst, ec, hec, hcp⟩ := evaluated hs hexp hev
    rw [hxs, List.flatMap_singleton, hconst, List.mem_singleton] at hx
    subst hx
    have hrp : heap.Reached outputs p := hre.follow hexp (Expression.mem_refs (by simp [hxs]))
    have hcref : x ∈ ep.refs := by simp [Expression.refs, hcls]
    have hop : ep.op = .polilize := by
      refine (hs p ep hp).shaped.op_of_isPoly ?_
      simp [Expression.isPoly, hcls]
    have hnot := hpe p ep hrp hp (by simp [hop]) x hcref ec hec
    refine ⟨Heap.mem_exprsOf.2 ⟨hrp.follow hp hcref, ec, hec, ?_, hnot⟩, hcp.trans hpe'⟩
    simpa [hec] using hc
  · rename_i hev
    have hxref := Expression.mem_refs hx
    obtain ⟨ex, hex⟩ := (hs e exp hexp).exists_of_refs hxref
    obtain ⟨hex, hlt⟩ := Expression.Made.of_getElem?_take hex
    have hnot := hpe e exp hre hexp hev x hxref ex hex
    refine ⟨Heap.mem_exprsOf.2 ⟨hre.follow hexp hxref, ex, hex, ?_, hnot⟩, hlt⟩
    simpa [hex] using hc

/-- Where the nodes before have their values, so has what an edge reads. -/
theorem Heap.fill_sources (hs : heap.Sound) (hpe : heap.PoliesEvaluated outputs)
    (he : e ∈ heap.exprsOf outputs) (hexp : heap[e]? = some exp)
    (hbefore : ∀ x ∈ heap.exprsOf outputs, x < e → val (nodeOf x) = heap.value ρ x)
    (hcoeff : ∀ p ∈ heap.poliesOf outputs, ∀ k < heap.degree p,
      val (coeffOf p k) = ρ.coef p k) :
    heap.fill ρ (heap.readsOf exp.op exp) ((heap.sources nodeOf coeffOf exp).map val) =
      (heap.readsOf exp.op exp).map (heap.value ρ) ++ heap.coefsOf ρ.coef exp := by
  have hreads : (heap.operands (heap.readsOf exp.op exp)).map (fun x => val (nodeOf x)) =
      (heap.operands (heap.readsOf exp.op exp)).map (heap.value ρ) :=
    List.map_congr_left fun x hx => by
      obtain ⟨hmem, hlt⟩ := mem_exprsOf_of_readsOf hs hpe he hexp hx
      exact hbefore x hmem hlt
  have hcoefs : heap.coefsOf (fun p k => val (coeffOf p k)) exp = heap.coefsOf ρ.coef exp := by
    rw [coefsOf, coefsOf]
    split
    · rename_i hev
      obtain ⟨p, ep, degree, c, hx, hp, -, hcls, -⟩ := evaluated hs hexp hev
      have hpoly : p ∈ heap.poliesOf outputs := by
        refine Heap.mem_poliesOf.2 ⟨(Heap.mem_exprsOf.1 he).1.follow hexp
          (Expression.mem_refs (by simp [hx])), ep, hp, ?_⟩
        simp [Expression.isPoly, hcls]
      rw [hx, List.flatMap_singleton, List.flatMap_singleton]
      exact List.map_congr_left fun k hk => hcoeff p hpoly k (List.mem_range.1 hk)
    · rfl
  rw [map_sources hs hexp, hreads, hcoefs]
  exact fill_operands (fun x c hx hc => value_constant hs hx hc) _ _

/-- **The executions are the readings.**  The executions of a faithful graph are
the valuations that some reading with the given parties, points and constants
makes, node by node. -/
theorem Faithful.isExecution_iff (hf : Faithful heap outputs g nodeOf coeffOf)
    (hg : g.WellFormed) (hs : heap.Sound) (hpe : heap.PoliesEvaluated outputs) :
    g.IsExecution (heap.computation ρ outputs nodeOf) val ↔
      ∃ ρ', ρ.SameScheme ρ' ∧ heap.ReadsAs ρ' outputs g nodeOf coeffOf val := by
  constructor
  · rintro ⟨hcomp, habs⟩
    -- read the inputs and the coefficients off the execution
    let ρ' : Reading F := ⟨ρ.parties, ρ.point, ρ.constant, fun e => val (nodeOf e),
      fun p k => val (coeffOf p k)⟩
    have hsame : ρ.SameScheme ρ' := ⟨rfl, rfl, rfl⟩
    refine ⟨ρ', hsame, fun e => ?_, fun p _ k _ => rfl, habs⟩
    induction e using Nat.strong_induction_on with
    | _ e ih =>
        intro he
        obtain ⟨-, exp, hexp, hn⟩ := Heap.mem_exprsOf.1 he
        by_cases hop : exp.op = .input
        · have hinput : heap.value ρ' e = ρ'.input e := Heap.value_input hs hexp hop hn.1
          exact hinput.symm
        · obtain ⟨f, hin, htype, hout, hsrc⟩ := hf.edge e he exp hexp hop
          have hedge : g.HasEdge f := by
            rw [HasEdge, hout, hin]
            exact List.mem_singleton_self f
          have hmap : f.inputs.map (fun n => val n.guid) =
              (heap.sources nodeOf coeffOf exp).map val := by
            rw [← hsrc, List.map_map]
            rfl
          rw [← hout, hcomp f hedge, hf.computation_eq he hexp htype hout, hmap,
            ← Heap.fill_congr hsame, ← Operator.compute_congr hsame,
            Heap.fill_sources hs hpe he hexp (fun x hx hlt => ih x hlt hx) fun p _ k _ => rfl]
          exact (Heap.value_eq_compute hs hexp hop hn).symm
  · rintro ⟨ρ', hsame, hexpr, hcoeff, habs⟩
    refine ⟨fun f hedge => ?_, habs⟩
    have hlive : f.output.guid < g.nodeSize := lt_of_node? (hg.output_live hedge)
    rcases hf.cover _ hlive with ⟨e, he, hnode⟩ | ⟨p, hp, k, hk, hnode⟩
    · obtain ⟨-, exp, hexp, hn⟩ := Heap.mem_exprsOf.1 he
      by_cases hop : exp.op = .input
      · rw [HasEdge, ← hnode, hf.input e he exp hexp hop] at hedge
        exact absurd hedge List.not_mem_nil
      · obtain ⟨f', hin, htype, hout, hsrc⟩ := hf.edge e he exp hexp hop
        obtain rfl : f = f' := by
          rw [HasEdge, ← hnode, hin] at hedge
          exact List.mem_singleton.1 hedge
        have hmap : f.inputs.map (fun n => val n.guid) =
            (heap.sources nodeOf coeffOf exp).map val := by
          rw [← hsrc, List.map_map]
          rfl
        rw [hout, hexpr e he, hf.computation_eq he hexp htype hout, hmap, ← Heap.fill_congr hsame,
          ← Operator.compute_congr hsame,
          Heap.fill_sources hs hpe he hexp (fun x hx _ => hexpr x hx) hcoeff]
        exact Heap.value_eq_compute hs hexp hop hn
    · obtain ⟨n, -, hnil⟩ := hf.coeff p hp k hk
      rw [HasEdge, ← hnode, hnil] at hedge
      exact absurd hedge List.not_mem_nil

end Faithful

/-! ## First builds -/

/-- The types of the nodes: coefficients are neither inputs nor outputs. -/
structure NodeTypes (heap : Heap) (outputs : List ℕ) (g : GraphBase) (nodeOf : ℕ → ℕ)
    (coeffOf : ℕ → ℕ → ℕ) : Prop where
  expr : ∀ e ∈ heap.exprsOf outputs, ∀ exp, heap[e]? = some exp →
    ∀ n, g.node? (nodeOf e) = some n → n.type = Builder.genreOf outputs e exp
  coeff : ∀ p ∈ heap.poliesOf outputs, ∀ k < heap.degree p,
    ∀ n, g.node? (coeffOf p k) = some n → n.type = .others

section Built

variable {team : ℕ} {calls : List Call} {outputs : List ℕ} {heap : Heap} {b : GraphBase}

/-- The first build of a program is the graph of its expressions. -/
theorem BuiltBy.faithful (hb : BuiltBy team calls [] outputs heap b)
    (hpe : heap.PoliesEvaluated outputs) : heap.Sound ∧ b.WellFormed ∧
      ∃ nodeOf coeffOf, Faithful heap outputs b nodeOf coeffOf ∧
        NodeTypes heap outputs b nodeOf coeffOf := by
  obtain ⟨fe, gs, mem, mem', hrun, rfl, hbs, hg⟩ := hb
  have hs := Call.sound_runAll hrun
  rw [builds, Option.some.injEq, Prod.mk.injEq] at hbs
  obtain ⟨-, rfl⟩ := hbs
  have hsh := hs.shaped outputs
  obtain ⟨s, new, rfl, -, hall⟩ := importedAll_of_build hs.acyclic Builder.memoryValid_fresh hg
  refine ⟨hs, wellFormed_build hs.acyclic hg, _, _, hall.faithful hsh hpe team, ?_, ?_⟩
  · intro e he exp hexp n hn
    obtain ⟨hre, exp', hexp', hhas⟩ := Heap.mem_exprsOf.1 he
    rw [hexp, Option.some.injEq] at hexp'
    subst hexp'
    obtain ⟨l, hnode⟩ := hall.nodeFor hsh hre hexp hhas
    rw [Builder.node?_toGraphBase, hnode.node, Option.some.injEq] at hn
    rw [← hn]
    simp only [Builder.genreOf, List.mem_reverse]
  · intro p hp k hk n hn
    obtain ⟨hre, exp, hexp, hpoly⟩ := Heap.mem_poliesOf.1 hp
    obtain ⟨party, hnode, -⟩ := hall.coeff hsh hre hexp hpoly hk
    rw [Builder.node?_toGraphBase, hnode, Option.some.injEq] at hn
    rw [← hn]

/-- **The builder keeps the meaning.**  The executions of the first graph a
program builds are the readings of its expressions. -/
theorem executions_of_built (hb : BuiltBy team calls [] outputs heap b)
    (hpe : heap.PoliesEvaluated outputs) (ρ : Reading F) :
    ∃ nodeOf coeffOf, Faithful heap outputs b nodeOf coeffOf ∧ ∀ val,
      val ∈ b.executions (heap.computation ρ outputs nodeOf) ↔
        ∃ ρ', ρ.SameScheme ρ' ∧ heap.ReadsAs ρ' outputs b nodeOf coeffOf val := by
  obtain ⟨hs, hg, nodeOf, coeffOf, hf, -⟩ := hb.faithful hpe
  exact ⟨nodeOf, coeffOf, hf, fun val => hf.isExecution_iff hg hs hpe⟩

end Built

/-! ### A share that makes a round trip

Party 1 shares its secret with party 2 by a polynomial of degree one, gets the
share back and opens the secret. -/

/-- Polynomials stand only where their shares are computed. -/
def evaluatesPolies (heap : Heap) : Bool :=
  heap.all fun e => e.op = .eval || e.refs.all fun x => !(heap[x]?).any Expression.isPoly

theorem poliesEvaluated_of_evaluatesPolies {heap : Heap} (h : evaluatesPolies heap = true)
    (outputs : List ℕ) : heap.PoliesEvaluated outputs := by
  intro e exp _ he hop x hx ex hex
  have hall := List.all_eq_true.1 h exp (List.mem_of_getElem? he)
  rw [Bool.or_eq_true, decide_eq_true_eq, List.all_eq_true] at hall
  simpa [hex] using (hall.resolve_left hop) x hx

/-- The program. -/
def roundTripCalls : List Call :=
  [.newSecret "x" .arithField 1, .genPoly 1 1 1, .eval 2 1, .eval 2 2, .transfer 4 2,
    .transfer 5 1, .reconstruct [3, 6] 1 "y"]

/-- Its expressions. -/
def roundTripHeap : Heap :=
  [Frontend.zeroConstant,
    ⟨.secret, "x", .arithField, .input, [], [], 1⟩,
    ⟨.poly 1 1 1, "poly_0", .poly .arithField, .polilize, [1], [], nullParty⟩,
    ⟨.share, "share_0", .arithField, .eval, [2], [1], 1⟩,
    ⟨.share, "share_1", .arithField, .eval, [2], [2], 1⟩,
    ⟨.share, "share_2", .arithField, .transit, [4], [], 2⟩,
    ⟨.share, "share_3", .arithField, .transit, [5], [], 1⟩,
    ⟨.share, "y", .arithField, .reconstruct, [3, 6], [], 1⟩]

/-- The nodes of its graph. -/
def roundTripNodes : List Node :=
  [⟨0, "x", 1, .input⟩, ⟨1, "poly_0_coeff_0", 1, .others⟩, ⟨2, "share_0", 1, .others⟩,
    ⟨3, "share_1", 1, .others⟩, ⟨4, "share_2", 2, .others⟩, ⟨5, "share_3", 1, .others⟩,
    ⟨6, "y", 1, .output⟩]

/-- The node at an index. -/
def roundTripNode (i : ℕ) : Node := roundTripNodes.getD i ⟨0, "x", 1, .input⟩

/-- The operations, in the order in which they are made. -/
def roundTripEdges : List Operation :=
  [Operation.make 1 0 .reconstruct [roundTripNode 2, roundTripNode 5] (roundTripNode 6),
    Operation.make 1 1 .eval [roundTripNode 0, roundTripNode 1] (roundTripNode 2),
    Operation.make 1 2 .transit [roundTripNode 4] (roundTripNode 5),
    Operation.make 1 3 .transit [roundTripNode 3] (roundTripNode 4),
    Operation.make 1 4 .eval [roundTripNode 0, roundTripNode 1] (roundTripNode 3)]

/-- Its start graph, with party 2 corrupted. -/
def roundTrip : Graph :=
  ((GraphBase.bare roundTripNodes).toGraph 2 1 {2}).addEdges roundTripEdges

theorem builtBy_roundTrip : BuiltBy 1 roundTripCalls [] [7] roundTripHeap roundTrip.toGraphBase :=
  builtBy_firstBuild (by decide +kernel)

theorem poliesEvaluated_roundTrip : roundTripHeap.PoliesEvaluated [7] :=
  poliesEvaluated_of_evaluatesPolies (by decide +kernel) [7]

/-- Over the field with three elements, the parties at the points 1 and 2. -/
def roundTripReading : Reading (ZMod 3) :=
  ⟨[1, 2], fun P => P, fun _ => 0, fun _ => 0, fun _ _ => 0⟩

theorem executions_of_built_roundTrip :
    ∃ nodeOf coeffOf, Faithful roundTripHeap [7] roundTrip.toGraphBase nodeOf coeffOf ∧ ∀ val,
      val ∈ roundTrip.executions (roundTripHeap.computation roundTripReading [7] nodeOf) ↔
        ∃ ρ', roundTripReading.SameScheme ρ' ∧
          roundTripHeap.ReadsAs ρ' [7] roundTrip.toGraphBase nodeOf coeffOf val :=
  executions_of_built builtBy_roundTrip poliesEvaluated_roundTrip roundTripReading

end Gauv
