import Gauv.Backend.Evaluations
import Gauv.Backend.Privacy

/-!
# Proofs about programs

What the prover's yes means for a program of the front end.  The graph of its
first build has no directed cycle and computes no node twice, and its executions
are the readings of the program.  So a yes is a simulator for the program when
its reconstructions open sharings, its outputs are a function of its inputs, and
the run takes regular matches only.
-/

namespace Gauv

open GraphBase Network Fitting

variable {F : Type*} [Field F]

/-! ## Programs -/

namespace Heap

/-- The expression is an input of the protocol: a placeholder that is not random,
or one that is given away. -/
def IsStart (heap : Heap) (outputs : List ℕ) (e : ℕ) : Prop :=
  e ∈ heap.exprsOf outputs ∧ ∃ exp, heap[e]? = some exp ∧ exp.op = .input ∧
    (e ∈ outputs ∨ exp.cls ≠ .randomness)

/-- The outputs are a function of the inputs. -/
def Functional (heap : Heap) (ρ : Reading F) (outputs : List ℕ) : Prop :=
  ∀ ρ₁ ρ₂, ρ.SameScheme ρ₁ → ρ.SameScheme ρ₂ →
    (∀ e, heap.IsStart outputs e → ρ₁.input e = ρ₂.input e) →
    ∀ out ∈ outputs, heap.value ρ₁ out = heap.value ρ₂ out

/-- Every reconstruction opens a sharing of degree at most `t`. -/
def OpensSharings (heap : Heap) (ρ : Reading F) (outputs : List ℕ) (t : ℕ) : Prop :=
  ∀ e exp, e ∈ heap.exprsOf outputs → heap[e]? = some exp → exp.op = .reconstruct →
    ∃ pt : ℕ → F, Set.InjOn pt {x | x ∈ exp.oprands} ∧ (∀ x ∈ exp.oprands, pt x ≠ 0) ∧
      ∀ ρ', ρ.SameScheme ρ' → ∃ q : Polynomial F, q.natDegree ≤ t ∧
        q.eval 0 = heap.value ρ' e ∧ ∀ x ∈ exp.oprands, q.eval (pt x) = heap.value ρ' x

end Heap

/-! ## Their graphs -/

section Faithful

variable {ρ : Reading F} {heap : Heap} {outputs : List ℕ} {g : GraphBase} {nodeOf : ℕ → ℕ}
  {coeffOf : ℕ → ℕ → ℕ} {t : ℕ}

/-- An edge is that of an expression. -/
theorem Faithful.exists_expression (hf : Faithful heap outputs g nodeOf coeffOf)
    (hg : g.WellFormed) {f : Operation} (hedge : g.HasEdge f) :
    ∃ e exp, e ∈ heap.exprsOf outputs ∧ heap[e]? = some exp ∧ exp.op ≠ .input ∧
      g.inEdges f.output.guid = [f] ∧ f.type = exp.op ∧ f.output.guid = nodeOf e ∧
      f.inputs.map Node.guid = heap.sources nodeOf coeffOf exp := by
  rcases hf.cover _ (lt_of_node? (hg.output_live hedge)) with
    ⟨e, he, hnode⟩ | ⟨p, hp, k, hk, hnode⟩
  · obtain ⟨-, exp, hexp, -⟩ := Heap.mem_exprsOf.1 he
    by_cases hop : exp.op = .input
    · rw [HasEdge, ← hnode, hf.input e he exp hexp hop] at hedge
      exact absurd hedge List.not_mem_nil
    · obtain ⟨f', hin, htype, hout, hsrc⟩ := hf.edge e he exp hexp hop
      obtain rfl : f = f' := by
        rw [HasEdge, ← hnode, hin] at hedge
        exact List.mem_singleton.1 hedge
      exact ⟨e, exp, he, hexp, hop, hout ▸ hin, htype, hout, hsrc⟩
  · obtain ⟨n, -, hnil⟩ := hf.coeff p hp k hk
    rw [HasEdge, ← hnode, hnil] at hedge
    exact absurd hedge List.not_mem_nil

theorem Faithful.acyclic (hf : Faithful heap outputs g nodeOf coeffOf) : g.Acyclic := by
  refine Digraph.acyclic_of_lt id ?_
  rintro u v ⟨f, hedge, ⟨n, hn, rfl⟩, rfl⟩
  exact hf.order f hedge n hn

theorem Faithful.singleAssignment (hf : Faithful heap outputs g nodeOf coeffOf)
    (hg : g.WellFormed) : g.SingleAssignment := by
  intro i
  rcases Nat.eq_zero_or_pos (g.inDeg i) with h | h
  · omega
  · obtain ⟨f, hmem⟩ := List.exists_mem_of_length_pos h
    obtain ⟨hedge, rfl⟩ := hg.mem_inEdges.1 hmem
    obtain ⟨-, -, -, -, -, hin, -⟩ := hf.exists_expression hg hedge
    rw [inDeg, hin]
    rfl

/-- The operands of a message, a sum or a reconstruction all have nodes. -/
theorem Heap.operands_eq_of_shares (hs : heap.Sound) {e : ℕ} {exp : Expression}
    (hexp : heap[e]? = some exp)
    (hop : exp.op = .transit ∨ exp.op = .add ∨ exp.op = .reconstruct) :
    heap.operands exp.oprands = exp.oprands ∧ ∀ x ∈ exp.oprands, x < e := by
  have hshares : ∀ x ∈ exp.oprands, ∃ ex, (heap.take e)[x]? = some ex ∧ ex.isShare = true := by
    cases hs e exp hexp with
    | placeholder _ h hx => simp [hx]
    | typeCast _ h _ _ => simp [h] at hop
    | binary _ _ hx ha hb _ _ hsa hsb =>
        rw [hx, List.forall_mem_cons, List.forall_mem_singleton]
        exact ⟨⟨_, ha, hsa⟩, ⟨_, hb, hsb⟩⟩
    | scalarMul _ h _ _ _ _ _ => simp [h] at hop
    | transit _ _ hx h hss =>
        rw [hx, List.forall_mem_singleton]
        exact ⟨_, h, hss⟩
    | reconstruct _ _ hx => exact fun x hxm => (hx x hxm).imp fun ex hex => ⟨hex.1, hex.2.1⟩
    | poly _ h _ _ => simp [h] at hop
    | eval _ h _ _ _ => simp [h] at hop
  refine ⟨Builder.operands_eq_self fun x hx => ?_, fun x hx => ?_⟩
  · obtain ⟨ex, hex, hshare⟩ := hshares x hx
    exact ⟨ex, (Expression.Made.of_getElem?_take hex).1, hshare⟩
  · obtain ⟨ex, hex, -⟩ := hshares x hx
    exact (Expression.Made.of_getElem?_take hex).2

/-- Without constants there is nothing to fill in. -/
theorem Heap.fill_eq_self {xs : List ℕ} (h : heap.operands xs = xs) {as : List F}
    (hlen : xs.length ≤ as.length) : heap.fill ρ xs as = as := by
  have hno : ∀ x ∈ xs, (heap[x]?).any Expression.isConstant = false := fun x hx => by
    simpa using List.filter_eq_self.1 h x hx
  clear h
  induction xs generalizing as with
  | nil => rfl
  | cons x xs ih =>
      obtain ⟨a, as, rfl⟩ := List.exists_cons_of_length_pos (Nat.zero_lt_of_lt hlen)
      rw [fill, hno x (List.mem_cons_self ..), if_neg Bool.false_ne_true, List.tail_cons,
        ih (Nat.le_of_succ_le_succ hlen) fun y hy => hno y (List.mem_cons_of_mem _ hy)]
      rfl

omit [Field F] in
theorem Heap.length_oprands (hs : heap.Sound) {e : ℕ} {exp : Expression}
    (hexp : heap[e]? = some exp) :
    (exp.op = .transit → exp.oprands.length = 1) ∧ (exp.op = .add → exp.oprands.length = 2) := by
  cases hs e exp hexp with
  | placeholder _ h _ => simp [h]
  | typeCast _ h _ _ => simp [h]
  | binary _ h hx _ _ _ _ => rcases h with h | h | h | h <;> simp [h, hx]
  | scalarMul _ h _ _ _ _ _ => simp [h]
  | transit _ h hx _ _ => simp [h, hx]
  | reconstruct _ h _ => simp [h]
  | poly _ h _ _ => simp [h]
  | eval _ h _ _ _ => simp [h]

/-- The graph of a program reads TRANSIT and ADD as the program does. -/
theorem Faithful.interprets (hf : Faithful heap outputs g nodeOf coeffOf) (hg : g.WellFormed)
    (hs : heap.Sound) : Interprets g (heap.computation ρ outputs nodeOf) := by
  have hcompute : ∀ f, g.HasEdge f → ∀ exp : Expression, ∀ e ∈ heap.exprsOf outputs,
      heap[e]? = some exp → f.type = exp.op → f.output.guid = nodeOf e →
      exp.op = .transit ∨ exp.op = .add → ∀ as : List F, as.length = exp.oprands.length →
      heap.computation ρ outputs nodeOf f as = exp.op.compute ρ exp.params as := by
    intro f hedge exp e he hexp htype hout hop as hlen
    have hself := (Heap.operands_eq_of_shares hs hexp (hop.imp_right Or.inl)).1
    have hne : exp.op ≠ .eval := by rcases hop with h | h <;> simp [h]
    rw [hf.computation_eq he hexp htype hout, Heap.readsOf, if_neg hne,
      Heap.fill_eq_self hself hlen.ge]
  refine ⟨fun f hedge ht a => ?_, fun f hedge ht a b => ?_⟩
  · obtain ⟨e, exp, he, hexp, -, -, htype, hout, -⟩ := hf.exists_expression hg hedge
    have hop := htype.symm.trans ht
    rw [hcompute f hedge exp e he hexp htype hout (Or.inl hop) [a]
      ((Heap.length_oprands hs hexp).1 hop).symm, hop]
    rfl
  · obtain ⟨e, exp, he, hexp, -, -, htype, hout, -⟩ := hf.exists_expression hg hedge
    have hop := htype.symm.trans ht
    rw [hcompute f hedge exp e he hexp htype hout (Or.inr hop) [a, b]
      ((Heap.length_oprands hs hexp).2 hop).symm, hop]
    rfl

/-- A reconstruction of the program is one of the graph. -/
theorem Faithful.opensSharing (hf : Faithful heap outputs g nodeOf coeffOf) (hg : g.WellFormed)
    (hs : heap.Sound) (hpe : heap.PoliesEvaluated outputs) (ho : heap.OpensSharings ρ outputs t)
    {f : Operation} (hedge : g.HasEdge f) (ht : f.type = .reconstruct) :
    f.OpensSharing (g.executions (heap.computation ρ outputs nodeOf)) t := by
  classical
  obtain ⟨e, exp, he, hexp, -, -, htype, hout, hsrc⟩ := hf.exists_expression hg hedge
  have hop := htype.symm.trans ht
  obtain ⟨pt, hinj, hne, hq⟩ := ho e exp he hexp hop
  obtain ⟨hself, hlt⟩ := Heap.operands_eq_of_shares hs hexp (Or.inr (Or.inr hop))
  have hmem : ∀ x ∈ exp.oprands, x ∈ heap.exprsOf outputs := fun x hx =>
    (Heap.mem_exprsOf_of_readsOf hs hpe he hexp (by
      rw [Heap.readsOf, if_neg (by simp [hop]), hself]
      exact hx)).1
  -- the point of an operand, from its node
  let pt' : ℕ → F := fun i => if h : ∃ x ∈ exp.oprands, nodeOf x = i then pt h.choose else 0
  have hpt : ∀ x ∈ exp.oprands, pt' (nodeOf x) = pt x := by
    intro x hx
    have hex : ∃ y ∈ exp.oprands, nodeOf y = nodeOf x := ⟨x, hx, rfl⟩
    have heq := hf.node_injOn (hmem _ hex.choose_spec.1) (hmem x hx) hex.choose_spec.2
    exact (dif_pos hex).trans (congrArg pt heq)
  have hguids : guids f.inputs = {i | ∃ x ∈ exp.oprands, nodeOf x = i} := by
    rw [Heap.sources, if_neg (by simp [hop]), hself] at hsrc
    ext i
    constructor
    · rintro ⟨n, hn, rfl⟩
      have := List.mem_map_of_mem hn (f := Node.guid)
      rw [hsrc, List.mem_map] at this
      exact this
    · rintro ⟨x, hx, rfl⟩
      have := List.mem_map_of_mem hx (f := nodeOf)
      rw [← hsrc, List.mem_map] at this
      exact this
  refine ⟨pt', ?_, ?_, fun val hval => ?_⟩
  · rw [hguids]
    rintro i ⟨x, hx, rfl⟩ j ⟨y, hy, rfl⟩ hxy
    rw [hpt x hx, hpt y hy] at hxy
    rw [hinj hx hy hxy]
  · rw [hguids]
    rintro i ⟨x, hx, rfl⟩
    rw [hpt x hx]
    exact hne x hx
  · obtain ⟨ρ', hsame, hexpr, -⟩ := (hf.isExecution_iff hg hs hpe).1 hval
    obtain ⟨q, hdeg, hzero, heval⟩ := hq ρ' hsame
    refine ⟨q, hdeg, ?_⟩
    rw [hguids]
    rintro i (rfl | ⟨x, hx, rfl⟩)
    · rw [Function.update_self, Position.read_point, hzero, hout, hexpr e he]
    · have hnot : nodeOf x ≠ f.output.guid := fun h =>
        (hlt x hx).ne (hf.node_injOn (hmem x hx) he (h.trans hout))
      rw [Function.update_of_ne hnot, Position.read_point, hpt x hx, heval x hx,
        hexpr x (hmem x hx)]

/-- The inputs and outputs of the graph are a function of the nodes the protocol
starts from. -/
theorem Faithful.functional (hf : Faithful heap outputs g nodeOf coeffOf) (hg : g.WellFormed)
    (hs : heap.Sound) (hpe : heap.PoliesEvaluated outputs)
    (hty : NodeTypes heap outputs g nodeOf coeffOf) (hfun : heap.Functional ρ outputs) {i : ℕ}
    {n : Node} (hn : g.node? i = some n) (hio : n.isInOut = true) :
    Determined (g.executions (heap.computation ρ outputs nodeOf))
      {j | ∃ m, g.node? j = some m ∧ g.isStart m = true} i := by
  intro u hu v hv huv
  obtain ⟨ρ₁, hsame₁, hexpr₁, -⟩ := (hf.isExecution_iff hg hs hpe).1 hu
  obtain ⟨ρ₂, hsame₂, hexpr₂, -⟩ := (hf.isExecution_iff hg hs hpe).1 hv
  have hinput : ∀ e, heap.IsStart outputs e → u (nodeOf e) = v (nodeOf e) := by
    rintro e ⟨he, exp, hexp, hop, hst⟩
    obtain ⟨m, hm, -⟩ := hf.node e he exp hexp
    have htype := hty.expr e he exp hexp m hm
    have hdeg : g.inDeg m.guid = 0 := by
      rw [hg.guid_eq hm, inDeg, hf.input e he exp hexp hop]
      rfl
    refine huv _ ⟨m, hm, ?_⟩
    rw [isStart, hdeg, Node.isInOut, Node.isInput, Node.isOutput, htype, Builder.genreOf]
    rcases hst with hst | hst
    · simp [hst]
    · by_cases hout : e ∈ outputs
      · simp [hout]
      · simp [hout, Expression.genre, hop, hst]
  have hagree : ∀ e, heap.IsStart outputs e → ρ₁.input e = ρ₂.input e := by
    intro e he
    have heq := hinput e he
    obtain ⟨hmem, exp, hexp, hop, -⟩ := he
    obtain ⟨-, exp', hexp', hhas⟩ := Heap.mem_exprsOf.1 hmem
    rw [hexp, Option.some.injEq] at hexp'
    subst hexp'
    rwa [hexpr₁ e hmem, hexpr₂ e hmem, Heap.value_input hs hexp hop hhas.1,
      Heap.value_input hs hexp hop hhas.1] at heq
  rcases hf.cover i (lt_of_node? hn) with ⟨e, he, rfl⟩ | ⟨p, hp, k, hk, rfl⟩
  · obtain ⟨-, exp, hexp, -⟩ := Heap.mem_exprsOf.1 he
    by_cases hout : e ∈ outputs
    · rw [hexpr₁ e he, hexpr₂ e he]
      exact hfun ρ₁ ρ₂ hsame₁ hsame₂ hagree e hout
    · refine hinput e ⟨he, exp, hexp, ?_⟩
      have htype := hty.expr e he exp hexp n hn
      rw [Node.isInOut, Node.isInput, Node.isOutput, htype, Builder.genreOf, if_neg hout,
        Expression.genre] at hio
      split at hio
      · rename_i h
        exact ⟨h.1, Or.inr h.2⟩
      · exact absurd hio (by simp)
  · have htype := hty.coeff p hp k hk n hn
    rw [Node.isInOut, Node.isInput, Node.isOutput, htype] at hio
    exact absurd hio (by simp)

/-- An evaluation of a polynomial with a constant term that has a node puts its
ends on one polynomial. -/
theorem Faithful.fitted_of_eval (hf : Faithful heap outputs g nodeOf coeffOf) (hs : heap.Sound)
    {f : Operation} {e p : ℕ} {exp : Expression} {party : PartyDecl} {pos : ℕ → Position F}
    {val : ℕ → F} (hval : val ∈ g.executions (heap.computation ρ outputs nodeOf))
    (hedge : g.HasEdge f) (he : e ∈ heap.exprsOf outputs) (hexp : heap[e]? = some exp)
    (htype : f.type = exp.op) (hout : f.output.guid = nodeOf e) (hop : exp.op = .eval)
    (hp : exp.oprands = [p]) (hpar : exp.params = [party])
    (hc : heap.operands (heap.constTerm p) = heap.constTerm p)
    (hlen : f.inputs.length = t + 1)
    (hcoeff : ∀ (k : ℕ) (n : Node), f.inputs[k]? = some n → pos n.guid = .coeff k)
    (hpos : pos f.output.guid = .point (ρ.point party)) : f.Holds (fitted t pos) val := by
  obtain ⟨p', -, degree, c, hp', -, -, -, -, hconst, -⟩ := Heap.evaluated hs hexp hop
  rw [hp, List.singleton_inj] at hp'
  subst hp'
  rw [hconst] at hc
  rw [Operation.Holds, fitted_eval (by rw [htype, hop]; decide)]
  obtain ⟨a, as, has⟩ := List.exists_cons_of_length_eq_add_one
    ((List.length_map fun n => val n.guid).trans hlen)
  refine ⟨ofCoeffs (a :: as), natDegree_ofCoeffs_le ?_, ?_⟩
  · rw [← has, List.length_map, hlen]
  · rintro i (rfl | ⟨n, hn, rfl⟩)
    · have hfill : heap.fill ρ [c] (a :: as) = a :: as := Heap.fill_eq_self hc (by simp)
      rw [hpos, Position.read_point, eval_ofCoeffs_cons, (mem_executions.1 hval).computed f hedge,
        has, hf.computation_eq he hexp htype hout, Heap.readsOf, if_pos hop, hp,
        List.flatMap_singleton, hconst, hfill, hop, hpar]
      rfl
    · obtain ⟨k, hk, rfl⟩ := List.mem_iff_getElem.1 hn
      rw [hcoeff k _ (List.getElem?_eq_getElem hk), Position.read_coeff, coeff_ofCoeffs, ← has]
      simp [hk]

end Faithful

/-! ## Programs that are proved -/

namespace Prover

section Built

variable {team : ℕ} {calls : List Call} {outputs : List ℕ} {heap : Heap} {b : GraphBase}
  {nodeOf : ℕ → ℕ} {coeffOf : ℕ → ℕ → ℕ} {ρ : Reading F} {parties : List PartyDecl} {T : ℕ}
  {C : Finset PartyDecl}

/-- What the prover needs of a protocol holds of the graph of a program. -/
theorem wellPosed_of_built (hb : BuiltBy team calls [] outputs heap b)
    (hpe : heap.PoliesEvaluated outputs) (hf : Faithful heap outputs b nodeOf coeffOf)
    (hty : NodeTypes heap outputs b nodeOf coeffOf) (hn : parties.Nodup)
    (hp : heap.PartiesIn outputs parties.toFinset) (hopen : heap.OpensAll outputs parties.length)
    (hT : T < parties.length) (hopens : heap.OpensSharings ρ outputs T)
    (hfun : heap.Functional ρ outputs) :
    WellPosed (b.toGraph parties.length T C) (heap.computation ρ outputs nodeOf) parties := by
  obtain ⟨hs, hg, -⟩ := hb.faithful hpe
  have hcard : parties.toFinset.card = parties.length := List.toFinset_card_of_nodup hn
  rw [← hcard] at hT hopen ⊢
  exact ⟨hb.sturdy (noOverlap_nil heap outputs) hp hopen hT, Graph.exact_toGraph b _ _ _,
    hf.acyclic, hf.singleAssignment hg, hf.interprets hg hs,
    fun f hedge ht => hf.opensSharing hg hs hpe hopens hedge ht,
    fun i n hn hio => hf.functional hg hs hpe hty hfun hn hio⟩

/-- **What a proof of a program means.**  Let a program of the front end keep to
the parties, reconstruct from all of them, open sharings of degree at most `T`
only, and compute its outputs from its inputs.  If the prover, on the first graph
the program builds and with at most `T` parties corrupted, takes regular matches
only and answers yes, the view of the corrupted parties can be simulated from
their inputs and outputs. -/
theorem simulator_of_program [Finite F] (hb : BuiltBy team calls [] outputs heap b)
    (hpe : heap.PoliesEvaluated outputs) (hn : parties.Nodup)
    (hp : heap.PartiesIn outputs parties.toFinset) (hopen : heap.OpensAll outputs parties.length)
    (hT : T < parties.length) (hC : C.card ≤ T) (hopens : heap.OpensSharings ρ outputs T)
    (hfun : heap.Functional ρ outputs) :
    ∃ nodeOf coeffOf, Faithful heap outputs b nodeOf coeffOf ∧ ∀ env g₀ S,
      g₀ = b.toGraph parties.length T C →
      S = g₀.executions (heap.computation ρ outputs nodeOf) →
      RegularRun S env (equivalentRewriters parties g₀) g₀ →
      tryProving env g₀ parties = some true →
      ∃ sim : (ℕ → F) → (g₀.randomIds → F) → ℕ → F, Simulation.Draws S
        (g₀.valuesAt g₀.isStart) (g₀.valuesAt (isKnown g₀)) (g₀.valuesAt g₀.isCorrupted) sim := by
  obtain ⟨-, -, nodeOf, coeffOf, hf, hty⟩ := hb.faithful hpe
  refine ⟨nodeOf, coeffOf, hf, ?_⟩
  rintro env g₀ S rfl rfl hrun hyes
  exact (wellPosed_of_built hb hpe hf hty hn hp hopen hT hopens hfun).exists_simulator hC hrun hyes

end Built

/-! ### The round trip is proved -/

theorem sound_roundTripHeap : roundTripHeap.Sound :=
  (builtBy_roundTrip.faithful poliesEvaluated_roundTrip).1

/-- The shares and what is opened. -/
theorem value_roundTrip {ρ : Reading (ZMod 3)} (h : roundTripReading.SameScheme ρ) :
    roundTripHeap.value ρ 3 = roundTripHeap.value ρ 1 + ρ.coef 2 0 ∧
      roundTripHeap.value ρ 6 = roundTripHeap.value ρ 1 + ρ.coef 2 0 * 2 ∧
      roundTripHeap.value ρ 7 = roundTripHeap.value ρ 1 := by
  have hs := sound_roundTripHeap
  have hpoint : ρ.point 1 = 1 ∧ ρ.point 2 = 2 := by
    constructor <;> simp [h.point, roundTripReading]
  have hat : ρ.pointAt 0 = 1 ∧ ρ.pointAt 1 = 2 := by
    constructor <;> simp [Reading.pointAt, h.parties, h.point, roundTripReading]
  have h3 : roundTripHeap.value ρ 3 = roundTripHeap.value ρ 1 + ρ.coef 2 0 := by
    rw [Heap.value_eq hs (show roundTripHeap[3]? = some _ from rfl)]
    simp [Expression.value, roundTripHeap, Sharing.evalPoly, hpoint]
  have h4 : roundTripHeap.value ρ 4 = roundTripHeap.value ρ 1 + ρ.coef 2 0 * 2 := by
    rw [Heap.value_eq hs (show roundTripHeap[4]? = some _ from rfl)]
    simp [Expression.value, roundTripHeap, Sharing.evalPoly, hpoint]
  have h6 : roundTripHeap.value ρ 6 = roundTripHeap.value ρ 1 + ρ.coef 2 0 * 2 := by
    rw [Heap.value_eq hs (show roundTripHeap[6]? = some _ from rfl), ← h4]
    exact Heap.value_eq hs (show roundTripHeap[5]? = some _ from rfl)
  refine ⟨h3, h6, ?_⟩
  have hw : Sharing.weight ρ.pointAt 2 0 = 2 ∧ Sharing.weight ρ.pointAt 2 1 = -1 := by
    simp only [Sharing.weight, show Finset.range 2 = {0, 1} from rfl]
    constructor
    · simp [hat, show ({0, 1} : Finset ℕ).erase 0 = {1} from rfl]
      norm_num
    · simp [hat, show ({0, 1} : Finset ℕ).erase 1 = {0} from rfl]
      norm_num
  rw [Heap.value_eq hs (show roundTripHeap[7]? = some _ from rfl)]
  simp only [Expression.value, List.length_cons, List.length_nil, Finset.sum_range_succ,
    Finset.sum_range_zero, hw, List.getD_cons_zero, List.getD_cons_succ, h3, h6]
  ring

open Polynomial in
theorem opensSharings_roundTrip : roundTripHeap.OpensSharings roundTripReading [7] 1 := by
  intro e exp _ hexp hop
  obtain ⟨rfl, rfl⟩ : e = 7 ∧ exp = ⟨.share, "y", .arithField, .reconstruct, [3, 6], [], 1⟩ := by
    have hlt := lt_of_getElem?_some hexp
    rw [show roundTripHeap.length = 8 from rfl] at hlt
    interval_cases e <;> obtain rfl := Option.some.inj hexp
    all_goals first | exact ⟨rfl, rfl⟩ | exact absurd hop (by decide)
  refine ⟨fun x => if x = 3 then 1 else 2, ?_, ?_, fun ρ hρ => ?_⟩
  · intro x hx y hy
    simp only [List.mem_cons, List.not_mem_nil, or_false, Set.mem_ofPred_eq] at hx hy
    rcases hx with rfl | rfl <;> rcases hy with rfl | rfl <;> decide
  · decide
  · obtain ⟨h3, h6, h7⟩ := value_roundTrip hρ
    refine ⟨C (roundTripHeap.value ρ 1) + C (ρ.coef 2 0) * X, ?_, ?_, ?_⟩
    · exact natDegree_add_le_of_degree_le (by simp) ((natDegree_C_mul_le _ _).trans natDegree_X_le)
    · simp [h7]
    · simp [h3, h6]

theorem isStart_roundTrip : roundTripHeap.IsStart [7] 1 := by
  have h7 : roundTripHeap.Reached [7] 7 := roundTripHeap.reached_self (List.mem_singleton_self 7)
  have h3 : roundTripHeap.Reached [7] 3 := h7.follow rfl (by decide)
  have h2 : roundTripHeap.Reached [7] 2 := h3.follow rfl (by decide)
  have h1 : roundTripHeap.Reached [7] 1 := h2.follow rfl (by decide)
  exact ⟨Heap.mem_exprsOf.2 ⟨h1, _, rfl, rfl, rfl⟩, _, rfl, rfl, Or.inr (by decide)⟩

theorem functional_roundTrip : roundTripHeap.Functional roundTripReading [7] := by
  intro ρ₁ ρ₂ h₁ h₂ hin out hout
  have hvalue : ∀ ρ : Reading (ZMod 3), roundTripHeap.value ρ 1 = ρ.input 1 := fun ρ =>
    Heap.value_input sound_roundTripHeap rfl rfl rfl
  rw [List.mem_singleton.1 hout, (value_roundTrip h₁).2.2, (value_roundTrip h₂).2.2, hvalue,
    hvalue, hin 1 isStart_roundTrip]

/-- The match: the sharing, with party 2 as the source. -/
def roundTripPlan : Plan :=
  ⟨roundTripNode 0, [roundTripEdges[1], roundTripEdges[4], roundTripEdges[3]],
    [⟨.transit, [roundTripNode 4], roundTripNode 3⟩], .eval, [roundTripNode 0, roundTripNode 3],
    [roundTripNode 2, roundTripNode 1]⟩

theorem points_roundTrip : Points ({1, 2} : Finset PartyDecl) roundTripReading.point where
  inj := by
    intro P hP Q hQ
    simp only [Finset.coe_insert, Finset.coe_singleton, Set.mem_insert_iff,
      Set.mem_singleton_iff] at hP hQ
    rcases hP with rfl | rfl <;> rcases hQ with rfl | rfl <;> decide
  ne_zero := by decide

theorem onePolynomial_roundTrip : OnePolynomial roundTrip 0 {1, 2} roundTripReading.point
    (roundTripNodes.take 2) onePolyPosition where
  inputs := by decide
  coefficient := by
    intro k n hk
    rcases k with - | - | k
    · cases hk
      rfl
    · cases hk
      rfl
    · exact absurd hk (by simp [roundTripNodes])
  party := by decide
  share := by
    intro e he
    have hmem : e ∈ [roundTripEdges[1], roundTripEdges[4]] := he
    simp only [List.mem_cons, List.not_mem_nil, or_false] at hmem
    rcases hmem with rfl | rfl
    · exact ⟨rfl, rfl⟩
    · exact ⟨rfl, rfl⟩

theorem wellFormed_roundTrip : roundTrip.WellFormed :=
  Graph.wellFormed_linked rfl (by decide) (by decide) (by decide)

/-- The node of a share is told by its name. -/
theorem share_roundTrip {nodeOf : ℕ → ℕ} {coeffOf : ℕ → ℕ → ℕ}
    (hf : Faithful roundTripHeap [7] roundTrip.toGraphBase nodeOf coeffOf) {f : Operation}
    (hedge : roundTrip.HasEdge f) (ht : f.type = .eval) :
    ∃ e exp P, e ∈ roundTripHeap.exprsOf [7] ∧ roundTripHeap[e]? = some exp ∧
      f.type = exp.op ∧ f.output.guid = nodeOf e ∧ exp.oprands = [2] ∧ exp.params = [P] ∧
      f.output.guid = P + 1 := by
  obtain ⟨e, exp, he, hexp, -, -, htype, hout, -⟩ := hf.exists_expression wellFormed_roundTrip hedge
  refine ⟨e, exp, e - 2, he, hexp, htype, hout, ?_⟩
  obtain ⟨n, hn, hname, -⟩ := hf.node e he exp hexp
  have hop := htype.symm.trans ht
  have hnames : ∀ i < 7, ∀ n, roundTrip.node? i = some n →
      (n.name = "share_0" → i = 2) ∧ (n.name = "share_1" → i = 3) := by
    intro i hi n hn
    interval_cases i <;> obtain rfl := Option.some.inj hn <;> decide
  have hnode := hnames _ (lt_of_node? hn) n hn
  have hlt := lt_of_getElem?_some hexp
  rw [show roundTripHeap.length = 8 from rfl] at hlt
  interval_cases e <;> obtain rfl := Option.some.inj hexp
  all_goals first | exact absurd hop (by decide) | skip
  · exact ⟨rfl, rfl, hout.trans (hnode.1 hname)⟩
  · exact ⟨rfl, rfl, hout.trans (hnode.2 hname)⟩

theorem regularRun_roundTrip {nodeOf : ℕ → ℕ} {coeffOf : ℕ → ℕ → ℕ}
    (hf : Faithful roundTripHeap [7] roundTrip.toGraphBase nodeOf coeffOf) :
    RegularRun (roundTrip.executions (roundTripHeap.computation roundTripReading [7] nodeOf))
      .sequential (equivalentRewriters [1, 2] roundTrip) roundTrip := by
  have hfirst : selectMin .sequential 0 roundTrip [] (equivalentRewriters [1, 2] roundTrip) 0
      none = some (some (roundTripNode 0, roundTripPlan.result 1 roundTrip)) := by decide +kernel
  have hlast : selectMin .sequential 1 (roundTripPlan.result 1 roundTrip)
      [(roundTripPlan.result 1 roundTrip).key 1] (equivalentRewriters [1, 2] roundTrip) 0 none =
        some none := by decide +kernel
  refine regularRun_of_single hfirst hlast ?_
  obtain ⟨ps, hps, hp⟩ : ∃ ps, (Transformer.sharing {2}).plans (fun _ => .insertion) roundTrip =
      some ps ∧ roundTripPlan ∈ ps := ⟨_, rfl, by decide +kernel⟩
  have hsources : srcParties [1, 2] roundTrip = {2} := by decide +kernel
  refine ⟨.sharing {2}, by simp [equivalentRewriters, hsources], 1, fun _ => .insertion, ps, hps,
    roundTripPlan, hp, rfl, by decide +kernel, ?_, ?_⟩
  · -- the edges that are kept end in the last two nodes
    have hkept : ∀ f ∈ roundTripEdges, f ∉ roundTripPlan.edgesToEliminate →
        f.output.guid = 5 ∨ f.output.guid = 6 := by decide
    intro d hd s hs hr
    rcases Relation.ReflTransGen.cases_tail hr with hds | ⟨i, -, f, hf, hne, -, hfs⟩
    · clear hr
      revert d s
      decide
    · have hout := hkept f ((Graph.hasEdge_linked rfl (by decide) (by decide) (by decide)).1 hf) hne
      rw [hfs] at hout
      clear hr hfs
      revert s
      decide
  · refine (planShape_of_mem_plans wellFormed_roundTrip hps hp).dealtMatch wellFormed_roundTrip
      (by decide) points_roundTrip onePolynomial_roundTrip (fun val hval f hout => ?_)
      (fun src hsrc => ?_) fun src hsrc => ?_
    · have hmem : f ∈ [roundTripEdges[1], roundTripEdges[4]] := hout
      have hedge := (wellFormed_roundTrip.mem_outEdges.1 hout).1
      have ht : f.type = .eval := by
        revert f
        decide
      obtain ⟨e, exp, P, he, hexp, htype, hnode, hx, hpar, hP⟩ := share_roundTrip hf hedge ht
      have hin := onePolynomial_roundTrip.inputs f hout
      refine hf.fitted_of_eval sound_roundTripHeap hval hedge he hexp htype hnode
        (htype.symm.trans ht) hx hpar (by decide) (by rw [hin]; rfl)
        (fun k n hn => onePolynomial_roundTrip.coefficient k n (hin ▸ hn)) ?_
      simp only [List.mem_cons, List.not_mem_nil, or_false] at hmem
      rcases hmem with rfl | rfl
      · obtain rfl : P = 1 := (Nat.succ.inj hP).symm
        rfl
      · obtain rfl : P = 2 := (Nat.succ.inj hP).symm
        rfl
    · cases hsrc
      decide
    · cases hsrc

theorem simulator_of_program_roundTrip :
    ∃ sim : (ℕ → ZMod 3) → (roundTrip.randomIds → ZMod 3) → ℕ → ZMod 3,
      ∃ nodeOf, Simulation.Draws
        (roundTrip.executions (roundTripHeap.computation roundTripReading [7] nodeOf))
        (roundTrip.valuesAt roundTrip.isStart) (roundTrip.valuesAt (isKnown roundTrip))
        (roundTrip.valuesAt roundTrip.isCorrupted) sim := by
  have hamong : roundTripHeap.PartiesIn [7] [1, 2].toFinset ∧ roundTripHeap.OpensAll [7] 2 :=
    partiesIn_of_isAmong (by decide +kernel) [7]
  obtain ⟨nodeOf, coeffOf, hf, h⟩ := simulator_of_program (T := 1) (C := {2}) builtBy_roundTrip
    poliesEvaluated_roundTrip (by decide) hamong.1 hamong.2 (by decide) (by decide)
    opensSharings_roundTrip functional_roundTrip
  have hgraph : roundTrip = roundTrip.toGraphBase.toGraph 2 1 {2} := by decide +kernel
  obtain ⟨sim, hsim⟩ := h .sequential roundTrip _ hgraph rfl (regularRun_roundTrip hf)
    (by decide +kernel)
  exact ⟨sim, nodeOf, hsim⟩

end Prover

end Gauv
