import Gauv.Backend.AssertedRuns
import Gauv.Backend.Dealing
import Gauv.Backend.Executions
import Gauv.Backend.Verdict

/-!
# What a proof of the prover means

The graph on which the tail phase answers yes computes what the corrupted
parties see from their own inputs and outputs and from random nodes.  It has as
many random nodes as the protocol, and every execution of the protocol follows
its edges.  If it has no directed cycle and the outputs are a function of the
inputs, its random nodes can therefore stand for the coins of the protocol: a
simulator that is given the inputs and outputs of the corrupted parties draws
their view exactly.

The rewriting rules have to keep every execution on the edges they make.  They
do when the nodes they connect lie on one polynomial which the sources
determine.
-/

namespace Gauv

open GraphBase Network Fitting

variable {F : Type*} [Field F]

/-! ## Edges that the executions follow -/

/-- The operations that the rules solve for another node mean what they say: a
TRANSIT copies and an ADD adds. -/
structure Interprets (g : GraphBase) (op : Computation F) : Prop where
  transit : ∀ e, g.HasEdge e → e.type = .transit → ∀ a, op e [a] = a
  add : ∀ e, g.HasEdge e → e.type = .add → ∀ a b, op e [a, b] = a + b

/-- In every execution of `S` the TRANSITs copy and the ADDs add, and the value
of every edge is determined by its inputs. -/
structure Explained (S : Set (ℕ → F)) (g : GraphBase) : Prop where
  transit : ∀ e, g.HasEdge e → e.type = .transit → ∀ val ∈ S, ∀ n ∈ e.inputs,
    val e.output.guid = val n.guid
  add : ∀ e, g.HasEdge e → e.type = .add → ∀ a b, e.inputs = [a, b] → ∀ val ∈ S,
    val e.output.guid = val a.guid + val b.guid
  determined : ∀ e, g.HasEdge e → Determined S (guids e.inputs) e.output.guid

theorem mem_guids {l : List Node} {n : Node} (h : n ∈ l) : n.guid ∈ guids l := ⟨n, h, rfl⟩

/-- A protocol explains its own executions. -/
theorem explained_executions {g : GraphBase} {op : Computation F} (hop : Interprets g op)
    (hu : g.TransitUnary) : Explained (g.executions op) g where
  transit := by
    intro e he ht val hval n hn
    obtain ⟨a, ha⟩ := List.length_eq_one_iff.1 (hu e he ht)
    rw [ha, List.mem_singleton] at hn
    rw [(mem_executions.1 hval).computed e he, ha, hn, List.map_singleton, hop.transit e he ht]
  add := by
    intro e he ht a b hab val hval
    rw [(mem_executions.1 hval).computed e he, hab]
    exact hop.add e he ht _ _
  determined := by
    intro e he u hu v hv huv
    rw [(mem_executions.1 hu).computed e he, (mem_executions.1 hv).computed e he]
    exact congrArg (op e) (List.map_congr_left fun n hn => huv _ (mem_guids hn))

/-! ## One rewrite -/

/-- In every execution of `S` the sources and the destinations of the plan lie on
one polynomial of degree at most `t`, and the sources determine it. -/
def Plan.Dealt (S : Set (ℕ → F)) (t : ℕ) (p : Plan) : Prop :=
  ∃ pos : ℕ → Position F, Determines t pos (guids p.srcs) ∧
    ∀ val ∈ S, Fits t pos val (guids p.srcs ∪ guids p.dsts)

section Rewrite

variable {S : Set (ℕ → F)} {g : Graph} {p : Plan} {tr : Transformer} {t : ℕ}

/-- The sources determine every node of the polynomial. -/
theorem Plan.Dealt.determined (h : p.Dealt S t) {i : ℕ} (hi : i ∈ guids p.dsts) :
    Determined S (guids p.srcs) i := by
  obtain ⟨pos, hdet, hfits⟩ := h
  intro u hu v hv huv
  obtain ⟨q, hq, hqu⟩ := hfits u hu
  obtain ⟨q', hq', hqv⟩ := hfits v hv
  have heq : q = q' := hdet.eq hq hq' fun j hj => by
    rw [hqu j (Or.inl hj), hqv j (Or.inl hj), huv j hj]
  rw [← hqu i (Or.inr hi), ← hqv i (Or.inr hi), heq]

/-- A turned TRANSIT copies backwards. -/
theorem PlanShape.turned_copies (hp : PlanShape g p tr) (hg : g.WellFormed)
    (h : Explained S g.toGraphBase) {k : NewEdge} (hk : k ∈ p.turned) :
    ∀ val ∈ S, ∀ n ∈ k.inputs, val k.output.guid = val n.guid := by
  have hsharing : ∀ {src : Finset PartyDecl} {v : ℕ},
      k ∈ (g.outEdges v).flatMap (sharingTurned g src) →
      ∀ val ∈ S, ∀ n ∈ k.inputs, val k.output.guid = val n.guid := by
    intro src v hk val hval n hn
    obtain ⟨e, -, hke⟩ := List.mem_flatMap.1 hk
    obtain ⟨t, ht, -, rfl⟩ := mem_sharingTurned.1 hke
    rw [List.mem_singleton.1 hn]
    obtain ⟨hte, m, hm, hguid⟩ := hg.mem_outEdges.1 (mem_outEdges_of_transitOut ht)
    rw [h.transit t hte (transitOut_eq_some.1 ht).2 val hval m hm, hguid]
  cases hp with
  | addition _ _ _ hp => rcases hp with rfl | rfl <;> exact absurd hk List.not_mem_nil
  | sharing _ _ hp => exact hsharing (hp.turned ▸ hk)
  | randomSharing _ _ _ hp => exact hsharing (hp.turned ▸ hk)
  | @reconstruction src _ edge _ he _ _ hm hp =>
      intro val hval n hn
      rw [hp.turned] at hk
      obtain ⟨s, hs, hks⟩ := List.mem_flatMap.1 hk
      obtain ⟨-, ⟨t, ht⟩, rfl⟩ := mem_operandTurned.1 hks
      rw [List.mem_singleton.1 hn]
      obtain ⟨hte, htg⟩ := hg.mem_inEdges.1 (mem_inEdges_of_transitIn ht)
      have hin := inputs_of_transitIn ht (hm.asserted s hs)
      rw [← htg, h.transit t hte (transitIn_eq_some.1 ht).2 val hval (g.origin s) (by simp [hin])]

/-- The computed edges determine their outputs. -/
theorem PlanShape.computed_determined (hp : PlanShape g p tr) (h : Explained S g.toGraphBase)
    (hd : p.op = .eval → p.Dealt S t) {d : Node} (hmem : d ∈ p.dsts) :
    Determined S (guids p.srcs) d.guid := by
  have heval : p.op = .eval → Determined S (guids p.srcs) d.guid :=
    fun hop => (hd hop).determined (mem_guids hmem)
  cases hp with
  | @addition edge a b he ht hin hp =>
      have hsum := h.add edge he ht a b hin
      -- equal sums with one equal operand have equal other operands
      rcases hp with rfl | rfl
      · obtain rfl := List.mem_singleton.1 hmem
        intro u hu v hv huv
        have hout : u edge.output.guid = v edge.output.guid := huv _ (mem_guids (by simp))
        have hb : u b.guid = v b.guid := huv _ (mem_guids (by simp))
        rw [hsum u hu, hsum v hv, hb] at hout
        exact add_right_cancel hout
      · obtain rfl := List.mem_singleton.1 hmem
        intro u hu v hv huv
        have hout : u edge.output.guid = v edge.output.guid := huv _ (mem_guids (by simp))
        have ha : u a.guid = v a.guid := huv _ (mem_guids (by simp))
        rw [hsum u hu, hsum v hv, ha] at hout
        exact add_left_cancel hout
  | sharing _ _ hp => exact heval hp.op
  | randomSharing _ _ _ hp => exact heval hp.op
  | reconstruction _ _ _ _ hp => exact heval hp.op

/-- **The step lemma.**  A rewrite whose new EVALs connect nodes of one
polynomial keeps the executions on its edges. -/
theorem Explained.result (h : Explained S g.toGraphBase) (hp : PlanShape g p tr)
    (hg : g.WellFormed) (hd : p.op = .eval → p.Dealt S t) (team : ℕ) :
    Explained S (p.result team g).toGraphBase := by
  have hnew : ∀ e, (p.result team g).HasEdge e → g.HasEdge e ∨
      (∃ k ∈ p.turned, e.type = .transit ∧ e.inputs = k.inputs ∧ e.output = k.output) ∨
      ∃ d ∈ p.dsts, e.type = p.op ∧ e.inputs = p.srcs ∧ e.output = d := by
    intro e he
    rcases (Plan.hasEdge_result hg (hp.valid hg) team).1 he with ⟨he, -⟩ | he
    · exact Or.inl he
    · obtain ⟨k, hk, htype, hin, hout⟩ := exists_of_mem_makeShared he
      rcases List.mem_append.1 hk with hk | hk
      · exact Or.inr (Or.inl ⟨k, hk, htype.trans (hp.typed.turned k hk).1, hin, hout⟩)
      · obtain ⟨d, hd, rfl⟩ := List.mem_map.1 hk
        exact Or.inr (Or.inr ⟨d, hd, htype, hin, hout⟩)
  have hop : p.op = .sub ∨ p.op = .eval := hp.op_eq.imp_left And.left
  refine ⟨fun e he ht => ?_, fun e he ht => ?_, fun e he => ?_⟩
  · rcases hnew e he with he | ⟨k, hk, -, hin, hout⟩ | ⟨d, -, htype, -⟩
    · exact h.transit e he ht
    · rw [hin, hout]
      exact hp.turned_copies hg h hk
    · exact absurd (htype.symm.trans ht) hp.typed.op
  · rcases hnew e he with he | ⟨k, -, htype, -⟩ | ⟨d, -, htype, -⟩
    · exact h.add e he ht
    · exact absurd (htype.symm.trans ht) (by decide)
    · rw [htype] at ht
      rcases hop with hop | hop <;> exact absurd (hop.symm.trans ht) (by decide)
  · rcases hnew e he with he | ⟨k, hk, -, hin, hout⟩ | ⟨d, hd', -, hin, hout⟩
    · exact h.determined e he
    · obtain ⟨m, hm⟩ := List.length_eq_one_iff.1 (hp.typed.turned k hk).2
      have hcopy := hp.turned_copies hg h hk
      intro u hu v hv huv
      have hmk : m ∈ k.inputs := by simp [hm]
      rw [hout, hcopy u hu m hmk, hcopy v hv m hmk]
      exact huv _ (mem_guids (hin ▸ hmk))
    · rw [hin, hout]
      exact hp.computed_determined h hd hd'

/-- In every execution of `S` the opened value is what a polynomial of degree at
most `t` through the operands has at `0`. -/
def Operation.OpensSharing (e : Operation) (S : Set (ℕ → F)) (t : ℕ) : Prop :=
  ∃ pt : ℕ → F, Set.InjOn pt (guids e.inputs) ∧ (∀ i ∈ guids e.inputs, pt i ≠ 0) ∧
    ∀ val ∈ S, Fits t (Function.update (fun i => .point (pt i)) e.output.guid (.point 0)) val
      (insert e.output.guid (guids e.inputs))

/-- The opened value and the shares of the source parties determine the others. -/
theorem ReconstructionPlan.dealt {order : IterOrder} {src parties : Finset PartyDecl}
    {edge : Operation} (hp : ReconstructionPlan order g src edge.output edge p)
    (hm : ReconstructionMatch g edge) (hg : g.WellFormed) (hac : g.Acyclic)
    (he : g.HasEdge edge) (hin : g.PartiesIn parties) (hcard : parties.card = g.partyCnt)
    (hsub : src ⊆ parties) (hsrc : g.T ≤ src.card) (ho : edge.OpensSharing S g.T) :
    p.Dealt S g.T := by
  classical
  obtain ⟨pt, hinj, hne, hfits⟩ := ho
  have hout : ∀ {n}, n ∈ edge.inputs → n.guid ≠ edge.output.guid := fun hn h =>
    hac.not_reaches he hn (h ▸ .refl)
  have hsources : ∀ n, n ∈ p.srcs ↔ n = edge.output ∨ n ∈ sourceOperands g src edge := fun n => by
    rw [hp.srcs, List.mem_cons]
    rfl
  refine ⟨_, determines_points (s := insert 0 ((sourceOperands g src edge).map
    fun s => pt s.guid).toFinset) ?_ fun x hx => ?_, fun val hval => (hfits val hval).mono ?_⟩
  · -- the points of the operands of the source parties are distinct and not `0`
    have hpoints : ((sourceOperands g src edge).map fun s => pt s.guid).Nodup := by
      have hguids : ((sourceOperands g src edge).map Node.guid).Nodup :=
        (hm.nodup_guids hg he).sublist (List.filter_sublist.map _)
      refine (List.nodup_map_iff_inj_on hguids.of_map).2 fun s hs s' hs' hss => ?_
      have hmem := fun {n} (hn : n ∈ sourceOperands g src edge) => (List.mem_filter.1 hn).1
      refine List.inj_on_of_nodup_map hguids hs hs' ?_
      exact hinj (mem_guids (hmem hs)) (mem_guids (hmem hs')) hss
    have hzero : (0 : F) ∉ ((sourceOperands g src edge).map fun s => pt s.guid).toFinset := by
      rw [List.mem_toFinset, List.mem_map]
      rintro ⟨s, hs, h0⟩
      exact hne _ (mem_guids (List.mem_filter.1 hs).1) h0
    have hle : src.card ≤ (sourceOperands g src edge).length := by
      have hcover : src ⊆
          ((sourceOperands g src edge).map fun s => (g.origin s).party).toFinset := by
        intro P hP
        obtain ⟨s, hs, rfl⟩ := exists_of_nodup_map hm.parties (fun s hs => hin _ _
          (node?_origin hg (hm.asserted s hs) (hg.input_live he hs)))
          (hcard.trans hm.length.symm) (hsub hP)
        refine List.mem_toFinset.2 (List.mem_map.2 ⟨s, List.mem_filter.2 ⟨hs, ?_⟩, rfl⟩)
        simpa [isSourceOperand] using hP
      refine (Finset.card_le_card hcover).trans ((List.toFinset_card_le _).trans ?_)
      rw [List.length_map]
    rw [Finset.card_insert_of_notMem hzero, List.toFinset_card_of_nodup hpoints, List.length_map]
    omega
  · rcases Finset.mem_insert.1 hx with rfl | hx
    · exact ⟨_, mem_guids ((hsources _).2 (Or.inl rfl)), Function.update_self _ _ _⟩
    · obtain ⟨s, hs, rfl⟩ := List.mem_map.1 (List.mem_toFinset.1 hx)
      refine ⟨s.guid, mem_guids ((hsources s).2 (Or.inr hs)), ?_⟩
      exact Function.update_of_ne (hout (List.mem_filter.1 hs).1) _ _
  · rintro i (⟨n, hn, rfl⟩ | ⟨n, hn, rfl⟩)
    · rcases (hsources n).1 hn with rfl | hn
      · exact Set.mem_insert _ _
      · exact Set.mem_insert_of_mem _ (mem_guids (List.mem_filter.1 hn).1)
    · exact Set.mem_insert_of_mem _ (mem_guids (hp.of_mem_dsts hn).1)

end Rewrite

/-! ## Runs -/

/-- A sharing the match reverses is one polynomial, which the sources determine. -/
def Transformer.DealtMatch (S : Set (ℕ → F)) (g : Graph) (p : Plan) : Transformer → Prop
  | .sharing _ | .randomSharing _ => p.Dealt S g.T
  | .addition | .reconstruction _ => True

section Sharing

variable {S : Set (ℕ → F)} {g : Graph} {p : Plan} {tr : Transformer}
  {src parties : Finset PartyDecl} {x : PartyDecl → F} {ns : List Node} {pos : ℕ → Position F}

/-- Coefficients and shares of one polynomial, in every execution. -/
theorem SharingPlan.dealt {order : IterOrder} {v : ℕ} {node : Node} {srcs₀ dsts₀ : List Node}
    (hp : SharingPlan order g src node v srcs₀ dsts₀ p) (hm : SharingMatch g src v)
    (hg : g.WellFormed) (hd : OnePolynomial g v parties x ns pos) (hv : g.node? v = some node)
    (h₀ : ∀ n, n ∈ srcs₀ ++ dsts₀ ↔ n = node) (hdet : Determines g.T pos (guids p.srcs))
    (hfits : ∀ val ∈ S, ∀ e ∈ g.outEdges v, e.Holds (fitted g.T pos) val) : p.Dealt S g.T := by
  refine ⟨pos, hdet, fun val hval => ?_⟩
  rw [guids_srcs_union_dsts hp hm hg hd hv h₀]
  refine (fits_union_iff ?_ ?_).1 ?_
  · exact determines_coeffs fun k hk => exists_coefficient hm hd hk
  · obtain ⟨I, -, hvI, hI, -⟩ := hm.inputs
    obtain ⟨e, he, -⟩ := (hI v).1 hvI
    exact ⟨_, e, he, rfl⟩
  · rintro d ⟨e, he, rfl⟩
    have hholds := hfits val hval e he
    rwa [Operation.Holds, fitted_eval (by rw [hp.isEval e he]; decide), hd.inputs e he] at hholds

/-- A sharing by one polynomial, matched at its constant term or by the rule for
random secrets, is determined by its sources. -/
theorem PlanShape.dealtMatch (hp : PlanShape g p tr) (hg : g.WellFormed)
    (hcard : parties.card = g.partyCnt) (hx : Points parties x)
    (hd : OnePolynomial g p.node.guid parties x ns pos)
    (hfits : ∀ val ∈ S, ∀ e ∈ g.outEdges p.node.guid, e.Holds (fitted g.T pos) val)
    (hsharing : ∀ src, tr = .sharing src →
      src ⊆ parties ∧ src.card = g.T ∧ ns[0]? = some p.node)
    (hrandom : ∀ src, tr = .randomSharing src → src ⊆ parties ∧ src.card = g.T + 1) :
    tr.DealtMatch S g p := by
  cases hp with
  | addition => trivial
  | reconstruction => trivial
  | @sharing src order v node hv hm hp =>
      obtain ⟨hsub, hsrc, hns⟩ := hsharing src rfl
      have hnode : p.node.guid = v := by rw [hp.node_eq, hg.guid_eq hv]
      rw [hnode] at hd hfits
      rw [hp.node_eq] at hns
      refine hp.dealt hm hg hd hv (by simp) ?_ hfits
      rw [determines_shares_coeff_iff hp hm hd hcard hx hsub hsrc hns,
        Polynomial.coeff_zero_eq_eval_zero, Polynomial.eval_prod]
      refine Finset.prod_ne_zero_iff.2 fun P hP => ?_
      simpa using hx.ne_zero P (hsub hP)
  | @randomSharing src order v node hr hv hm hp =>
      obtain ⟨hsub, hsrc⟩ := hrandom src rfl
      have hnode : p.node.guid = v := by rw [hp.node_eq, hg.guid_eq hv]
      rw [hnode] at hd hfits
      exact hp.dealt hm hg hd hv (by simp) (determines_shares hp hm hd hcard hx hsub hsrc) hfits

end Sharing

namespace Prover

variable (S : Set (ℕ → F)) (env : Env) (trs : List Transformer) (g₀ : Graph)

/-- One accepted rewrite, from an untangled match whose sharing is one polynomial. -/
def RewritesRegular (g g' : Graph) : Prop :=
  ∃ tr ∈ trs, ∃ team order ps, tr.plans order g = some ps ∧
    ∃ p ∈ ps, g' = p.result team g ∧ g'.randomNodeCnt = g.randomNodeCnt ∧
      tr.Untangled g p ∧ tr.DealtMatch S g p

/-- Every step the rewriting loop takes from `g₀` comes from such a match. -/
def RegularRun : Prop :=
  ∀ iter g considered node g', Visited env trs g₀ iter g considered → g.hasBubble = true →
    selectMin env iter g considered trs 0 none = some (some (node, g')) →
    RewritesRegular S trs g g'

/-- The protocol computes its outputs from its inputs, step by step, and every
reconstruction opens a sharing. -/
structure WellPosed (op : Computation F) (parties : List PartyDecl) : Prop where
  sturdy : g₀.Sturdy parties.toFinset
  exact : g₀.Exact
  acyclic : g₀.Acyclic
  singleAssignment : g₀.SingleAssignment
  interprets : Interprets g₀.toGraphBase op
  opens : ∀ e, g₀.HasEdge e → e.type = .reconstruct → e.OpensSharing (g₀.executions op) g₀.T
  functional : ∀ i n, g₀.node? i = some n → n.isInOut = true →
    Determined (g₀.executions op) {j | ∃ m, g₀.node? j = some m ∧ g₀.isStart m = true} i

/-- What the rewriting loop keeps of the protocol `g₀`. -/
structure Accounted (parties : List PartyDecl) (g : Graph) : Prop where
  sturdy : g.Sturdy parties.toFinset
  frame : g₀.SameFrame g
  exact : g.Exact
  acyclic : g.Acyclic
  coins : g.randomNodeCnt = g₀.randomNodeCnt
  explained : Explained S g.toGraphBase
  opens : ∀ e, g.HasEdge e → e.type = .reconstruct → e.OpensSharing S g.T

variable {S env trs g₀} {parties : List PartyDecl} {g g' : Graph}

section Single

variable {node : Node} (hfirst : selectMin env 0 g₀ [] trs 0 none = some (some (node, g)))
  (hlast : selectMin env 1 g [g.key env.team] trs 0 none = some none)

include hfirst hlast

/-- The loop takes one rewrite and stops. -/
theorem visited_of_single {iter : ℕ} {h : Graph} {considered : List (UInt64 × ℤ × ℤ)}
    (hv : Visited env trs g₀ iter h considered) :
    (iter = 0 ∧ h = g₀ ∧ considered = []) ∨
      (iter = 1 ∧ h = g ∧ considered = [g.key env.team]) := by
  induction hv with
  | start => exact Or.inl ⟨rfl, rfl, rfl⟩
  | step hv hb hs ih =>
      rcases ih with ⟨rfl, rfl, rfl⟩ | ⟨rfl, rfl, rfl⟩
      · rw [hfirst, Option.some.injEq, Option.some.injEq, Prod.mk.injEq] at hs
        obtain ⟨-, rfl⟩ := hs
        exact Or.inr ⟨rfl, rfl, rfl⟩
      · rw [hlast] at hs
        exact absurd hs (by simp)

/-- A run of one rewrite is regular when that is. -/
theorem regularRun_of_single (h : RewritesRegular S trs g₀ g) : RegularRun S env trs g₀ := by
  intro iter g' considered node' g'' hv _ hs
  rcases visited_of_single hfirst hlast hv with ⟨rfl, rfl, rfl⟩ | ⟨rfl, rfl, rfl⟩
  · rw [hfirst, Option.some.injEq, Option.some.injEq, Prod.mk.injEq] at hs
    exact hs.2 ▸ h
  · rw [hlast] at hs
    exact absurd hs (by simp)

end Single

/-- One rewrite. -/
theorem Accounted.step (h : Accounted S g₀ parties g) (hC : g₀.corruptedParties.card ≤ g₀.T)
    (hr : RewritesRegular S (equivalentRewriters parties g₀) g g') :
    Accounted S g₀ parties g' := by
  obtain ⟨tr, htr, team, order, ps, hps, p, hp, rfl, hcoins, hun, hdealt⟩ := hr
  have hwf := h.sturdy.wellFormed
  have hshape := planShape_of_mem_plans hwf hps hp
  have hT : g₀.T < parties.toFinset.card := by
    have := h.sturdy.threshold
    rwa [h.frame.T, ← h.sturdy.card] at this
  have hd : p.op = .eval → p.Dealt S g.T := by
    intro hop
    cases hshape with
    | addition _ _ _ hp => rcases hp with rfl | rfl <;> exact absurd hop (by simp)
    | sharing => exact hdealt
    | randomSharing => exact hdealt
    | @reconstruction src _ edge _ he ht hv hm hp =>
        have hedge := hasEdge_of_inEdges he
        rw [hwf.output_live hedge, Option.some.injEq] at hv
        subst hv
        have hsrc : src ⊆ parties.toFinset ∧ g.T ≤ src.card := by
          rw [h.frame.T]
          simp only [equivalentRewriters, List.mem_cons, List.not_mem_nil, or_false, reduceCtorEq,
            false_or, Transformer.reconstruction.injEq] at htr
          rcases htr with rfl | rfl
          · exact ⟨srcParties_subset _ _, (card_srcParties hC hT).ge⟩
          · exact ⟨srcPartiesPlus_subset hC hT,
              (Nat.le_succ _).trans (card_srcPartiesPlus hC hT).ge⟩
        exact hp.dealt hm hwf h.acyclic hedge h.sturdy.partiesIn h.sturdy.card hsrc.1 hsrc.2
          (h.opens edge hedge ht)
  have hrw : Rewrites (equivalentRewriters parties g₀) g (p.result team g) :=
    ⟨tr, htr, team, order, ps, hps, p, hp, rfl, hcoins⟩
  refine ⟨hrw.sturdy h.sturdy, h.frame.trans hrw.sameFrame, hrw.exact hwf h.exact,
    (hshape.acyclic_result_iff hwf h.acyclic team).2 hun, hcoins.trans h.coins,
    h.explained.result hshape hwf hd team, fun e he ht => ?_⟩
  rw [hrw.sameFrame.T]
  rcases hshape.hasEdge_result hwf he with he | ⟨htype, -⟩ | ⟨htype, -⟩ | htype
  · exact h.opens e he ht
  all_goals exact absurd (htype.symm.trans ht) (by decide)

/-- All rewrites. -/
theorem Accounted.visited (h : Accounted S g₀ parties g₀)
    (hC : g₀.corruptedParties.card ≤ g₀.T)
    (hrun : RegularRun S env (equivalentRewriters parties g₀) g₀) {iter : ℕ}
    {considered : List (UInt64 × ℤ × ℤ)}
    (hv : Visited env (equivalentRewriters parties g₀) g₀ iter g considered) :
    Accounted S g₀ parties g := by
  induction hv with
  | start => exact h
  | step hv hb hs ih => exact ih.step hC (hrun _ _ _ _ _ hv hb hs)

theorem WellPosed.accounted {op : Computation F} (h : WellPosed g₀ op parties) :
    Accounted (g₀.executions op) g₀ parties g₀ where
  sturdy := h.sturdy
  frame := .refl g₀
  exact := h.exact
  acyclic := h.acyclic
  coins := rfl
  explained := explained_executions h.interprets h.sturdy.transitUnary
  opens := h.opens

/-! ## The simulator -/

/-- The node is an input or output of a corrupted party. -/
def isKnown (g : Graph) (n : Node) : Bool := n.isInOut && g.isCorrupted n

/-- Where the answer is yes, what the corrupted parties see is determined by
their inputs and outputs and by the random nodes. -/
theorem Accounted.view_determined (h : Accounted S g₀ parties g) (hyes : AnswersYes g)
    {u v : ℕ → F} (hu : u ∈ S) (hv : v ∈ S)
    (hknown : g₀.valuesAt (isKnown g₀) u = g₀.valuesAt (isKnown g₀) v)
    (hcoins : ∀ i ∈ g.randomIds, u i = v i) :
    g₀.valuesAt g₀.isCorrupted u = g₀.valuesAt g₀.isCorrupted v := by
  have hwf := h.sturdy.wellFormed
  have hcor : ∀ n, g.isCorrupted n = g₀.isCorrupted n := fun n => by
    rw [Graph.isCorrupted, Graph.isCorrupted, h.frame.corrupted]
  rw [valuesAt_eq_iff] at hknown ⊢
  -- the nodes that lead to a node of a corrupted party
  set D : Set ℕ := {i | ∃ c n, g.Reaches i c ∧ g.node? c = some n ∧ g.isCorrupted n = true} with hD
  have hclosed : ∀ i ∈ D, ∀ j, g.Feeds j i → j ∈ D := by
    rintro i ⟨c, n, hic, hn, hc⟩ j hji
    exact ⟨c, n, hic.head hji, hn, hc⟩
  have hlive : ∀ i ∈ D, ∃ n, g.node? i = some n := by
    rintro i ⟨c, n, hic, hn, -⟩
    rcases Relation.ReflTransGen.cases_head hic with rfl | ⟨j, ⟨e, he, ⟨m, hm, rfl⟩, -⟩, -⟩
    · exact ⟨n, hn⟩
    · exact ⟨m, hwf.input_live he hm⟩
  have hcorrupted : ∀ i ∈ D, ∀ n, g.node? i = some n → n.isInOut = true →
      g.isCorrupted n = true ∧ g.inDeg i = 0 := by
    rintro i ⟨c, m, hic, hm, hc⟩ n hn hio
    have hans := hyes i n hn hio
    split at hans
    · rename_i hcn
      exact ⟨hcn, hans⟩
    · obtain ⟨m', hm', hh⟩ := (hans c hic).1
      rw [hm, Option.some.injEq] at hm'
      rw [hm', hh] at hc
      exact absurd hc (by simp)
  refine fun i n hn hc => eq_of_determined (S := S) (D := D) (B := {j | g.inDeg j = 0})
    (wellFounded_feeds hwf h.acyclic) hclosed ?_ hu hv ?_ i
    ⟨i, n, .refl, by rw [h.frame.node?, hn], (hcor n).trans hc⟩
  · intro j hj
    refine or_iff_not_imp_left.2 fun hdeg => ?_
    obtain ⟨e, he⟩ := List.exists_mem_of_length_pos (Nat.pos_of_ne_zero hdeg)
    obtain ⟨hedge, rfl⟩ := hwf.mem_inEdges.1 he
    refine (h.explained.determined e hedge).mono ?_
    rintro k hk
    exact ⟨e, hedge, hk, rfl⟩
  · intro j hj hdeg
    obtain ⟨m, hm⟩ := hlive j hj
    have hdeg' : g.inDeg m.guid = 0 := by
      rw [hwf.guid_eq hm]
      exact hdeg
    rcases Graph.isStart_or_isRandom hdeg' with hst | hr
    · have hio := (Bool.and_eq_true_iff.1 hst).1
      have hcm := (hcorrupted j hj m hm hio).1
      refine hknown j m (by rw [← h.frame.node?, hm]) ?_
      rw [isKnown, hio, ← hcor m, hcm, Bool.and_self]
    · exact hcoins j (Graph.mem_randomIds.2 ⟨m, hm, hr⟩)

/-- The inputs and the random nodes of a rewritten graph tell the executions
apart. -/
theorem Accounted.eq_of_coins {op : Computation F} (hp : WellPosed g₀ op parties)
    (h : Accounted (g₀.executions op) g₀ parties g) {u v : ℕ → F} (hu : u ∈ g₀.executions op)
    (hv : v ∈ g₀.executions op) (hin : g₀.valuesAt g₀.isStart u = g₀.valuesAt g₀.isStart v)
    (hcoins : ∀ i ∈ g.randomIds, u i = v i) : u = v := by
  have hwf := h.sturdy.wellFormed
  have hstart : ∀ j ∈ {j | ∃ m, g₀.node? j = some m ∧ g₀.isStart m = true}, u j = v j := by
    rintro j ⟨m, hm, hst⟩
    exact valuesAt_eq_iff.1 hin j m hm hst
  funext i
  refine eq_of_determined (S := g₀.executions op) (D := Set.univ)
    (B := {j | g.inDeg j = 0}) (wellFounded_feeds hwf h.acyclic) (fun _ _ _ _ => trivial) ?_ hu hv
    ?_ i trivial
  · intro j _
    refine or_iff_not_imp_left.2 fun hdeg => ?_
    obtain ⟨e, he⟩ := List.exists_mem_of_length_pos (Nat.pos_of_ne_zero hdeg)
    obtain ⟨hedge, rfl⟩ := hwf.mem_inEdges.1 he
    refine (h.explained.determined e hedge).mono ?_
    rintro k hk
    exact ⟨e, hedge, hk, rfl⟩
  · intro j _ hdeg
    cases hm : g.node? j with
    | none =>
        rw [h.frame.node?] at hm
        rw [(mem_executions.1 hu).absent j hm, (mem_executions.1 hv).absent j hm]
    | some m =>
        have hdeg' : g.inDeg m.guid = 0 := by
          rw [hwf.guid_eq hm]
          exact hdeg
        rcases Graph.isStart_or_isRandom hdeg' with hst | hr
        · exact hp.functional j m (by rw [← h.frame.node?, hm]) (Bool.and_eq_true_iff.1 hst).1
            u hu v hv hstart
        · exact hcoins j (Graph.mem_randomIds.2 ⟨m, hm, hr⟩)

/-- The random nodes of the graph the loop ends with stand for the coins. -/
theorem WellPosed.exists_simulator [Finite F] {op : Computation F} (hp : WellPosed g₀ op parties)
    (hC : g₀.corruptedParties.card ≤ g₀.T)
    (hrun : RegularRun (g₀.executions op) env (equivalentRewriters parties g₀) g₀)
    (hyes : tryProving env g₀ parties = some true) :
    ∃ sim : (ℕ → F) → (g₀.randomIds → F) → ℕ → F,
      Simulation.Draws (g₀.executions op) (g₀.valuesAt g₀.isStart) (g₀.valuesAt (isKnown g₀))
        (g₀.valuesAt g₀.isCorrupted) sim := by
  obtain ⟨g, hloop, hb⟩ := tryProving_eq_some.1 hyes
  obtain ⟨iter, considered, hv⟩ := visited_of_rewriteLoop .start hloop
  have hacc := hp.accounted.visited hC hrun hv
  have hwf := hacc.sturdy.wellFormed
  have : Inhabited (ℕ → F) := ⟨0⟩
  have hanswer : AnswersYes g :=
    (hasBubble_tailLoop_iff hwf hacc.exact.bubble).1 (by simpa using hb)
  have hcard : g₀.randomIds.card = g.randomIds.card := by
    have h₀ := Graph.card_randomIds g₀
    have h₁ := Graph.card_randomIds g
    rw [← hp.exact.random] at h₀
    rw [← hacc.exact.random, hacc.coins] at h₁
    omega
  set coin : g₀.randomIds ≃ g.randomIds := Finset.equivOfCardEq hcard
  have hcoin : ∀ {u v : ℕ → F}, (fun i => u (coin i)) = (fun i => v (coin i)) →
      ∀ i ∈ g.randomIds, u i = v i := by
    intro u v huv i hi
    have := congrFun huv (coin.symm ⟨i, hi⟩)
    simpa using this
  refine Simulation.exists_draws (fun u i => u (coin i))
    (fun s _ => Graph.card_fiber hp.sturdy.wellFormed hp.singleAssignment hp.acyclic s)
    (fun u hu v hv hin hco => hacc.eq_of_coins hp hu hv hin (hcoin hco))
    (fun u hu v hv hin => ?_)
    fun u hu v hv hknown hco => hacc.view_determined hanswer hu hv hknown (hcoin hco)
  rw [valuesAt_eq_iff]
  intro i n hn hk
  refine hp.functional i n hn (Bool.and_eq_true_iff.1 hk).1 u hu v hv ?_
  rintro j ⟨m, hm, hst⟩
  exact valuesAt_eq_iff.1 hin j m hm hst

/-- **What a proof means.**  Let the protocol compute its outputs from its
inputs, and let the rewriting loop take only untangled matches whose sharings
are determined by their sources.  If the prover answers yes, then a simulator
that is given the inputs and outputs of the corrupted parties, and as many coins
as the protocol has random nodes, shows every view of the corrupted parties
exactly as often as the executions with the same inputs do.  So executions with
the same inputs and outputs of the corrupted parties show each view equally
often. -/
theorem simulator_of_tryProving [Finite F] {op : Computation F} (hp : WellPosed g₀ op parties)
    (hC : g₀.corruptedParties.card ≤ g₀.T)
    (hrun : RegularRun (g₀.executions op) env (equivalentRewriters parties g₀) g₀)
    (hyes : tryProving env g₀ parties = some true) :
    (∃ sim : (ℕ → F) → (g₀.randomIds → F) → ℕ → F,
      Simulation.Draws (g₀.executions op) (g₀.valuesAt g₀.isStart) (g₀.valuesAt (isKnown g₀))
        (g₀.valuesAt g₀.isCorrupted) sim) ∧
    ∀ s ∈ g₀.executions op, ∀ t ∈ g₀.executions op,
      g₀.valuesAt (isKnown g₀) s = g₀.valuesAt (isKnown g₀) t → ∀ w,
      Nat.card {u : Simulation.Fiber (g₀.executions op) (g₀.valuesAt g₀.isStart) s //
          g₀.valuesAt g₀.isCorrupted u.1 = w} =
        Nat.card {u : Simulation.Fiber (g₀.executions op) (g₀.valuesAt g₀.isStart) t //
          g₀.valuesAt g₀.isCorrupted u.1 = w} := by
  obtain ⟨sim, hsim⟩ := hp.exists_simulator hC hrun hyes
  exact ⟨⟨sim, hsim⟩, fun s hs t ht hst w => hsim.card_eq hs ht hst w⟩

end Prover

/-! ### Dealing one secret

Party 0 shares its input among two parties by a polynomial of degree one, and
party 1 is corrupted. -/

/-- TRANSITs copy, ADDs add, and an EVAL evaluates the polynomial with the given
coefficients at the point of its output. -/
def evaluating (pt : ℕ → F) : Computation F := fun e as =>
  match e.type with
  | .transit => as.headD 0
  | .add => as.sum
  | .eval => as.foldr (fun a b => a + pt e.output.guid * b) 0
  | _ => 0

theorem interprets_evaluating (g : GraphBase) (pt : ℕ → F) : Interprets g (evaluating pt) where
  transit := fun e _ ht a => by simp [evaluating, ht]
  add := fun e _ ht a b => by simp [evaluating, ht]

/-- An EVAL puts its ends on one polynomial. -/
theorem GraphBase.IsExecution.fitted {g : GraphBase} {pt val : ℕ → F} {pos : ℕ → Position F}
    {e : Operation} {t : ℕ} (h : g.IsExecution (evaluating pt) val) (he : g.HasEdge e)
    (ht : e.type = .eval) (hlen : e.inputs.length = t + 1)
    (hcoeff : ∀ (k : ℕ) (n : Node), e.inputs[k]? = some n → pos n.guid = .coeff k)
    (hout : pos e.output.guid = .point (pt e.output.guid)) : e.Holds (fitted t pos) val := by
  rw [Operation.Holds, fitted_eval (by rw [ht]; decide)]
  refine ⟨ofCoeffs (e.inputs.map fun n => val n.guid),
    natDegree_ofCoeffs_le (by rw [List.length_map, hlen]), ?_⟩
  rintro i (rfl | ⟨n, hn, rfl⟩)
  · rw [hout, Position.read_point, eval_ofCoeffs, h.computed e he, evaluating, ht]
  · obtain ⟨k, hk, rfl⟩ := List.mem_iff_getElem.1 hn
    rw [hcoeff k _ (List.getElem?_eq_getElem hk), Position.read_coeff, coeff_ofCoeffs]
    simp [hk]

namespace Prover

/-- The input and a coefficient, the two shares, and the share party 1 receives. -/
def onePolyNodes : List Node :=
  [⟨0, "x", 0, .input⟩, ⟨1, "poly_eval_0", 0, .others⟩, ⟨2, "share_0", 0, .others⟩,
    ⟨3, "share_1", 0, .others⟩, ⟨4, "share_1", 1, .others⟩]

/-- The node at an index. -/
def onePolyNode (i : ℕ) : Node := onePolyNodes.getD i ⟨0, "x", 0, .input⟩

/-- The two evaluations, and the message to party 1. -/
def onePolyEdges : List Operation :=
  [Operation.make 1 0 .eval [onePolyNode 0, onePolyNode 1] (onePolyNode 2),
    Operation.make 1 1 .eval [onePolyNode 0, onePolyNode 1] (onePolyNode 3),
    Operation.make 1 2 .transit [onePolyNode 3] (onePolyNode 4)]

/-- The graph, for two parties and one corrupted. -/
def onePoly : Graph := ((GraphBase.bare onePolyNodes).toGraph 2 1 {1}).addEdges onePolyEdges

/-- The points of the two parties. -/
def partyPoint (P : PartyDecl) : ZMod 3 := P + 1

/-- The points of the nodes their shares are computed at. -/
def onePolyPoint (i : ℕ) : ZMod 3 := i + 2

/-- The match: the sharing, with party 1 as the source. -/
def onePolyPlan : Plan :=
  ⟨onePolyNode 0, onePolyEdges, [⟨.transit, [onePolyNode 4], onePolyNode 3⟩], .eval,
    [onePolyNode 0, onePolyNode 3], [onePolyNode 2, onePolyNode 1]⟩

theorem wellFormed_onePoly : onePoly.WellFormed :=
  Graph.wellFormed_linked rfl (by decide) (by decide) (by decide)

theorem hasEdge_onePoly {f : Operation} : onePoly.HasEdge f ↔ f ∈ onePolyEdges :=
  Graph.hasEdge_linked rfl (by decide) (by decide) (by decide)

theorem sturdy_onePoly : onePoly.Sturdy [0, 1].toFinset where
  wellFormed := wellFormed_onePoly
  transitUnary := fun f hf ht => by
    rw [hasEdge_onePoly] at hf
    revert f
    decide
  addBinary := fun f hf ht => by
    rw [hasEdge_onePoly] at hf
    revert f
    decide
  opened := fun f hf ht => absurd ht (by
    rw [hasEdge_onePoly] at hf
    revert f
    decide)
  arity := fun f hf ht => by
    rw [hasEdge_onePoly] at hf
    revert f
    decide
  partiesIn := fun i n hn => by
    have hall : ∀ o ∈ onePoly.nodes, o.all (fun n => n.party ∈ [0, 1].toFinset) = true := by decide
    obtain ⟨hlt, hn⟩ := node?_eq_some_iff.1 hn
    simpa [hn] using hall _ (List.getElem_mem hlt)
  card := by decide
  threshold := by decide

theorem acyclic_onePoly : onePoly.Acyclic := by
  refine Graph.acyclic_linked rfl (by decide) (by decide) (by decide) ?_
  decide

theorem start_onePoly {i : ℕ} {n : Node} (hn : onePoly.node? i = some n) (hio : n.isInOut = true) :
    onePoly.isStart n = true := by
  have hall : ∀ o ∈ onePoly.nodes, o.all (fun n => !n.isInOut || onePoly.isStart n) = true := by
    decide
  obtain ⟨hlt, hn⟩ := node?_eq_some_iff.1 hn
  have := hall _ (List.getElem_mem hlt)
  simpa [hn, hio] using this

theorem wellPosed_onePoly : WellPosed onePoly (evaluating (F := ZMod 3) onePolyPoint) [0, 1] where
  sturdy := sturdy_onePoly
  exact := ⟨by decide, by decide⟩
  acyclic := acyclic_onePoly
  singleAssignment := fun i => by
    by_cases hi : i < 5
    · revert i
      decide
    · rw [inDeg, inEdges, OpTable.at'_of_le (not_lt.1 hi)]
      exact Nat.zero_le _
  interprets := interprets_evaluating _ _
  opens := fun e he ht => absurd ht (by
    rw [hasEdge_onePoly] at he
    revert e
    decide)
  functional := fun i n hn hio u _ v _ huv => huv i ⟨n, hn, start_onePoly hn hio⟩

/-- The coefficients and the shares on one polynomial. -/
def onePolyPosition (i : ℕ) : Position (ZMod 3) :=
  if i < 2 then .coeff i else if i = 2 then .point 1 else .point 2

theorem points_onePoly : Points ({0, 1} : Finset PartyDecl) partyPoint where
  inj := by
    intro P hP Q hQ
    simp only [Finset.coe_insert, Finset.coe_singleton, Set.mem_insert_iff,
      Set.mem_singleton_iff] at hP hQ
    rcases hP with rfl | rfl <;> rcases hQ with rfl | rfl <;> decide
  ne_zero := by decide

theorem onePolynomial_onePoly : OnePolynomial onePoly 0 {0, 1} partyPoint (onePolyNodes.take 2)
    onePolyPosition where
  inputs := by decide
  coefficient := by
    intro k n hk
    rcases k with - | - | k
    · cases hk
      rfl
    · cases hk
      rfl
    · exact absurd hk (by simp [onePolyNodes])
  party := by decide
  share := by
    intro e he
    have hmem : e ∈ [onePolyEdges[0], onePolyEdges[1]] := he
    simp only [List.mem_cons, List.not_mem_nil, or_false] at hmem
    rcases hmem with rfl | rfl
    · exact ⟨rfl, rfl⟩
    · exact ⟨rfl, rfl⟩

theorem regularRun_onePoly : RegularRun (onePoly.executions (evaluating onePolyPoint)) .sequential
    (equivalentRewriters [0, 1] onePoly) onePoly := by
  have hfirst : selectMin .sequential 0 onePoly [] (equivalentRewriters [0, 1] onePoly) 0 none =
      some (some (onePolyNode 0, onePolyPlan.result 1 onePoly)) := by decide +kernel
  have hlast : selectMin .sequential 1 (onePolyPlan.result 1 onePoly)
      [(onePolyPlan.result 1 onePoly).key 1] (equivalentRewriters [0, 1] onePoly) 0 none =
        some none := by decide +kernel
  refine regularRun_of_single hfirst hlast ?_
  obtain ⟨ps, hps, hp⟩ : ∃ ps, (Transformer.sharing {1}).plans (fun _ => .insertion) onePoly =
      some ps ∧ onePolyPlan ∈ ps := ⟨_, rfl, by decide +kernel⟩
  have hsources : srcParties [0, 1] onePoly = {1} := by decide +kernel
  refine ⟨.sharing {1}, by simp [equivalentRewriters, hsources], 1, fun _ => .insertion, ps, hps,
    onePolyPlan, hp, rfl, by decide +kernel, ?_, ?_⟩
  · -- no edge is kept
    intro d hd s hs hr
    rcases Relation.ReflTransGen.cases_head hr with hds | ⟨i, ⟨e, he, hne, -⟩, -⟩
    · clear hr
      revert d s
      decide
    · exact hne (hasEdge_onePoly.1 he)
  · refine (planShape_of_mem_plans wellFormed_onePoly hps hp).dealtMatch wellFormed_onePoly
      (by decide) points_onePoly onePolynomial_onePoly (fun val hval e he => ?_)
      (fun src hsrc => ?_) fun src hsrc => ?_
    · have hmem : e ∈ [onePolyEdges[0], onePolyEdges[1]] := he
      have hedge := (wellFormed_onePoly.mem_outEdges.1 he).1
      simp only [List.mem_cons, List.not_mem_nil, or_false] at hmem
      refine GraphBase.IsExecution.fitted hval hedge ?_ ?_ ?_ ?_
      all_goals rcases hmem with rfl | rfl
      all_goals first | rfl | exact onePolynomial_onePoly.coefficient
    · cases hsrc
      decide
    · cases hsrc

/-- The verdict there is yes, and the share party 1 receives is simulated. -/
theorem simulator_of_tryProving_onePoly :
    (∃ sim : (ℕ → ZMod 3) → (onePoly.randomIds → ZMod 3) → ℕ → ZMod 3,
      Simulation.Draws (onePoly.executions (evaluating onePolyPoint))
        (onePoly.valuesAt onePoly.isStart) (onePoly.valuesAt (isKnown onePoly))
        (onePoly.valuesAt onePoly.isCorrupted) sim) ∧
    ∀ s ∈ onePoly.executions (evaluating onePolyPoint),
      ∀ t ∈ onePoly.executions (evaluating onePolyPoint),
      onePoly.valuesAt (isKnown onePoly) s = onePoly.valuesAt (isKnown onePoly) t → ∀ w,
      Nat.card {u : Simulation.Fiber (onePoly.executions (evaluating onePolyPoint))
          (onePoly.valuesAt onePoly.isStart) s // onePoly.valuesAt onePoly.isCorrupted u.1 = w} =
        Nat.card {u : Simulation.Fiber (onePoly.executions (evaluating onePolyPoint))
          (onePoly.valuesAt onePoly.isStart) t // onePoly.valuesAt onePoly.isCorrupted u.1 = w} :=
  simulator_of_tryProving wellPosed_onePoly (by decide) regularRun_onePoly (by decide +kernel)

end Prover

end Gauv
