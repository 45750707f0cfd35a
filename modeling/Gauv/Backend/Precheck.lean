import Gauv.Backend.Acyclic
import Gauv.Backend.Opening
import Gauv.Backend.Renumbering

/-!
# The check before a reconstruction is reversed

`isRewritableReconstruction` counts the random destinations and looks at the
in-degree of the opened value; the filter of `apply` compares the random node
counts of the two graphs.  Reversing a reconstruction gives every node one more
in-edge for each destination that was sent from it, and takes from the opened
value its only one, so the two agree.
-/

namespace Gauv

open GraphBase

/-! ## In-degrees -/

namespace Graph

variable {g : Graph} {es : List Operation}

theorem inDeg_eliminateEdges (hg : g.WellFormed) (h : g.Removable es) (v : ℕ) :
    (g.eliminateEdges es).inDeg v + es.countP (fun e => e.output.guid = v) = g.inDeg v := by
  induction es generalizing g with
  | nil => rfl
  | cons e es ih =>
      have he := h.present e (List.mem_cons_self ..)
      have hpos : 0 < g.inDeg e.output.guid := List.length_pos_of_mem he
      have hrest := ih (wellFormed_eliminateEdge hg he) (h.tail hg)
      rw [inDeg_eliminateEdge he] at hrest
      rw [eliminateEdges, List.foldl_cons, ← eliminateEdges, List.countP_cons]
      by_cases hv : v = e.output.guid
      · subst hv
        simp only [if_true, decide_true] at hrest ⊢
        omega
      · simp only [if_neg hv, decide_eq_true_eq, if_neg (Ne.symm hv)] at hrest ⊢
        omega

theorem inDeg_addEdges (hg : g.WellFormed) (h : g.AddableAll es) (v : ℕ) :
    (g.addEdges es).inDeg v = g.inDeg v + es.countP fun e => e.output.guid = v := by
  rw [inDeg, inEdges_addEdges hg h, List.length_append, ← List.countP_eq_length_filter]
  rfl

end Graph

/-- The in-degree of a node moves by the edges removed and added there. -/
theorem Plan.inDeg_result {g : Graph} {p : Plan} (hg : g.WellFormed) (hp : p.Valid g)
    (team v : ℕ) :
    (p.result team g).inDeg v + p.edgesToEliminate.countP (fun e => e.output.guid = v) =
      g.inDeg v + p.edgesToAdd.countP fun k => k.output.guid = v := by
  have hadded : (p.added team g).countP (fun e => e.output.guid = v) =
      p.edgesToAdd.countP fun k => k.output.guid = v := by
    conv_rhs => rw [← map_args_makeShared team g.freshId p.edgesToAdd, List.countP_map]
    rfl
  rw [result, ← added, Graph.inDeg_addEdges (Graph.wellFormed_eliminateEdges hg hp.removable)
    (addableAll_added hg hp team), hadded, ← Graph.inDeg_eliminateEdges hg hp.removable v]
  omega

/-! ## What the rewrite does to the in-degrees -/

section Reconstruction

variable {order : IterOrder} {g : Graph} {src : Finset PartyDecl} {node : Node}
  {edge : Operation} {p : Plan}

/-- One operand: turning its TRANSIT round and computing it anew moves the
in-edge of a destination to the node it was sent from. -/
theorem operand_balance (hg : g.WellFormed) (src : Finset PartyDecl) (s : Node) (v : ℕ) :
    (operandTurned g src s).countP (fun k => k.output.guid = v) +
        (if isSourceOperand g src s = false ∧ s.guid = v then 1 else 0) =
      (operandEliminated g src s).countP (fun e => e.output.guid = v) +
        if isSourceOperand g src s = false ∧ (g.origin s).guid = v then 1 else 0 := by
  rw [operandTurned, operandEliminated]
  cases isSourceOperand g src s with
  | true => rfl
  | false =>
      cases ht : g.transitIn s with
      | none => simp [origin_of_transitIn_none ht]
      | some t =>
          have hout := (hg.mem_inEdges.1 (mem_inEdges_of_transitIn ht)).2
          simp [hout, List.countP_singleton, Nat.add_comm]

/-- All operands. -/
theorem operands_balance (hg : g.WellFormed) (src : Finset PartyDecl) (shares : List Node)
    (v : ℕ) :
    (shares.flatMap (operandTurned g src)).countP (fun k => k.output.guid = v) +
        (shares.filter fun s => !isSourceOperand g src s).countP (fun s => s.guid = v) =
      (shares.flatMap (operandEliminated g src)).countP (fun e => e.output.guid = v) +
        (shares.filter fun s => !isSourceOperand g src s).countP
          fun s => (g.origin s).guid = v := by
  induction shares with
  | nil => rfl
  | cons s shares ih =>
      have hs := operand_balance hg src s v
      simp only [List.flatMap_cons, List.countP_append, List.countP_filter, List.countP_cons,
        Bool.and_eq_true, decide_eq_true_eq, Bool.not_eq_true'] at ih ⊢
      simp only [and_comm (a := s.guid = v), and_comm (a := (g.origin s).guid = v)]
      omega

/-- The node a share was sent from is live. -/
theorem node?_origin (hg : g.WellFormed) {s : Node} (hs : (g.beforeTransit s).isSome)
    (hlive : g.node? s.guid = some s) : g.node? (g.origin s).guid = some (g.origin s) := by
  cases ht : g.transitIn s with
  | none => rwa [origin_of_transitIn_none ht]
  | some t =>
      refine hg.input_live (hg.mem_inEdges.1 (mem_inEdges_of_transitIn ht)).1 ?_
      rw [inputs_of_transitIn ht hs]
      exact List.mem_singleton_self _

/-- Shares from different parties were sent from different nodes. -/
theorem ReconstructionMatch.nodup_origins (hm : ReconstructionMatch g edge)
    (hg : g.WellFormed) (he : g.HasEdge edge) :
    (edge.inputs.map fun s => (g.origin s).guid).Nodup := by
  refine (List.nodup_map_iff_inj_on hm.parties.of_map).2 fun s hs s' hs' hss => ?_
  have hsame : g.origin s = g.origin s' :=
    eq_of_guid (node?_origin hg (hm.asserted s hs) (hg.input_live he hs))
      (node?_origin hg (hm.asserted s' hs') (hg.input_live he hs')) hss
  exact List.inj_on_of_nodup_map hm.parties hs hs' (congrArg Node.party hsame)

/-- The opened value was not sent to be an operand of its own reconstruction. -/
theorem ReconstructionMatch.origin_ne_output (hm : ReconstructionMatch g edge)
    (hg : g.WellFormed) (hac : g.Acyclic) (he : g.HasEdge edge) {s : Node}
    (hs : s ∈ edge.inputs) : (g.origin s).guid ≠ edge.output.guid := fun h =>
  hac.not_reaches he hs (h ▸ reaches_origin hg (hm.asserted s hs))

/-- The destinations are computed once each. -/
theorem ReconstructionPlan.countP_dsts (hp : ReconstructionPlan order g src node edge p)
    (hm : ReconstructionMatch g edge) (hg : g.WellFormed) (he : g.HasEdge edge) (v : ℕ) :
    p.dsts.countP (fun s => s.guid = v) =
      (otherOperands g src edge).countP fun s => s.guid = v := by
  have hnodup : ((otherOperands g src edge).map Node.guid).Nodup :=
    (hm.nodup_guids hg he).sublist (List.filter_sublist.map _)
  have hguid : ((insertNodes (otherOperands g src edge)).map Node.guid).Perm
      ((otherOperands g src edge).map Node.guid) := by
    refine (List.perm_ext_iff_of_nodup (nodup_insertNodes _) hnodup).2 fun i => ?_
    rw [← List.mem_toFinset, map_guid_insertNodes, List.mem_toFinset]
  rw [hp.dsts, (order.perm _).countP_eq]
  have hcount := hguid.countP_eq fun i => i = v
  rwa [List.countP_map, List.countP_map] at hcount

/-- **The net effect.**  The opened value loses an in-edge, and every node gains
one for each destination sent from it. -/
theorem ReconstructionPlan.inDeg_result (hp : ReconstructionPlan order g src edge.output edge p)
    (hm : ReconstructionMatch g edge) (hg : g.WellFormed) (he : g.HasEdge edge)
    (ht : edge.type = .reconstruct) (team v : ℕ) :
    (p.result team g).inDeg v + (if edge.output.guid = v then 1 else 0) =
      g.inDeg v + (otherOperands g src edge).countP fun s => (g.origin s).guid = v := by
  have hvalid := hp.valid hm hg he ht (hg.output_live he)
  have hdeg := Plan.inDeg_result hg hvalid team v
  have hcomputed : p.computed.countP (fun k => k.output.guid = v) =
      (otherOperands g src edge).countP fun s => s.guid = v := by
    rw [← hp.countP_dsts hm hg he, Plan.computed, List.countP_map]
    rfl
  have hbalance := operands_balance hg src edge.inputs v
  rw [Plan.edgesToAdd, List.countP_append, hcomputed, hp.turned, hp.eliminated,
    List.countP_cons] at hdeg
  simp only [decide_eq_true_eq] at hdeg
  simp only [otherOperands] at hdeg ⊢
  omega

/-! ## What the rewrite does to the random nodes -/

/-- The opened value will be random once its only in-edge is gone. -/
def secretRandom (g : Graph) (edge : Operation) : Bool :=
  g.inDeg edge.output.guid = 1 && !edge.output.isInput && !edge.output.isOutput

/-- The indices of the random nodes. -/
def Graph.randomIds (g : Graph) : Finset ℕ :=
  (Finset.range g.nodeSize).filter fun i => (g.node? i).any g.isRandom = true

theorem Graph.mem_randomIds {i : ℕ} :
    i ∈ g.randomIds ↔ ∃ n, g.node? i = some n ∧ g.isRandom n = true := by
  rw [randomIds, Finset.mem_filter, Finset.mem_range, Option.any_eq_true]
  refine ⟨fun h => h.2, fun h => ⟨?_, h⟩⟩
  obtain ⟨n, hn, -⟩ := h
  exact lt_of_node? hn

theorem Graph.card_randomIds (g : Graph) : (g.randomIds.card : ℤ) = g.countRandom := by
  have hset : {i | (g.node? i).any g.isRandom = true} = (g.randomIds : Set ℕ) := by
    ext i
    rw [Set.mem_ofPred_eq, Finset.mem_coe, Graph.mem_randomIds, Option.any_eq_true]
  rw [countRandom, countP_nodes, hset, Set.ncard_coe_finset]

/-- The nodes the destinations were sent from. -/
def dstOrigins (g : Graph) (src : Finset PartyDecl) (edge : Operation) : Finset ℕ :=
  ((otherOperands g src edge).map fun s => (g.origin s).guid).toFinset

theorem mem_dstOrigins {i : ℕ} : i ∈ dstOrigins g src edge ↔
    0 < (otherOperands g src edge).countP fun s => (g.origin s).guid = i := by
  rw [dstOrigins, List.mem_toFinset, List.mem_map, List.countP_pos_iff]
  simp only [decide_eq_true_eq]

/-- The random nodes after the rewrite: those that no destination was sent from,
and the opened value. -/
theorem ReconstructionPlan.randomIds_result
    (hp : ReconstructionPlan order g src edge.output edge p) (hm : ReconstructionMatch g edge)
    (hg : g.WellFormed) (hac : g.Acyclic) (hin : g.inEdges edge.output.guid = [edge])
    (ht : edge.type = .reconstruct) (team : ℕ) :
    (p.result team g).randomIds = g.randomIds \ dstOrigins g src edge ∪
      if secretRandom g edge then {edge.output.guid} else ∅ := by
  have he := hasEdge_of_inEdges hin
  have hone : g.inDeg edge.output.guid = 1 := congrArg List.length hin
  have hsecret : edge.output.guid ∉ dstOrigins g src edge := by
    rw [dstOrigins, List.mem_toFinset, List.mem_map]
    rintro ⟨s, hs, hguid⟩
    exact hm.origin_ne_output hg hac he (List.mem_filter.1 hs).1 hguid
  have hnew : ∀ i, i ∈ (if secretRandom g edge then {edge.output.guid} else ∅ : Finset ℕ) ↔
      secretRandom g edge = true ∧ i = edge.output.guid := by
    intro i
    split <;> simp_all
  ext i
  rw [Finset.mem_union, Finset.mem_sdiff, Graph.mem_randomIds, Graph.mem_randomIds, hnew]
  simp only [(p.sameFrame_result team g).node?]
  have hdeg := hp.inDeg_result hm hg he ht team i
  by_cases hi : edge.output.guid = i
  · -- the opened value
    subst hi
    rw [mem_dstOrigins, not_lt] at hsecret
    rw [if_pos rfl] at hdeg
    have hzero : (p.result team g).inDeg edge.output.guid = 0 := by omega
    simp [hg.output_live he, isRandom, hzero, hone, secretRandom]
  · rw [if_neg hi] at hdeg
    rw [or_iff_left fun h => hi h.2.symm, mem_dstOrigins, not_lt, Nat.le_zero,
      ← exists_and_right]
    refine exists_congr fun n => ?_
    rw [and_assoc]
    refine and_congr_right fun hn => ?_
    have hzero : (p.result team g).inDeg i = 0 ↔ g.inDeg i = 0 ∧
        (otherOperands g src edge).countP (fun s => (g.origin s).guid = i) = 0 := by omega
    simp only [isRandom, hg.guid_eq hn, Bool.and_eq_true, decide_eq_true_eq, hzero]
    tauto

/-- The random destinations the scan counts. -/
def randomDsts (g : Graph) (src : Finset PartyDecl) (edge : Operation) : ℕ :=
  (otherOperands g src edge).countP fun s => g.isRandom (g.origin s)

/-- They are the random nodes that destinations were sent from. -/
theorem ReconstructionMatch.card_randomIds_inter (hm : ReconstructionMatch g edge)
    (hg : g.WellFormed) (he : g.HasEdge edge) (src : Finset PartyDecl) :
    (dstOrigins g src edge ∩ g.randomIds).card = randomDsts g src edge := by
  have hset : dstOrigins g src edge ∩ g.randomIds = (((otherOperands g src edge).filter
      fun s => g.isRandom (g.origin s)).map fun s => (g.origin s).guid).toFinset := by
    ext i
    simp only [Finset.mem_inter, dstOrigins, List.mem_toFinset, List.mem_map, List.mem_filter,
      Graph.mem_randomIds]
    constructor
    · rintro ⟨⟨s, hs, rfl⟩, n, hn, hrand⟩
      have hin := (List.mem_filter.1 hs).1
      have hlive := node?_origin hg (hm.asserted s hin) (hg.input_live he hin)
      rw [hlive, Option.some.injEq] at hn
      exact ⟨s, ⟨hs, hn ▸ hrand⟩, rfl⟩
    · rintro ⟨s, ⟨hs, hrand⟩, rfl⟩
      have hin := (List.mem_filter.1 hs).1
      exact ⟨⟨s, hs, rfl⟩, _, node?_origin hg (hm.asserted s hin) (hg.input_live he hin), hrand⟩
  have hnodup : (((otherOperands g src edge).filter fun s => g.isRandom (g.origin s)).map
      fun s => (g.origin s).guid).Nodup :=
    (hm.nodup_origins hg he).sublist ((List.filter_sublist.trans List.filter_sublist).map _)
  rw [hset, List.toFinset_card_of_nodup hnodup, List.length_map, randomDsts,
    List.countP_eq_length_filter]

/-- The random node count moves by the opened value and the random destinations. -/
theorem ReconstructionPlan.randomNodeCnt_result
    (hp : ReconstructionPlan order g src edge.output edge p) (hm : ReconstructionMatch g edge)
    (hg : g.WellFormed) (hx : g.Exact) (hac : g.Acyclic)
    (hin : g.inEdges edge.output.guid = [edge]) (ht : edge.type = .reconstruct) (team : ℕ) :
    (p.result team g).randomNodeCnt + randomDsts g src edge =
      g.randomNodeCnt + if secretRandom g edge then 1 else 0 := by
  have he := hasEdge_of_inEdges hin
  have hvalid := hp.valid hm hg he ht (hg.output_live he)
  have hdisjoint : Disjoint (g.randomIds \ dstOrigins g src edge)
      (if secretRandom g edge then {edge.output.guid} else ∅) := by
    split
    · rw [Finset.disjoint_singleton_right, Finset.mem_sdiff, Graph.mem_randomIds]
      rintro ⟨⟨n, hn, hrand⟩, -⟩
      rw [hg.eq_output he hn] at hrand
      simp [isRandom, inDeg, hin] at hrand
    · exact Finset.disjoint_empty_right _
  have hcard := congrArg Finset.card (hp.randomIds_result hm hg hac hin ht team)
  rw [Finset.card_union_of_disjoint hdisjoint] at hcard
  have hsplit := Finset.card_sdiff_add_card_inter g.randomIds (dstOrigins g src edge)
  rw [Finset.inter_comm, hm.card_randomIds_inter hg he src] at hsplit
  have hnew : (if secretRandom g edge then {edge.output.guid} else ∅ : Finset ℕ).card =
      if secretRandom g edge then 1 else 0 := by
    split <;> rfl
  rw [(Plan.exact_result hg hx hvalid team).random, hx.random, ← Graph.card_randomIds,
    ← Graph.card_randomIds]
  rw [hnew] at hcard
  by_cases hs : secretRandom g edge = true
  · rw [if_pos hs] at hcard ⊢
    omega
  · rw [if_neg hs] at hcard ⊢
    omega

/-! ## What the check computes -/

/-- The scan of shares from different parties counts the random destinations. -/
theorem scanOperands_eq (src : Finset PartyDecl) {shares : List Node}
    {parties : Finset PartyDecl} {k : ℕ} (hc : OperandsChecked g shares parties) :
    scanOperands g src shares parties k = some (some (k +
      (shares.filter fun s => !isSourceOperand g src s).countP fun s =>
        g.isRandom (g.origin s))) := by
  induction shares generalizing parties k with
  | nil => rfl
  | cons s shares ih =>
      obtain ⟨b, hb⟩ := Option.isSome_iff_exists.1 (hc.asserted s (List.mem_cons_self ..))
      have horigin : g.origin s = b := by
        rw [origin, hb]
        rfl
      have hnew : b.party ∉ parties := horigin ▸ hc.new s (List.mem_cons_self ..)
      have hrest : OperandsChecked g shares (insert b.party parties) := by
        obtain ⟨hfirst, hnodup⟩ := List.nodup_cons.1 hc.nodup
        refine ⟨fun s' hs' => hc.asserted s' (List.mem_cons_of_mem _ hs'), hnodup,
          fun s' hs' hmem => ?_⟩
        rcases Finset.mem_insert.1 hmem with heq | hmem
        · refine hfirst (List.mem_map.2 ⟨s', hs', ?_⟩)
          exact heq.trans (congrArg Node.party horigin.symm)
        · exact hc.new s' (List.mem_cons_of_mem _ hs') hmem
      rw [scanOperands, hb]
      simp only [Option.bind_eq_bind, Option.bind_some]
      rw [if_neg hnew, ih hrest]
      by_cases hsrc : b.party ∈ src
      · simp [hsrc, isSourceOperand, horigin]
      · simp [hsrc, isSourceOperand, horigin, List.countP_cons, Nat.add_assoc, Nat.add_comm]

/-- The check compares the random destinations with the opened value. -/
theorem ReconstructionMatch.isRewritableReconstruction_eq (hm : ReconstructionMatch g edge)
    (src : Finset PartyDecl) : isRewritableReconstruction g src edge =
      some (randomDsts g src edge == if secretRandom g edge then 1 else 0) := by
  have hchecked : OperandsChecked g edge.inputs ∅ :=
    ⟨hm.asserted, hm.parties, fun s _ => Finset.notMem_empty _⟩
  have hscan : scanOperands g src edge.inputs ∅ 0 = some (some (randomDsts g src edge)) := by
    rw [scanOperands_eq src hchecked, Nat.zero_add]
    rfl
  rw [isRewritableReconstruction, if_neg (not_not.2 hm.length), hscan]
  rfl

/-- **The check and the filter agree** on a reconstruction from different parties. -/
theorem ReconstructionPlan.precheck_iff (hp : ReconstructionPlan order g src edge.output edge p)
    (hm : ReconstructionMatch g edge) (hg : g.WellFormed) (hx : g.Exact) (hac : g.Acyclic)
    (hin : g.inEdges edge.output.guid = [edge]) (ht : edge.type = .reconstruct) (team : ℕ) :
    isRewritableReconstruction g src edge = some true ↔
      (p.result team g).randomNodeCnt = g.randomNodeCnt := by
  have hcnt := hp.randomNodeCnt_result hm hg hx hac hin ht team
  rw [hm.isRewritableReconstruction_eq src, Option.some.injEq, beq_iff_eq]
  by_cases hs : secretRandom g edge = true
  · rw [if_pos hs] at hcnt ⊢
    omega
  · rw [if_neg hs] at hcnt ⊢
    omega

end Reconstruction

/-! ## The matches of the whole graph -/

section Transformer

variable {g : Graph} {src : Finset PartyDecl} {orders : ℕ → IterOrder} {ps : List Plan} {p : Plan}

/-- The matches are the reconstructions that pass the check. -/
theorem ReconstructionTransformer.mem_plans_iff (hg : g.WellFormed)
    (h : ReconstructionTransformer.plans orders src g = some ps) :
    p ∈ ps ↔ ∃ edge, g.inEdges edge.output.guid = [edge] ∧ edge.type = .reconstruct ∧
      isRewritableReconstruction g src edge = some true ∧
      planReconstruction (orders edge.output.guid) g src edge.output edge = some p := by
  have hedge : ∀ {edge : Operation} {v : ℕ}, g.inEdges v = [edge] →
      g.HasEdge edge ∧ edge.output.guid = v := fun hin =>
    hg.mem_inEdges.1 (hin ▸ List.mem_singleton_self _)
  constructor
  · intro hp
    obtain ⟨v, -, r, hr, hpr⟩ := exists_of_mem_collect h hp
    rw [planAt] at hr
    split at hr
    · rename_i edge hin
      obtain ⟨he, rfl⟩ := hedge hin
      split at hr
      · rename_i ht
        obtain ⟨hrew, node, hv, hplan⟩ := exists_of_mem_checked hr hpr
        rw [hg.eq_output he hv] at hplan
        exact ⟨edge, hin, ht, hrew, hplan⟩
      · cases hr
        exact absurd hpr List.not_mem_nil
    · cases hr
      exact absurd hpr List.not_mem_nil
  · rintro ⟨edge, hin, ht, hrew, hp⟩
    obtain ⟨he, -⟩ := hedge hin
    have hlive := hg.output_live he
    have hat : planAt orders src g edge.output.guid = some [p] := by
      rw [planAt, hin]
      simp [ht, hrew, hlive, hp]
    exact mem_collect h (List.mem_range.2 (lt_of_node? hlive)) hat (List.mem_singleton_self p)

/-- No match is thrown away by the filter. -/
theorem filterResults_reconstruction (hg : g.WellFormed) (hx : g.Exact) (hac : g.Acyclic)
    (h : ReconstructionTransformer.plans orders src g = some ps) (team : ℕ) :
    filterResults team g ps = ps.map fun p => (p.node, p.result team g) := by
  rw [filterResults, List.filter_eq_self]
  intro r hr
  obtain ⟨p, hp, rfl⟩ := List.mem_map.1 hr
  obtain ⟨edge, hin, ht, hrew, hplan⟩ := (ReconstructionTransformer.mem_plans_iff hg h).1 hp
  exact beq_iff_eq.2 (((reconstructionPlan_of_planReconstruction hplan).precheck_iff
    (reconstructionMatch_of_isRewritableReconstruction hrew) hg hx hac hin ht team).1 hrew)

end Transformer

/-- **The check is exact.**  On an acyclic graph with exact counters, for a
reconstruction that is the only in-edge of its value and whose shares come from
different parties, it accepts exactly when the rewritten graph has as many
random nodes.  So the filter keeps every match, and no reconstruction that it
would keep is missed. -/
theorem reconstruction_precheck_exact {g : Graph} {src : Finset PartyDecl} {edge : Operation}
    {order : IterOrder} {p : Plan} (hg : g.WellFormed) (hx : g.Exact) (hac : g.Acyclic)
    (hin : g.inEdges edge.output.guid = [edge]) (ht : edge.type = .reconstruct)
    (hm : ReconstructionMatch g edge) (hp : ReconstructionPlan order g src edge.output edge p)
    (team : ℕ) :
    (isRewritableReconstruction g src edge = some true ↔
      (p.result team g).randomNodeCnt = g.randomNodeCnt) ∧
    ∀ orders ps, ReconstructionTransformer.plans orders src g = some ps →
      (Transformer.reconstruction src).apply team orders g =
        some (ps.map fun q => (q.node, q.result team g)) ∧
      (planReconstruction (orders edge.output.guid) g src edge.output edge = some p →
        (p.result team g).randomNodeCnt = g.randomNodeCnt → p ∈ ps) := by
  have hiff := hp.precheck_iff hm hg hx hac hin ht team
  refine ⟨hiff, fun orders ps hps => ⟨?_, fun hplan hcnt => ?_⟩⟩
  · rw [Transformer.apply, Transformer.plans, hps, Option.map_some,
      filterResults_reconstruction hg hx hac hps]
  · exact (ReconstructionTransformer.mem_plans_iff hg hps).2
      ⟨edge, hin, ht, hiff.2 hcnt, hplan⟩

/-! ## An opened value that is kept

The opening of two shares, of a value that is no output: reversed with party 0
as the source, the value becomes random and the share of party 1 no longer is. -/

/-- The shares, the one of party 1 also where it was sent to, and the value. -/
def keptNodes : List Node :=
  [⟨0, "share_0", 0, .others⟩, ⟨1, "share_1", 1, .others⟩, ⟨2, "share_1", 0, .others⟩,
    ⟨3, "y", 0, .others⟩]

/-- The node at an index. -/
def keptNode (i : ℕ) : Node := keptNodes.getD i ⟨0, "share_0", 0, .others⟩

/-- The transit of the share. -/
def keptTransit : Operation := Operation.make 1 0 .transit [keptNode 1] (keptNode 2)

/-- The reconstruction from both shares. -/
def keptEdge : Operation :=
  Operation.make 1 1 .reconstruct [keptNode 0, keptNode 2] (keptNode 3)

/-- The graph, for party 0 corrupted. -/
def keptOpening : Graph :=
  ((GraphBase.bare keptNodes).toGraph 2 1 {0}).addEdges [keptTransit, keptEdge]

/-- Party 0 computes the share of party 1 and sends it back. -/
def keptPlan : Plan :=
  ⟨keptNode 3, [keptEdge, keptTransit], [⟨.transit, [keptNode 2], keptNode 1⟩], .eval,
    [keptNode 3, keptNode 0], [keptNode 2]⟩

theorem reconstruction_precheck_exact_kept :
    (isRewritableReconstruction keptOpening {0} keptEdge = some true ↔
      (keptPlan.result 1 keptOpening).randomNodeCnt = keptOpening.randomNodeCnt) ∧
    ∀ orders ps, ReconstructionTransformer.plans orders {0} keptOpening = some ps →
      (Transformer.reconstruction {0}).apply 1 orders keptOpening =
        some (ps.map fun q => (q.node, q.result 1 keptOpening)) ∧
      (planReconstruction (orders keptEdge.output.guid) keptOpening {0} keptEdge.output keptEdge =
          some keptPlan →
        (keptPlan.result 1 keptOpening).randomNodeCnt = keptOpening.randomNodeCnt →
          keptPlan ∈ ps) :=
  reconstruction_precheck_exact
    (Graph.wellFormed_linked rfl (by decide) (by decide) (by decide))
    ⟨by decide, by decide⟩
    (Graph.acyclic_linked rfl (by decide) (by decide) (by decide) (by decide))
    (by decide) rfl ⟨by decide, by decide, by decide⟩
    (@reconstructionPlan_of_planReconstruction .insertion _ _ _ _ _ (by decide +kernel)) 1

/-- There the check accepts. -/
example : isRewritableReconstruction keptOpening {0} keptEdge = some true := by decide +kernel

end Gauv
