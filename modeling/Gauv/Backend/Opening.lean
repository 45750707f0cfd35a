import Gauv.Fitting
import Gauv.Backend.Valuations

/-!
# The reconstruction rule as an equivalence

A RECONSTRUCT puts the opened value and the shares it is opened from on one
polynomial, and the new EVAL edges do so around the opened value and the shares
of the source parties.  With `T` or `T + 1` source parties these determine the
polynomial; but when every party is a source, no new edge is left to say that
the value and the shares belong together.
-/

namespace Gauv

open GraphBase Fitting Polynomial

variable {F : Type*} [Field F]

/-- A TRANSIT copies.  A RECONSTRUCT has its output at `0` and its operands at
their points on one polynomial of degree at most `t`, and a new EVAL its first
input at `0` and its other ends at their points. -/
def opened (t : ℕ) (pt : ℕ → F) : Meaning F
  | .transit, inputs, output, val => ∀ n ∈ inputs, val output.guid = val n.guid
  | .reconstruct, inputs, output, val => ∃ q : F[X], q.natDegree ≤ t ∧
      q.eval 0 = val output.guid ∧ ∀ s ∈ inputs, q.eval (pt s.guid) = val s.guid
  | .eval, secret :: inputs, output, val => ∃ q : F[X], q.natDegree ≤ t ∧
      q.eval 0 = val secret.guid ∧ ∀ s ∈ output :: inputs, q.eval (pt s.guid) = val s.guid
  | _, _, _, _ => True

/-- The operands of the reconstruction come from the parties, each with the
point of its party. -/
structure OperandPoints (g : Graph) (edge : Operation) (parties : Finset PartyDecl)
    (x : PartyDecl → F) (pt : ℕ → F) : Prop where
  party : ∀ s ∈ edge.inputs, (g.origin s).party ∈ parties
  point : ∀ s ∈ edge.inputs, pt s.guid = x (g.origin s).party

section Opening

variable {g : Graph} {src parties : Finset PartyDecl} {x : PartyDecl → F} {pt : ℕ → F}
  {order : IterOrder} {node : Node} {edge : Operation} {p : Plan}

/-! ## The opened value and the shares as data at positions -/

/-- `0` for the opened value, the point of its party for a share. -/
def openedAt (pt : ℕ → F) : Option ℕ → Position F
  | none => .point 0
  | some i => .point (pt i)

/-- The opened value and the values of the shares. -/
def openedValue (val : ℕ → F) (secret : Node) : Option ℕ → F
  | none => val secret.guid
  | some i => val i

/-- The opened value together with some shares. -/
def withSecret (l : List Node) : Set (Option ℕ) :=
  insert none {i | ∃ s ∈ l, some s.guid = i}

theorem fits_withSecret {t : ℕ} {val : ℕ → F} {secret : Node} {l : List Node} :
    Fits t (openedAt pt) (openedValue val secret) (withSecret l) ↔
      ∃ q : F[X], q.natDegree ≤ t ∧ q.eval 0 = val secret.guid ∧
        ∀ s ∈ l, q.eval (pt s.guid) = val s.guid := by
  refine exists_congr fun q => and_congr_right fun _ => ?_
  constructor
  · intro h
    exact ⟨h none (Set.mem_insert _ _), fun s hs =>
      h (some s.guid) (Set.mem_insert_of_mem _ ⟨s, hs, rfl⟩)⟩
  · rintro ⟨h0, hs⟩ i (rfl | ⟨s, hmem, rfl⟩)
    · exact h0
    · exact hs s hmem

/-- The copies between the destination shares and the nodes they were sent from. -/
def OperandsCopied (g : Graph) (src : Finset PartyDecl) (edge : Operation) (val : ℕ → F) : Prop :=
  ∀ s ∈ edge.inputs, isSourceOperand g src s = false → (∃ t, g.transitIn s = some t) →
    val s.guid = val (g.origin s).guid

theorem holds_eliminated_opening (hp : ReconstructionPlan order g src node edge p)
    (hm : ReconstructionMatch g edge) (hg : g.WellFormed) (he : g.HasEdge edge)
    (ht : edge.type = .reconstruct) (val : ℕ → F) :
    (∀ e ∈ p.edgesToEliminate, e.Holds (opened g.T pt) val) ↔
      OperandsCopied g src edge val ∧
        Fits g.T (openedAt pt) (openedValue val edge.output) (withSecret edge.inputs) := by
  have hedge : edge.Holds (opened g.T pt) val ↔
      Fits g.T (openedAt pt) (openedValue val edge.output) (withSecret edge.inputs) := by
    rw [Operation.Holds, ht, fits_withSecret]
    exact Iff.rfl
  have htransit : ∀ s ∈ edge.inputs, ∀ t, g.transitIn s = some t →
      (t.Holds (opened g.T pt) val ↔ val s.guid = val (g.origin s).guid) := by
    intro s hs t hst
    have hout : t.output = s := by
      obtain ⟨hte, htg⟩ := hg.mem_inEdges.1 (mem_inEdges_of_transitIn hst)
      exact eq_of_guid (hg.output_live hte) (hg.input_live he hs) htg
    rw [Operation.Holds, (transitIn_eq_some.1 hst).2, inputs_of_transitIn hst (hm.asserted s hs),
      hout, opened]
    exact List.forall_mem_singleton
  rw [hp.eliminated]
  constructor
  · intro h
    refine ⟨?_, hedge.1 (h edge (List.mem_cons_self ..))⟩
    rintro s hs hsrc ⟨t, hst⟩
    refine (htransit s hs t hst).1 (h t (List.mem_cons_of_mem _ ?_))
    exact List.mem_flatMap.2 ⟨s, hs, mem_operandEliminated.2 ⟨hsrc, hst⟩⟩
  · rintro ⟨hcopy, hfits⟩ k hk
    rcases List.mem_cons.1 hk with rfl | hk
    · exact hedge.2 hfits
    · obtain ⟨s, hs, hk⟩ := List.mem_flatMap.1 hk
      obtain ⟨hsrc, hst⟩ := mem_operandEliminated.1 hk
      exact (htransit s hs k hst).2 (hcopy s hs hsrc ⟨k, hst⟩)

/-- The shares of the source parties. -/
def sourceOperands (g : Graph) (src : Finset PartyDecl) (edge : Operation) : List Node :=
  edge.inputs.filter (isSourceOperand g src)

/-- The shares of the other parties. -/
def otherOperands (g : Graph) (src : Finset PartyDecl) (edge : Operation) : List Node :=
  edge.inputs.filter fun s => !isSourceOperand g src s

theorem holds_requested_opening (hp : ReconstructionPlan order g src node edge p)
    (hg : g.WellFormed) (he : g.HasEdge edge) (val : ℕ → F) :
    (∀ k ∈ p.edgesToAdd, opened g.T pt k.type k.inputs k.output val) ↔
      OperandsCopied g src edge val ∧ ∀ d ∈ otherOperands g src edge,
        Fits g.T (openedAt pt) (openedValue val node)
          (withSecret (d :: sourceOperands g src edge)) := by
  have hcopied : (∀ k ∈ p.turned, opened g.T pt k.type k.inputs k.output val) ↔
      OperandsCopied g src edge val := by
    rw [hp.turned]
    constructor
    · intro h s hs hsrc hst
      have := h _ (List.mem_flatMap.2 ⟨s, hs, mem_operandTurned.2 ⟨hsrc, hst, rfl⟩⟩)
      exact (this s (List.mem_singleton_self _)).symm
    · intro h k hk
      obtain ⟨s, hs, hk⟩ := List.mem_flatMap.1 hk
      obtain ⟨hsrc, hst, rfl⟩ := mem_operandTurned.1 hk
      intro n hn
      rw [List.mem_singleton.1 hn]
      exact (h s hs hsrc hst).symm
  have hdsts : ∀ d, d ∈ p.dsts ↔ d ∈ otherOperands g src edge := by
    intro d
    rw [hp.dsts, (order.perm _).mem_iff]
    refine ⟨mem_of_mem_insertNodes, fun hd => ?_⟩
    obtain ⟨m, hm, hmd⟩ := exists_mem_insertNodes hd
    have hin := fun {n} (hn : n ∈ otherOperands g src edge) => hg.input_live he
      (List.mem_filter.1 hn).1
    rwa [← eq_of_guid (hin (mem_of_mem_insertNodes hm)) (hin hd) hmd]
  have hcomputed : (∀ k ∈ p.computed, opened g.T pt k.type k.inputs k.output val) ↔
      ∀ d ∈ otherOperands g src edge, Fits g.T (openedAt pt) (openedValue val node)
        (withSecret (d :: sourceOperands g src edge)) := by
    simp only [Plan.computed, List.forall_mem_map, hdsts, hp.op, hp.srcs, fits_withSecret]
    exact Iff.rfl
  rw [Plan.edgesToAdd, List.forall_mem_append, hcopied, hcomputed]

theorem withSecret_cons (d : Node) (l : List Node) :
    withSecret (d :: l) = insert (some d.guid) (withSecret l) := by
  ext i
  simp only [withSecret, List.mem_cons, exists_eq_or_imp, Set.mem_insert_iff]
  exact (or_congr_right (or_congr_left eq_comm)).trans or_left_comm

omit [Field F] in
/-- The shares are those of the source parties and the others. -/
theorem withSecret_union (g : Graph) (src : Finset PartyDecl) (edge : Operation) :
    withSecret (sourceOperands g src edge) ∪
      {i | ∃ d ∈ otherOperands g src edge, some d.guid = i} = withSecret edge.inputs := by
  ext i
  constructor
  · rintro ((rfl | ⟨s, hs, rfl⟩) | ⟨s, hs, rfl⟩)
    · exact Set.mem_insert _ _
    · exact Set.mem_insert_of_mem _ ⟨s, (List.mem_filter.1 hs).1, rfl⟩
    · exact Set.mem_insert_of_mem _ ⟨s, (List.mem_filter.1 hs).1, rfl⟩
  · rintro (rfl | ⟨s, hs, rfl⟩)
    · exact Or.inl (Set.mem_insert _ _)
    · cases hsrc : isSourceOperand g src s with
      | true => exact Or.inl (Set.mem_insert_of_mem _ ⟨s, List.mem_filter.2 ⟨hs, hsrc⟩, rfl⟩)
      | false => exact Or.inr ⟨s, List.mem_filter.2 ⟨hs, by rw [hsrc]; rfl⟩, rfl⟩

/-! ## When the new edges say as much -/

omit [Field F] in
/-- Every party has a share. -/
theorem exists_operand (hm : ReconstructionMatch g edge)
    (ho : OperandPoints g edge parties x pt) (hcard : parties.card = g.partyCnt)
    {P : PartyDecl} (hP : P ∈ parties) : ∃ s ∈ edge.inputs, (g.origin s).party = P :=
  exists_of_nodup_map hm.parties ho.party (hcard.trans hm.length.symm) hP

/-- With a party that is no source, the rule is an equivalence. -/
theorem opening_iff_of_lt (hp : ReconstructionPlan order g src node edge p)
    (hm : ReconstructionMatch g edge) (hg : g.WellFormed) (he : g.HasEdge edge)
    (ht : edge.type = .reconstruct) (hnode : node = edge.output)
    (ho : OperandPoints g edge parties x pt) (hcard : parties.card = g.partyCnt)
    (hx : Points parties x) (hsub : src ⊆ parties) (hsrc : g.T ≤ src.card)
    (hlt : src.card < g.partyCnt) (val : ℕ → F) :
    (∀ e ∈ p.edgesToEliminate, e.Holds (opened g.T pt) val) ↔
      ∀ k ∈ p.edgesToAdd, opened g.T pt k.type k.inputs k.output val := by
  classical
  have hdet : Determines g.T (openedAt pt) (withSecret (sourceOperands g src edge)) := by
    refine determines_points (s := insert 0 (src.image x)) ?_ fun y hy => ?_
    · rw [hx.card_insert_zero hsub]
      omega
    · rcases Finset.mem_insert.1 hy with rfl | hy
      · exact ⟨none, Set.mem_insert _ _, rfl⟩
      · obtain ⟨P, hP, rfl⟩ := Finset.mem_image.1 hy
        obtain ⟨s, hs, rfl⟩ := exists_operand hm ho hcard (hsub hP)
        refine ⟨some s.guid, Set.mem_insert_of_mem _ ⟨s, List.mem_filter.2 ⟨hs, ?_⟩, rfl⟩, ?_⟩
        · exact decide_eq_true hP
        · exact congrArg Position.point (ho.point s hs)
  have hother :
      ({i | ∃ d ∈ otherOperands g src edge, some d.guid = i} : Set (Option ℕ)).Nonempty := by
    obtain ⟨P, hP, hPs⟩ := Finset.exists_mem_notMem_of_card_lt_card (hcard ▸ hlt)
    obtain ⟨s, hs, rfl⟩ := exists_operand hm ho hcard hP
    refine ⟨_, s, List.mem_filter.2 ⟨hs, ?_⟩, rfl⟩
    simp [isSourceOperand, hPs]
  rw [holds_eliminated_opening hp hm hg he ht, holds_requested_opening hp hg he, hnode,
    ← withSecret_union g src edge, ← fits_union_iff hdet hother]
  refine and_congr_right fun _ => ⟨fun h d hd => ?_, ?_⟩
  · rw [withSecret_cons]
    exact h _ ⟨d, hd, rfl⟩
  · rintro h i ⟨d, hd, rfl⟩
    rw [← withSecret_cons]
    exact h d hd

/-- With every party a source, the rule is an equivalence only if there was
nothing to lose: the opened value is its own only share. -/
theorem opening_iff_of_all (hp : ReconstructionPlan order g src node edge p)
    (hm : ReconstructionMatch g edge) (hg : g.WellFormed) (he : g.HasEdge edge)
    (ht : edge.type = .reconstruct) (ho : OperandPoints g edge parties x pt)
    (hcard : parties.card = g.partyCnt) (hT : g.T < g.partyCnt) (hx : Points parties x)
    (hall : src = parties) :
    (∀ val : ℕ → F, (∀ e ∈ p.edgesToEliminate, e.Holds (opened g.T pt) val) ↔
      ∀ k ∈ p.edgesToAdd, opened g.T pt k.type k.inputs k.output val) ↔
    edge.inputs = [edge.output] := by
  classical
  have hsource : ∀ s ∈ edge.inputs, isSourceOperand g src s = true := fun s hs =>
    decide_eq_true (hall ▸ ho.party s hs)
  have hcopied : ∀ val : ℕ → F, OperandsCopied g src edge val := fun val s hs hsrc => by
    rw [hsource s hs] at hsrc
    exact absurd hsrc (by simp)
  have hnone : otherOperands g src edge = [] := by
    rw [otherOperands, List.filter_eq_nil_iff]
    intro s hs
    simp [hsource s hs]
  have hiff : ∀ val : ℕ → F, ((∀ e ∈ p.edgesToEliminate, e.Holds (opened g.T pt) val) ↔
      ∀ k ∈ p.edgesToAdd, opened g.T pt k.type k.inputs k.output val) ↔
      ∃ q : F[X], q.natDegree ≤ g.T ∧ q.eval 0 = val edge.output.guid ∧
        ∀ s ∈ edge.inputs, q.eval (pt s.guid) = val s.guid := by
    intro val
    rw [holds_eliminated_opening hp hm hg he ht, holds_requested_opening hp hg he, hnone,
      fits_withSecret]
    simp [hcopied val]
  simp only [hiff]
  constructor
  · intro h
    by_contra hne
    -- an operand other than the opened value
    obtain ⟨s₀, hs₀, hs₀n⟩ : ∃ s ∈ edge.inputs, s ≠ edge.output := by
      by_contra hnone
      push Not at hnone
      have hlen : edge.inputs.length = 1 := by
        refine le_antisymm ?_ (by rw [hm.length]; omega)
        have hnodup := hm.parties.of_map
        rw [List.eq_replicate_of_mem hnone] at hnodup
        exact List.nodup_replicate.1 hnodup
      obtain ⟨a, ha⟩ := List.length_eq_one_iff.1 hlen
      rw [ha, hnone a (by simp [ha])] at hne
      exact hne rfl
    obtain ⟨q, hq, hq0, hqs⟩ := h (Function.update 0 s₀.guid 1)
    have hzero : ∀ s, s ≠ s₀ → s = edge.output ∨ s ∈ edge.inputs →
        (Function.update 0 s₀.guid 1 : ℕ → F) s.guid = 0 := by
      intro s hs hmem
      refine Function.update_of_ne (fun hguid => hs ?_) _ _
      refine eq_of_guid ?_ (hg.input_live he hs₀) hguid
      rcases hmem with rfl | hmem
      · exact hg.output_live he
      · exact hg.input_live he hmem
    have hq_zero : q = 0 := by
      set others := parties.erase (g.origin s₀).party
      have hsub : others ⊆ parties := Finset.erase_subset _ _
      have hdeg : q.natDegree < (insert 0 (others.image x)).card := by
        rw [hx.card_insert_zero hsub, Finset.card_erase_of_mem (ho.party s₀ hs₀), hcard]
        omega
      refine eq_zero_of_degree_lt_of_eval_finset_eq_zero (insert 0 (others.image x)) ?_
        fun y hy => ?_
      · exact lt_of_le_of_lt degree_le_natDegree (by exact_mod_cast hdeg)
      · rcases Finset.mem_insert.1 hy with rfl | hy
        · rw [hq0, hzero _ hs₀n.symm (Or.inl rfl)]
        · obtain ⟨P, hP, rfl⟩ := Finset.mem_image.1 hy
          obtain ⟨hPne, hPmem⟩ := Finset.mem_erase.1 hP
          obtain ⟨s, hs, rfl⟩ := exists_operand hm ho hcard hPmem
          rw [← ho.point s hs, hqs s hs, hzero s (fun h => hPne (by rw [h])) (Or.inr hs)]
    have hone := hqs s₀ hs₀
    rw [hq_zero, eval_zero, Function.update_self] at hone
    exact zero_ne_one hone
  · intro hin val
    refine ⟨C (val edge.output.guid), by simp, by simp, fun s hs => ?_⟩
    rw [hin, List.mem_singleton] at hs
    rw [hs, eval_C]

end Opening

/-- **The reconstruction rule is an equivalence exactly when** some party is no
source, unless a value is opened from itself alone. -/
theorem equivalent_reconstruction_iff {g : Graph} {src parties : Finset PartyDecl}
    {x : PartyDecl → F} {pt : ℕ → F} {team : ℕ} {order : ℕ → IterOrder} {results : ResultsType}
    {r : Node × Graph} {edge : Operation} (hg : g.WellFormed)
    (hcard : parties.card = g.partyCnt) (hT : g.T < g.partyCnt) (hx : Points parties x)
    (hsub : src ⊆ parties) (hsrc : src.card = g.T ∨ src.card = g.T + 1)
    (h : (Transformer.reconstruction src).apply team order g = some results) (hr : r ∈ results)
    (hedge : edge ∈ g.inEdges r.1.guid) (ho : OperandPoints g edge parties x pt) :
    Equivalent (opened g.T pt) g.toGraphBase r.2.toGraphBase ↔
      src.card < g.partyCnt ∨ edge.inputs = [edge.output] := by
  obtain ⟨ps, hps, p, hpm, rfl⟩ := exists_of_mem_apply h hr
  have hshape := planShape_of_mem_plans hg hps hpm
  rw [Plan.equivalent_result_iff hg (hshape.valid hg) team]
  cases hshape with
  | @reconstruction _ order edge' node hin ht hv hm hp =>
      have he' := hasEdge_of_inEdges hin
      have hnode := hg.eq_output he' hv
      have hsame : edge = edge' := by
        rw [hp.node_eq, hnode, hin] at hedge
        exact List.mem_singleton.1 hedge
      subst hsame
      by_cases hlt : src.card < g.partyCnt
      · simp only [hlt, true_or, iff_true]
        exact fun val => opening_iff_of_lt hp hm hg he' ht hnode ho hcard hx hsub (by omega) hlt val
      · rw [or_iff_right hlt]
        refine opening_iff_of_all hp hm hg he' ht ho hcard hT hx ?_
        exact Finset.eq_of_subset_of_card_le hsub (by omega)

/-! ## An opening that is forgotten

Two parties, `T = 1`: the second reconstruction rule has both as sources, and
leaves the output without a constraint. -/

/-- The shares, the one of party 1 also where it was sent to, and the output. -/
def openedNodes : List Node :=
  [⟨0, "share_0", 0, .others⟩, ⟨1, "share_1", 1, .others⟩, ⟨2, "share_1", 0, .others⟩,
    ⟨3, "y", 0, .output⟩]

/-- The node at an index. -/
def openedNode (i : ℕ) : Node := openedNodes.getD i ⟨0, "share_0", 0, .others⟩

/-- The reconstruction from both shares. -/
def openingEdge : Operation :=
  Operation.make 1 1 .reconstruct [openedNode 0, openedNode 2] (openedNode 3)

/-- The transit of a share and the reconstruction. -/
def openedEdges : List Operation :=
  [Operation.make 1 0 .transit [openedNode 1] (openedNode 2), openingEdge]

/-- The graph of the opening, for party 0 corrupted. -/
def opening : Graph := ((GraphBase.bare openedNodes).toGraph 2 1 {0}).addEdges openedEdges

/-- The points `1` and `2`. -/
def openedPoint (p : PartyDecl) : ℚ := p + 1

theorem wellFormed_opening : opening.WellFormed :=
  Graph.wellFormed_linked rfl (by decide) (by decide) (by decide)

theorem hasEdge_opening {f : Operation} : opening.HasEdge f ↔ f ∈ openedEdges :=
  Graph.hasEdge_linked rfl (by decide) (by decide) (by decide)

theorem points_opening : Points {0, 1} openedPoint where
  inj := fun a _ b _ h => by
    have : (a : ℚ) = b := by simpa [openedPoint] using h
    exact_mod_cast this
  ne_zero := fun p _ => by
    have : (0 : ℚ) < openedPoint p := by
      rw [openedPoint]
      positivity
    exact this.ne'

theorem operandPoints_opening : OperandPoints opening openingEdge {0, 1} openedPoint
    (fun i => if i = 0 then 1 else 2) where
  party := by decide
  point := by
    intro s hs
    have hmem : s ∈ [openedNode 0, openedNode 2] := hs
    simp only [List.mem_cons, List.not_mem_nil, or_false] at hmem
    rcases hmem with rfl | rfl
    · exact show (1 : ℚ) = ((0 : ℕ) : ℚ) + 1 by norm_num
    · exact show (2 : ℚ) = ((1 : ℕ) : ℚ) + 1 by norm_num

/-- The match with both parties as sources. -/
def forgetfulPlan : Plan :=
  ⟨openedNode 3, [openingEdge], [], .eval, [openedNode 3, openedNode 0, openedNode 2], []⟩

theorem valid_forgetfulPlan : forgetfulPlan.Valid opening := by
  obtain ⟨ps, hps, hp⟩ : ∃ ps, (Transformer.reconstruction {0, 1}).plans (fun _ => .insertion)
      opening = some ps ∧ forgetfulPlan ∈ ps := ⟨_, rfl, by decide +kernel⟩
  exact (planShape_of_mem_plans wellFormed_opening hps hp).valid wellFormed_opening

/-- The rewritten graph lets the output be `1` where all shares are `0`. -/
theorem opening_forgotten :
    Prover.srcPartiesPlus [0, 1] opening = {0, 1} ∧
    ∃ results, (Transformer.reconstruction {0, 1}).apply 1 (fun _ => .insertion) opening =
      some results ∧ ∃ r ∈ results, ∃ val : ℕ → ℚ,
        r.2.Satisfies (fun e => e.Holds (opened 1 fun i => if i = 0 then 1 else 2)) val ∧
        ¬ opening.Satisfies (fun e => e.Holds (opened 1 fun i => if i = 0 then 1 else 2)) val := by
  refine ⟨by decide +kernel, _, rfl, (openedNode 3, forgetfulPlan.result 1 opening),
    by decide +kernel, fun i => if i = 3 then 1 else 0, fun e he => ?_, fun h => ?_⟩
  · have hfirst : ∀ e ∈ openedEdges, e ∉ [openingEdge] →
        e = Operation.make 1 0 .transit [openedNode 1] (openedNode 2) := by decide
    rcases (Plan.hasEdge_result wellFormed_opening valid_forgetfulPlan 1).1 he with ⟨he, hn⟩ | he
    · rw [hfirst e (hasEdge_opening.1 he) hn]
      intro n hn
      rw [List.mem_singleton.1 hn]
      rfl
    · exact absurd he List.not_mem_nil
  · obtain ⟨q, hq, hq0, hqs⟩ := h openingEdge (hasEdge_opening.2 (by decide))
    have h1 : q.eval 1 = 0 := hqs (openedNode 0) (by decide)
    have h2 : q.eval 2 = 0 := hqs (openedNode 2) (by decide)
    have hq0 : q.eval 0 = 1 := hq0
    have hq2 : q.natDegree < 2 := Nat.lt_succ_of_le hq
    rw [eval_eq_sum_range' hq2, Finset.sum_range_succ, Finset.sum_range_one] at h1 h2 hq0
    norm_num at h1 h2 hq0
    linarith

/-- The equivalence there. -/
theorem equivalent_reconstruction_iff_opening :
    Equivalent (opened 1 fun i => if i = 0 then (1 : ℚ) else 2) opening.toGraphBase
      (forgetfulPlan.result 1 opening).toGraphBase ↔
    ({0, 1} : Finset PartyDecl).card < 2 ∨ openingEdge.inputs = [openingEdge.output] := by
  obtain ⟨results, hres, hr⟩ : ∃ results,
      (Transformer.reconstruction {0, 1}).apply 1 (fun _ => .insertion) opening = some results ∧
        (openedNode 3, forgetfulPlan.result 1 opening) ∈ results := ⟨_, rfl, by decide +kernel⟩
  exact equivalent_reconstruction_iff wellFormed_opening (by decide) (by decide) points_opening
    (by decide) (Or.inr (by decide)) hres hr (by decide) operandPoints_opening

end Gauv
