import Gauv.Backend.Renumbering
import Gauv.Backend.AssertedRuns
import Gauv.Backend.Verdict

/-!
# What the rules can prove

The rewriting loop searches greedily: which rewrites it accepts depends on the
numbers of the nodes and on the order of operands, and so does its verdict.  The
rules themselves see neither.  A rewrite of a graph has its counterpart in every
renumbering of it, so a renumbered protocol has a proof when the protocol has
one; what is lost is at most the search for it.
-/

namespace Gauv

open GraphBase Relation
open Graph.Alike (ReadsShare OpensOrSends mem_sharingEliminated_iff mem_openingEliminated_iff)

/-! ## Plans in renumbered graphs -/

/-- The plans make corresponding changes to the two graphs. -/
structure Plan.RenumberedIn (σ : Equiv.Perm ℕ) (g h : Graph) (p q : Plan) : Prop where
  left : p.Valid g
  right : q.Valid h
  added : PairsOff (NewEdge.Renumbered σ) p.edgesToAdd q.edgesToAdd
  kept : ∀ v, PairsOff (fun e f => e.args.Renumbered σ f.args)
    ((g.inEdges v).filter fun e => e ∉ p.edgesToEliminate)
    ((h.inEdges (σ v)).filter fun f => f ∉ q.edgesToEliminate)

namespace Graph.Renumbered

variable {σ : Equiv.Perm ℕ} {g h : Graph} {src : Finset PartyDecl} {v : ℕ}

theorem result {p q : Plan} (hr : g.Renumbered σ h) (hpq : p.RenumberedIn σ g h q) (team : ℕ) :
    (p.result team g).Renumbered σ (q.result team h) := by
  have hp := Plan.sameFrame_result p team g
  have hq := Plan.sameFrame_result q team h
  refine ⟨Plan.wellFormed_result hr.left hpq.left team,
    Plan.wellFormed_result hr.right hpq.right team,
    Plan.exact_result hr.left hr.exactLeft hpq.left team,
    Plan.exact_result hr.right hr.exactRight hpq.right team, fun i => ?_, fun i => ?_, fun v => ?_,
    ?_, ?_, ?_⟩
  · rw [hp.nodeSize, hq.nodeSize, hr.index]
  · rw [hp.node?, hq.node?, hr.nodes]
  · have hadded := hpq.added
    rw [← map_args_makeShared team g.freshId p.edgesToAdd,
      ← map_args_makeShared team h.freshId q.edgesToAdd] at hadded
    rw [Plan.inEdges_result hr.left hpq.left, Plan.inEdges_result hr.right hpq.right]
    refine (hpq.kept v).append (hadded.of_map.filter fun e _ f _ hef => decide_eq_decide.2 ?_)
    have hout : f.output = e.output.renumber σ := hef.output
    rw [hout, Node.renumber_guid, σ.injective.eq_iff]
  · rw [hp.partyCnt, hq.partyCnt, hr.partyCnt]
  · rw [hp.T, hq.T, hr.T]
  · rw [hp.corrupted, hq.corrupted, hr.corrupted]

/-- What is offered node by node is offered for the whole graph. -/
theorem collect (hr : g.Renumbered σ h) {F G : ℕ → Option (List Plan)}
    (hFG : ∀ v, Offers (Plan.RenumberedIn σ g h) (F v) (G (σ v))) :
    Offers (Plan.RenumberedIn σ g h) (collect F (List.range g.nodeSize))
      (collect G (List.range h.nodeSize)) := by
  refine Offers.collect (s := fun i j => j = σ i) (fun i hi => ⟨σ i, ?_, rfl⟩) (fun j hj => ?_)
    fun i j hij => hij ▸ hFG i
  · exact List.mem_range.2 ((hr.index i).2 (List.mem_range.1 hi))
  · refine ⟨σ.symm j, List.mem_range.2 ?_, (Equiv.apply_symm_apply σ j).symm⟩
    rw [← hr.index, Equiv.apply_symm_apply]
    exact List.mem_range.1 hj

/-- Removals that a test of the edges decides go together. -/
theorem kept_of_mem_iff (hr : g.Renumbered σ h) {es fs : List Operation}
    (hmem : ∀ e f, g.HasEdge e → h.HasEdge f → e.args.Renumbered σ f.args → (f ∈ fs ↔ e ∈ es))
    (v : ℕ) : PairsOff (fun e f => e.args.Renumbered σ f.args)
      ((g.inEdges v).filter fun e => e ∉ es) ((h.inEdges (σ v)).filter fun f => f ∉ fs) := by
  refine (hr.inEdges v).filter fun e he f hf hef => decide_eq_decide.2 (not_congr ?_)
  exact hmem e f (hr.left.mem_inEdges.1 he).1 (hr.right.mem_inEdges.1 hf).1 hef

/-! ### The addition rule -/

/-- So do the removals of one edge and its counterpart. -/
theorem kept_of_erase (hr : g.Renumbered σ h) {e f : Operation} (he : e ∈ g.inEdges v)
    (hf : f ∈ h.inEdges (σ v)) (hrest : PairsOff (fun e f => e.args.Renumbered σ f.args)
      ((g.inEdges v).erase e) ((h.inEdges (σ v)).erase f)) (w : ℕ) :
    PairsOff (fun e f => e.args.Renumbered σ f.args)
      ((g.inEdges w).filter fun x => x ∉ [e]) ((h.inEdges (σ w)).filter fun x => x ∉ [f]) := by
  have hkept : ∀ {k : Graph} {a : Operation} {u : ℕ}, k.WellFormed → a ∈ k.inEdges u → ∀ j,
      (k.inEdges j).filter (fun x => x ∉ [a]) = if j = u then (k.inEdges j).erase a
        else k.inEdges j := by
    intro k a u hk ha j
    split
    · rw [(hk.nodup_inEdges j).erase_eq_filter]
      exact List.filter_congr fun x _ => by rw [Bool.eq_iff_iff]; simp
    · rename_i hju
      refine List.filter_eq_self.2 fun x hx => ?_
      have hxa : x ≠ a := fun hxa => hju
        ((hk.mem_inEdges.1 hx).2.symm.trans (hxa ▸ (hk.mem_inEdges.1 ha).2))
      simpa using hxa
  rw [hkept hr.left he, hkept hr.right hf]
  by_cases hw : w = v
  · rw [if_pos hw, if_pos (congrArg σ hw), hw]
    exact hrest
  · rw [if_neg hw, if_neg fun hs => hw (σ.injective hs)]
    exact hr.inEdges w

theorem reverseAddition (hr : g.Renumbered σ h) {e f : Operation} (he : e ∈ g.inEdges v)
    (hf : f ∈ h.inEdges (σ v)) (hef : e.args.Renumbered σ f.args)
    (hrest : PairsOff (fun e f => e.args.Renumbered σ f.args)
      ((g.inEdges v).erase e) ((h.inEdges (σ v)).erase f)) :
    Offers (Plan.RenumberedIn σ g h) (reverseAddition g v e) (reverseAddition h (σ v) f) := by
  have htype : f.type = e.type := hef.type
  have hout : f.output = e.output.renumber σ := hef.output
  have hedge := (hr.left.mem_inEdges.1 he).1
  have hedge' := (hr.right.mem_inEdges.1 hf).1
  -- solving for one operand, wherever it stands
  have hplan : ∀ {a b : Node}, a ∈ e.inputs → b ∈ e.inputs → Plan.RenumberedIn σ g h
      ⟨e.output, [e], [], .sub, [e.output, a], [b]⟩
      ⟨f.output, [f], [], .sub, [f.output, a.renumber σ], [b.renumber σ]⟩ := by
    intro a b ha hb
    have hinput : ∀ {c : Node}, c ∈ e.inputs → c.renumber σ ∈ f.inputs := fun hc =>
      hef.bag.mem_iff.2 (List.mem_map_of_mem hc)
    have hvalid : ∀ {k : Graph} {x : Operation} {a b : Node}, k.WellFormed → k.HasEdge x →
        a ∈ x.inputs → b ∈ x.inputs →
        Plan.Valid ⟨x.output, [x], [], .sub, [x.output, a], [b]⟩ k := by
      intro k x a b hk hx ha hb
      refine ⟨⟨List.nodup_singleton _, by simpa using hx⟩, ?_⟩
      simp [Plan.edgesToAdd, Plan.computed, hk.output_live hx, hk.input_live hx ha,
        hk.input_live hx hb]
    refine ⟨hvalid hr.left hedge ha hb, hvalid hr.right hedge' (hinput ha) (hinput hb), ?_,
      hr.kept_of_erase he hf hrest⟩
    refine .cons ⟨rfl, rfl, ?_, fun _ _ => ?_⟩ .nil
    · rw [hout]
      exact .refl _
    · rw [hout]
      rfl
  intro ps hps
  rw [Gauv.reverseAddition] at hps ⊢
  rw [htype]
  split at hps
  · rename_i ht
    split at hps
    · rename_i src0 src1 hin
      simp only at hps
      split at hps
      · rename_i hnode
        cases hps
        have h0 : src0 ∈ e.inputs := by simp [hin]
        have h1 : src1 ∈ e.inputs := by simp [hin]
        have hnode' : h.node? (σ v) = some f.output := by
          rw [hr.nodes, hnode, hout]
          rfl
        have hbag : f.inputs.Perm [src0.renumber σ, src1.renumber σ] := by
          have hb := hef.bag
          rwa [show e.args.inputs = [src0, src1] from hin] at hb
        rw [if_pos ht]
        rcases List.perm_pair.1 hbag with hin' | hin'
        · simp only [hin', hnode', if_true]
          refine ⟨_, rfl, fun p hp => ?_⟩
          rcases List.mem_pair.1 hp with rfl | rfl
          · exact ⟨_, List.mem_cons_self .., hplan h1 h0⟩
          · exact ⟨_, List.mem_cons_of_mem _ (List.mem_singleton_self _), hplan h0 h1⟩
        · simp only [hin', hnode', if_true]
          refine ⟨_, rfl, fun p hp => ?_⟩
          rcases List.mem_pair.1 hp with rfl | rfl
          · exact ⟨_, List.mem_cons_of_mem _ (List.mem_singleton_self _), hplan h1 h0⟩
          · exact ⟨_, List.mem_cons_self .., hplan h0 h1⟩
      · exact absurd hps (by simp)
    · exact absurd hps (by simp)
  · rename_i ht
    cases hps
    rw [if_neg ht]
    exact ⟨[], rfl, fun p hp => absurd hp List.not_mem_nil⟩

/-! ### The sharing rules -/

/-- Plans that correspond in the renumbered graph. -/
theorem renumberedIn_of_embedsIn (hr : g.Renumbered σ h) {p q : Plan} (hpq : p.EmbedsIn σ g h q) :
    p.RenumberedIn σ g h q where
  left := hpq.left
  right := hpq.right
  added := by
    refine PairsOff.append ?_ ?_
    · exact (PairsOff.of_perm_map hpq.turned).mono fun e _ f _ hef =>
        hef ▸ (⟨rfl, rfl, .refl _, fun _ _ => rfl⟩ : e.Renumbered σ (e.relabel σ))
    · exact (PairsOff.of_perm_map hpq.dsts).map fun _ _ _ _ hmn =>
        ⟨hpq.isEval.2.trans hpq.isEval.1.symm, hmn, hpq.srcs, fun hne => absurd hpq.isEval.1 hne⟩
  kept := hr.kept_of_mem_iff fun e f he hf hef => hpq.eliminated e f he hf hef.relabelled

theorem relabelled_transits (hr : g.Renumbered σ h) (s : Node) :
    Option.Rel (fun e f => e.args.Relabelled σ f.args ∧ e.type = .transit) (g.transitOut s)
      (h.transitOut (s.renumber σ)) := EmbedsIn.transitOut (hr.relabelled_outEdges s.guid)

theorem planSharing (hr : g.Renumbered σ h) (hm : SharingMatch g src v) (order order' : IterOrder)
    (node : Node) {srcs₀ dsts₀ : List Node}
    (h₀ : ∀ n ∈ srcs₀ ++ dsts₀, g.node? n.guid = some n) {p : Plan}
    (hp : planSharing order g src node v srcs₀ dsts₀ = some p) :
    ∃ q, planSharing order' h src (node.renumber σ) (σ v) (srcs₀.map (Node.renumber σ))
      (dsts₀.map (Node.renumber σ)) = some q ∧ p.RenumberedIn σ g h q := by
  have htransits := fun e (_ : e ∈ g.outEdges v) => hr.relabelled_transits e.output
  have hsome := EmbedsIn.isSome_planSharing hr.embedsIn (hr.relabelled_outEdges v) htransits hr.left
    src order order' node h₀
  rw [hp] at hsome
  obtain ⟨q, hq⟩ := Option.isSome_iff_exists.1 hsome
  exact ⟨q, hq, hr.renumberedIn_of_embedsIn (EmbedsIn.planEmbedsIn_sharing hr.embedsIn
    (hr.relabelled_outEdges v) htransits hr.left hr.right hm h₀ (sharingPlan_of_planSharing hp)
    (sharingPlan_of_planSharing hq))⟩

theorem sharingPlanAt (hr : g.Renumbered σ h) (order order' : ℕ → IterOrder) (v : ℕ) :
    Offers (Plan.RenumberedIn σ g h) (SharingTransformer.planAt order src g v)
      (SharingTransformer.planAt order' src h (σ v)) := by
  rw [SharingTransformer.planAt, SharingTransformer.planAt, hr.isRewritableSecret, hr.nodes]
  refine Offers.checked fun hb n hn p hp => ⟨n.renumber σ, congrArg (Option.map _) hn, ?_⟩
  have hlive : ∀ m ∈ [n] ++ [], g.node? m.guid = some m := by
    simpa [hr.left.guid_eq hn] using hn
  exact hr.planSharing (sharingMatch_of_isRewritableSecret hb) (order v) (order' (σ v)) n
    hlive hp

theorem randomSharingPlanAt (hr : g.Renumbered σ h) (order order' : ℕ → IterOrder) (v : ℕ) :
    Offers (Plan.RenumberedIn σ g h) (RandomSharingTransformer.planAt order src g v)
      (RandomSharingTransformer.planAt order' src h (σ v)) := by
  rw [RandomSharingTransformer.planAt, RandomSharingTransformer.planAt, hr.isRandomNode,
    hr.isRewritableSecret, hr.nodes]
  split
  · refine Offers.checked fun hb n hn p hp => ⟨n.renumber σ, congrArg (Option.map _) hn, ?_⟩
    have hlive : ∀ m ∈ [] ++ [n], g.node? m.guid = some m := by
      simpa [hr.left.guid_eq hn] using hn
    exact hr.planSharing (sharingMatch_of_isRewritableSecret hb) (order v) (order' (σ v)) n
      hlive hp
  · exact .of_nil

/-! ### The reconstruction rule -/

theorem planReconstruction (hr : g.Renumbered σ h) (order order' : IterOrder) {node : Node}
    {edge edge' : Operation} (hedge : g.inEdges v = [edge]) (hedge' : h.inEdges (σ v) = [edge'])
    (hef : edge.args.Renumbered σ edge'.args) (hm : ReconstructionMatch g edge)
    (ht : edge.type = .reconstruct) (hnode : g.node? v = some node) {p : Plan}
    (hp : planReconstruction order g src node edge = some p) :
    ∃ q, planReconstruction order' h src (node.renumber σ) edge' = some q ∧
      p.RenumberedIn σ g h q := by
  have hin : edge'.inputs = edge.inputs.map (Node.renumber σ) :=
    hef.inputs (by simp [Operation.args, ht]) (by simp [Operation.args, ht])
  have hsome := hr.embedsIn.isSome_planReconstruction src order order' node hin
  rw [hp] at hsome
  obtain ⟨q, hq⟩ := Option.isSome_iff_exists.1 hsome
  exact ⟨q, hq, hr.renumberedIn_of_embedsIn (hr.embedsIn.planEmbedsIn_reconstruction hr.left
    hr.right hedge hedge' hef.relabelled hin hm ht hnode
    (reconstructionPlan_of_planReconstruction hp) (reconstructionPlan_of_planReconstruction hq))⟩

theorem reconstructionPlanAt (hr : g.Renumbered σ h) (order order' : ℕ → IterOrder) (v : ℕ) :
    Offers (Plan.RenumberedIn σ g h) (ReconstructionTransformer.planAt order src g v)
      (ReconstructionTransformer.planAt order' src h (σ v)) := by
  have hins := hr.inEdges v
  rw [ReconstructionTransformer.planAt, ReconstructionTransformer.planAt]
  rcases hg : g.inEdges v with _ | ⟨edge, _ | ⟨edge₂, edges⟩⟩
  · rw [hg] at hins
    rw [List.length_eq_zero_iff.1 hins.length_eq]
    exact .of_nil
  · rw [hg] at hins
    obtain ⟨edge', hh, hef⟩ := hins.eq_singleton
    have htype : edge'.type = edge.type := hef.type
    rw [hh]
    simp only [htype]
    split
    · rename_i ht
      have hin : edge'.inputs = edge.inputs.map (Node.renumber σ) :=
        hef.inputs (by simp [Operation.args, ht]) (by simp [Operation.args, ht])
      rw [hr.isRewritableReconstruction hef hin, hr.nodes]
      refine Offers.checked fun hb n hn p hp => ⟨n.renumber σ, congrArg (Option.map _) hn, ?_⟩
      exact hr.planReconstruction (order v) (order' (σ v)) hg hh hef
        (reconstructionMatch_of_isRewritableReconstruction hb) ht hn hp
    · exact .of_nil
  · rw [hg] at hins
    have hlen := hins.length_eq
    rcases hh : h.inEdges (σ v) with _ | ⟨f, _ | ⟨f₂, fs⟩⟩
    · simp [hh] at hlen
    · simp [hh] at hlen
    · exact .of_nil

/-! ### The transformers -/

theorem additionPlans (hr : g.Renumbered σ h) :
    Offers (Plan.RenumberedIn σ g h) (AdditionTransformer.plans g)
      (AdditionTransformer.plans h) := by
  refine hr.collect fun v => ?_
  -- an in-edge, its partner, and the other pairs
  refine Offers.collect (s := fun e f => e ∈ g.inEdges v ∧ f ∈ h.inEdges (σ v) ∧
    e.args.Renumbered σ f.args ∧ PairsOff (fun e f => e.args.Renumbered σ f.args)
      ((g.inEdges v).erase e) ((h.inEdges (σ v)).erase f)) (fun e he => ?_) (fun f hf => ?_)
    fun e f hef => hr.reverseAddition hef.1 hef.2.1 hef.2.2.1 hef.2.2.2
  · obtain ⟨f, hf, hef, hrest⟩ := (hr.inEdges v).exists_erase he
    exact ⟨f, hf, he, hf, hef, hrest⟩
  · obtain ⟨e, he, hef, hrest⟩ := (hr.inEdges v).flip.exists_erase hf
    exact ⟨e, he, he, hf, hef, hrest.flip⟩

/-- **A transformer does the same to a renumbered graph**: it fails on neither or
on both, and what it makes of the one it makes of the other. -/
theorem plans (hr : g.Renumbered σ h) (order order' : ℕ → IterOrder) (tr : Transformer) :
    Offers (Plan.RenumberedIn σ g h) (tr.plans order g) (tr.plans order' h) := by
  cases tr with
  | addition => exact hr.additionPlans
  | sharing src => exact hr.collect fun v => hr.sharingPlanAt order order' v
  | randomSharing src => exact hr.collect fun v => hr.randomSharingPlanAt order order' v
  | reconstruction src => exact hr.collect fun v => hr.reconstructionPlanAt order order' v

/-! ## The verdict of the tail phase -/

theorem honestAt (hr : g.Renumbered σ h) {i : ℕ} (hi : Prover.HonestAt g i) :
    Prover.HonestAt h (σ i) := by
  obtain ⟨n, hn, hh⟩ := hi
  exact ⟨n.renumber σ, by rw [hr.nodes, hn, Option.map_some], by rw [hr.isCorrupted, hh]⟩

theorem feeds (hr : g.Renumbered σ h) {i j : ℕ} (hij : g.Feeds i j) : h.Feeds (σ i) (σ j) := by
  obtain ⟨e, he, ⟨n, hn, rfl⟩, rfl⟩ := hij
  obtain ⟨f, hf, hef⟩ := (hr.inEdges e.output.guid).exists_right he
  obtain ⟨m, hm, hmn⟩ := hef.relabelled.exists_input hn
  exact ⟨f, (hr.right.mem_inEdges.1 hf).1, ⟨m, hm, hmn⟩, (hr.right.mem_inEdges.1 hf).2⟩

theorem removable (hr : g.Renumbered σ h) {i : ℕ} (hi : Prover.Removable g i) :
    Prover.Removable h (σ i) := by
  refine Peeling.Removable.of_map (f := σ.symm) (fun v w hvw => hr.symm.feeds hvw) (fun v hv => ?_)
    (by rwa [Equiv.symm_apply_apply])
  have := hr.honestAt hv
  rwa [Equiv.apply_symm_apply] at this

theorem answersYes (hr : g.Renumbered σ h) (hyes : Prover.AnswersYes g) :
    Prover.AnswersYes h := by
  intro j n hn hio
  obtain ⟨i, rfl⟩ := σ.surjective j
  rw [hr.nodes, Option.map_eq_some_iff] at hn
  obtain ⟨m, hm, rfl⟩ := hn
  have := hyes i m hm hio
  rw [hr.isCorrupted, hr.inDeg]
  split
  · rename_i hc
    rwa [if_pos hc] at this
  · rename_i hc
    rw [if_neg hc] at this
    exact hr.removable this

end Graph.Renumbered

namespace Prover

variable {σ : Equiv.Perm ℕ} {g h : Graph} {trs : List Transformer} {parties : List PartyDecl}

/-! ## Proofs by the rules -/

/-- Rewrites by the rules lead from `g` to a graph on which the tail phase leaves
no bubble.  Nothing is asked of the rank of the graphs on the way. -/
def Provable (parties : List PartyDecl) (g : Graph) : Prop :=
  ∃ k, ReflTransGen (Rewrites (equivalentRewriters parties g)) g k ∧
    (tailLoop k.nodeSize k).hasBubble = false

/-- What the search finds is a proof. -/
theorem provable_of_tryProving {env : Env} (h : tryProving env g parties = some true) :
    Provable parties g := by
  obtain ⟨k, hk, hb⟩ := tryProving_eq_some.1 h
  obtain ⟨iter, considered, hv⟩ := visited_of_rewriteLoop .start hk
  exact ⟨k, hv.invariant .refl fun _ _ hg hr => hg.tail hr, by simpa using hb.symm⟩

/-- A rewrite has its counterpart in a renumbered graph. -/
theorem Rewrites.renumbered {g' : Graph} (hr : g.Renumbered σ h) (hs : Rewrites trs g g') :
    ∃ h', Rewrites trs h h' ∧ g'.Renumbered σ h' := by
  obtain ⟨tr, htr, team, order, ps, hps, p, hp, rfl, hcnt⟩ := hs
  obtain ⟨qs, hqs, hcover⟩ := hr.plans order order tr ps hps
  obtain ⟨q, hq, hpq⟩ := hcover p hp
  have hres := hr.result hpq team
  exact ⟨q.result team h, ⟨tr, htr, team, order, qs, hqs, q, hq, rfl, by
    rw [hres.random, hcnt, hr.random]⟩, hres⟩

/-- So has a sequence of rewrites. -/
theorem rewrites_renumbered {k : Graph} (hr : g.Renumbered σ h)
    (hs : ReflTransGen (Rewrites trs) g k) :
    ∃ k', ReflTransGen (Rewrites trs) h k' ∧ k.Renumbered σ k' := by
  induction hs with
  | refl => exact ⟨h, .refl, hr⟩
  | tail _ hstep ih =>
      obtain ⟨m', hm', hrm⟩ := ih
      obtain ⟨k', hk', hrk⟩ := hstep.renumbered hrm
      exact ⟨k', hm'.tail hk', hrk⟩

theorem equivalentRewriters_renumbered (hr : g.Renumbered σ h) :
    equivalentRewriters parties h = equivalentRewriters parties g := by
  have hsrc : srcParties parties h = srcParties parties g := by
    rw [srcParties, srcParties, hr.corrupted, hr.T]
  have hplus : srcPartiesPlus parties h = srcPartiesPlus parties g := by
    rw [srcPartiesPlus, srcPartiesPlus, hsrc, hr.corrupted]
  rw [equivalentRewriters, equivalentRewriters, hsrc, hplus]

theorem Provable.renumbered (hr : g.Renumbered σ h) (hp : Provable parties g) :
    Provable parties h := by
  obtain ⟨k, hk, hyes⟩ := hp
  obtain ⟨k', hk', hrk⟩ := rewrites_renumbered hr hk
  refine ⟨k', by rwa [equivalentRewriters_renumbered hr], ?_⟩
  rw [hasBubble_tailLoop_iff hrk.left hrk.exactLeft.bubble] at hyes
  rw [hasBubble_tailLoop_iff hrk.right hrk.exactRight.bubble]
  exact hrk.answersYes hyes

/-- **What can be proved depends on the protocol graph alone.**  A graph and its
renumbering have proofs together, so a yes for one of them stands for both; only
the search may miss the proof of the other. -/
theorem provable_iff_of_renumbered (hr : g.Renumbered σ h) (env : Env)
    (parties : List PartyDecl) :
    (Provable parties h ↔ Provable parties g) ∧
      (tryProving env g parties = some true ∨ tryProving env h parties = some true →
        Provable parties g ∧ Provable parties h) := by
  refine ⟨⟨fun hp => hp.renumbered hr.symm, fun hp => hp.renumbered hr⟩, ?_⟩
  rintro (hyes | hyes)
  · have hp := provable_of_tryProving hyes
    exact ⟨hp, hp.renumbered hr⟩
  · have hp := provable_of_tryProving hyes
    exact ⟨hp.renumbered hr.symm, hp⟩

/-! ## Two masked sums

Party 1 shares two random values with party 2, and keeps a share `a` and a share
`b` of them.  It sends `a + b` and `x + a` to party 2, where `x` is its input.
Solving `a + b` for `b` leaves `a` to mask `x`; solving it for `a` does not. -/

/-- The protocol. -/
def maskedCalls : List Call :=
  [.newRandomness "r" .arithField 1, .newRandomness "u" .arithField 1, .genPoly 1 1 1,
    .genPoly 1 2 1, .eval 3 2, .eval 3 1, .eval 4 2, .eval 4 1, .transfer 5 2, .transfer 7 2,
    .genShare .arithField 1, .add 6 8, .add 11 6, .transfer 12 2, .transfer 13 2, .transfer 9 1,
    .transfer 10 1, .transfer 14 1, .transfer 15 1]

/-- What party 2 got, sent back. -/
def maskedOutputs : List ℕ := [16, 17, 18, 19]

end Prover

/-- The graph with the operands of the edges into node `v` in the opposite order. -/
def GraphBase.swapOperands (b : GraphBase) (v : ℕ) : GraphBase :=
  let swap := fun e : Operation =>
    if e.output.guid = v then { e with inputs := e.inputs.reverse } else e
  { b with
    inEdgesOf := b.inEdgesOf.map fun es => es.map swap
    outEdgesOf := b.outEdgesOf.map fun es => es.map swap }

namespace Prover

instance (σ : Equiv.Perm ℕ) (e f : NewEdge) : Decidable (e.Renumbered σ f) :=
  decidable_of_iff (f.type = e.type ∧ f.output = e.output.renumber σ ∧
      f.inputs.Perm (e.inputs.map (Node.renumber σ)) ∧
      (e.type ≠ .eval → e.type ≠ .add → f.inputs = e.inputs.map (Node.renumber σ)))
    ⟨fun h => ⟨h.1, h.2.1, h.2.2.1, h.2.2.2⟩, fun h => ⟨h.type, h.output, h.bag, h.inputs⟩⟩

/-- Putting the edges in one after the other gives the graph back. -/
structure IsLinked (b : GraphBase) : Prop where
  guid : (b.nodes.filterMap id).map Node.guid = List.range (b.nodes.filterMap id).length
  ids : (b.inEdgesOf.flatten.map Operation.id).Nodup
  live : ∀ e ∈ b.inEdgesOf.flatten, ∀ n ∈ e.output :: e.inputs,
    (b.nodes.filterMap id)[n.guid]? = some n
  linked : (((GraphBase.bare (b.nodes.filterMap id)).toGraph 2 1 {2}).addEdges
    b.inEdgesOf.flatten).toGraphBase = b

instance (b : GraphBase) : Decidable (IsLinked b) :=
  decidable_of_iff
    ((b.nodes.filterMap id).map Node.guid = List.range (b.nodes.filterMap id).length ∧
      (b.inEdgesOf.flatten.map Operation.id).Nodup ∧
      (∀ e ∈ b.inEdgesOf.flatten, ∀ n ∈ e.output :: e.inputs,
        (b.nodes.filterMap id)[n.guid]? = some n) ∧
      (((GraphBase.bare (b.nodes.filterMap id)).toGraph 2 1 {2}).addEdges
        b.inEdgesOf.flatten).toGraphBase = b)
    ⟨fun h => ⟨h.1, h.2.1, h.2.2.1, h.2.2.2⟩, fun h => ⟨h.guid, h.ids, h.live, h.linked⟩⟩

theorem IsLinked.wellFormed {b : GraphBase} (h : IsLinked b) : b.WellFormed := by
  have := Graph.wellFormed_linked (g := (GraphBase.bare (b.nodes.filterMap id)).toGraph 2 1 {2}) rfl
    h.guid h.ids h.live
  rwa [h.linked] at this

/-- Node 12 is the sum `a + b`.  The search finds a proof of `b + a` only. -/
theorem exists_maskedGraph : ∃ heap b, BuiltBy 1 maskedCalls [] maskedOutputs heap b ∧
    (b.toGraph 2 1 {2}).Renumbered 1 ((b.swapOperands 12).toGraph 2 1 {2}) ∧
    ((b.inEdges 12).map Operation.type = [.add]) ∧
    tryProving .sequential (b.toGraph 2 1 {2}) [1, 2] = some false ∧
    tryProving .sequential ((b.swapOperands 12).toGraph 2 1 {2}) [1, 2] = some true := by
  have hany : (firstBuild maskedCalls maskedOutputs).any (fun x =>
      let b' := x.2.swapOperands 12
      decide (IsLinked b') &&
      decide (x.2.inEdgesOf.length ≤ 19 ∧ ∀ v < 19,
        List.Forall₂ (fun e f => e.args.Renumbered 1 f.args) (x.2.inEdges v) (b'.inEdges v)) &&
      (x.2.inEdges 12).map Operation.type == [.add] &&
      tryProving .sequential (x.2.toGraph 2 1 {2}) [1, 2] == some false &&
      tryProving .sequential (b'.toGraph 2 1 {2}) [1, 2] == some true) = true := by
    decide +kernel
  obtain ⟨⟨heap, b⟩, hb, hall⟩ := exists_of_any hany
  simp only [Bool.and_eq_true, decide_eq_true_eq, beq_iff_eq] at hall
  obtain ⟨⟨⟨⟨hlinked, hlen, hedges⟩, hadd⟩, hno⟩, hyes⟩ := hall
  have hbuilt := builtBy_firstBuild hb
  refine ⟨heap, b, hbuilt, ⟨hbuilt.wellFormed (noOverlap_nil heap _), hlinked.wellFormed,
    Graph.exact_toGraph .., Graph.exact_toGraph .., fun i => Iff.rfl, fun i => ?_, fun v => ?_, rfl,
    rfl, rfl⟩, hadd, hno, hyes⟩
  · have hren : Node.renumber 1 = id := funext fun n => rfl
    rw [hren, Option.map_id]
    rfl
  · by_cases hlt : v < 19
    · exact .of_forall₂ (hedges v hlt)
    · have hnil : ∀ c : GraphBase, c.inEdgesOf.length ≤ 19 → c.inEdges v = [] := fun c hc => by
        rw [inEdges, OpTable.at'_of_le (hc.trans (not_lt.1 hlt))]
      change PairsOff _ (b.inEdges v) ((b.swapOperands 12).inEdges v)
      rw [hnil b hlen, hnil (b.swapOperands 12) (by simpa [swapOperands] using hlen)]
      exact .nil

/-- The search misses the proof that the first graph has. -/
theorem provable_iff_of_renumbered_masked : ∃ heap b,
    BuiltBy 1 maskedCalls [] maskedOutputs heap b ∧
    tryProving .sequential (b.toGraph 2 1 {2}) [1, 2] = some false ∧
    Provable [1, 2] (b.toGraph 2 1 {2}) := by
  obtain ⟨heap, b, hb, hr, -, hno, hyes⟩ := exists_maskedGraph
  exact ⟨heap, b, hb, hno, ((provable_iff_of_renumbered hr .sequential [1, 2]).2 (Or.inr hyes)).1⟩

end Prover

end Gauv
