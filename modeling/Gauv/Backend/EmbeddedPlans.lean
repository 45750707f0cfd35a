import Gauv.Backend.Embedding
import Gauv.Backend.Replanning

/-!
# Plans inside graphs

Where one graph stands inside another, a sharing or an opening that both have is
rewritten in both by plans that correspond: the same sources, destinations and turned
TRANSITs, relabelled, and the same edges eliminated.
-/

namespace Gauv

open GraphBase
open Graph.Alike (ReadsShare OpensOrSends mem_sharingEliminated_iff mem_openingEliminated_iff)

/-! ## Relabelled plans -/

/-- The edge between the relabelled nodes. -/
def NewEdge.relabel (σ : ℕ → ℕ) (e : NewEdge) : NewEdge :=
  ⟨e.type, e.inputs.map (Node.relabel σ), e.output.relabel σ⟩

/-- The edges into a node, before and after. -/
theorem NewEdge.filter_map_relabel {σ : ℕ → ℕ} (hσ : σ.Injective) (es : List NewEdge) (i : ℕ) :
    (es.map (relabel σ)).filter (fun n => n.output.guid = σ i) =
      (es.filter fun n => n.output.guid = i).map (relabel σ) := by
  rw [List.filter_map]
  congr 1
  exact List.filter_congr fun n _ => by simp [relabel, hσ.eq_iff]

/-- The plan `q` for the larger graph does what `p` does for the one inside.  Both
compute their destinations by EVALs. -/
structure Plan.EmbedsIn (σ : ℕ → ℕ) (g h : Graph) (p q : Plan) : Prop where
  left : p.Valid g
  right : q.Valid h
  node : q.node = p.node.relabel σ
  isEval : p.op = .eval ∧ q.op = .eval
  srcs : q.srcs.Perm (p.srcs.map (Node.relabel σ))
  dsts : q.dsts.Perm (p.dsts.map (Node.relabel σ))
  distinct : (p.dsts.map Node.guid).Nodup
  turned : q.turned.Perm (p.turned.map (NewEdge.relabel σ))
  /-- The TRANSITs turned into one node stand in the same order. -/
  turnedAt : ∀ i, q.turned.filter (fun n => n.output.guid = σ i) =
    (p.turned.filter fun n => n.output.guid = i).map (NewEdge.relabel σ)
  eliminated : ∀ e f, g.HasEdge e → h.HasEdge f → e.args.Relabelled σ f.args →
    (f ∈ q.edgesToEliminate ↔ e ∈ p.edgesToEliminate)

theorem insertNodes_cons (n : Node) (l : List Node) : insertNodes (n :: l) =
    if (insertNodes l).any (fun m => m.guid == n.guid) then insertNodes l
    else n :: insertNodes l := rfl

theorem insertNodes_relabel {σ : ℕ → ℕ} (hσ : σ.Injective) (l : List Node) :
    insertNodes (l.map (Node.relabel σ)) = (insertNodes l).map (Node.relabel σ) := by
  induction l with
  | nil => rfl
  | cons n l ih =>
      have hany : ((fun m : Node => m.guid == (n.relabel σ).guid) ∘ Node.relabel σ) =
          fun m => m.guid == n.guid := by
        funext m
        rw [Bool.eq_iff_iff]
        simp [hσ.eq_iff]
      rw [List.map_cons, insertNodes_cons, insertNodes_cons, ih, List.any_map, hany]
      split
      · rfl
      · rfl

namespace Graph.EmbedsIn

variable {σ : ℕ → ℕ} {g h : Graph} {src : Finset PartyDecl} {v : ℕ}

theorem live_relabel (he : g.EmbedsIn σ h) {l : List Node}
    (hl : ∀ n ∈ l, g.node? n.guid = some n) :
    ∀ n ∈ l.map (Node.relabel σ), h.node? n.guid = some n := by
  intro n hn
  obtain ⟨m, hm, rfl⟩ := List.mem_map.1 hn
  rw [Node.relabel_guid, he.nodes, hl m hm, Option.map_some]

/-! ## The sharing rules -/

section Sharing

variable (he : g.EmbedsIn σ h)
  (hout : PairsOff (fun e f => e.args.Relabelled σ f.args) (g.outEdges v) (h.outEdges (σ v)))
  (ht : ∀ e ∈ g.outEdges v, Option.Rel (fun e f => e.args.Relabelled σ f.args ∧ e.type = .transit)
    (g.transitOut e.output) (h.transitOut (e.output.relabel σ)))

include ht in
/-- What one EVAL edge contributes to the sources, destinations and turned edges. -/
theorem sharingTurned {e f : Operation} (hv : e ∈ g.outEdges v) (hef : e.args.Relabelled σ f.args) :
    sharingTurned h src f = (sharingTurned g src e).map (NewEdge.relabel σ) := by
  have hshare : f.output = e.output.relabel σ := hef.output
  have hrel := ht e hv
  rw [Gauv.sharingTurned, Gauv.sharingTurned, hshare]
  generalize g.transitOut e.output = o at hrel
  generalize h.transitOut (e.output.relabel σ) = o' at hrel
  cases hrel with
  | none => rfl
  | @some t t' htt =>
      have hsent : t'.output = t.output.relabel σ := htt.1.output
      simp only [hsent, Node.relabel_party]
      split
      · rfl
      · rfl

include he ht in
theorem sharingDsts {e f : Operation} (hv : e ∈ g.outEdges v) (hef : e.args.Relabelled σ f.args) :
    (sharingDsts h src (σ v) f).Perm ((sharingDsts g src v e).map (Node.relabel σ)) := by
  have hshare : f.output = e.output.relabel σ := hef.output
  have hfilter : ((e.inputs.map (Node.relabel σ)).filter fun n => n.guid ≠ σ v) =
      (e.inputs.filter fun n => n.guid ≠ v).map (Node.relabel σ) := by
    rw [List.filter_map]
    congr 1
    exact List.filter_congr fun n _ => by simp [he.injective.eq_iff]
  rw [Gauv.sharingDsts, Gauv.sharingDsts,
    isSourceShare hef (afterTransit_of_transitOut (ht e hv)), List.map_append, ← hfilter]
  refine (hef.bag.filter _).append (.of_eq ?_)
  split
  · rfl
  · rw [hshare]
    rfl

include he hout ht

/-- The two graphs eliminate corresponding edges. -/
theorem readsShare_iff {e f : Operation} (hef : e.args.Relabelled σ f.args) :
    ReadsShare h src (σ v) f.shape ↔ ReadsShare g src v e.shape := by
  have hreads : ∀ i, (∃ n ∈ f.shape.bag, n.guid = σ i) ↔ ∃ n ∈ e.shape.bag, n.guid = i := by
    intro i
    have hmem := hef.mem_inputs_iff he.injective i
    rw [List.mem_map, List.mem_map] at hmem
    exact hmem
  unfold Graph.Alike.ReadsShare
  refine or_congr (hreads v) ?_
  simp only [List.mem_map, exists_exists_and_eq_and]
  constructor
  · rintro ⟨f', hf', ⟨t', ht', hp⟩, hs⟩
    obtain ⟨e', he', hef'⟩ := hout.exists_left hf'
    have hshare : f'.output = e'.output.relabel σ := hef'.output
    have hrel := ht e' he'
    rw [hshare] at ht' hs
    rw [ht'] at hrel
    refine ⟨e', he', ?_, (hreads _).1 hs⟩
    cases hg : g.transitOut e'.output with
    | none =>
        rw [hg] at hrel
        cases hrel
    | some t =>
        rw [hg] at hrel
        cases hrel with
        | some htt =>
            have hsent : t'.output = t.output.relabel σ := htt.1.output
            exact ⟨t, rfl, by rwa [hsent] at hp⟩
  · rintro ⟨e', he', ⟨t, ht', hp⟩, hs⟩
    obtain ⟨f', hf', hef'⟩ := hout.exists_right he'
    have hshare : f'.output = e'.output.relabel σ := hef'.output
    have hrel := ht e' he'
    rw [ht'] at hrel
    refine ⟨f', hf', ?_, by rw [hshare]; exact (hreads _).2 hs⟩
    rw [hshare]
    cases hh : h.transitOut (e'.output.relabel σ) with
    | none =>
        rw [hh] at hrel
        cases hrel
    | some t' =>
        rw [hh] at hrel
        cases hrel with
        | some htt =>
            have hsent : t'.output = t.output.relabel σ := htt.1.output
            exact ⟨t', rfl, by rwa [hsent]⟩

/-- The two graphs find corresponding destinations. -/
theorem insertNodes_dsts (hg : g.WellFormed) (src : Finset PartyDecl) {dsts₀ : List Node}
    (h₀ : ∀ n ∈ dsts₀, g.node? n.guid = some n) :
    (insertNodes (dsts₀.map (Node.relabel σ) ++
      (h.outEdges (σ v)).flatMap (Gauv.sharingDsts h src (σ v)))).Perm
      ((insertNodes (dsts₀ ++ (g.outEdges v).flatMap (Gauv.sharingDsts g src v))).map
        (Node.relabel σ)) := by
  have hflat : PairsOff (fun m n => n = m.relabel σ)
      ((g.outEdges v).flatMap (Gauv.sharingDsts g src v))
      ((h.outEdges (σ v)).flatMap (Gauv.sharingDsts h src (σ v))) :=
    hout.flatMap fun e hv f _ hef => .of_perm_map (sharingDsts he ht hv hef)
  have hperm := hflat.perm_map (f := Node.relabel σ) (g := id) fun m _ n _ hmn => hmn
  rw [List.map_id] at hperm
  rw [← insertNodes_relabel he.injective, List.map_append]
  have hnodes : ∀ n ∈ dsts₀ ++ (g.outEdges v).flatMap (Gauv.sharingDsts g src v),
      g.node? n.guid = some n := live_dsts hg h₀
  have hlive := he.live_relabel hnodes
  rw [List.map_append] at hlive
  exact perm_insertNodes (hperm.append_left _) fun m hm n hn hmn =>
    eq_of_guid (hlive m hm) (hlive n hn) hmn

/-- The assertions of the sharing rules pass in both or in neither. -/
theorem isSome_planSharing (hg : g.WellFormed) (src : Finset PartyDecl)
    (order order' : IterOrder) (node : Node)
    {srcs₀ dsts₀ : List Node} (h₀ : ∀ n ∈ srcs₀ ++ dsts₀, g.node? n.guid = some n) :
    (planSharing order' h src (node.relabel σ) (σ v) (srcs₀.map (Node.relabel σ))
      (dsts₀.map (Node.relabel σ))).isSome =
      (planSharing order g src node v srcs₀ dsts₀).isSome := by
  have hall : (h.outEdges (σ v)).all (fun e => e.type = .eval) =
      (g.outEdges v).all fun e => e.type = .eval := by
    rw [Bool.eq_iff_iff, List.all_eq_true, List.all_eq_true]
    constructor
    · intro hev e hv
      obtain ⟨f, hf, hef⟩ := hout.exists_right hv
      rw [← show f.type = e.type from hef.type]
      exact hev f hf
    · intro hev f hf
      obtain ⟨e, hv, hef⟩ := hout.exists_left hf
      rw [show f.type = e.type from hef.type]
      exact hev e hv
  have hlen := (insertNodes_dsts he hout ht hg src fun n hn =>
    h₀ n (List.mem_append_right _ hn)).length_eq
  rw [List.length_map] at hlen
  rw [planSharing, planSharing]
  simp only [hall, hlen, he.partyCnt]
  split
  · split
    · rfl
    · rfl
  · rfl

/-- **The plans of one sharing correspond**, each in its own iteration order. -/
theorem planEmbedsIn_sharing (hg : g.WellFormed) (hh : h.WellFormed) (hm : SharingMatch g src v)
    {order order' : IterOrder} {node : Node} {srcs₀ dsts₀ : List Node} {p q : Plan}
    (h₀ : ∀ n ∈ srcs₀ ++ dsts₀, g.node? n.guid = some n)
    (hp : SharingPlan order g src node v srcs₀ dsts₀ p)
    (hq : SharingPlan order' h src (node.relabel σ) (σ v) (srcs₀.map (Node.relabel σ))
      (dsts₀.map (Node.relabel σ)) q) : p.EmbedsIn σ g h q := by
  have ha : ∀ e ∈ g.outEdges v,
      h.afterTransit (e.output.relabel σ) = (g.afterTransit e.output).relabel σ :=
    fun e hv => afterTransit_of_transitOut (ht e hv)
  have hm' : SharingMatch h src (σ v) := (sharingMatch_iff he hout ha).2 hm
  have hturned : q.turned.Perm (p.turned.map (NewEdge.relabel σ)) := by
    have hflat : PairsOff (fun m n => n = NewEdge.relabel σ m)
        ((g.outEdges v).flatMap (Gauv.sharingTurned g src))
        ((h.outEdges (σ v)).flatMap (Gauv.sharingTurned h src)) :=
      hout.flatMap fun e hv f _ hef => .of_perm_map (.of_eq (sharingTurned ht hv hef))
    have hperm := hflat.perm_map (f := NewEdge.relabel σ) (g := id) fun m _ n _ hmn => hmn
    rwa [List.map_id, ← hp.turned, ← hq.turned] at hperm
  refine ⟨hp.valid hm hg h₀, hq.valid hm' hh ?_, hq.node_eq.trans (by rw [hp.node_eq]),
    ⟨hp.op, hq.op⟩, ?_, ?_, hp.distinct, hturned, fun i => ?_, fun e f hee hff hef => ?_⟩
  · rw [← List.map_append]
    exact he.live_relabel h₀
  · rw [hp.srcs, hq.srcs, List.map_append]
    have hsource := hout.filter fun e hv f _ hef =>
      show Gauv.isSourceShare h src f = Gauv.isSourceShare g src e from isSourceShare hef (ha e hv)
    have hperm := hsource.perm_map (f := Node.relabel σ ∘ Operation.output)
      fun e _ f _ hef => hef.output
    rw [← List.map_map] at hperm
    exact hperm.append_left _
  · rw [hp.dsts, hq.dsts]
    exact (order'.perm _).trans ((insertNodes_dsts he hout ht hg src fun n hn =>
      h₀ n (List.mem_append_right _ hn)).trans ((order.perm _).map _).symm)
  · have hnodup : ((p.turned.map (NewEdge.relabel σ)).map fun n => n.output.guid).Nodup := by
      rw [List.map_map]
      have hkeys := (hp.turned_distinct hm hg).map he.injective
      rwa [List.map_map] at hkeys
    rw [filter_key_perm hturned hnodup, NewEdge.filter_map_relabel he.injective]
  · rw [hp.eliminated, hq.eliminated, mem_sharingEliminated_iff hg hee,
      mem_sharingEliminated_iff hh hff, readsShare_iff he hout ht hef]

end Sharing

/-! ## The reconstruction rule -/

section Reconstruction

variable (he : g.EmbedsIn σ h)

include he

theorem operandTurned (s : Node) : operandTurned h src (s.relabel σ) =
    (operandTurned g src s).map (NewEdge.relabel σ) := by
  have ht := he.transitIn s
  rw [Gauv.operandTurned, Gauv.operandTurned, he.isSourceOperand, he.origin]
  generalize g.transitIn s = o at ht
  generalize h.transitIn (s.relabel σ) = o' at ht
  split
  · rfl
  · cases ht with
    | none => rfl
    | some _ => rfl

/-- The two graphs eliminate corresponding edges. -/
theorem opensOrSends_iff (shares : List Node) {e f : Operation} (hef : e.args.Relabelled σ f.args) :
    OpensOrSends h src (shares.map (Node.relabel σ)) (σ v) f.shape ↔
      OpensOrSends g src shares v e.shape := by
  have hout : f.shape.output.guid = σ e.shape.output.guid := congrArg Node.guid hef.output
  simp only [OpensOrSends, hout, he.injective.eq_iff, List.mem_map, exists_exists_and_eq_and,
    he.isSentDst, Node.relabel_guid]

theorem reconstructionMatch {edge edge' : Operation}
    (hin : edge'.inputs = edge.inputs.map (Node.relabel σ)) (hm : ReconstructionMatch g edge) :
    ReconstructionMatch h edge' where
  length := by rw [hin, List.length_map, hm.length, he.partyCnt]
  asserted := fun s hs => by
    rw [hin] at hs
    obtain ⟨n, hn, rfl⟩ := List.mem_map.1 hs
    rw [he.beforeTransit, Option.isSome_map]
    exact hm.asserted n hn
  parties := by
    rw [hin, List.map_map]
    simp only [Function.comp_def, he.origin, Node.relabel_party]
    exact hm.parties

theorem filter_dsts (l : List Node) :
    ((l.map (Node.relabel σ)).filter fun s => !Gauv.isSourceOperand h src s) =
      (l.filter fun s => !Gauv.isSourceOperand g src s).map (Node.relabel σ) := by
  rw [List.filter_map]
  congr 1
  exact List.filter_congr fun s _ => by rw [Function.comp_apply, he.isSourceOperand]

/-- The assertions of the reconstruction rule pass in both or in neither. -/
theorem isSome_planReconstruction (src : Finset PartyDecl) (order order' : IterOrder)
    (node : Node) {edge edge' : Operation} (hin : edge'.inputs = edge.inputs.map (Node.relabel σ)) :
    (planReconstruction order' h src (node.relabel σ) edge').isSome =
      (planReconstruction order g src node edge).isSome := by
  have hall : edge'.inputs.all (fun s => (h.beforeTransit s).isSome) =
      edge.inputs.all fun s => (g.beforeTransit s).isSome := by
    rw [hin, List.all_map]
    simp only [Function.comp_def, he.beforeTransit, Option.isSome_map]
  have helim : (edge'.inputs.flatMap (operandEliminated h src)).length =
      (edge.inputs.flatMap (operandEliminated g src)).length := by
    rw [hin, List.length_flatMap, List.length_flatMap, List.map_map]
    simp only [Function.comp_def, length_operandEliminated, he.isSentDst]
  have hturn : (edge'.inputs.flatMap (Gauv.operandTurned h src)).length =
      (edge.inputs.flatMap (Gauv.operandTurned g src)).length := by
    rw [hin, List.length_flatMap, List.length_flatMap, List.map_map]
    simp only [Function.comp_def, length_operandTurned, he.isSentDst]
  have hdsts : (insertNodes (edge'.inputs.filter fun s => !Gauv.isSourceOperand h src s)).length =
      (insertNodes (edge.inputs.filter fun s => !Gauv.isSourceOperand g src s)).length := by
    rw [hin, filter_dsts he, insertNodes_relabel he.injective, List.length_map]
  rw [planReconstruction, planReconstruction]
  simp only [hall, Plan.edgesToAdd, Plan.computed, List.length_cons, List.length_append,
    List.length_map, (order.perm _).length_eq, (order'.perm _).length_eq, helim, hturn, hdsts,
    he.partyCnt, he.T]
  split
  · split
    · rfl
    · rfl
  · rfl

/-- **The plans of one opening correspond**, each in its own iteration order. -/
theorem planEmbedsIn_reconstruction (hg : g.WellFormed) (hh : h.WellFormed)
    {order order' : IterOrder} {node : Node} {edge edge' : Operation} {p q : Plan}
    (hedge : g.inEdges v = [edge]) (hedge' : h.inEdges (σ v) = [edge'])
    (hef : edge.args.Relabelled σ edge'.args)
    (hin : edge'.inputs = edge.inputs.map (Node.relabel σ)) (hm : ReconstructionMatch g edge)
    (ht : edge.type = .reconstruct) (hnode : g.node? v = some node)
    (hp : ReconstructionPlan order g src node edge p)
    (hq : ReconstructionPlan order' h src (node.relabel σ) edge' q) : p.EmbedsIn σ g h q := by
  obtain ⟨hedge₁, hv⟩ := hg.mem_inEdges.1 (hedge ▸ List.mem_singleton_self edge)
  obtain ⟨hedge₂, hv'⟩ := hh.mem_inEdges.1 (hedge' ▸ List.mem_singleton_self edge')
  have hsource : Gauv.isSourceOperand h src ∘ Node.relabel σ = Gauv.isSourceOperand g src :=
    funext he.isSourceOperand
  have hturned : q.turned = p.turned.map (NewEdge.relabel σ) := by
    rw [hp.turned, hq.turned, hin, List.flatMap_map, List.map_flatMap]
    exact List.flatMap_congr fun s _ => operandTurned he s
  refine ⟨hp.valid hm hg hedge₁ ht (hv ▸ hnode),
    hq.valid (reconstructionMatch he hin hm) hh hedge₂ (hef.type.trans ht) ?_,
    hq.node_eq.trans (by rw [hp.node_eq]), ⟨hp.op, hq.op⟩, ?_, ?_, ?_, .of_eq hturned,
    fun i => ?_, fun e f hee hff hef' => ?_⟩
  · rw [hv', he.nodes, hnode, Option.map_some]
  · rw [hp.srcs, hq.srcs, hin, List.filter_map, hsource, List.map_cons]
  · rw [hp.dsts, hq.dsts, hin, filter_dsts he, insertNodes_relabel he.injective]
    exact (order'.perm _).trans ((order.perm _).map _).symm
  · rw [hp.dsts]
    exact ((order.perm _).map _).nodup_iff.2 (nodup_insertNodes _)
  · rw [hturned, NewEdge.filter_map_relabel he.injective]
  · rw [hp.eliminated, hq.eliminated, mem_openingEliminated_iff hg hedge hee,
      mem_openingEliminated_iff hh hedge' hff, hin, opensOrSends_iff he _ hef']

end Reconstruction

end Graph.EmbedsIn

end Gauv
