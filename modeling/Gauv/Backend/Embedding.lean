import Gauv.Pairing
import Gauv.Backend.Assertions

/-!
# Graphs inside graphs

An injective map takes the indices of one graph to indices of another.  Where the
nodes and the in-edges follow, up to the order of lists and of inputs, the rules read
the same off a node and off its image: the transits into it, the openings, and, if its
out-edges correspond as well, whether it is the secret of a sharing.
-/

namespace Gauv

open GraphBase

/-! ## Relabelled nodes and edges -/

/-- The node at another index. -/
def Node.relabel (σ : ℕ → ℕ) (n : Node) : Node := { n with guid := σ n.guid }

namespace Node

variable (σ : ℕ → ℕ) (n : Node)

@[simp] theorem relabel_guid : (n.relabel σ).guid = σ n.guid := rfl

@[simp] theorem relabel_party : (n.relabel σ).party = n.party := rfl

@[simp] theorem relabel_isInput : (n.relabel σ).isInput = n.isInput := rfl

@[simp] theorem relabel_isOutput : (n.relabel σ).isOutput = n.isOutput := rfl

/-- The indices of relabelled nodes. -/
theorem map_guid_relabel (l : List Node) :
    (l.map (relabel σ)).map Node.guid = (l.map Node.guid).map σ := by
  rw [List.map_map, List.map_map]
  rfl

end Node

/-- The arguments an operation was made from. -/
def Operation.args (e : Operation) : NewEdge := ⟨e.type, e.inputs, e.output⟩

/-- Allocation keeps type, inputs and output of each new edge. -/
theorem map_args_makeShared (team fresh : ℕ) (es : List NewEdge) :
    (makeShared team fresh es).map Operation.args = es := by
  rw [makeShared, List.map_map]
  exact List.zipIdx_map_fst 0 es

/-- `f` is `e` between the relabelled nodes, up to the order of the inputs. -/
structure NewEdge.Relabelled (σ : ℕ → ℕ) (e f : NewEdge) : Prop where
  type : f.type = e.type
  output : f.output = e.output.relabel σ
  bag : f.inputs.Perm (e.inputs.map (Node.relabel σ))

namespace NewEdge.Relabelled

variable {σ : ℕ → ℕ} {e f : NewEdge}

/-- The indices of the inputs, up to their order. -/
theorem guids (h : e.Relabelled σ f) :
    (f.inputs.map Node.guid).Perm ((e.inputs.map Node.guid).map σ) := by
  rw [← Node.map_guid_relabel]
  exact h.bag.map Node.guid

/-- The inputs of an edge, by index. -/
theorem mem_inputs_iff (hσ : σ.Injective) (h : e.Relabelled σ f) (i : ℕ) :
    σ i ∈ f.inputs.map Node.guid ↔ i ∈ e.inputs.map Node.guid := by
  rw [h.guids.mem_iff, List.mem_map_of_injective hσ]

/-- Every input has its counterpart. -/
theorem exists_input (h : e.Relabelled σ f) {n : Node} (hn : n ∈ e.inputs) :
    ∃ m ∈ f.inputs, m.guid = σ n.guid :=
  ⟨n.relabel σ, h.bag.mem_iff.2 (List.mem_map_of_mem hn), rfl⟩

/-- Corresponding nodes are read equally often. -/
theorem inputCount (hσ : σ.Injective) (h : e.Relabelled σ f) (u : ℕ) :
    (f.inputs.map Node.guid).count (σ u) = (e.inputs.map Node.guid).count u := by
  rw [h.guids.count_eq, List.count_map_of_injective _ _ hσ]

end NewEdge.Relabelled

/-- The only TRANSIT of a list has its counterpart in the other list. -/
theorem rel_soleTransit {r : Operation → Operation → Prop} (hr : ∀ e f, r e f → f.type = e.type)
    {l l' : List Operation} (h : PairsOff r l l') :
    Option.Rel (fun e f => r e f ∧ e.type = .transit) (soleTransit l) (soleTransit l') := by
  rcases l with _ | ⟨e, _ | ⟨e₂, l⟩⟩
  · rw [List.length_eq_zero_iff.1 h.length_eq]
    exact .none
  · obtain ⟨f, rfl, hef⟩ := h.eq_singleton
    rw [soleTransit, soleTransit, hr e f hef]
    split
    · rename_i ht
      exact .some ⟨hef, ht⟩
    · exact .none
  · have hlen := h.length_eq
    rcases l' with _ | ⟨f, _ | ⟨f₂, l'⟩⟩
    · simp at hlen
    · simp at hlen
    · exact .none

/-! ## Embedded graphs -/

/-- The nodes of `g` stand in `h` at the indices `σ`, and so do their in-edges. -/
structure Graph.EmbedsIn (σ : ℕ → ℕ) (g h : Graph) : Prop where
  injective : σ.Injective
  nodes : ∀ i, h.node? (σ i) = (g.node? i).map (Node.relabel σ)
  inEdges : ∀ i, PairsOff (fun e f => e.args.Relabelled σ f.args) (g.inEdges i) (h.inEdges (σ i))
  partyCnt : h.partyCnt = g.partyCnt
  T : h.T = g.T

namespace Graph.EmbedsIn

variable {σ : ℕ → ℕ} {g h : Graph} {src : Finset PartyDecl} {e f : Operation}

theorem inDeg (he : g.EmbedsIn σ h) (v : ℕ) : h.inDeg (σ v) = g.inDeg v :=
  (he.inEdges v).length_eq

/-- A node is random where its copy is. -/
theorem isRandom (he : g.EmbedsIn σ h) (n : Node) : h.isRandom (n.relabel σ) = g.isRandom n := by
  rw [GraphBase.isRandom, GraphBase.isRandom, Node.relabel_guid, he.inDeg, Node.relabel_isInput,
    Node.relabel_isOutput]

/-- An index is random where that of its copy is. -/
theorem isRandomNode (he : g.EmbedsIn σ h) (i : ℕ) :
    h.isRandomNode (σ i) = g.isRandomNode i := by
  rw [GraphBase.isRandomNode, GraphBase.isRandomNode, he.nodes, he.inDeg]
  cases g.node? i <;> rfl

/-! ### Openings -/

/-- A node comes by corresponding TRANSITs, or by none. -/
theorem transitIn (he : g.EmbedsIn σ h) (s : Node) :
    Option.Rel (fun e f => e.args.Relabelled σ f.args ∧ e.type = .transit) (g.transitIn s)
      (h.transitIn (s.relabel σ)) :=
  rel_soleTransit (fun _ _ hef => hef.type) (he.inEdges s.guid)

theorem isSome_transitIn (he : g.EmbedsIn σ h) (s : Node) :
    (h.transitIn (s.relabel σ)).isSome = (g.transitIn s).isSome := by
  have ht := he.transitIn s
  generalize g.transitIn s = o at ht
  generalize h.transitIn (s.relabel σ) = o' at ht
  cases ht <;> rfl

/-- Where a share was sent from. -/
theorem beforeTransit (he : g.EmbedsIn σ h) (s : Node) :
    h.beforeTransit (s.relabel σ) = (g.beforeTransit s).map (Node.relabel σ) := by
  have ht := he.transitIn s
  rw [GraphBase.beforeTransit, GraphBase.beforeTransit]
  generalize g.transitIn s = o at ht
  generalize h.transitIn (s.relabel σ) = o' at ht
  cases ht with
  | none => rfl
  | @some e f hef =>
      have hbag : f.inputs.Perm (e.inputs.map (Node.relabel σ)) := hef.1.bag
      have hlen := hbag.length_eq
      rw [List.length_map] at hlen
      -- one input or another number of them
      rcases hin : e.inputs with _ | ⟨b, _ | ⟨c, ns⟩⟩
      · rw [hin, List.map_nil] at hbag
        simp only [hbag.eq_nil, hin]
        rfl
      · rw [hin, List.map_singleton] at hbag
        simp only [List.perm_singleton.1 hbag, hin]
        rfl
      · rw [hin] at hlen
        rcases hf : f.inputs with _ | ⟨b', _ | ⟨c', ns'⟩⟩
        · rw [hf] at hlen
          simp at hlen
        · rw [hf] at hlen
          simp at hlen
        · simp only [hf, hin]
          rfl

/-- A share was sent from the copy of the node it was sent from. -/
theorem origin (he : g.EmbedsIn σ h) (s : Node) :
    h.origin (s.relabel σ) = (g.origin s).relabel σ := by
  rw [GraphBase.origin, GraphBase.origin, he.beforeTransit]
  cases g.beforeTransit s <;> rfl

/-- Operands of corresponding openings are sources or not alike. -/
theorem isSourceOperand (he : g.EmbedsIn σ h) (s : Node) :
    isSourceOperand h src (s.relabel σ) = isSourceOperand g src s := by
  rw [Gauv.isSourceOperand, Gauv.isSourceOperand, he.origin, Node.relabel_party]

theorem isSentDst (he : g.EmbedsIn σ h) (s : Node) :
    isSentDst h src (s.relabel σ) = isSentDst g src s := by
  rw [Gauv.isSentDst, Gauv.isSentDst, he.isSourceOperand, he.isSome_transitIn]

/-- The loop over the operands ends the same. -/
theorem scanOperands (he : g.EmbedsIn σ h) (shares : List Node) (parties : Finset PartyDecl)
    (k : ℕ) : scanOperands h src (shares.map (Node.relabel σ)) parties k =
      scanOperands g src shares parties k := by
  induction shares generalizing parties k with
  | nil => rfl
  | cons s shares ih =>
      rw [List.map_cons, Gauv.scanOperands, Gauv.scanOperands, he.beforeTransit]
      cases g.beforeTransit s with
      | none => rfl
      | some b =>
          simp only [Option.map_some, Option.bind_eq_bind, Option.bind_some, Node.relabel_party,
            he.isRandom, ih]

/-- **An opening passes its test inside the larger graph** if it passes on its own. -/
theorem isRewritableReconstruction (he : g.EmbedsIn σ h) (hef : e.args.Relabelled σ f.args)
    (hin : f.inputs = e.inputs.map (Node.relabel σ)) :
    isRewritableReconstruction h src f = isRewritableReconstruction g src e := by
  have hout : f.output = e.output.relabel σ := hef.output
  rw [Gauv.isRewritableReconstruction, Gauv.isRewritableReconstruction, hin, he.scanOperands,
    List.length_map, he.partyCnt]
  simp only [hout, Node.relabel_guid, he.inDeg, Node.relabel_isInput, Node.relabel_isOutput]

/-! ### Sharings

What follows depends on the out-edges, of a share or of the secret. -/

/-- Where the out-edges of a share correspond, it is sent on by corresponding
TRANSITs, or by none. -/
theorem transitOut {s : Node}
    (hout : PairsOff (fun e f => e.args.Relabelled σ f.args) (g.outEdges s.guid)
      (h.outEdges (σ s.guid))) :
    Option.Rel (fun e f => e.args.Relabelled σ f.args ∧ e.type = .transit) (g.transitOut s)
      (h.transitOut (s.relabel σ)) :=
  rel_soleTransit (fun _ _ hef => hef.type) hout

/-- Where a share goes to. -/
theorem afterTransit_of_transitOut {s : Node}
    (ht : Option.Rel (fun e f => e.args.Relabelled σ f.args ∧ e.type = .transit) (g.transitOut s)
      (h.transitOut (s.relabel σ))) :
    h.afterTransit (s.relabel σ) = (g.afterTransit s).relabel σ := by
  rw [GraphBase.afterTransit, GraphBase.afterTransit]
  generalize g.transitOut s = o at ht
  generalize h.transitOut (s.relabel σ) = o' at ht
  cases ht with
  | none => rfl
  | some hef => exact hef.1.output

theorem shareParty (hef : e.args.Relabelled σ f.args)
    (ha : h.afterTransit (e.output.relabel σ) = (g.afterTransit e.output).relabel σ) :
    shareParty h f = shareParty g e := by
  have hout : f.output = e.output.relabel σ := hef.output
  rw [Gauv.shareParty, Gauv.shareParty, hout, ha, Node.relabel_party]

/-- Shares of corresponding evaluations are sources or not alike. -/
theorem isSourceShare (hef : e.args.Relabelled σ f.args)
    (ha : h.afterTransit (e.output.relabel σ) = (g.afterTransit e.output).relabel σ) :
    isSourceShare h src f = isSourceShare g src e := by
  have hp := shareParty hef ha
  rw [Gauv.shareParty, Gauv.shareParty] at hp
  rw [Gauv.isSourceShare, Gauv.isSourceShare, hp]

section Secret

variable {v : ℕ} (he : g.EmbedsIn σ h)
  (hout : PairsOff (fun e f => e.args.Relabelled σ f.args) (g.outEdges v) (h.outEdges (σ v)))
  (ha : ∀ e ∈ g.outEdges v,
    h.afterTransit (e.output.relabel σ) = (g.afterTransit e.output).relabel σ)

include he hout

/-- The inputs of the out-edges correspond. -/
theorem inputs_iff : (∃ S : Finset ℕ, S.card = h.T + 1 ∧ σ v ∈ S ∧
      (∀ i, i ∈ S ↔ ∃ f ∈ h.outEdges (σ v), i ∈ f.inputs.map Node.guid) ∧
      ∀ i ∈ S, i ≠ σ v → h.isRandomNode i = true) ↔
    ∃ S : Finset ℕ, S.card = g.T + 1 ∧ v ∈ S ∧
      (∀ i, i ∈ S ↔ ∃ e ∈ g.outEdges v, i ∈ e.inputs.map Node.guid) ∧
      ∀ i ∈ S, i ≠ v → g.isRandomNode i = true := by
  have hread : ∀ i, (∃ f ∈ h.outEdges (σ v), σ i ∈ f.inputs.map Node.guid) ↔
      ∃ e ∈ g.outEdges v, i ∈ e.inputs.map Node.guid := by
    intro i
    constructor
    · rintro ⟨f, hf, hi⟩
      obtain ⟨e, hee, hef⟩ := hout.exists_left hf
      exact ⟨e, hee, (hef.mem_inputs_iff he.injective i).1 hi⟩
    · rintro ⟨e, hee, hi⟩
      obtain ⟨f, hf, hef⟩ := hout.exists_right hee
      exact ⟨f, hf, (hef.mem_inputs_iff he.injective i).2 hi⟩
  -- only images are read
  have himage : ∀ j, (∃ f ∈ h.outEdges (σ v), j ∈ f.inputs.map Node.guid) → ∃ i, σ i = j := by
    rintro j ⟨f, hf, hj⟩
    obtain ⟨e, -, hef⟩ := hout.exists_left hf
    obtain ⟨i, -, hi⟩ := List.mem_map.1 ((hef.guids.mem_iff).1 hj)
    exact ⟨i, hi⟩
  classical
  constructor
  · rintro ⟨S, hcard, hv, hmem, hrand⟩
    refine ⟨S.preimage σ he.injective.injOn, ?_, Finset.mem_preimage.2 hv, fun i => ?_,
      fun i hi hne => ?_⟩
    · have hall : ∀ j ∈ S, j ∈ Set.range σ := fun j hj => himage j ((hmem j).1 hj)
      rw [Finset.card_preimage, Finset.filter_true_of_mem hall, hcard, he.T]
    · rw [Finset.mem_preimage, hmem, hread]
    · rw [← he.isRandomNode]
      exact hrand _ (Finset.mem_preimage.1 hi) fun h => hne (he.injective h)
  · rintro ⟨S, hcard, hv, hmem, hrand⟩
    refine ⟨S.map ⟨σ, he.injective⟩, by rw [Finset.card_map, hcard, he.T],
      Finset.mem_map_of_mem _ hv, fun j => ?_, fun j hj hne => ?_⟩
    · rw [Finset.mem_map]
      constructor
      · rintro ⟨i, hi, rfl⟩
        exact (hread i).2 ((hmem i).1 hi)
      · intro hj
        obtain ⟨i, rfl⟩ := himage j hj
        exact ⟨i, (hmem i).2 ((hread i).1 hj), rfl⟩
    · obtain ⟨i, hi, rfl⟩ := Finset.mem_map.1 hj
      change h.isRandomNode (σ i) = true
      rw [he.isRandomNode]
      exact hrand i hi fun hiv => hne (hiv ▸ rfl)

include ha

/-- **A node matches the sharing pattern inside the larger graph** exactly when it
does on its own. -/
theorem sharingMatch_iff : SharingMatch h src (σ v) ↔ SharingMatch g src v := by
  have hdeg : h.outDeg (σ v) = g.outDeg v := hout.length_eq
  have hparty : ∀ e ∈ g.outEdges v, ∀ f ∈ h.outEdges (σ v), e.args.Relabelled σ f.args →
      Gauv.shareParty h f = Gauv.shareParty g e := fun e hee _ _ hef => shareParty hef (ha e hee)
  have hparties : (((h.outEdges (σ v)).filter fun f => f.type = .eval).map
      (Gauv.shareParty h)).Perm
        (((g.outEdges v).filter fun e => e.type = .eval).map (Gauv.shareParty g)) := by
    have heval := hout.filter (p := fun e => e.type = .eval) (q := fun f => f.type = .eval)
      fun e _ f _ hef => by
        have htype : f.type = e.type := hef.type
        rw [htype]
    exact heval.perm_map fun e hee f hf hef =>
      hparty e (List.mem_of_mem_filter hee) f (List.mem_of_mem_filter hf) hef
  have hsource : ∀ e ∈ g.outEdges v, ∀ f : Operation, e.args.Relabelled σ f.args →
      h.inDeg (h.afterTransit f.output).guid = g.inDeg (g.afterTransit e.output).guid := by
    intro e hee f hef
    have houtput : f.output = e.output.relabel σ := hef.output
    rw [houtput, ha e hee, Node.relabel_guid, he.inDeg]
  have hlen : ∀ {e f : Operation}, e.args.Relabelled σ f.args →
      f.inputs.length = e.inputs.length := fun hef => by
    simpa [Operation.args] using hef.bag.length_eq
  constructor
  · intro hm
    refine ⟨by rw [← hdeg, hm.outDeg, he.partyCnt], fun e hee => ?_,
      hparties.nodup_iff.1 hm.parties, fun e hee hev hsrc => ?_,
      (inputs_iff he hout).1 hm.inputs⟩
    · obtain ⟨f, hf, hef⟩ := hout.exists_right hee
      rw [← hlen hef, hm.lengths f hf, he.T]
    · obtain ⟨f, hf, hef⟩ := hout.exists_right hee
      rw [← hsource e hee f hef]
      rw [← hparty e hee f hf hef] at hsrc
      exact hm.sources f hf (hef.type.trans hev) hsrc
  · intro hm
    refine ⟨by rw [hdeg, hm.outDeg, he.partyCnt], fun f hf => ?_,
      hparties.nodup_iff.2 hm.parties, fun f hf hev hsrc => ?_,
      (inputs_iff he hout).2 hm.inputs⟩
    · obtain ⟨e, hee, hef⟩ := hout.exists_left hf
      rw [hlen hef, hm.lengths e hee, he.T]
    · obtain ⟨e, hee, hef⟩ := hout.exists_left hf
      rw [hsource e hee f hef]
      rw [hparty e hee f hf hef] at hsrc
      exact hm.sources e hee (hef.type.symm.trans hev) hsrc

/-- **The test for secrets answers the same** where the out-edges and the final
holders of the shares correspond. -/
theorem isRewritableSecret (hg : g.WellFormed) (hh : h.WellFormed)
    (hindex : σ v < h.nodeSize ↔ v < g.nodeSize) (src : Finset PartyDecl) :
    isRewritableSecret h (σ v) src = isRewritableSecret g v src := by
  by_cases hv : v < g.nodeSize
  · by_cases hT : g.T < g.partyCnt
    · have hv' : σ v < h.nodeSize := hindex.2 hv
      have hT' : h.T < h.partyCnt := by rwa [he.T, he.partyCnt]
      obtain ⟨b, hb⟩ := Option.isSome_iff_exists.1 (isSome_isRewritableSecret hg hT hv src)
      obtain ⟨c, hc⟩ := Option.isSome_iff_exists.1 (isSome_isRewritableSecret hh hT' hv' src)
      have hbm := isRewritableSecret_eq_true_iff hT hv src
      have hcm := isRewritableSecret_eq_true_iff hT' hv' src
      rw [hb, Option.some.injEq] at hbm
      rw [hc, Option.some.injEq] at hcm
      rw [hb, hc, Option.some.injEq, Bool.eq_iff_iff, hbm, hcm]
      exact sharingMatch_iff he hout ha
    · rw [Gauv.isRewritableSecret, Gauv.isRewritableSecret, he.T, he.partyCnt,
        if_neg (not_not.2 (hindex.2 hv)), if_pos hT, if_neg (not_not.2 hv), if_pos hT]
  · rw [Gauv.isRewritableSecret, Gauv.isRewritableSecret, if_pos (mt hindex.1 hv), if_pos hv]

end Secret

end Graph.EmbedsIn

end Gauv
