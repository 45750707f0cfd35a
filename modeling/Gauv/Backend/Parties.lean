import Gauv.Backend.Runs
import Gauv.Backend.Tail

/-!
# Transits and parties

A TRANSIT has one input, and every other edge stays at one party.  The rules
only link nodes of the edges they remove, so both survive every rewrite, and the
elimination loop only removes edges.
-/

namespace Gauv

open GraphBase

/-- All inputs of the edge are at the party of its output. -/
def Operation.IsLocal (f : Operation) : Prop := ∀ n ∈ f.inputs, n.party = f.output.party

namespace GraphBase

/-- Every TRANSIT moves one value. -/
def TransitUnary (g : GraphBase) : Prop :=
  ∀ f, g.HasEdge f → f.type = .transit → f.inputs.length = 1

/-- Every edge other than a TRANSIT stays at one party. -/
def LocalEdges (g : GraphBase) : Prop := ∀ f, g.HasEdge f → f.type ≠ .transit → f.IsLocal

end GraphBase

/-! ## Plans -/

/-- The turned edges are TRANSITs of one value, the computed ones are not
TRANSITs. -/
structure Plan.Typed (p : Plan) : Prop where
  op : p.op ≠ .transit
  turned : ∀ k ∈ p.turned, k.type = .transit ∧ k.inputs.length = 1

/-- The computed edges stay at one party. -/
def Plan.AtOneParty (p : Plan) : Prop :=
  ∃ party : PartyDecl, (∀ n ∈ p.srcs, n.party = party) ∧ ∀ n ∈ p.dsts, n.party = party

section Plans

variable {g : Graph} {p : Plan} {tr : Transformer}

/-- A typed plan keeps every TRANSIT at one input. -/
theorem Plan.transitUnary_result (hg : g.WellFormed) (hp : p.Valid g) (ht : p.Typed)
    (hu : g.TransitUnary) (team : ℕ) : (p.result team g).TransitUnary := by
  intro f hf hft
  rcases (Plan.hasEdge_result hg hp team).1 hf with ⟨hf, -⟩ | hf
  · exact hu f hf hft
  · obtain ⟨k, hk, htype, hin, -⟩ := exists_of_mem_makeShared hf
    rw [hin]
    rcases List.mem_append.1 hk with hk | hk
    · exact (ht.turned k hk).2
    · obtain ⟨d, -, rfl⟩ := List.mem_map.1 hk
      exact absurd (htype.symm.trans hft) ht.op

/-- A plan that computes at one party keeps every edge local. -/
theorem Plan.localEdges_result (hg : g.WellFormed) (hp : p.Valid g) (ht : p.Typed)
    (ho : p.AtOneParty) (hl : g.LocalEdges) (team : ℕ) : (p.result team g).LocalEdges := by
  obtain ⟨party, hsrcs, hdsts⟩ := ho
  intro f hf hft
  rcases (Plan.hasEdge_result hg hp team).1 hf with ⟨hf, -⟩ | hf
  · exact hl f hf hft
  · obtain ⟨k, hk, htype, hin, hout⟩ := exists_of_mem_makeShared hf
    intro n hn
    rw [hin] at hn
    rw [hout]
    rcases List.mem_append.1 hk with hk | hk
    · exact absurd (htype.trans (ht.turned k hk).1) hft
    · obtain ⟨d, hd, rfl⟩ := List.mem_map.1 hk
      rw [hsrcs n hn, hdsts d hd]

theorem SharingPlan.typed {order : IterOrder} {src : Finset PartyDecl} {node : Node} {v : ℕ}
    {srcs₀ dsts₀ : List Node} (h : SharingPlan order g src node v srcs₀ dsts₀ p) : p.Typed where
  op := by simp [h.op]
  turned := by
    intro k hk
    rw [h.turned, List.mem_flatMap] at hk
    obtain ⟨e, -, hk⟩ := hk
    obtain ⟨t, -, -, rfl⟩ := mem_sharingTurned.1 hk
    exact ⟨rfl, rfl⟩

/-- Every rule makes typed plans. -/
theorem PlanShape.typed (h : PlanShape g p tr) : p.Typed := by
  cases h with
  | addition _ _ _ hp =>
      rcases hp with rfl | rfl
      · exact ⟨by simp, by simp⟩
      · exact ⟨by simp, by simp⟩
  | sharing _ _ hp => exact hp.typed
  | randomSharing _ _ _ hp => exact hp.typed
  | reconstruction _ _ _ _ hp =>
      refine ⟨by simp [hp.op], fun k hk => ?_⟩
      rw [hp.turned, List.mem_flatMap] at hk
      obtain ⟨s, -, hk⟩ := hk
      obtain ⟨-, -, rfl⟩ := mem_operandTurned.1 hk
      exact ⟨rfl, rfl⟩

/-- The edges of a sharing are all at the party of the secret. -/
theorem SharingPlan.atOneParty (hg : g.WellFormed) (hl : g.LocalEdges) {order : IterOrder}
    {src : Finset PartyDecl} {node : Node} {v : ℕ} (hv : g.node? v = some node)
    {srcs₀ dsts₀ : List Node} (h₀ : ∀ n ∈ srcs₀ ++ dsts₀, n = node)
    (h : SharingPlan order g src node v srcs₀ dsts₀ p) : p.AtOneParty := by
  -- the secret is an input of each of its out-edges
  have hout : ∀ e ∈ g.outEdges v, e.output.party = node.party ∧
      ∀ n ∈ e.inputs, n.party = node.party := by
    intro e he
    obtain ⟨hedge, hin⟩ := hg.mem_outEdges.1 he
    have hloc := hl e hedge (by simp [h.isEval e he])
    obtain ⟨m, hm, hmv⟩ := hin
    have hmn : m = node := by
      have := hg.input_live hedge hm
      rw [hmv, hv] at this
      exact (Option.some.inj this).symm
    have hout : e.output.party = node.party := by rw [← hmn, hloc m hm]
    exact ⟨hout, fun n hn => (hloc n hn).trans hout⟩
  refine ⟨node.party, fun n hn => ?_, fun n hn => ?_⟩
  · rcases h.mem_srcs.1 hn with hn | ⟨e, he, -, rfl⟩
    · rw [h₀ n (List.mem_append_left _ hn)]
    · exact (hout e he).1
  · rcases h.of_mem_dsts hn with hn | ⟨e, he, ⟨hn, -⟩ | ⟨-, rfl⟩⟩
    · rw [h₀ n (List.mem_append_right _ hn)]
    · exact (hout e he).2 n hn
    · exact (hout e he).1

/-- Every rule computes at one party. -/
theorem PlanShape.atOneParty (hg : g.WellFormed) (hl : g.LocalEdges) (h : PlanShape g p tr) :
    p.AtOneParty := by
  cases h with
  | @addition edge src0 src1 he ht hin hp =>
      have hloc := hl edge he (by simp [ht])
      rw [Operation.IsLocal, hin, List.forall_mem_cons, List.forall_mem_singleton] at hloc
      refine ⟨edge.output.party, ?_⟩
      rcases hp with rfl | rfl
      · simp [hloc]
      · simp [hloc]
  | sharing hv _ hp => exact hp.atOneParty hg hl hv (by simp)
  | randomSharing _ hv _ hp => exact hp.atOneParty hg hl hv (by simp)
  | @reconstruction src order edge node he ht hv hm hp =>
      have hedge := hasEdge_of_inEdges he
      have hnode := hg.eq_output hedge hv
      have hloc := hl edge hedge (by simp [ht])
      refine ⟨edge.output.party, fun n hn => ?_, fun n hn => ?_⟩
      · rcases hp.mem_srcs.1 hn with rfl | ⟨hn, -⟩
        · rw [hnode]
        · exact hloc n hn
      · exact hloc n (hp.of_mem_dsts hn).1

end Plans

/-! ## Runs -/

namespace Prover

variable {g g' : Graph} {trs : List Transformer}

theorem Rewrites.transitUnary (h : Rewrites trs g g') (hg : g.WellFormed)
    (hu : g.TransitUnary) : g'.TransitUnary := by
  obtain ⟨tr, -, team, p, hp, rfl⟩ := h.shape hg
  exact Plan.transitUnary_result hg (hp.valid hg) hp.typed hu team

theorem Rewrites.localEdges (h : Rewrites trs g g') (hg : g.WellFormed) (hl : g.LocalEdges) :
    g'.LocalEdges := by
  obtain ⟨tr, -, team, p, hp, rfl⟩ := h.shape hg
  exact Plan.localEdges_result hg (hp.valid hg) hp.typed (hp.atOneParty hg hl) hl team

/-- The elimination loop adds no edge. -/
theorem TailVisited.hasEdge (hg : g.WellFormed)
    (hx : g.bubbleCnt = g.countBubble g.corruptedParties) {h : Graph} (hv : TailVisited g h)
    {f : Operation} (hf : h.HasEdge f) : g.HasEdge f := by
  induction hv with
  | start => exact hf
  | @step h h' hv hs ih =>
      have hwf := (tailInvariant hg hx hv).wellFormed
      obtain ⟨n, hn, -, rfl⟩ := exists_of_tailStep hwf hs
      exact ih ((Graph.hasEdge_eliminateNode hwf hn.live).1 hf).1

end Prover

end Gauv
