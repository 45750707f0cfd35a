import Gauv.Backend.Rewrite

/-!
# What a match establishes

The rules look for patterns with loops that leave early.  Here is what each
pattern has established when it succeeds, and from it that every plan a
transformer makes on a well-formed graph is valid: it removes distinct edges of
the graph and links live nodes.
-/

namespace Gauv

open GraphBase

/-! ## Small facts about the plan ingredients -/

theorem mem_of_mem_insertNodes {l : List Node} {n : Node} (h : n ∈ insertNodes l) : n ∈ l := by
  induction l with
  | nil => exact h
  | cons a l ih =>
      rw [insertNodes, List.foldr_cons, ← insertNodes] at h
      split at h
      · exact List.mem_cons_of_mem _ (ih h)
      · rcases List.mem_cons.1 h with rfl | h
        · exact List.mem_cons_self ..
        · exact List.mem_cons_of_mem _ (ih h)

/-- Every inserted node has a representative with its guid. -/
theorem exists_mem_insertNodes {l : List Node} {n : Node} (h : n ∈ l) :
    ∃ m ∈ insertNodes l, m.guid = n.guid := by
  induction l with
  | nil => exact absurd h List.not_mem_nil
  | cons a l ih =>
      rw [insertNodes, List.foldr_cons, ← insertNodes]
      rcases List.mem_cons.1 h with rfl | h
      · split
        · rename_i hany
          obtain ⟨m, hm, hmg⟩ := List.any_eq_true.1 hany
          exact ⟨m, hm, beq_iff_eq.1 hmg⟩
        · exact ⟨n, List.mem_cons_self .., rfl⟩
      · obtain ⟨m, hm, hmg⟩ := ih h
        split
        · exact ⟨m, hm, hmg⟩
        · exact ⟨m, List.mem_cons_of_mem _ hm, hmg⟩

/-- A set of pointers holds each node once. -/
theorem nodup_insertNodes (l : List Node) : ((insertNodes l).map Node.guid).Nodup := by
  induction l with
  | nil => exact List.nodup_nil
  | cons a l ih =>
      rw [insertNodes, List.foldr_cons, ← insertNodes]
      split
      · exact ih
      · rename_i hany
        rw [List.map_cons, List.nodup_cons]
        refine ⟨fun hmem => hany ?_, ih⟩
        obtain ⟨m, hm, hmg⟩ := List.mem_map.1 hmem
        exact List.any_eq_true.2 ⟨m, hm, beq_iff_eq.2 hmg⟩

/-- The only edge of the list, if there is exactly one and it is a TRANSIT. -/
def soleTransit (l : List Operation) : Option Operation :=
  match l with
  | [e] => if e.type = .transit then some e else none
  | _ => none

theorem soleTransit_eq_some {l : List Operation} {t : Operation} :
    soleTransit l = some t ↔ l = [t] ∧ t.type = .transit := by
  rcases l with _ | ⟨e, _ | ⟨f, l⟩⟩
  · simp [soleTransit]
  · by_cases ht : e.type = .transit
    · simp only [soleTransit, if_pos ht, Option.some.injEq, List.cons.injEq, and_true]
      exact ⟨fun h => ⟨h, h ▸ ht⟩, fun h => h.1⟩
    · simp only [soleTransit, if_neg ht, List.cons.injEq, and_true]
      exact iff_of_false (by simp) fun h => ht (h.1 ▸ h.2)
  · simp [soleTransit]

namespace GraphBase

variable {g : GraphBase} {share : Node} {t : Operation}

/-- A share is sent on when its only out-edge is a TRANSIT. -/
theorem transitOut_eq_some :
    g.transitOut share = some t ↔ g.outEdges share.guid = [t] ∧ t.type = .transit :=
  soleTransit_eq_some

/-- A share was sent when its only in-edge is a TRANSIT. -/
theorem transitIn_eq_some :
    g.transitIn share = some t ↔ g.inEdges share.guid = [t] ∧ t.type = .transit :=
  soleTransit_eq_some

theorem mem_outEdges_of_transitOut (h : g.transitOut share = some t) :
    t ∈ g.outEdges share.guid := by
  rw [(transitOut_eq_some.1 h).1]
  exact List.mem_singleton_self t

theorem mem_inEdges_of_transitIn (h : g.transitIn share = some t) :
    t ∈ g.inEdges share.guid := by
  rw [(transitIn_eq_some.1 h).1]
  exact List.mem_singleton_self t

end GraphBase

/-! ## The sharing pattern -/

/-- The party at which the share of an EVAL edge ends. -/
def shareParty (g : Graph) (e : Operation) : PartyDecl := (g.afterTransit e.output).party

/-- What the loop of `isRewritableSecret` has checked when it runs to its end. -/
structure ScanChecked (g : Graph) (src : Finset PartyDecl) (edges : List Operation)
    (ids : Finset ℕ) (parties : Finset PartyDecl) (S : Finset ℕ) : Prop where
  lengths : ∀ e ∈ edges, e.inputs.length = g.T + 1
  ids_iff : ∀ i, i ∈ S ↔ i ∈ ids ∨ ∃ e ∈ edges, i ∈ e.inputs.map Node.guid
  parties_nodup : ((edges.filter (fun e => e.type = .eval)).map (shareParty g)).Nodup
  parties_new : ∀ e ∈ edges, e.type = .eval → shareParty g e ∉ parties
  sources : ∀ e ∈ edges, e.type = .eval → shareParty g e ∈ src →
    g.inDeg (g.afterTransit e.output).guid = 1

/-- What the loop over the out-edges has checked when it ends. -/
theorem scanOutEdges_checked {g : Graph} {src : Finset PartyDecl} {edges : List Operation}
    {ids : Finset ℕ} {parties : Finset PartyDecl} {S : Finset ℕ}
    (h : scanOutEdges g src edges ids parties = some (some S)) :
    ScanChecked g src edges ids parties S := by
  induction edges generalizing ids parties with
  | nil =>
      simp only [scanOutEdges, Option.some.injEq] at h
      subst h
      exact ⟨by simp, by simp, by simp, by simp, by simp⟩
  | cons e edges ih =>
      rw [scanOutEdges] at h
      by_cases hlen : e.inputs.length ≠ g.T + 1
      · rw [if_pos hlen] at h
        exact absurd h (by simp)
      rw [if_neg hlen] at h
      simp only [show (g.afterTransit e.output).party = shareParty g e from rfl] at h
      have hids : ∀ {P : Finset PartyDecl},
          ScanChecked g src edges (ids ∪ (e.inputs.map Node.guid).toFinset) P S →
          ∀ i, i ∈ S ↔ i ∈ ids ∨ ∃ f ∈ e :: edges, i ∈ f.inputs.map Node.guid := by
        intro P hP i
        rw [hP.ids_iff, Finset.mem_union, List.mem_toFinset]
        simp only [List.mem_cons, exists_eq_or_imp, or_assoc]
      have hlens : ∀ {P : Finset PartyDecl} {I : Finset ℕ}, ScanChecked g src edges I P S →
          ∀ f ∈ e :: edges, f.inputs.length = g.T + 1 := by
        intro P I hP f hf
        rcases List.mem_cons.1 hf with rfl | hf
        · exact not_not.1 hlen
        · exact hP.lengths f hf
      by_cases hev : e.type = .eval
      · rw [if_pos hev] at h
        by_cases hp : shareParty g e ∈ parties
        · rw [if_pos hp] at h
          exact absurd h (by simp)
        rw [if_neg hp] at h
        -- whichever way the check on source parties went, the scan continued
        have hrec : scanOutEdges g src edges (ids ∪ (e.inputs.map Node.guid).toFinset)
              (insert (shareParty g e) parties) = some (some S) ∧
            (shareParty g e ∈ src → g.inDeg (g.afterTransit e.output).guid = 1) := by
          by_cases hs : shareParty g e ∈ src
          · rw [if_pos hs] at h
            by_cases h0 : g.inDeg (g.afterTransit e.output).guid = 0
            · rw [if_pos h0] at h
              exact absurd h (by simp)
            rw [if_neg h0] at h
            by_cases h1 : g.inDeg (g.afterTransit e.output).guid > 1
            · rw [if_pos h1] at h
              exact absurd h (by simp)
            rw [if_neg h1] at h
            exact ⟨h, fun _ => by omega⟩
          · rw [if_neg hs] at h
            exact ⟨h, fun hs' => absurd hs' hs⟩
        have hc := ih hrec.1
        refine ⟨hlens hc, hids hc, ?_, ?_, ?_⟩
        · rw [List.filter_cons_of_pos (by simpa using hev), List.map_cons, List.nodup_cons]
          refine ⟨fun hmem => ?_, hc.parties_nodup⟩
          obtain ⟨f, hf, hfe⟩ := List.mem_map.1 hmem
          obtain ⟨hf, hfev⟩ := List.mem_filter.1 hf
          exact hc.parties_new f hf (by simpa using hfev) (hfe ▸ Finset.mem_insert_self _ _)
        · intro f hf hfev
          rcases List.mem_cons.1 hf with rfl | hf
          · exact hp
          · exact fun hmem => hc.parties_new f hf hfev (Finset.mem_insert_of_mem hmem)
        · intro f hf hfev
          rcases List.mem_cons.1 hf with rfl | hf
          · exact hrec.2
          · exact hc.sources f hf hfev
      · rw [if_neg hev] at h
        have hc := ih h
        refine ⟨hlens hc, hids hc, ?_, ?_, ?_⟩
        · rw [List.filter_cons_of_neg (by simpa using hev)]
          exact hc.parties_nodup
        · intro f hf hfev
          rcases List.mem_cons.1 hf with rfl | hf
          · exact absurd hfev hev
          · exact hc.parties_new f hf hfev
        · intro f hf hfev
          rcases List.mem_cons.1 hf with rfl | hf
          · exact absurd hfev hev
          · exact hc.sources f hf hfev

/-- The node `v` is the secret of a sharing that the rules may rewrite. -/
structure SharingMatch (g : Graph) (src : Finset PartyDecl) (v : ℕ) : Prop where
  outDeg : g.outDeg v = g.partyCnt
  lengths : ∀ e ∈ g.outEdges v, e.inputs.length = g.T + 1
  parties : (((g.outEdges v).filter (fun e => e.type = .eval)).map (shareParty g)).Nodup
  sources : ∀ e ∈ g.outEdges v, e.type = .eval → shareParty g e ∈ src →
    g.inDeg (g.afterTransit e.output).guid = 1
  /-- All out-edges have the same `T + 1` inputs, random but for `v`. -/
  inputs : ∃ S : Finset ℕ, S.card = g.T + 1 ∧ v ∈ S ∧
    (∀ i, i ∈ S ↔ ∃ e ∈ g.outEdges v, i ∈ e.inputs.map Node.guid) ∧
    ∀ i ∈ S, i ≠ v → g.isRandomNode i = true

/-- **The test for secrets is sound**: a node that passes is the centre of a match. -/
theorem sharingMatch_of_isRewritableSecret {g : Graph} {src : Finset PartyDecl} {v : ℕ}
    (h : isRewritableSecret g v src = some true) : SharingMatch g src v := by
  rw [isRewritableSecret] at h
  split at h
  · exact absurd h (by simp)
  split at h
  · exact absurd h (by simp)
  split at h
  · exact absurd h (by simp)
  rename_i hdeg
  simp only [Option.bind_eq_bind, Option.bind_eq_some_iff] at h
  obtain ⟨r, hr, h⟩ := h
  cases r with
  | none => exact absurd h (by simp)
  | some S =>
      have hc := scanOutEdges_checked hr
      simp only at h
      split at h
      · exact absurd h (by simp)
      split at h
      · exact absurd h (by simp)
      rename_i hcard hv
      simp only [Option.some.injEq, decide_eq_true_eq] at h
      refine ⟨not_not.1 hdeg, hc.lengths, hc.parties_nodup, hc.sources, S, not_not.1 hcard,
        not_not.1 hv, fun i => ?_, h⟩
      rw [hc.ids_iff]
      simp

/-! ### The plan of a sharing -/

/-- An EVAL edge goes, and with it the TRANSIT of its share to a source party. -/
theorem mem_sharingEliminated {g : Graph} {src : Finset PartyDecl} {e f : Operation} :
    f ∈ sharingEliminated g src e ↔
      f = e ∨ ∃ t, g.transitOut e.output = some t ∧ t.output.party ∈ src ∧ f = t := by
  rw [sharingEliminated]
  cases ht : g.transitOut e.output with
  | none => simp
  | some t =>
      simp only [Option.some.injEq, exists_eq_left']
      by_cases hs : t.output.party ∈ src
      · simp [hs]
      · simp [hs]

/-- That TRANSIT is turned round. -/
theorem mem_sharingTurned {g : Graph} {src : Finset PartyDecl} {e : Operation} {n : NewEdge} :
    n ∈ sharingTurned g src e ↔ ∃ t, g.transitOut e.output = some t ∧ t.output.party ∈ src ∧
      n = ⟨.transit, [t.output], e.output⟩ := by
  rw [sharingTurned]
  cases ht : g.transitOut e.output with
  | none => simp
  | some t =>
      simp only [Option.some.injEq, exists_eq_left']
      by_cases hs : t.output.party ∈ src
      · simp [hs]
      · simp [hs]

theorem shareParty_of_transitOut {g : Graph} {e t : Operation}
    (h : g.transitOut e.output = some t) : shareParty g e = t.output.party := by
  rw [shareParty, afterTransit, h]

/-- What a plan made by `planSharing` looks like. -/
structure SharingPlan (order : IterOrder) (g : Graph) (src : Finset PartyDecl) (node : Node)
    (v : ℕ) (srcs₀ dsts₀ : List Node) (p : Plan) : Prop where
  isEval : ∀ e ∈ g.outEdges v, e.type = .eval
  node_eq : p.node = node
  eliminated : p.edgesToEliminate = (g.outEdges v).flatMap (sharingEliminated g src)
  turned : p.turned = (g.outEdges v).flatMap (sharingTurned g src)
  op : p.op = .eval
  srcs : p.srcs = srcs₀ ++ ((g.outEdges v).filter (isSourceShare g src)).map Operation.output
  dsts : p.dsts = order.run
    (insertNodes (dsts₀ ++ (g.outEdges v).flatMap (sharingDsts g src v)))
  dsts_length : p.dsts.length = g.partyCnt

/-- What a sharing plan holds, once the assertions have passed. -/
theorem sharingPlan_of_planSharing {order : IterOrder} {g : Graph} {src : Finset PartyDecl}
    {node : Node} {v : ℕ} {srcs₀ dsts₀ : List Node} {p : Plan}
    (h : planSharing order g src node v srcs₀ dsts₀ = some p) :
    SharingPlan order g src node v srcs₀ dsts₀ p := by
  rw [planSharing] at h
  simp only at h
  split at h
  · rename_i hall
    split at h
    · rename_i hlen
      cases h
      refine ⟨?_, rfl, rfl, rfl, rfl, rfl, rfl, ?_⟩
      · simpa using hall
      · exact (order.perm _).length_eq.trans hlen
    · exact absurd h (by simp)
  · exact absurd h (by simp)

namespace SharingPlan

variable {order : IterOrder} {g : Graph} {src : Finset PartyDecl} {node : Node} {v : ℕ}
  {srcs₀ dsts₀ : List Node} {p : Plan}

/-- Different EVAL edges of the match have their shares at different parties. -/
theorem eq_of_shareParty (h : SharingPlan order g src node v srcs₀ dsts₀ p)
    (hm : SharingMatch g src v) {e f : Operation} (he : e ∈ g.outEdges v)
    (hf : f ∈ g.outEdges v) (hp : shareParty g e = shareParty g f) : e = f := by
  refine List.inj_on_of_nodup_map hm.parties ?_ ?_ hp
  · exact List.mem_filter.2 ⟨he, by simpa using h.isEval e he⟩
  · exact List.mem_filter.2 ⟨hf, by simpa using h.isEval f hf⟩

/-- The match has each of its edges once. -/
theorem nodup_outEdges (h : SharingPlan order g src node v srcs₀ dsts₀ p)
    (hm : SharingMatch g src v) : (g.outEdges v).Nodup := by
  have := hm.parties.of_map
  rwa [List.filter_eq_self.2 fun e he => by simpa using h.isEval e he] at this

/-- The edges a plan eliminates are different edges of the graph. -/
theorem removable (h : SharingPlan order g src node v srcs₀ dsts₀ p)
    (hm : SharingMatch g src v) (hg : g.WellFormed) : g.Removable p.edgesToEliminate where
  nodup := by
    rw [h.eliminated, List.nodup_flatMap]
    constructor
    · intro e he
      rw [sharingEliminated]
      split
      · rename_i t ht
        split
        · have hne : e ≠ t := by
            rintro rfl
            have := (transitOut_eq_some.1 ht).2
            rw [h.isEval e he] at this
            exact absurd this (by decide)
          simp [hne]
        · exact List.nodup_singleton e
      · exact List.nodup_singleton e
    · refine (h.nodup_outEdges hm).imp_of_mem fun {e f} he hf hne => ?_
      intro k hke hkf
      rcases mem_sharingEliminated.1 hke with rfl | ⟨t, ht, -, rfl⟩ <;>
        rcases mem_sharingEliminated.1 hkf with rfl | ⟨t', ht', -, rfl⟩
      · exact hne rfl
      · have := (transitOut_eq_some.1 ht').2
        rw [h.isEval k he] at this
        exact absurd this (by decide)
      · have := (transitOut_eq_some.1 ht).2
        rw [h.isEval k hf] at this
        exact absurd this (by decide)
      · refine hne (h.eq_of_shareParty hm he hf ?_)
        rw [shareParty_of_transitOut ht, shareParty_of_transitOut ht']
  present := by
    intro k hk
    rw [h.eliminated, List.mem_flatMap] at hk
    obtain ⟨e, he, hke⟩ := hk
    rcases mem_sharingEliminated.1 hke with rfl | ⟨t, ht, -, rfl⟩
    · exact (hg.mem_outEdges.1 he).1
    · exact (hg.mem_outEdges.1 (mem_outEdges_of_transitOut ht)).1

/-- Where the sources of the new edges come from. -/
theorem mem_srcs (h : SharingPlan order g src node v srcs₀ dsts₀ p) {n : Node} :
    n ∈ p.srcs ↔ n ∈ srcs₀ ∨ ∃ e ∈ g.outEdges v, isSourceShare g src e = true ∧ e.output = n := by
  rw [h.srcs, List.mem_append, List.mem_map]
  simp only [List.mem_filter, and_assoc]

/-- Where the destinations of the new edges come from. -/
theorem of_mem_dsts (h : SharingPlan order g src node v srcs₀ dsts₀ p) {n : Node}
    (hn : n ∈ p.dsts) : n ∈ dsts₀ ∨ ∃ e ∈ g.outEdges v,
      (n ∈ e.inputs ∧ n.guid ≠ v) ∨ (isSourceShare g src e = false ∧ n = e.output) := by
  rw [h.dsts, (order.perm _).mem_iff] at hn
  rcases List.mem_append.1 (mem_of_mem_insertNodes hn) with hn | hn
  · exact Or.inl hn
  · obtain ⟨e, he, hn⟩ := List.mem_flatMap.1 hn
    refine Or.inr ⟨e, he, ?_⟩
    rw [sharingDsts, List.mem_append] at hn
    rcases hn with hn | hn
    · exact Or.inl (by simpa using hn)
    · split at hn
      · exact absurd hn List.not_mem_nil
      · rename_i hs
        exact Or.inr ⟨by simpa using hs, List.mem_singleton.1 hn⟩

/-- **The plan of a match is valid.** -/
theorem valid (h : SharingPlan order g src node v srcs₀ dsts₀ p) (hm : SharingMatch g src v)
    (hg : g.WellFormed) (h₀ : ∀ n ∈ srcs₀ ++ dsts₀, g.node? n.guid = some n) : p.Valid g where
  removable := h.removable hm hg
  live := by
    have hout : ∀ e ∈ g.outEdges v, g.HasEdge e := fun e he => (hg.mem_outEdges.1 he).1
    intro k hk n hn
    rcases List.mem_append.1 hk with hk | hk
    · rw [h.turned, List.mem_flatMap] at hk
      obtain ⟨e, he, hk⟩ := hk
      obtain ⟨t, ht, -, rfl⟩ := mem_sharingTurned.1 hk
      simp only [List.mem_cons, List.not_mem_nil, or_false] at hn
      rcases hn with rfl | rfl
      · exact hg.output_live (hout e he)
      · exact hg.output_live (hg.mem_outEdges.1 (mem_outEdges_of_transitOut ht)).1
    · obtain ⟨d, hd, rfl⟩ := List.mem_map.1 hk
      rcases List.mem_cons.1 hn with rfl | hn
      · rcases h.of_mem_dsts hd with hd | ⟨e, he, ⟨hd, -⟩ | ⟨-, rfl⟩⟩
        · exact h₀ _ (List.mem_append_right _ hd)
        · exact hg.input_live (hout e he) hd
        · exact hg.output_live (hout e he)
      · rcases h.mem_srcs.1 hn with hn | ⟨e, he, -, rfl⟩
        · exact h₀ _ (List.mem_append_left _ hn)
        · exact hg.output_live (hout e he)

end SharingPlan

/-! ## The reconstruction pattern -/

/-- A TRANSIT that passes the assertion has the origin of its share as its only
input. -/
theorem inputs_of_transitIn {g : GraphBase} {s : Node} {t : Operation}
    (ht : g.transitIn s = some t) (hs : (g.beforeTransit s).isSome) : t.inputs = [g.origin s] := by
  rw [origin]
  rw [beforeTransit, ht] at hs ⊢
  simp only at hs ⊢
  split at hs
  · rename_i b hb
    rw [hb]
    simp
  · exact absurd hs (by simp)

theorem origin_of_transitIn_none {g : GraphBase} {s : Node} (ht : g.transitIn s = none) :
    g.origin s = s := by
  rw [origin, beforeTransit, ht]
  rfl

/-- What the loop of `isRewritableReconstruction` has checked when it runs to
its end. -/
structure OperandsChecked (g : Graph) (shares : List Node) (parties : Finset PartyDecl) :
    Prop where
  asserted : ∀ s ∈ shares, (g.beforeTransit s).isSome
  nodup : (shares.map fun s => (g.origin s).party).Nodup
  new : ∀ s ∈ shares, (g.origin s).party ∉ parties

/-- What the loop over the operands has checked when it ends. -/
theorem scanOperands_checked {g : Graph} {src : Finset PartyDecl} {shares : List Node}
    {parties : Finset PartyDecl} {k m : ℕ}
    (h : scanOperands g src shares parties k = some (some m)) :
    OperandsChecked g shares parties := by
  induction shares generalizing parties k with
  | nil => exact ⟨by simp, by simp, by simp⟩
  | cons s shares ih =>
      rw [scanOperands] at h
      simp only [Option.bind_eq_bind, Option.bind_eq_some_iff] at h
      obtain ⟨b, hb, h⟩ := h
      have horigin : g.origin s = b := by rw [origin, hb]; rfl
      by_cases hp : b.party ∈ parties
      · rw [if_pos hp] at h
        exact absurd h (by simp)
      rw [if_neg hp] at h
      have hc := ih h
      refine ⟨?_, ?_, ?_⟩
      · intro s' hs'
        rcases List.mem_cons.1 hs' with rfl | hs'
        · rw [hb]
          rfl
        · exact hc.asserted s' hs'
      · rw [List.map_cons, List.nodup_cons]
        refine ⟨fun hmem => ?_, hc.nodup⟩
        obtain ⟨s', hs', hps⟩ := List.mem_map.1 hmem
        refine hc.new s' hs' ?_
        rw [hps, horigin]
        exact Finset.mem_insert_self _ _
      · intro s' hs'
        rcases List.mem_cons.1 hs' with rfl | hs'
        · rwa [horigin]
        · exact fun hmem => hc.new s' hs' (Finset.mem_insert_of_mem hmem)

/-- The reconstruction may be reversed: one operand for each party. -/
structure ReconstructionMatch (g : Graph) (edge : Operation) : Prop where
  length : edge.inputs.length = g.partyCnt
  asserted : ∀ s ∈ edge.inputs, (g.beforeTransit s).isSome
  parties : (edge.inputs.map fun s => (g.origin s).party).Nodup

/-- **The test for openings is sound.** -/
theorem reconstructionMatch_of_isRewritableReconstruction {g : Graph}
    {src : Finset PartyDecl} {edge : Operation}
    (h : isRewritableReconstruction g src edge = some true) : ReconstructionMatch g edge := by
  rw [isRewritableReconstruction] at h
  split at h
  · exact absurd h (by simp)
  rename_i hlen
  simp only [Option.bind_eq_bind, Option.bind_eq_some_iff] at h
  obtain ⟨r, hr, h⟩ := h
  cases r with
  | none => exact absurd h (by simp)
  | some m =>
      have hc := scanOperands_checked hr
      exact ⟨not_not.1 hlen, hc.asserted, hc.nodup⟩

/-! ### The plan of a reconstruction -/

/-- What a plan made by `planReconstruction` looks like. -/
structure ReconstructionPlan (order : IterOrder) (g : Graph) (src : Finset PartyDecl)
    (node : Node) (edge : Operation) (p : Plan) : Prop where
  node_eq : p.node = node
  eliminated : p.edgesToEliminate = edge :: edge.inputs.flatMap (operandEliminated g src)
  turned : p.turned = edge.inputs.flatMap (operandTurned g src)
  op : p.op = .eval
  srcs : p.srcs = node :: edge.inputs.filter (isSourceOperand g src)
  dsts : p.dsts = order.run
    (insertNodes (edge.inputs.filter (fun s => !isSourceOperand g src s)))

/-- What an opening plan holds, once the assertions have passed. -/
theorem reconstructionPlan_of_planReconstruction {order : IterOrder} {g : Graph}
    {src : Finset PartyDecl} {node : Node} {edge : Operation} {p : Plan}
    (h : planReconstruction order g src node edge = some p) :
    ReconstructionPlan order g src node edge p := by
  rw [planReconstruction] at h
  simp only at h
  split at h
  · split at h
    · cases h
      exact ⟨rfl, rfl, rfl, rfl, rfl, rfl⟩
    · exact absurd h (by simp)
  · exact absurd h (by simp)

/-- A destination loses the TRANSIT it came by. -/
theorem mem_operandEliminated {g : Graph} {src : Finset PartyDecl} {s : Node} {f : Operation} :
    f ∈ operandEliminated g src s ↔ isSourceOperand g src s = false ∧ g.transitIn s = some f := by
  rw [operandEliminated]
  cases isSourceOperand g src s <;> simp

/-- That TRANSIT is turned round. -/
theorem mem_operandTurned {g : Graph} {src : Finset PartyDecl} {s : Node} {n : NewEdge} :
    n ∈ operandTurned g src s ↔ isSourceOperand g src s = false ∧
      (∃ t, g.transitIn s = some t) ∧ n = ⟨.transit, [s], g.origin s⟩ := by
  rw [operandTurned]
  cases isSourceOperand g src s
  · cases g.transitIn s <;> simp
  · simp

namespace ReconstructionPlan

variable {order : IterOrder} {g : Graph} {src : Finset PartyDecl} {node : Node}
  {edge : Operation} {p : Plan}

theorem removable (h : ReconstructionPlan order g src node edge p)
    (hm : ReconstructionMatch g edge) (hg : g.WellFormed) (he : g.HasEdge edge)
    (ht : edge.type = .reconstruct) : g.Removable p.edgesToEliminate where
  nodup := by
    rw [h.eliminated, List.nodup_cons, List.nodup_flatMap]
    refine ⟨fun hmem => ?_, ?_, ?_⟩
    · obtain ⟨s, -, hs⟩ := List.mem_flatMap.1 hmem
      have := (transitIn_eq_some.1 (mem_operandEliminated.1 hs).2).2
      rw [ht] at this
      exact absurd this (by decide)
    · intro s _
      rw [operandEliminated]
      split
      · exact List.nodup_nil
      · cases g.transitIn s <;> simp
    · refine hm.parties.of_map.imp_of_mem fun {s s'} hs hs' hne => ?_
      intro k hk hk'
      -- one TRANSIT cannot end at two operands
      have h₁ := (hg.mem_inEdges.1 (mem_inEdges_of_transitIn (mem_operandEliminated.1 hk).2)).2
      have h₂ := (hg.mem_inEdges.1 (mem_inEdges_of_transitIn (mem_operandEliminated.1 hk').2)).2
      exact hne (eq_of_guid (hg.input_live he hs) (hg.input_live he hs') (h₁.symm.trans h₂))
  present := by
    intro k hk
    rw [h.eliminated] at hk
    rcases List.mem_cons.1 hk with rfl | hk
    · exact he
    · obtain ⟨s, -, hs⟩ := List.mem_flatMap.1 hk
      exact (hg.mem_inEdges.1 (mem_inEdges_of_transitIn (mem_operandEliminated.1 hs).2)).1

/-- The sources are the opened node and the shares of source parties. -/
theorem mem_srcs (h : ReconstructionPlan order g src node edge p) {n : Node} :
    n ∈ p.srcs ↔ n = node ∨ n ∈ edge.inputs ∧ isSourceOperand g src n = true := by
  rw [h.srcs, List.mem_cons, List.mem_filter]

/-- The destinations are the other shares. -/
theorem of_mem_dsts (h : ReconstructionPlan order g src node edge p) {n : Node}
    (hn : n ∈ p.dsts) : n ∈ edge.inputs ∧ isSourceOperand g src n = false := by
  rw [h.dsts, (order.perm _).mem_iff] at hn
  simpa using List.mem_filter.1 (mem_of_mem_insertNodes hn)

theorem valid (h : ReconstructionPlan order g src node edge p) (hm : ReconstructionMatch g edge)
    (hg : g.WellFormed) (he : g.HasEdge edge) (ht : edge.type = .reconstruct)
    (hnode : g.node? edge.output.guid = some node) : p.Valid g where
  removable := h.removable hm hg he ht
  live := by
    have hn₀ := hg.eq_output he hnode
    intro k hk n hn
    rcases List.mem_append.1 hk with hk | hk
    · rw [h.turned, List.mem_flatMap] at hk
      obtain ⟨s, hs, hk⟩ := hk
      obtain ⟨-, ⟨t, hst⟩, rfl⟩ := mem_operandTurned.1 hk
      have htin := inputs_of_transitIn hst (hm.asserted s hs)
      simp only [List.mem_cons, List.not_mem_nil, or_false] at hn
      rcases hn with rfl | rfl
      · refine hg.input_live (hg.mem_inEdges.1 (mem_inEdges_of_transitIn hst)).1 ?_
        rw [htin]
        exact List.mem_singleton_self _
      · exact hg.input_live he hs
    · obtain ⟨d, hd, rfl⟩ := List.mem_map.1 hk
      rcases List.mem_cons.1 hn with rfl | hn
      · exact hg.input_live he (h.of_mem_dsts hd).1
      · rcases h.mem_srcs.1 hn with rfl | ⟨hn, -⟩
        · rw [hn₀]
          exact hg.output_live he
        · exact hg.input_live he hn

end ReconstructionPlan

/-! ## The transformers -/

/-- The four kinds of match, each with the data it is about. -/
inductive PlanShape (g : Graph) (p : Plan) : Transformer → Prop where
  /-- The node gains an in-edge that subtracts the other operand. -/
  | addition {edge : Operation} {src0 src1 : Node} (he : g.HasEdge edge)
      (ht : edge.type = .add) (hin : edge.inputs = [src0, src1])
      (hp : p = ⟨edge.output, [edge], [], .sub, [edge.output, src1], [src0]⟩ ∨
        p = ⟨edge.output, [edge], [], .sub, [edge.output, src0], [src1]⟩) :
      PlanShape g p .addition
  | sharing {src : Finset PartyDecl} {order : IterOrder} {v : ℕ} {node : Node}
      (hv : g.node? v = some node) (hm : SharingMatch g src v)
      (hp : SharingPlan order g src node v [node] [] p) : PlanShape g p (.sharing src)
  | randomSharing {src : Finset PartyDecl} {order : IterOrder} {v : ℕ} {node : Node}
      (hr : g.isRandomNode v = true) (hv : g.node? v = some node) (hm : SharingMatch g src v)
      (hp : SharingPlan order g src node v [] [node] p) : PlanShape g p (.randomSharing src)
  | reconstruction {src : Finset PartyDecl} {order : IterOrder} {edge : Operation} {node : Node}
      (he : g.inEdges edge.output.guid = [edge]) (ht : edge.type = .reconstruct)
      (hv : g.node? edge.output.guid = some node) (hm : ReconstructionMatch g edge)
      (hp : ReconstructionPlan order g src node edge p) : PlanShape g p (.reconstruction src)

/-- Every plan of a transformer on a well-formed graph is one of the four kinds. -/
theorem planShape_of_mem_plans {g : Graph} (hg : g.WellFormed) {order : ℕ → IterOrder}
    {tr : Transformer} {ps : List Plan} (h : tr.plans order g = some ps) {p : Plan}
    (hp : p ∈ ps) : PlanShape g p tr := by
  cases tr with
  | addition =>
      obtain ⟨v, -, r, hr, hpr⟩ := exists_of_mem_collect h hp
      obtain ⟨edge, hedge, r', hr', hpr'⟩ := exists_of_mem_collect hr hpr
      have he := hg.mem_inEdges.1 hedge
      rw [reverseAddition] at hr'
      split at hr'
      · rename_i ht
        split at hr'
        · rename_i src0 src1 hin
          simp only at hr'
          split at hr'
          · cases hr'
            refine .addition he.1 ht hin ?_
            simpa using hpr'
          · exact absurd hr' (by simp)
        · exact absurd hr' (by simp)
      · cases hr'
        exact absurd hpr' List.not_mem_nil
  | sharing src =>
      obtain ⟨v, -, r, hr, hpr⟩ := exists_of_mem_collect h hp
      rw [SharingTransformer.planAt] at hr
      obtain ⟨hb, node, hv, hp'⟩ := exists_of_mem_checked hr hpr
      exact .sharing hv (sharingMatch_of_isRewritableSecret hb) (sharingPlan_of_planSharing hp')
  | randomSharing src =>
      obtain ⟨v, -, r, hr, hpr⟩ := exists_of_mem_collect h hp
      rw [RandomSharingTransformer.planAt] at hr
      split at hr
      · rename_i hrand
        obtain ⟨hb, node, hv, hp'⟩ := exists_of_mem_checked hr hpr
        exact .randomSharing hrand hv (sharingMatch_of_isRewritableSecret hb)
          (sharingPlan_of_planSharing hp')
      · cases hr
        exact absurd hpr List.not_mem_nil
  | reconstruction src =>
      obtain ⟨v, -, r, hr, hpr⟩ := exists_of_mem_collect h hp
      rw [ReconstructionTransformer.planAt] at hr
      split at hr
      · rename_i edge hin
        have hmem : edge ∈ g.inEdges v := by
          rw [hin]
          exact List.mem_singleton_self edge
        obtain ⟨-, rfl⟩ := hg.mem_inEdges.1 hmem
        split at hr
        · rename_i ht
          obtain ⟨hb, node, hv, hp'⟩ := exists_of_mem_checked hr hpr
          exact .reconstruction hin ht hv (reconstructionMatch_of_isRewritableReconstruction hb)
            (reconstructionPlan_of_planReconstruction hp')
        · cases hr
          exact absurd hpr List.not_mem_nil
      · cases hr
        exact absurd hpr List.not_mem_nil

/-- Every plan of a transformer on a well-formed graph is valid. -/
theorem PlanShape.valid {g : Graph} {p : Plan} {tr : Transformer} (hg : g.WellFormed)
    (h : PlanShape g p tr) : p.Valid g := by
  have hnode : ∀ {i n}, g.node? i = some n → g.node? n.guid = some n := fun h => by
    rw [hg.guid_eq h]
    exact h
  cases h with
  | @addition edge src0 src1 he ht hin hp =>
      have h0 : g.node? src0.guid = some src0 := hg.input_live he (by simp [hin])
      have h1 : g.node? src1.guid = some src1 := hg.input_live he (by simp [hin])
      have hd := hg.output_live he
      have hrem : g.Removable [edge] := ⟨List.nodup_singleton _, by simpa using he⟩
      rcases hp with rfl | rfl
      · exact ⟨hrem, by simp [Plan.edgesToAdd, Plan.computed, h0, h1, hd]⟩
      · exact ⟨hrem, by simp [Plan.edgesToAdd, Plan.computed, h0, h1, hd]⟩
  | sharing hv hm hp => exact hp.valid hm hg (by simpa using hnode hv)
  | randomSharing _ hv hm hp => exact hp.valid hm hg (by simpa using hnode hv)
  | reconstruction he ht hv hm hp =>
      exact hp.valid hm hg (hasEdge_of_inEdges he) ht hv

end Gauv
