import Gauv.Backend.Parties

/-!
# Assertions

The transformers abort where an assertion fails.  On a graph whose operations
have the arities the front end gives them, whose nodes are at the parties of the
protocol and in which every reconstruction collects one operand for each party,
there is one way to abort: a node whose out-edges pass for a sharing although
one of them is no EVAL.
-/

namespace Gauv

open GraphBase

/-! ## Sets of nodes -/

theorem map_guid_insertNodes (l : List Node) :
    ((insertNodes l).map Node.guid).toFinset = (l.map Node.guid).toFinset := by
  ext i
  simp only [List.mem_toFinset, List.mem_map]
  constructor
  · rintro ⟨n, hn, rfl⟩
    exact ⟨n, mem_of_mem_insertNodes hn, rfl⟩
  · rintro ⟨n, hn, rfl⟩
    exact exists_mem_insertNodes hn

/-- A set of pointers has as many elements as there are guids in it. -/
theorem length_insertNodes (l : List Node) :
    (insertNodes l).length = (l.map Node.guid).toFinset.card := by
  rw [← map_guid_insertNodes, List.toFinset_card_of_nodup (nodup_insertNodes l), List.length_map]

/-! ## The scan of the out-edges -/

section Scan

variable {g : Graph} {src : Finset PartyDecl} {v : ℕ}

/-- The node at which the share of an edge ends is computed by some edge. -/
theorem GraphBase.WellFormed.inDeg_afterTransit {g : GraphBase} (hg : g.WellFormed)
    {e : Operation} (he : g.HasEdge e) : 0 < g.inDeg (g.afterTransit e.output).guid := by
  rw [afterTransit]
  split
  · rename_i t ht
    exact List.length_pos_of_mem (hg.mem_outEdges.1 (mem_outEdges_of_transitOut ht)).1
  · exact List.length_pos_of_mem he

theorem isSome_scanOutEdges {edges : List Operation} {ids : Finset ℕ}
    {parties : Finset PartyDecl}
    (hpos : ∀ e ∈ edges, 0 < g.inDeg (g.afterTransit e.output).guid) :
    (scanOutEdges g src edges ids parties).isSome = true := by
  induction edges generalizing ids parties with
  | nil => rfl
  | cons e edges ih =>
      obtain ⟨he, hes⟩ := List.forall_mem_cons.1 hpos
      rw [scanOutEdges]
      split
      · rfl
      split
      · simp only
        split
        · rfl
        split
        · rw [if_neg (Nat.ne_of_gt he)]
          split
          · rfl
          · exact ih hes
        · exact ih hes
      · exact ih hes

/-- The scan runs to its end on edges that pass its checks. -/
theorem scanOutEdges_eq {edges : List Operation} {ids : Finset ℕ} {parties : Finset PartyDecl}
    (hlen : ∀ e ∈ edges, e.inputs.length = g.T + 1)
    (hnodup : ((edges.filter (fun e => e.type = .eval)).map (shareParty g)).Nodup)
    (hnew : ∀ e ∈ edges, e.type = .eval → shareParty g e ∉ parties)
    (hsrc : ∀ e ∈ edges, e.type = .eval → shareParty g e ∈ src →
      g.inDeg (g.afterTransit e.output).guid = 1) :
    ∃ S, scanOutEdges g src edges ids parties = some (some S) := by
  induction edges generalizing ids parties with
  | nil => exact ⟨ids, rfl⟩
  | cons e edges ih =>
      obtain ⟨hl, hlen⟩ := List.forall_mem_cons.1 hlen
      obtain ⟨hn, hnew⟩ := List.forall_mem_cons.1 hnew
      obtain ⟨hs, hsrc⟩ := List.forall_mem_cons.1 hsrc
      rw [scanOutEdges, if_neg (not_not.2 hl)]
      by_cases hev : e.type = .eval
      · rw [List.filter_cons_of_pos (by simpa using hev), List.map_cons, List.nodup_cons] at hnodup
        -- the party of this share is new to the shares that follow
        have hrec : ∃ S, scanOutEdges g src edges (ids ∪ (e.inputs.map Node.guid).toFinset)
            (insert (shareParty g e) parties) = some (some S) := by
          refine ih hlen hnodup.2 (fun f hf hfe hmem => ?_) hsrc
          rcases Finset.mem_insert.1 hmem with hmem | hmem
          · refine hnodup.1 (List.mem_map.2 ⟨f, ?_, hmem⟩)
            exact List.mem_filter.2 ⟨hf, by simpa using hfe⟩
          · exact hnew f hf hfe hmem
        simp only [if_pos hev, show (g.afterTransit e.output).party = shareParty g e from rfl,
          if_neg (hn hev)]
        split
        · rename_i hin
          rw [hs hev hin, if_neg one_ne_zero, if_neg (lt_irrefl 1)]
          exact hrec
        · exact hrec
      · rw [List.filter_cons_of_neg (by simpa using hev)] at hnodup
        simp only [if_neg hev]
        exact ih hlen hnodup hnew hsrc

/-- `isRewritableSecret` answers for every node of the graph. -/
theorem isSome_isRewritableSecret (hg : g.WellFormed) (hT : g.T < g.partyCnt)
    (hv : v < g.nodeSize) (src : Finset PartyDecl) :
    (isRewritableSecret g v src).isSome = true := by
  have hpos : ∀ e ∈ g.outEdges v, 0 < g.inDeg (g.afterTransit e.output).guid :=
    fun e he => hg.inDeg_afterTransit (hg.mem_outEdges.1 he).1
  have hscan : (scanOutEdges g src (g.outEdges v) ∅ ∅).isSome = true := isSome_scanOutEdges hpos
  obtain ⟨r, hr⟩ := Option.isSome_iff_exists.1 hscan
  rw [isRewritableSecret, if_neg (not_not.2 hv), if_neg (not_not.2 hT)]
  split
  · rfl
  rename_i hdeg
  rw [hr]
  cases r with
  | none => rfl
  | some S =>
      -- the node is an input of its own out-edges, of which there is one
      have hne : g.outEdges v ≠ [] := by
        intro hnil
        rw [not_not, outDeg, hnil, List.length_nil] at hdeg
        omega
      obtain ⟨e, he⟩ := List.exists_mem_of_ne_nil _ hne
      have hvS : v ∈ S := by
        obtain ⟨n, hn, hnv⟩ := (hg.mem_outEdges.1 he).2
        exact ((scanOutEdges_checked hr).ids_iff v).2 (Or.inr ⟨e, he, List.mem_map.2 ⟨n, hn, hnv⟩⟩)
      simp only [Option.bind_eq_bind, Option.bind_some]
      rw [if_neg (not_not.2 hvS)]
      split
      · rfl
      · rfl

/-- The pattern is found wherever it is. -/
theorem SharingMatch.isRewritableSecret_eq (hm : SharingMatch g src v)
    (hT : g.T < g.partyCnt) (hv : v < g.nodeSize) : isRewritableSecret g v src = some true := by
  obtain ⟨S, hS⟩ : ∃ S, scanOutEdges g src (g.outEdges v) ∅ ∅ = some (some S) :=
    scanOutEdges_eq hm.lengths hm.parties (fun _ _ _ => Finset.notMem_empty _) hm.sources
  obtain ⟨S', hcard, hvS, hmem, hrand⟩ := hm.inputs
  have hSS : S = S' := by
    ext i
    rw [(scanOutEdges_checked hS).ids_iff, hmem]
    simp
  rw [isRewritableSecret, if_neg (not_not.2 hv), if_neg (not_not.2 hT),
    if_neg (not_not.2 hm.outDeg), hS]
  simp only [Option.bind_eq_bind, Option.bind_some]
  rw [hSS, if_neg (not_not.2 hcard), if_neg (not_not.2 hvS), decide_eq_true hrand]

theorem isRewritableSecret_eq_true_iff (hT : g.T < g.partyCnt) (hv : v < g.nodeSize)
    (src : Finset PartyDecl) :
    isRewritableSecret g v src = some true ↔ SharingMatch g src v :=
  ⟨sharingMatch_of_isRewritableSecret, fun hm => hm.isRewritableSecret_eq hT hv⟩

end Scan

/-! ## The new destinations -/

section Destinations

variable {g : Graph} {src : Finset PartyDecl} {v : ℕ} {parties : Finset PartyDecl}

/-- Every live node is at one of the parties. -/
def GraphBase.PartiesIn (g : GraphBase) (parties : Finset PartyDecl) : Prop :=
  ∀ i n, g.node? i = some n → n.party ∈ parties

theorem GraphBase.inDeg_of_isRandomNode {g : GraphBase} {i : ℕ} (h : g.isRandomNode i = true) :
    g.inDeg i = 0 := by
  rw [isRandomNode] at h
  split at h
  · simp only [Bool.and_eq_true, decide_eq_true_eq] at h
    exact h.1.1
  · exact absurd h (by simp)

theorem GraphBase.PartiesIn.shareParty_mem (hp : g.PartiesIn parties) (hg : g.WellFormed)
    {e : Operation} (he : g.HasEdge e) : shareParty g e ∈ parties := by
  rw [shareParty, afterTransit]
  split
  · rename_i t ht
    exact hp _ _ (hg.output_live (hg.mem_outEdges.1 (mem_outEdges_of_transitOut ht)).1)
  · exact hp _ _ (hg.output_live he)

variable (hm : SharingMatch g src v) (hev : ∀ e ∈ g.outEdges v, e.type = .eval)

include hm hev

theorem SharingMatch.nodup_shareParty : ((g.outEdges v).map (shareParty g)).Nodup := by
  have := hm.parties
  rwa [List.filter_eq_self.2 fun e he => by simpa using hev e he] at this

/-- The shares are different nodes: two shares at one node would end at one
party. -/
theorem SharingMatch.nodup_outputs (hg : g.WellFormed) :
    ((g.outEdges v).map fun e => e.output.guid).Nodup := by
  have hnodup := hm.nodup_shareParty hev
  refine (List.nodup_map_iff_inj_on hnodup.of_map).2 fun e he f hf hef => ?_
  have houts : e.output = f.output :=
    eq_of_guid (hg.output_live (hg.mem_outEdges.1 he).1) (hg.output_live (hg.mem_outEdges.1 hf).1)
      hef
  refine List.inj_on_of_nodup_map hnodup he hf ?_
  rw [shareParty, shareParty, houts]

/-- The shares of a sharing end at all parties, so one ends at each source
party. -/
theorem SharingMatch.length_sourceShares (hg : g.WellFormed) (hp : g.PartiesIn parties)
    (hcard : parties.card = g.partyCnt) (hsrc : src ⊆ parties) :
    ((g.outEdges v).filter (isSourceShare g src)).length = src.card := by
  have hnodup := hm.nodup_shareParty hev
  have hin : ∀ e ∈ g.outEdges v, shareParty g e ∈ parties := fun e he =>
    hp.shareParty_mem hg (hg.mem_outEdges.1 he).1
  have hset : (((g.outEdges v).filter (isSourceShare g src)).map (shareParty g)).toFinset =
      src := by
    ext q
    rw [List.mem_toFinset, List.mem_map]
    constructor
    · rintro ⟨e, he, rfl⟩
      exact of_decide_eq_true (List.mem_filter.1 he).2
    · intro hq
      obtain ⟨e, he, rfl⟩ := exists_of_nodup_map hnodup hin (hcard.trans hm.outDeg.symm) (hsrc hq)
      exact ⟨e, List.mem_filter.2 ⟨he, decide_eq_true hq⟩, rfl⟩
  have hsub : (((g.outEdges v).filter (isSourceShare g src)).map (shareParty g)).Nodup :=
    hnodup.sublist (List.filter_sublist.map (shareParty g))
  rw [← List.length_map (shareParty g), ← List.toFinset_card_of_nodup hsub, hset]

/-- The guids of the coefficients and of the shares that are no source. -/
def newDsts (g : Graph) (src : Finset PartyDecl) (v : ℕ) : Finset ℕ :=
  (((g.outEdges v).flatMap (sharingDsts g src v)).map Node.guid).toFinset

omit hm hev in
theorem mem_newDsts {i : ℕ} : i ∈ newDsts g src v ↔
    (i ≠ v ∧ ∃ e ∈ g.outEdges v, i ∈ e.inputs.map Node.guid) ∨
      ∃ e ∈ g.outEdges v, isSourceShare g src e = false ∧ e.output.guid = i := by
  simp only [newDsts, List.mem_toFinset, List.mem_map, List.mem_flatMap, sharingDsts,
    List.mem_append, List.mem_filter, decide_eq_true_eq]
  constructor
  · rintro ⟨n, ⟨e, he, ⟨hn, hne⟩ | hn⟩, rfl⟩
    · exact Or.inl ⟨hne, e, he, n, hn, rfl⟩
    · cases hs : isSourceShare g src e with
      | true => simp [hs] at hn
      | false =>
          rw [hs, if_neg Bool.false_ne_true, List.mem_singleton] at hn
          exact Or.inr ⟨e, he, hs, hn ▸ rfl⟩
  · rintro (⟨hne, e, he, n, hn, rfl⟩ | ⟨e, he, hs, rfl⟩)
    · exact ⟨n, ⟨e, he, Or.inl ⟨hn, hne⟩⟩, rfl⟩
    · exact ⟨e.output, ⟨e, he, Or.inr (by simp [hs])⟩, rfl⟩

/-- What becomes a destination is a random node or the share of an edge. -/
theorem SharingMatch.card_newDsts (hg : g.WellFormed) (hp : g.PartiesIn parties)
    (hcard : parties.card = g.partyCnt) (hsrc : src ⊆ parties) :
    (newDsts g src v).card + src.card = g.T + g.partyCnt := by
  obtain ⟨S, hS, hvS, hmem, hrand⟩ := hm.inputs
  set others := (g.outEdges v).filter (fun e => !isSourceShare g src e) with hothers
  have hout : (others.map fun e => e.output.guid).Nodup :=
    (hm.nodup_outputs hev hg).sublist (List.filter_sublist.map _)
  have heq : newDsts g src v = S.erase v ∪ (others.map fun e => e.output.guid).toFinset := by
    ext i
    rw [mem_newDsts, Finset.mem_union, Finset.mem_erase, hmem, List.mem_toFinset, List.mem_map]
    simp only [hothers, List.mem_filter, Bool.not_eq_true', and_assoc]
  have hdisj : Disjoint (S.erase v) (others.map fun e => e.output.guid).toFinset := by
    refine Finset.disjoint_left.2 fun i hi hio => ?_
    obtain ⟨hne, hi⟩ := Finset.mem_erase.1 hi
    obtain ⟨e, he, rfl⟩ := List.mem_map.1 (List.mem_toFinset.1 hio)
    have hedge := (hg.mem_outEdges.1 (List.mem_filter.1 he).1).1
    -- a random node is computed by no edge
    exact (List.length_pos_of_mem hedge).ne' (inDeg_of_isRandomNode (hrand _ hi hne))
  have hsum : others.length + src.card = g.partyCnt := by
    have hdeg := hm.outDeg
    rw [GraphBase.outDeg, List.length_eq_length_filter_add (isSourceShare g src),
      hm.length_sourceShares hev hg hp hcard hsrc, ← hothers] at hdeg
    omega
  rw [heq, Finset.card_union_of_disjoint hdisj, Finset.card_erase_of_mem hvS, hS,
    List.toFinset_card_of_nodup hout, List.length_map]
  omega

omit hev in
theorem SharingMatch.notMem_newDsts (hg : g.WellFormed) (hr : g.isRandomNode v = true) :
    v ∉ newDsts g src v := by
  intro h
  rcases mem_newDsts.1 h with ⟨hne, -⟩ | ⟨e, he, -, rfl⟩
  · exact hne rfl
  · have hedge := (hg.mem_outEdges.1 he).1
    exact (List.length_pos_of_mem hedge).ne' (inDeg_of_isRandomNode hr)

omit hm in
/-- The sharing rules build their new edges once there are `N` destinations. -/
theorem isSome_planSharing (order : IterOrder) {node : Node} {srcs₀ dsts₀ : List Node}
    (hlen : ((dsts₀.map Node.guid).toFinset ∪ newDsts g src v).card = g.partyCnt) :
    (planSharing order g src node v srcs₀ dsts₀).isSome = true := by
  have hall : (g.outEdges v).all (fun e => e.type = .eval) = true := by simpa using hev
  have hdsts : (insertNodes (dsts₀ ++ (g.outEdges v).flatMap (sharingDsts g src v))).length =
      g.partyCnt := by
    rw [length_insertNodes, List.map_append, List.toFinset_append]
    exact hlen
  rw [planSharing]
  simp only [hall, if_true, hdsts]
  rfl

end Destinations

/-! ## The reconstruction rule -/

section Reconstruction

variable {g : Graph} {src : Finset PartyDecl} {edge : Operation}

theorem GraphBase.TransitUnary.isSome_beforeTransit {g : GraphBase} (hu : g.TransitUnary)
    (hg : g.WellFormed) (s : Node) : (g.beforeTransit s).isSome = true := by
  rw [beforeTransit]
  split
  · rename_i t ht
    have hedge := (hg.mem_inEdges.1 (mem_inEdges_of_transitIn ht)).1
    obtain ⟨b, hb⟩ := List.length_eq_one_iff.1 (hu t hedge (transitIn_eq_some.1 ht).2)
    rw [hb]
    rfl
  · rfl

theorem isSome_scanOperands (hu : g.TransitUnary) (hg : g.WellFormed) {shares : List Node}
    {parties : Finset PartyDecl} {k : ℕ} :
    (scanOperands g src shares parties k).isSome = true := by
  induction shares generalizing parties k with
  | nil => rfl
  | cons s shares ih =>
      obtain ⟨b, hb⟩ := Option.isSome_iff_exists.1 (hu.isSome_beforeTransit hg s)
      rw [scanOperands, hb]
      simp only [Option.bind_eq_bind, Option.bind_some]
      split
      · rfl
      · exact ih

theorem isSome_isRewritableReconstruction (src : Finset PartyDecl) (hu : g.TransitUnary)
    (hg : g.WellFormed) (hlen : edge.inputs.length = g.partyCnt) :
    (isRewritableReconstruction g src edge).isSome = true := by
  have hscan : (scanOperands g src edge.inputs ∅ 0).isSome = true := isSome_scanOperands hu hg
  obtain ⟨r, hr⟩ := Option.isSome_iff_exists.1 hscan
  rw [isRewritableReconstruction, if_neg (not_not.2 hlen), hr]
  cases r with
  | none => rfl
  | some m => rfl

/-- The operand is a destination behind a TRANSIT. -/
def isSentDst (g : Graph) (src : Finset PartyDecl) (s : Node) : Bool :=
  !isSourceOperand g src s && (g.transitIn s).isSome

theorem length_operandEliminated (g : Graph) (src : Finset PartyDecl) (s : Node) :
    (operandEliminated g src s).length = if isSentDst g src s then 1 else 0 := by
  rw [operandEliminated, isSentDst]
  cases isSourceOperand g src s with
  | true => rfl
  | false => cases g.transitIn s with
    | none => rfl
    | some t => rfl

theorem length_operandTurned (g : Graph) (src : Finset PartyDecl) (s : Node) :
    (operandTurned g src s).length = if isSentDst g src s then 1 else 0 := by
  rw [operandTurned, isSentDst]
  cases isSourceOperand g src s with
  | true => rfl
  | false => cases g.transitIn s with
    | none => rfl
    | some t => rfl

variable (hm : ReconstructionMatch g edge)

include hm

/-- The operands from source parties are at most as many as there are source
parties. -/
theorem ReconstructionMatch.countP_source_le (src : Finset PartyDecl) :
    edge.inputs.countP (isSourceOperand g src) ≤ src.card := by
  rw [List.countP_eq_length_filter]
  refine length_le_card_of_nodup_map (f := fun s => (g.origin s).party) ?_ fun s hs => ?_
  · exact hm.parties.sublist (List.filter_sublist.map _)
  · exact of_decide_eq_true (List.mem_filter.1 hs).2

/-- At most one operand was at the party of the reconstruction from the start. -/
theorem ReconstructionMatch.countP_dst_le (src : Finset PartyDecl) {q : PartyDecl}
    (hq : ∀ n ∈ edge.inputs, n.party = q) :
    edge.inputs.countP (fun s => !isSourceOperand g src s) ≤
      edge.inputs.countP (isSentDst g src) + 1 := by
  have hstay : (edge.inputs.filter fun s => !(g.transitIn s).isSome).length ≤ 1 := by
    refine length_le_card_of_nodup_map (f := fun s => (g.origin s).party) (s := {q}) ?_
      fun s hs => ?_
    · exact hm.parties.sublist (List.filter_sublist.map _)
    · obtain ⟨hs, hnone⟩ := List.mem_filter.1 hs
      have hnone' : g.transitIn s = none := by simpa using hnone
      rw [origin_of_transitIn_none hnone', hq s hs]
      exact Finset.mem_singleton_self q
  have hle : edge.inputs.countP (fun s => !isSourceOperand g src s) ≤
      edge.inputs.countP (isSentDst g src) +
        edge.inputs.countP fun s => !(g.transitIn s).isSome := by
    refine countP_le_add fun s hs => ?_
    rw [isSentDst, hs]
    cases (g.transitIn s).isSome <;> simp
  rw [← List.countP_eq_length_filter] at hstay
  omega

/-- Shares from different parties are different nodes. -/
theorem ReconstructionMatch.nodup_guids (hg : g.WellFormed) (he : g.HasEdge edge) :
    (edge.inputs.map Node.guid).Nodup :=
  (List.nodup_map_iff_inj_on hm.parties.of_map).2 fun _ hs _ hs' =>
    eq_of_guid (hg.input_live he hs) (hg.input_live he hs')

theorem ReconstructionMatch.length_dsts (hg : g.WellFormed) (he : g.HasEdge edge) :
    (insertNodes (edge.inputs.filter fun s => !isSourceOperand g src s)).length =
      edge.inputs.countP fun s => !isSourceOperand g src s := by
  have hnodup : ((edge.inputs.filter fun s => !isSourceOperand g src s).map Node.guid).Nodup :=
    (hm.nodup_guids hg he).sublist (List.filter_sublist.map _)
  rw [length_insertNodes, List.toFinset_card_of_nodup hnodup, List.length_map,
    List.countP_eq_length_filter]

/-- The last assertions of the reconstruction rule. -/
theorem ReconstructionMatch.isSome_planReconstruction (hg : g.WellFormed)
    (he : g.HasEdge edge) {q : PartyDecl} (hq : ∀ n ∈ edge.inputs, n.party = q)
    (hsrc : src.card ≤ g.T + 1) (order : IterOrder) (node : Node) :
    (planReconstruction order g src node edge).isSome = true := by
  have hsource := hm.countP_source_le src
  have hdst := hm.countP_dst_le src hq
  have hsum := List.length_eq_countP_add_countP (isSourceOperand g src) (l := edge.inputs)
  rw [hm.length] at hsum
  have hall : edge.inputs.all (fun s => (g.beforeTransit s).isSome) = true :=
    List.all_eq_true.2 hm.asserted
  have helim := length_flatMap_eq_countP fun s (_ : s ∈ edge.inputs) =>
    length_operandEliminated g src s
  have hturn := length_flatMap_eq_countP fun s (_ : s ∈ edge.inputs) =>
    length_operandTurned g src s
  rw [planReconstruction]
  simp only [hall, if_true, Plan.edgesToAdd, Plan.computed, List.length_cons, List.length_append,
    List.length_map, (order.perm _).length_eq, hm.length_dsts hg he, helim, hturn]
  rw [if_pos]
  · rfl
  · have hnot : edge.inputs.countP (fun s => !isSourceOperand g src s) =
        edge.inputs.countP fun s => decide ¬isSourceOperand g src s = true :=
      List.countP_congr fun s _ => by simp
    rw [hnot] at hdst ⊢
    omega

end Reconstruction

/-! ## Sturdy graphs -/

/-- What the assertions rely on, but for the shape of the out-edges of a secret:
arities, one operand per party in a reconstruction, and `N` parties. -/
structure Graph.Sturdy (g : Graph) (parties : Finset PartyDecl) : Prop where
  wellFormed : g.WellFormed
  transitUnary : g.TransitUnary
  addBinary : ∀ f, g.HasEdge f → f.type = .add → f.inputs.length = 2
  opened : ∀ f, g.HasEdge f → f.type = .reconstruct →
    f.inputs.length = g.partyCnt ∧ ∃ q, ∀ n ∈ f.inputs, n.party = q
  /-- Only an EVAL has more than two operands but not one for each party. -/
  arity : ∀ f, g.HasEdge f → f.type ≠ .eval → f.inputs.length ≤ 2 ∨ f.inputs.length = g.partyCnt
  partiesIn : g.PartiesIn parties
  card : parties.card = g.partyCnt
  threshold : g.T < g.partyCnt

/-- The node passes for the secret of a sharing, with `T` random nodes as the
coefficients, although one of its out-edges is no EVAL. -/
structure MixedFan (g : Graph) (src : Finset PartyDecl) (v : ℕ) : Prop where
  mixed : ∃ e ∈ g.outEdges v, e.type ≠ .eval
  outDeg : g.outDeg v = g.partyCnt
  lengths : ∀ e ∈ g.outEdges v, e.inputs.length = g.T + 1
  operands : ∃ coeffs : Finset ℕ, coeffs.card = g.T ∧ v ∉ coeffs ∧
    (∀ i ∈ coeffs, g.isRandomNode i = true) ∧
    ∀ i, i = v ∨ i ∈ coeffs ↔ ∃ e ∈ g.outEdges v, i ∈ e.inputs.map Node.guid
  shares : (((g.outEdges v).filter (fun e => e.type = .eval)).map (shareParty g)).Nodup
  sources : ∀ e ∈ g.outEdges v, e.type = .eval → shareParty g e ∈ src →
    g.inDeg (g.afterTransit e.output).guid = 1

theorem mixedFan_iff {g : Graph} {src : Finset PartyDecl} {v : ℕ} :
    MixedFan g src v ↔ SharingMatch g src v ∧ ∃ e ∈ g.outEdges v, e.type ≠ .eval := by
  constructor
  · rintro ⟨hmix, hdeg, hlen, ⟨coeffs, hcard, hv, hrand, hmem⟩, hshares, hsources⟩
    refine ⟨⟨hdeg, hlen, hshares, hsources, insert v coeffs, ?_, Finset.mem_insert_self v _,
      fun i => ?_, fun i hi hne => ?_⟩, hmix⟩
    · rw [Finset.card_insert_of_notMem hv, hcard]
    · rw [Finset.mem_insert, hmem]
    · exact hrand i ((Finset.mem_insert.1 hi).resolve_left hne)
  · rintro ⟨⟨hdeg, hlen, hshares, hsources, S, hcard, hv, hmem, hrand⟩, hmix⟩
    refine ⟨hmix, hdeg, hlen, ⟨S.erase v, ?_, Finset.notMem_erase v S, fun i hi => ?_,
      fun i => ?_⟩, hshares, hsources⟩
    · rw [Finset.card_erase_of_mem hv, hcard]
      rfl
    · exact hrand i (Finset.mem_erase.1 hi).2 (Finset.mem_erase.1 hi).1
    · rw [← hmem, ← Finset.mem_insert, Finset.insert_erase hv]

/-- No node passes for the secret of a sharing wrongly, whichever sharing rule
looks at it. -/
def Graph.Unmixed (g : Graph) (src srcPlus : Finset PartyDecl) : Prop :=
  (∀ v, ¬ MixedFan g src v) ∧ ∀ v, g.isRandomNode v = true → ¬ MixedFan g srcPlus v

section Sturdy

variable {g : Graph} {parties src : Finset PartyDecl} {order : ℕ → IterOrder}

/-- Two operands are too few for a sharing with `T ≥ 2`, and `N` too many unless
`N = T + 1`. -/
theorem Graph.Sturdy.not_mixedFan (hs : g.Sturdy parties) (hT : 2 ≤ g.T)
    (hN : g.partyCnt ≠ g.T + 1) (v : ℕ) : ¬ MixedFan g src v := by
  rintro ⟨⟨e, he, hev⟩, -, hlen, -⟩
  have h := hs.arity e (hs.wellFormed.mem_outEdges.1 he).1 hev
  rw [hlen e he] at h
  omega

theorem GraphBase.exists_node? {g : GraphBase} (hg : g.WellFormed) {v : ℕ}
    (h : g.outEdges v ≠ []) : ∃ n, g.node? v = some n := by
  obtain ⟨e, he⟩ := List.exists_mem_of_ne_nil _ h
  obtain ⟨hedge, n, hn, rfl⟩ := hg.mem_outEdges.1 he
  exact ⟨n, hg.input_live hedge hn⟩

theorem SharingMatch.outEdges_ne_nil {v : ℕ} (hm : SharingMatch g src v)
    (hT : g.T < g.partyCnt) : g.outEdges v ≠ [] := by
  intro hnil
  have hdeg := hm.outDeg
  rw [GraphBase.outDeg, hnil, List.length_nil] at hdeg
  omega

theorem isSome_additionPlans (hs : g.Sturdy parties) :
    (AdditionTransformer.plans g).isSome = true := by
  rw [AdditionTransformer.plans, isSome_collect]
  intro v _
  rw [isSome_collect]
  intro e he
  obtain ⟨hedge, rfl⟩ := hs.wellFormed.mem_inEdges.1 he
  rw [reverseAddition]
  split
  · rename_i ht
    obtain ⟨a, b, hab⟩ := List.length_eq_two.1 (hs.addBinary e hedge ht)
    rw [hab]
    simp only [hs.wellFormed.output_live hedge, if_true]
    rfl
  · rfl

/-- One sharing rule at one node: it aborts exactly at a mixed fan. -/
theorem isSome_planSharing_iff (hs : g.Sturdy parties) (hsrc : src ⊆ parties) {v : ℕ}
    (hm : SharingMatch g src v) (ord : IterOrder) (node : Node) (srcs₀ : List Node)
    {dsts₀ : List Node} (hdsts : Disjoint (dsts₀.map Node.guid).toFinset (newDsts g src v))
    (hcount : (dsts₀.map Node.guid).toFinset.card + g.T = src.card) :
    (planSharing ord g src node v srcs₀ dsts₀).isSome = true ↔ ¬ MixedFan g src v := by
  rw [mixedFan_iff]
  constructor
  · rintro hsome ⟨-, e, he, hne⟩
    obtain ⟨p, hp⟩ := Option.isSome_iff_exists.1 hsome
    exact hne ((sharingPlan_of_planSharing hp).isEval e he)
  · intro hmix
    have hev : ∀ e ∈ g.outEdges v, e.type = .eval := fun e he => by
      by_contra hne
      exact hmix ⟨hm, e, he, hne⟩
    refine isSome_planSharing hev ord ?_
    have hcard := hm.card_newDsts hev hs.wellFormed hs.partiesIn hs.card hsrc
    rw [Finset.card_union_of_disjoint hdsts]
    omega

theorem isSome_sharingPlanAt_iff (hs : g.Sturdy parties) (hsrc : src ⊆ parties)
    (hcard : src.card = g.T) {v : ℕ} (hv : v < g.nodeSize) :
    (SharingTransformer.planAt order src g v).isSome = true ↔ ¬ MixedFan g src v := by
  obtain ⟨b, hb⟩ := Option.isSome_iff_exists.1
    (isSome_isRewritableSecret hs.wellFormed hs.threshold hv src)
  have hiff := isRewritableSecret_eq_true_iff hs.threshold hv src
  rw [SharingTransformer.planAt, hb]
  rw [hb, Option.some.injEq] at hiff
  cases b with
  | false =>
      refine iff_of_true rfl fun hmix => ?_
      exact absurd (hiff.2 (mixedFan_iff.1 hmix).1) Bool.false_ne_true
  | true =>
      have hm := hiff.1 rfl
      obtain ⟨n, hn⟩ := exists_node? hs.wellFormed (hm.outEdges_ne_nil hs.threshold)
      have hnone : Disjoint (([] : List Node).map Node.guid).toFinset (newDsts g src v) := by simp
      rw [← isSome_planSharing_iff hs hsrc hm (order v) n [n] hnone (by simp [hcard])]
      simp only [Option.bind_eq_bind, Option.bind_some, if_true, hn]
      cases planSharing (order v) g src n v [n] [] with
      | none => rfl
      | some p => rfl

theorem isSome_randomSharingPlanAt_iff (hs : g.Sturdy parties) (hsrc : src ⊆ parties)
    (hcard : src.card = g.T + 1) {v : ℕ} (hv : v < g.nodeSize) :
    (RandomSharingTransformer.planAt order src g v).isSome = true ↔
      (g.isRandomNode v = true → ¬ MixedFan g src v) := by
  obtain ⟨b, hb⟩ := Option.isSome_iff_exists.1
    (isSome_isRewritableSecret hs.wellFormed hs.threshold hv src)
  have hiff := isRewritableSecret_eq_true_iff hs.threshold hv src
  rw [RandomSharingTransformer.planAt]
  by_cases hr : g.isRandomNode v = true
  · rw [if_pos hr, hb]
    rw [hb, Option.some.injEq] at hiff
    cases b with
    | false =>
        refine iff_of_true rfl fun _ hmix => ?_
        exact absurd (hiff.2 (mixedFan_iff.1 hmix).1) Bool.false_ne_true
    | true =>
        have hm := hiff.1 rfl
        obtain ⟨n, hn⟩ := exists_node? hs.wellFormed (hm.outEdges_ne_nil hs.threshold)
        have hguid := hs.wellFormed.guid_eq hn
        have hnot : Disjoint ([n].map Node.guid).toFinset (newDsts g src v) := by
          simpa [hguid] using hm.notMem_newDsts hs.wellFormed hr
        rw [forall_prop_of_true hr, ← isSome_planSharing_iff hs hsrc hm (order v) n [] hnot
          (by simp [hcard, add_comm])]
        simp only [Option.bind_eq_bind, Option.bind_some, if_true, hn]
        cases planSharing (order v) g src n v [] [n] with
        | none => rfl
        | some p => rfl
  · rw [if_neg hr]
    exact iff_of_true rfl fun h => absurd h hr

theorem MixedFan.lt_nodeSize {v : ℕ} (h : MixedFan g src v) (hs : g.Sturdy parties) :
    v < g.nodeSize := by
  obtain ⟨n, hn⟩ := exists_node? hs.wellFormed
    ((mixedFan_iff.1 h).1.outEdges_ne_nil hs.threshold)
  exact lt_of_node? hn

theorem isSome_sharingPlans_iff (hs : g.Sturdy parties) (hsrc : src ⊆ parties)
    (hcard : src.card = g.T) :
    (SharingTransformer.plans order src g).isSome = true ↔ ∀ v, ¬ MixedFan g src v := by
  rw [SharingTransformer.plans, isSome_collect]
  constructor
  · intro h v hmix
    have hv := hmix.lt_nodeSize hs
    exact (isSome_sharingPlanAt_iff hs hsrc hcard hv).1 (h v (List.mem_range.2 hv)) hmix
  · intro h v hv
    exact (isSome_sharingPlanAt_iff hs hsrc hcard (List.mem_range.1 hv)).2 (h v)

theorem isSome_randomSharingPlans_iff (hs : g.Sturdy parties) (hsrc : src ⊆ parties)
    (hcard : src.card = g.T + 1) :
    (RandomSharingTransformer.plans order src g).isSome = true ↔
      ∀ v, g.isRandomNode v = true → ¬ MixedFan g src v := by
  rw [RandomSharingTransformer.plans, isSome_collect]
  constructor
  · intro h v hr hmix
    have hv := hmix.lt_nodeSize hs
    exact (isSome_randomSharingPlanAt_iff hs hsrc hcard hv).1 (h v (List.mem_range.2 hv)) hr hmix
  · intro h v hv
    exact (isSome_randomSharingPlanAt_iff hs hsrc hcard (List.mem_range.1 hv)).2 (h v)

theorem isSome_reconstructionPlans (hs : g.Sturdy parties) (hcard : src.card ≤ g.T + 1) :
    (ReconstructionTransformer.plans order src g).isSome = true := by
  rw [ReconstructionTransformer.plans, isSome_collect]
  intro v _
  rw [ReconstructionTransformer.planAt]
  split
  · rename_i edge hin
    split
    · rename_i ht
      have hmem : edge ∈ g.inEdges v := by
        rw [hin]
        exact List.mem_singleton_self edge
      obtain ⟨hedge, rfl⟩ := hs.wellFormed.mem_inEdges.1 hmem
      obtain ⟨hlen, q, hq⟩ := hs.opened edge hedge ht
      obtain ⟨b, hb⟩ := Option.isSome_iff_exists.1
        (isSome_isRewritableReconstruction src hs.transitUnary hs.wellFormed hlen)
      rw [hb]
      cases b with
      | false => rfl
      | true =>
          have hm := reconstructionMatch_of_isRewritableReconstruction hb
          obtain ⟨p, hp⟩ := Option.isSome_iff_exists.1 (hm.isSome_planReconstruction hs.wellFormed
            hedge hq hcard (order edge.output.guid) edge.output)
          simp only [Option.bind_eq_bind, Option.bind_some, if_true,
            hs.wellFormed.output_live hedge, hp]
          rfl
    · rfl
  · rfl

end Sturdy

/-! ## Rewrites keep a graph sturdy -/

section Preserved

variable {g g' : Graph} {p : Plan} {tr : Transformer} {parties : Finset PartyDecl}

/-- The computed edges are SUBs of two nodes or EVALs. -/
theorem PlanShape.op_eq (h : PlanShape g p tr) :
    p.op = .sub ∧ p.srcs.length = 2 ∨ p.op = .eval := by
  cases h with
  | addition _ _ _ hp => rcases hp with rfl | rfl <;> exact Or.inl ⟨rfl, rfl⟩
  | sharing _ _ hp => exact Or.inr hp.op
  | randomSharing _ _ _ hp => exact Or.inr hp.op
  | reconstruction _ _ _ _ hp => exact Or.inr hp.op

/-- An edge of the rewritten graph is an old one, a TRANSIT, a SUB of two nodes
or an EVAL. -/
theorem PlanShape.hasEdge_result (h : PlanShape g p tr) (hg : g.WellFormed) {team : ℕ}
    {f : Operation} (hf : (p.result team g).HasEdge f) :
    g.HasEdge f ∨ f.type = .transit ∧ f.inputs.length = 1 ∨
      f.type = .sub ∧ f.inputs.length = 2 ∨ f.type = .eval := by
  rcases (Plan.hasEdge_result hg (h.valid hg) team).1 hf with ⟨hf, -⟩ | hf
  · exact Or.inl hf
  · obtain ⟨k, hk, htype, hin, -⟩ := exists_of_mem_makeShared hf
    rw [htype, hin]
    rcases List.mem_append.1 hk with hk | hk
    · exact Or.inr (Or.inl (h.typed.turned k hk))
    · obtain ⟨d, -, rfl⟩ := List.mem_map.1 hk
      exact Or.inr (Or.inr h.op_eq)

theorem Prover.Rewrites.sturdy {trs : List Transformer} (h : Prover.Rewrites trs g g')
    (hs : g.Sturdy parties) : g'.Sturdy parties := by
  have hframe := h.sameFrame
  have hwf := h.wellFormed hs.wellFormed
  have hunary := h.transitUnary hs.wellFormed hs.transitUnary
  obtain ⟨tr, -, team, p, hp, rfl⟩ := h.shape hs.wellFormed
  have hedge : ∀ f, (p.result team g).HasEdge f → _ := fun f hf =>
    hp.hasEdge_result hs.wellFormed hf
  refine ⟨hwf, hunary, fun f hf ht => ?_, fun f hf ht => ?_, fun f hf hne => ?_, fun i n hn => ?_,
    hs.card.trans hframe.partyCnt.symm, ?_⟩
  · rcases hedge f hf with hf | ⟨ht', -⟩ | ⟨ht', -⟩ | ht'
    · exact hs.addBinary f hf ht
    all_goals exact absurd (ht'.symm.trans ht) (by decide)
  · rw [hframe.partyCnt]
    rcases hedge f hf with hf | ⟨ht', -⟩ | ⟨ht', -⟩ | ht'
    · exact hs.opened f hf ht
    all_goals exact absurd (ht'.symm.trans ht) (by decide)
  · rw [hframe.partyCnt]
    rcases hedge f hf with hf | ⟨-, hl⟩ | ⟨-, hl⟩ | ht'
    · exact hs.arity f hf hne
    · exact Or.inl (by omega)
    · exact Or.inl (by omega)
    · exact absurd ht' hne
  · rw [hframe.node?] at hn
    exact hs.partiesIn i n hn
  · rw [hframe.T, hframe.partyCnt]
    exact hs.threshold

end Preserved

end Gauv
