import Gauv.Backend.Embedding
import Gauv.Backend.LeftOut

/-!
# Rewriting beside an unused node

A graph with an unused honest node holds the graph without it.  As long as the
in-edges of the node change no test of the rules, the rules find the same matches in
both, and what they make of them is again the same but for the node.
-/

namespace Gauv

open GraphBase

/-! ## The node and its in-edges -/

/-- `g` is `h` with the honest node at `v`, which feeds nothing, put in. -/
structure Beside (v : ℕ) (g h : Graph) : Prop where
  left : g.WellFormed
  right : h.WellFormed
  exactLeft : g.Exact
  exactRight : h.Exact
  out : LeftOut v g h
  honest : g.isHonest v = true

/-- The graph without the in-edges of the node at `v`. -/
def Graph.setAside (g : Graph) (v : ℕ) : Graph := g.eliminateEdges (g.inEdges v)

/-- The edge of the smaller graph, in the larger one. -/
structure Restored (v : ℕ) (e f : NewEdge) : Prop extends f.Relabelled (skip v) e where
  inputs : f.type ≠ .eval → e.inputs = f.inputs.map (Node.relabel (skip v))

namespace Beside

variable {v : ℕ} {g h : Graph}

theorem index_lt (hb : Beside v g h) : v < g.nodeSize := by
  obtain ⟨n, hn, -⟩ := (Option.any_eq_true _ _).1 hb.honest
  exact lt_of_node? hn

theorem index_le (hb : Beside v g h) : v ≤ h.nodeSize := by
  have hlt := hb.index_lt
  rw [hb.out.nodeSize] at hlt
  omega

theorem skip_lt_iff (hb : Beside v g h) (i : ℕ) : skip v i < g.nodeSize ↔ i < h.nodeSize := by
  rw [hb.out.nodeSize]
  exact skip_lt_succ_iff hb.index_le i

theorem nodes (hb : Beside v g h) (i : ℕ) :
    g.node? (skip v i) = (h.node? i).map (Node.relabel (skip v)) := by
  rw [hb.out.nodes]
  cases hn : g.node? (skip v i) with
  | none => rfl
  | some n =>
      rw [Option.map_some, Option.map_some, Node.relabel, ← hb.left.guid_eq hn]

/-- No edge reads the node. -/
theorem not_input (hb : Beside v g h) {e : Operation} (he : g.HasEdge e) {n : Node}
    (hn : n ∈ e.inputs) : n.guid ≠ v := by
  intro hnv
  have hmem : e ∈ g.outEdges v := hb.left.mem_outEdges.2 ⟨he, n, hn, hnv⟩
  rw [hb.out.outEdges] at hmem
  exact List.not_mem_nil hmem

/-- Lists of live nodes with the same indices are the same. -/
theorem perm_of_guids {l l' : List Node} (hl : ∀ n ∈ l, g.node? n.guid = some n)
    (hl' : ∀ n ∈ l', g.node? n.guid = some n) :
    ((l.map Node.guid).Perm (l'.map Node.guid) → l.Perm l') ∧
      (l.map Node.guid = l'.map Node.guid → l = l') := by
  have hread : ∀ k : List Node, (∀ n ∈ k, g.node? n.guid = some n) →
      (k.map Node.guid).filterMap g.node? = k := by
    intro k hk
    induction k with
    | nil => rfl
    | cons n k ih =>
        rw [List.map_cons, List.filterMap_cons, hk n (List.mem_cons_self ..)]
        simp only
        rw [ih fun m hm => hk m (List.mem_cons_of_mem _ hm)]
  constructor
  · intro hp
    rw [← hread l hl, ← hread l' hl']
    exact hp.filterMap _
  · intro heq
    rw [← hread l hl, ← hread l' hl', heq]

theorem live_relabel (hb : Beside v g h) {l : List Node} (hl : ∀ n ∈ l, h.node? n.guid = some n) :
    ∀ n ∈ l.map (Node.relabel (skip v)), g.node? n.guid = some n := by
  intro n hn
  obtain ⟨m, hm, rfl⟩ := List.mem_map.1 hn
  rw [Node.relabel_guid, hb.nodes, hl m hm, Option.map_some]

theorem restored_of_sameEdge (hb : Beside v g h) {e f : Operation} (he : g.HasEdge e)
    (hf : h.HasEdge f) (hef : SameEdge v e f) : Restored v e.args f.args := by
  have hguids : (f.inputs.map (Node.relabel (skip v))).map Node.guid =
      f.inputs.map fun n => skip v n.guid := by
    rw [Node.map_guid_relabel, List.map_map]
    rfl
  have hin := perm_of_guids (fun n hn => hb.left.input_live he hn)
    (hb.live_relabel fun n hn => hb.right.input_live hf hn)
  rw [hguids] at hin
  refine ⟨⟨hef.type.symm, ?_, hin.1 hef.bag.symm⟩, fun ht => hin.2 (hef.inputs ?_).symm⟩
  · have hout := hb.nodes f.output.guid
    rw [hb.right.output_live hf, hef.output, hb.left.output_live he] at hout
    exact Option.some.inj hout
  · rw [← hef.type]
    exact ht

/-- The in-edges of each node, one by one. -/
theorem inEdges (hb : Beside v g h) (i : ℕ) : List.Forall₂
    (fun e f => SameEdge v e f ∧ Restored v e.args f.args) (g.inEdges (skip v i)) (h.inEdges i) :=
  (forall₂_mem (hb.out.inEdges i)).imp fun _ _ hef =>
    ⟨hef.2.2, hb.restored_of_sameEdge (hb.left.mem_inEdges.1 hef.1).1
      (hb.right.mem_inEdges.1 hef.2.1).1 hef.2.2⟩

/-- **The larger graph holds the smaller one.** -/
theorem embedsIn (hb : Beside v g h) : h.EmbedsIn (skip v) g where
  injective := skip_injective v
  nodes := hb.nodes
  inEdges := fun i => (PairsOff.of_forall₂ (hb.inEdges i)).flip.mono
    fun _ _ _ _ hef => hef.2.toRelabelled
  partyCnt := hb.out.partyCnt.symm
  T := hb.out.T.symm

/-- All edges but those into the node. -/
theorem edges (hb : Beside v g h) : PairsOff (fun f e => f.args.Relabelled (skip v) e.args) h.edges
    (g.edges.filter fun e => e.output.guid ≠ v) := by
  have hfilter : g.edges.filter (fun e => e.output.guid ≠ v) =
      ((List.range g.nodeSize).filter fun j => j ≠ v).flatMap g.inEdges := by
    have hlist : ∀ l : List ℕ, (l.flatMap g.inEdges).filter (fun e => e.output.guid ≠ v) =
        (l.filter fun j => j ≠ v).flatMap g.inEdges := by
      intro l
      induction l with
      | nil => rfl
      | cons j l ih =>
          rw [List.flatMap_cons, List.filter_append, ih, List.filter_cons]
          by_cases hj : j = v
          · have hnil : (g.inEdges j).filter (fun e => e.output.guid ≠ v) = [] := by
              rw [List.filter_eq_nil_iff]
              intro e he
              simp [(hb.left.mem_inEdges.1 he).2, hj]
            rw [hnil, if_neg (by simp [hj]), List.nil_append]
          · have hall : (g.inEdges j).filter (fun e => e.output.guid ≠ v) = g.inEdges j := by
              rw [List.filter_eq_self]
              intro e he
              simp [(hb.left.mem_inEdges.1 he).2, hj]
            rw [hall, if_pos (by simp [hj]), List.flatMap_cons]
    exact hlist _
  rw [hfilter, hb.out.nodeSize, filter_range_succ hb.index_le]
  exact (PairsOff.of_perm_map (.refl _)).flatMap fun i _ j _ hij =>
    hij ▸ hb.embedsIn.inEdges i

/-- The out-edges of each node, but for those into the node. -/
theorem outEdges (hb : Beside v g h) (u : ℕ) :
    PairsOff (fun f e => f.args.Relabelled (skip v) e.args) (h.outEdges u)
      ((g.outEdges (skip v u)).filter fun e => e.output.guid ≠ v) := by
  have hperm : ((g.outEdges (skip v u)).filter fun e => e.output.guid ≠ v).Perm
      ((g.edges.filter fun e => e.output.guid ≠ v).flatMap fun e =>
        List.replicate (e.inputCount (skip v u)) e) := by
    refine ((hb.left.outEdges_perm (skip v u)).filter _).trans (.of_eq ?_)
    generalize g.edges = l
    induction l with
    | nil => rfl
    | cons e l ih =>
        rw [List.flatMap_cons, List.filter_append, ih, List.filter_cons, List.filter_replicate]
        split
        · rw [List.flatMap_cons]
        · rfl
  refine PairsOff.of_perm ?_ (hb.right.outEdges_perm u) hperm
  refine hb.edges.flatMap fun f _ e _ hef => ?_
  have hcount : e.inputCount (skip v u) = f.inputCount u := hef.inputCount (skip_injective v) u
  rw [hcount]
  exact PairsOff.replicate (r := fun f e : Operation => f.args.Relabelled (skip v) e.args) hef _

end Beside

/-! ## The node set aside -/

namespace Graph

variable {g : Graph} {v : ℕ}

theorem removable_inEdges (hg : g.WellFormed) (v : ℕ) : g.Removable (g.inEdges v) :=
  ⟨hg.nodup_inEdges v, fun _ he => (hg.mem_inEdges.1 he).1⟩

/-- Only the in-list of the node is emptied. -/
theorem inEdges_setAside (hg : g.WellFormed) (j : ℕ) :
    (g.setAside v).inEdges j = if j = v then [] else g.inEdges j := by
  unfold setAside
  rw [inEdges_eliminateEdges hg (removable_inEdges hg v)]
  split
  · rename_i hj
    rw [hj, List.filter_eq_nil_iff]
    exact fun e he => by simpa using he
  · rename_i hj
    rw [List.filter_eq_self]
    intro e he
    have hev : e ∉ g.inEdges v := fun hev =>
      hj ((hg.mem_inEdges.1 he).2.symm.trans (hg.mem_inEdges.1 hev).2)
    simpa using hev

theorem outEdges_setAside (hg : g.WellFormed) (u : ℕ) : ((g.setAside v).outEdges u).Perm
    ((g.outEdges u).filter fun e => e.output.guid ≠ v) := by
  have hr := removable_inEdges hg v
  have hk : (g.setAside v).WellFormed := wellFormed_eliminateEdges hg hr
  have hedge : ∀ e, (g.setAside v).HasEdge e ↔ g.HasEdge e ∧ e.output.guid ≠ v := by
    intro e
    unfold setAside
    rw [hasEdge_eliminateEdges hg hr]
    refine and_congr_right fun he => not_congr ?_
    rw [hg.mem_inEdges, and_iff_right he]
  rw [List.perm_iff_count]
  intro e
  rw [hk.out_count]
  by_cases hev : e.output.guid = v
  · have hnot : e ∉ (g.outEdges u).filter fun e => e.output.guid ≠ v := fun he => by
      simpa [hev] using (List.mem_filter.1 he).2
    rw [if_neg fun he => ((hedge e).1 he).2 hev, List.count_eq_zero_of_not_mem hnot]
  · rw [List.count_filter (by simp [hev]), hg.out_count]
    simp only [hedge, hev, ne_eq, not_false_eq_true, and_true]

end Graph

namespace Beside

variable {v : ℕ} {g h : Graph}

/-- Without its in-edges the node is beside the smaller graph as before. -/
theorem setAside (hb : Beside v g h) : Beside v (g.setAside v) h := by
  have hr := Graph.removable_inEdges hb.left v
  have hf : g.SameFrame (g.setAside v) := Graph.sameFrame_eliminateEdges g _
  have hin : ∀ i, (g.setAside v).inEdges (skip v i) = g.inEdges (skip v i) := fun i => by
    rw [Graph.inEdges_setAside hb.left, if_neg (skip_ne v i)]
  refine ⟨Graph.wellFormed_eliminateEdges hb.left hr, hb.right,
    Graph.exact_eliminateEdges hb.left hb.exactLeft hr, hb.exactRight, ?_, ?_⟩
  · refine ⟨fun i => ?_, fun i => ?_, ?_, ?_, ?_, ?_, ?_⟩
    · rw [hf.node?]
      exact hb.out.nodes i
    · rw [hin]
      exact hb.out.inEdges i
    · have hperm := Graph.outEdges_setAside (v := v) hb.left v
      rw [hb.out.outEdges] at hperm
      exact hperm.eq_nil
    · rw [hf.nodeSize]
      exact hb.out.nodeSize
    · rw [hf.partyCnt]
      exact hb.out.partyCnt
    · rw [hf.T]
      exact hb.out.T
    · rw [hf.corrupted]
      exact hb.out.corrupted
  · rw [Graph.isHonest, hf.node?]
    simp only [Graph.isCorrupted, hf.corrupted]
    exact hb.honest

/-- Then the out-edges correspond as well. -/
theorem outEdges_setAside (hb : Beside v g h) (u : ℕ) :
    PairsOff (fun f e => f.args.Relabelled (skip v) e.args) (h.outEdges u)
      ((g.setAside v).outEdges (skip v u)) := by
  have hout := hb.setAside.outEdges u
  rwa [List.filter_eq_self.2] at hout
  intro e he
  have hedge := (hb.setAside.left.mem_outEdges.1 he).1
  have hne : e.output.guid ≠ v := fun hev => by
    have hmem := hb.setAside.left.mem_inEdges.2 ⟨hedge, hev⟩
    rw [Graph.inEdges_setAside hb.left, if_pos rfl] at hmem
    exact List.not_mem_nil hmem
  simpa using hne

end Beside

/-! ## Tests -/

/-- The in-edges of the node at `v` change no test of the sharing rules with these
source parties: each node passes as the secret of a sharing as it does without them,
and the shares of a secret that passes are sent on as they are without them. -/
structure Clear (v : ℕ) (src : Finset PartyDecl) (g : Graph) : Prop where
  secrets : ∀ i < g.nodeSize,
    isRewritableSecret (g.setAside v) i src = isRewritableSecret g i src
  transits : ∀ i < g.nodeSize, isRewritableSecret g i src = some true →
    ∀ e ∈ g.outEdges i, (g.setAside v).transitOut e.output = g.transitOut e.output

instance (v : ℕ) (src : Finset PartyDecl) (g : Graph) : Decidable (Clear v src g) :=
  decidable_of_iff ((∀ i < g.nodeSize,
      isRewritableSecret (g.setAside v) i src = isRewritableSecret g i src) ∧
    ∀ i < g.nodeSize, isRewritableSecret g i src = some true →
      ∀ e ∈ g.outEdges i, (g.setAside v).transitOut e.output = g.transitOut e.output)
    ⟨fun h => ⟨h.1, h.2⟩, fun h => ⟨h.secrets, h.transits⟩⟩

namespace Beside

variable {v i : ℕ} {g h : Graph} {src : Finset PartyDecl}

/-- **A secret is found with the node as without it.** -/
theorem isRewritableSecret (hb : Beside v g h) (hc : Clear v src g) (hi : i < h.nodeSize) :
    isRewritableSecret g (skip v i) src = isRewritableSecret h i src := by
  rw [← hc.secrets _ ((hb.skip_lt_iff i).2 hi)]
  refine Graph.EmbedsIn.isRewritableSecret hb.setAside.embedsIn (hb.outEdges_setAside i)
    (fun f _ => ?_) hb.right hb.setAside.left ?_ src
  · exact Graph.EmbedsIn.afterTransit_of_transitOut
      (Graph.EmbedsIn.transitOut (hb.outEdges_setAside f.output.guid))
  · exact hb.setAside.skip_lt_iff i

/-- The two graphs show the same sharing at the node. -/
structure SharedAlike (v i : ℕ) (src : Finset PartyDecl) (g h : Graph) : Prop where
  left : SharingMatch g src (skip v i)
  right : SharingMatch h src i
  outEdges : PairsOff (fun f e => f.args.Relabelled (skip v) e.args) (h.outEdges i)
    (g.outEdges (skip v i))
  transits : ∀ f ∈ h.outEdges i, Option.Rel
    (fun f e => f.args.Relabelled (skip v) e.args ∧ f.type = .transit) (h.transitOut f.output)
      (g.transitOut (f.output.relabel (skip v)))

theorem sharedAlike (hb : Beside v g h) (hc : Clear v src g) (hi : i < h.nodeSize)
    (hm : Gauv.isRewritableSecret g (skip v i) src = some true) : SharedAlike v i src g h := by
  have hleft := sharingMatch_of_isRewritableSecret hm
  have hright := sharingMatch_of_isRewritableSecret ((hb.isRewritableSecret hc hi).symm.trans hm)
  have houts : PairsOff (fun f e => f.args.Relabelled (skip v) e.args) (h.outEdges i)
      (g.outEdges (skip v i)) := by
    -- both have one out-edge for each party
    have hout := hb.outEdges i
    have hlen := hout.length_eq
    have hdeg : (g.outEdges (skip v i)).length = (h.outEdges i).length :=
      hleft.outDeg.trans (hb.out.partyCnt.symm.trans hright.outDeg.symm)
    rw [← hdeg, List.length_filter_eq_length_iff] at hlen
    rwa [List.filter_eq_self.2 hlen] at hout
  refine ⟨hleft, hright, houts, fun f hf => ?_⟩
  obtain ⟨e, he, hef⟩ := houts.exists_right hf
  have hout : e.output = f.output.relabel (skip v) := hef.output
  rw [← hout, ← hc.transits _ ((hb.skip_lt_iff i).2 hi) hm e he, hout]
  exact Graph.EmbedsIn.transitOut (hb.outEdges_setAside f.output.guid)

end Beside

/-! ## Corresponding plans -/

/-- The plans make the same change to the two graphs, away from the node. -/
structure Plan.RestoredIn (v : ℕ) (g h : Graph) (p q : Plan) : Prop where
  left : p.Valid g
  right : q.Valid h
  node : p.node.guid = skip v q.node.guid
  added : ∀ i, List.Forall₂ (Restored v) (p.edgesToAdd.filter fun n => n.output.guid = skip v i)
    (q.edgesToAdd.filter fun n => n.output.guid = i)
  apart : ∀ n ∈ p.edgesToAdd, ∀ m ∈ n.output :: n.inputs, m.guid ≠ v
  eliminated : ∀ i, List.Forall₂
    (fun e f => SameEdge v e f ∧ (e ∈ p.edgesToEliminate ↔ f ∈ q.edgesToEliminate))
    (g.inEdges (skip v i)) (h.inEdges i)
  spared : ∀ e ∈ p.edgesToEliminate, e.output.guid ≠ v

theorem sameEdge_of_restored {v : ℕ} {e f : Operation} (h : Restored v e.args f.args) :
    SameEdge v e f where
  type := h.type.symm
  output := congrArg Node.guid h.output.symm
  bag := by
    have hguids := h.guids
    rw [List.map_map] at hguids
    exact hguids.symm
  inputs := fun ht => by
    have hin : e.inputs = f.inputs.map (Node.relabel (skip v)) :=
      h.inputs fun hf => ht (h.type.trans hf)
    rw [hin, List.map_map]
    rfl

/-- New edges by their output. -/
theorem map_args_filter_makeShared (team fresh i : ℕ) (es : List NewEdge) :
    ((makeShared team fresh es).filter fun f => f.output.guid = i).map Operation.args =
      es.filter fun n => n.output.guid = i := by
  conv_rhs => rw [← map_args_makeShared team fresh es]
  rw [List.filter_map]
  rfl

namespace Beside

variable {v : ℕ} {g h : Graph} {p q : Plan}

/-- The rewrite leaves the in-edges of the node alone. -/
theorem inEdges_result (hb : Beside v g h) (hpq : p.RestoredIn v g h q) (team : ℕ) :
    (p.result team g).inEdges v = g.inEdges v := by
  have hkept : (g.inEdges v).filter (fun e => e ∉ p.edgesToEliminate) = g.inEdges v := by
    rw [List.filter_eq_self]
    intro e he
    simpa using fun hmem => hpq.spared e hmem (hb.left.mem_inEdges.1 he).2
  have hadded : (p.added team g).filter (fun e => e.output.guid = v) = [] := by
    rw [List.filter_eq_nil_iff]
    intro e he
    obtain ⟨n, hn, -, -, hout⟩ := exists_of_mem_makeShared he
    simpa [hout] using hpq.apart n hn n.output (List.mem_cons_self ..)
  rw [Plan.inEdges_result hb.left hpq.left, hkept, hadded, List.append_nil]

/-- **Corresponding plans keep the graphs side by side.** -/
theorem result (hb : Beside v g h) (hpq : p.RestoredIn v g h q) (team team' : ℕ) :
    Beside v (p.result team g) (q.result team' h) := by
  have hf := Plan.sameFrame_result p team g
  have hf' := Plan.sameFrame_result q team' h
  refine ⟨Plan.wellFormed_result hb.left hpq.left team,
    Plan.wellFormed_result hb.right hpq.right team',
    Plan.exact_result hb.left hb.exactLeft hpq.left team,
    Plan.exact_result hb.right hb.exactRight hpq.right team',
    ⟨fun i => ?_, fun i => ?_, ?_, ?_, ?_, ?_, ?_⟩, ?_⟩
  · rw [hf.node?, hf'.node?]
    exact hb.out.nodes i
  · rw [Plan.inEdges_result hb.left hpq.left, Plan.inEdges_result hb.right hpq.right]
    have hkept := List.rel_filter (p := fun e => e ∉ p.edgesToEliminate)
      (q := fun f => f ∉ q.edgesToEliminate)
      (fun e f hef => by simpa using not_congr hef.2) (hpq.eliminated i)
    refine List.rel_append (hkept.imp fun e f hef => hef.1) ?_
    have hadded := hpq.added i
    rw [← map_args_filter_makeShared team g.freshId, ← map_args_filter_makeShared team' h.freshId,
      List.forall₂_map_left_iff, List.forall₂_map_right_iff] at hadded
    exact hadded.imp fun e f hef => sameEdge_of_restored hef
  · rw [List.eq_nil_iff_forall_not_mem]
    intro e he
    obtain ⟨hedge, n, hn, hnv⟩ :=
      (Plan.wellFormed_result hb.left hpq.left team).mem_outEdges.1 he
    rcases (Plan.hasEdge_result hb.left hpq.left team).1 hedge with ⟨hedge, -⟩ | hadd
    · exact hb.not_input hedge hn hnv
    · obtain ⟨k, hk, -, hin, -⟩ := exists_of_mem_makeShared hadd
      rw [hin] at hn
      exact hpq.apart k hk n (List.mem_cons_of_mem _ hn) hnv
  · rw [hf.nodeSize, hf'.nodeSize]
    exact hb.out.nodeSize
  · rw [hf.partyCnt, hf'.partyCnt]
    exact hb.out.partyCnt
  · rw [hf.T, hf'.T]
    exact hb.out.T
  · rw [hf.corrupted, hf'.corrupted]
    exact hb.out.corrupted
  · rw [Graph.isHonest, hf.node?]
    simp only [Graph.isCorrupted, hf.corrupted]
    exact hb.honest

end Beside

end Gauv
