import Gauv.Backend.Runs
import Gauv.Digraph

/-!
# Directed cycles

A rewrite removes edges, turns some TRANSITs round, and adds a block of edges
from the sources of the match to its destinations.  The removal and the turned
TRANSITs never close a cycle; the block closes one exactly when a destination
still leads to a source.  The code tests nothing of the kind, so acyclicity is
an invariant of exactly those runs whose matches are untangled in this sense.
-/

namespace Gauv

open Relation

namespace GraphBase

/-- An edge leads from node `u` to node `v`. -/
def Feeds (g : GraphBase) (u v : ℕ) : Prop :=
  ∃ e, g.HasEdge e ∧ (∃ n ∈ e.inputs, n.guid = u) ∧ e.output.guid = v

/-- The graph has no directed cycle. -/
def Acyclic (g : GraphBase) : Prop := Digraph.Acyclic g.Feeds

/-- A directed walk, possibly empty, leads from node `u` to node `v`. -/
abbrev Reaches (g : GraphBase) : ℕ → ℕ → Prop := ReflTransGen g.Feeds

theorem Acyclic.not_reaches {g : GraphBase} (hac : g.Acyclic) {e : Operation} (he : g.HasEdge e)
    {n : Node} (hn : n ∈ e.inputs) : ¬ g.Reaches e.output.guid n.guid :=
  Digraph.Acyclic.not_reach hac ⟨e, he, ⟨n, hn, rfl⟩, rfl⟩

end GraphBase

open GraphBase

/-- Edges that lead from lower to higher nodes make an acyclic graph. -/
theorem Graph.acyclic_linked {g : Graph} {nodes : List Node} {es : List Operation}
    (hg : g.toGraphBase = bare nodes) (hguid : nodes.map Node.guid = List.range nodes.length)
    (hid : (es.map Operation.id).Nodup)
    (hlive : ∀ e ∈ es, ∀ n ∈ e.output :: e.inputs, nodes[n.guid]? = some n)
    (hup : ∀ e ∈ es, ∀ n ∈ e.inputs, n.guid < e.output.guid) : (g.addEdges es).Acyclic := by
  refine Digraph.acyclic_of_lt id ?_
  rintro u v ⟨e, he, ⟨n, hn, rfl⟩, rfl⟩
  exact hup e ((Graph.hasEdge_linked hg hguid hid hlive).1 he) n hn

/-! ## The edges of a rewritten graph -/

namespace Plan

variable {g : Graph} {p : Plan}

/-- An edge that stays leads from `u` to `v`. -/
def Kept (p : Plan) (g : Graph) (u v : ℕ) : Prop :=
  ∃ e, g.HasEdge e ∧ e ∉ p.edgesToEliminate ∧ (∃ n ∈ e.inputs, n.guid = u) ∧ e.output.guid = v

/-- A TRANSIT that is turned round leads from `u` to `v` afterwards. -/
def Turned (p : Plan) (u v : ℕ) : Prop :=
  ∃ k ∈ p.turned, (∃ n ∈ k.inputs, n.guid = u) ∧ k.output.guid = v

/-- The edges that stay and the turned TRANSITs. -/
def Remaining (p : Plan) (g : Graph) (u v : ℕ) : Prop := p.Kept g u v ∨ p.Turned u v

theorem Kept.feeds {u v : ℕ} (h : p.Kept g u v) : g.Feeds u v := by
  obtain ⟨e, he, -, hu, hv⟩ := h
  exact ⟨e, he, hu, hv⟩

theorem reaches_of_kept {u v : ℕ} (h : ReflTransGen (p.Kept g) u v) : g.Reaches u v :=
  ReflTransGen.mono (fun _ _ => Kept.feeds) _ _ h

/-- A step of the rewritten graph is one that remains or one of the new block. -/
theorem feeds_result (hg : g.WellFormed) (hp : p.Valid g) (team : ℕ) {u v : ℕ} :
    (p.result team g).Feeds u v ↔ p.Remaining g u v ∨
      (u ∈ {u | ∃ n ∈ p.srcs, n.guid = u} ∧ v ∈ {v | ∃ n ∈ p.dsts, n.guid = v}) := by
  constructor
  · rintro ⟨e, he, hu, hv⟩
    rcases (hasEdge_result hg hp team).1 he with ⟨he, hne⟩ | he
    · exact Or.inl (Or.inl ⟨e, he, hne, hu, hv⟩)
    · obtain ⟨k, hk, -, hin, hout⟩ := exists_of_mem_makeShared he
      rw [hin] at hu
      rw [hout] at hv
      rcases List.mem_append.1 hk with hk | hk
      · exact Or.inl (Or.inr ⟨k, hk, hu, hv⟩)
      · obtain ⟨d, hd, rfl⟩ := List.mem_map.1 hk
        exact Or.inr ⟨hu, d, hd, hv⟩
  · have hadd : ∀ k ∈ p.edgesToAdd, (∃ n ∈ k.inputs, n.guid = u) → k.output.guid = v →
        (p.result team g).Feeds u v := by
      intro k hk hu hv
      obtain ⟨e, he, -, hin, hout⟩ := exists_mem_makeShared team g.freshId hk
      exact ⟨e, (hasEdge_result hg hp team).2 (Or.inr he), hin ▸ hu, hout ▸ hv⟩
    rintro ((⟨e, he, hne, hu, hv⟩ | ⟨k, hk, hu, hv⟩) | ⟨hu, d, hd, hv⟩)
    · exact ⟨e, (hasEdge_result hg hp team).2 (Or.inl ⟨he, hne⟩), hu, hv⟩
    · exact hadd k (List.mem_append_left _ hk) hu hv
    · exact hadd _ (List.mem_append_right _ (List.mem_map_of_mem hd)) hu hv

/-- The turned edges are TRANSITs of the graph in the other direction, and no
other edge enters a node they now leave. -/
structure TurnsBack (p : Plan) (g : Graph) : Prop where
  back : ∀ u v, p.Turned u v → g.Feeds v u
  bare : ∀ u v, p.Turned u v → ∀ c, ¬ p.Kept g c u

theorem acyclic_remaining (hac : g.Acyclic) (ht : p.TurnsBack g) :
    Digraph.Acyclic (p.Remaining g) :=
  Digraph.acyclic_union (hac.mono fun _ _ => Kept.feeds) (hac.swap.mono ht.back) ht.bare

/-- The rewritten graph is acyclic exactly when no destination leads to a source
over the edges that remain. -/
theorem acyclic_result_iff (hg : g.WellFormed) (hac : g.Acyclic) (hp : p.Valid g)
    (ht : p.TurnsBack g) (team : ℕ) :
    (p.result team g).Acyclic ↔
      ∀ d ∈ p.dsts, ∀ s ∈ p.srcs, ¬ ReflTransGen (p.Remaining g) d.guid s.guid := by
  have heq : (p.result team g).Feeds = fun u v => p.Remaining g u v ∨
      (u ∈ {u | ∃ n ∈ p.srcs, n.guid = u} ∧ v ∈ {v | ∃ n ∈ p.dsts, n.guid = v}) := by
    funext u v
    exact propext (feeds_result hg hp team)
  rw [GraphBase.Acyclic, heq, Digraph.acyclic_block_iff (acyclic_remaining hac ht)]
  simp only [Set.mem_ofPred_eq, forall_exists_index, and_imp, forall_apply_eq_imp_iff₂]

end Plan

/-! ## Turned TRANSITs -/

theorem SharingMatch.inEdges_transit {g : Graph} {src : Finset PartyDecl} {v : ℕ}
    (hm : SharingMatch g src v) (hg : g.WellFormed) {e t : Operation} (he : e ∈ g.outEdges v)
    (hev : e.type = .eval) (ht : g.transitOut e.output = some t) (hs : t.output.party ∈ src) :
    g.inEdges t.output.guid = [t] := by
  have hdeg := hm.sources e he hev (by rw [shareParty_of_transitOut ht]; exact hs)
  rw [afterTransit, ht] at hdeg
  obtain ⟨f, hf⟩ := List.length_eq_one_iff.1 hdeg
  have hmem : t ∈ g.inEdges t.output.guid :=
    (hg.mem_outEdges.1 (mem_outEdges_of_transitOut ht)).1
  rw [hf] at hmem ⊢
  rw [List.mem_singleton.1 hmem]

theorem SharingPlan.turnsBack {order : IterOrder} {g : Graph} {src : Finset PartyDecl}
    {node : Node} {v : ℕ} {srcs₀ dsts₀ : List Node} {p : Plan}
    (h : SharingPlan order g src node v srcs₀ dsts₀ p) (hm : SharingMatch g src v)
    (hg : g.WellFormed) : p.TurnsBack g where
  back := by
    rintro u w ⟨k, hk, hu, rfl⟩
    rw [h.turned, List.mem_flatMap] at hk
    obtain ⟨e, -, hk⟩ := hk
    obtain ⟨t, ht, -, rfl⟩ := mem_sharingTurned.1 hk
    obtain ⟨hte, hin⟩ := hg.mem_outEdges.1 (mem_outEdges_of_transitOut ht)
    exact ⟨t, hte, hin, by simpa using hu⟩
  bare := by
    rintro u w ⟨k, hk, hu, rfl⟩ c ⟨f, hf, hne, -, hfu⟩
    rw [h.turned, List.mem_flatMap] at hk
    obtain ⟨e, he, hk⟩ := hk
    obtain ⟨t, ht, hs, rfl⟩ := mem_sharingTurned.1 hk
    obtain ⟨n, hn, rfl⟩ := hu
    cases List.mem_singleton.1 hn
    have hmem := hg.mem_inEdges.2 ⟨hf, hfu⟩
    rw [hm.inEdges_transit hg he (h.isEval e he) ht hs, List.mem_singleton] at hmem
    refine hne ?_
    rw [h.eliminated, hmem]
    exact List.mem_flatMap.2 ⟨e, he, mem_sharingEliminated.2 (Or.inr ⟨t, ht, hs, rfl⟩)⟩

theorem ReconstructionPlan.turnsBack {order : IterOrder} {g : Graph} {src : Finset PartyDecl}
    {node : Node} {edge : Operation} {p : Plan}
    (h : ReconstructionPlan order g src node edge p) (hm : ReconstructionMatch g edge)
    (hg : g.WellFormed) : p.TurnsBack g where
  back := by
    rintro u w ⟨k, hk, hu, rfl⟩
    rw [h.turned, List.mem_flatMap] at hk
    obtain ⟨s, hs, hk⟩ := hk
    obtain ⟨-, ⟨t, ht⟩, rfl⟩ := mem_operandTurned.1 hk
    obtain ⟨hte, hout⟩ := hg.mem_inEdges.1 (mem_inEdges_of_transitIn ht)
    refine ⟨t, hte, ⟨g.origin s, ?_, rfl⟩, hout.trans (by simpa using hu)⟩
    rw [inputs_of_transitIn ht (hm.asserted s hs)]
    exact List.mem_singleton_self _
  bare := by
    rintro u w ⟨k, hk, hu, rfl⟩ c ⟨f, hf, hne, -, hfu⟩
    rw [h.turned, List.mem_flatMap] at hk
    obtain ⟨s, hs, hk⟩ := hk
    obtain ⟨hsrc, ⟨t, ht⟩, rfl⟩ := mem_operandTurned.1 hk
    obtain ⟨n, hn, rfl⟩ := hu
    cases List.mem_singleton.1 hn
    have hmem := hg.mem_inEdges.2 ⟨hf, hfu⟩
    rw [(transitIn_eq_some.1 ht).1, List.mem_singleton] at hmem
    refine hne ?_
    rw [h.eliminated, hmem]
    exact List.mem_cons_of_mem _
      (List.mem_flatMap.2 ⟨s, hs, mem_operandEliminated.2 ⟨hsrc, ht⟩⟩)

/-! ## Untangled matches -/

/-- The match is untangled in the graph it was found in.

* Reversing `c = a + b` into `a = c - b`: `a` leads neither to `b` nor to an
  input of another in-edge of `c`.
* A sharing: no destination leads to a source over the edges that stay.
* A reconstruction: what a destination operand was sent from leads to no source
  operand. -/
def Transformer.Untangled (g : Graph) (p : Plan) : Transformer → Prop
  | .addition => ∀ d ∈ p.dsts,
      (∀ s ∈ p.srcs, s.guid ≠ p.node.guid → ¬ g.Reaches d.guid s.guid) ∧
      ∀ f ∈ g.inEdges p.node.guid, f ∉ p.edgesToEliminate →
        ∀ n ∈ f.inputs, ¬ g.Reaches d.guid n.guid
  | .sharing _ | .randomSharing _ => ∀ d ∈ p.dsts, ∀ s ∈ p.srcs,
      ¬ ReflTransGen (p.Kept g) d.guid s.guid
  | .reconstruction _ => ∀ d ∈ p.dsts, ∀ s ∈ p.srcs, s.guid ≠ p.node.guid →
      ¬ g.Reaches (g.origin d).guid s.guid

section Addition

variable {g : Graph} {edge : Operation} {a b : Node}

/-- The addition rule on `c = a + b`, solved for `a`. -/
theorem untangled_addition_iff (hg : g.WellFormed) (hac : g.Acyclic) (he : g.HasEdge edge)
    (ha : a ∈ edge.inputs) (hb : b ∈ edge.inputs) {p : Plan}
    (hp : p = ⟨edge.output, [edge], [], .sub, [edge.output, b], [a]⟩) :
    (∀ d ∈ p.dsts, ∀ s ∈ p.srcs, ¬ ReflTransGen (p.Remaining g) d.guid s.guid) ↔
      Transformer.Untangled g p .addition := by
  subst hp
  set p : Plan := ⟨edge.output, [edge], [], .sub, [edge.output, b], [a]⟩ with hp
  have hrem : p.Remaining g = p.Kept g := by
    funext u v
    refine propext (or_iff_left ?_)
    rintro ⟨k, hk, -⟩
    exact List.not_mem_nil hk
  -- the removed edge ends in a node that leads to no operand
  have havoid : ∀ n : Node, (¬ g.Reaches edge.output.guid n.guid) →
      (ReflTransGen (p.Kept g) a.guid n.guid ↔ g.Reaches a.guid n.guid) := by
    refine fun n hn => ⟨Plan.reaches_of_kept, fun h => Digraph.reach_of_avoid h ?_⟩
    rintro x y ⟨f, hf, hx, rfl⟩ hk hyn
    have hfe : f = edge := by
      by_contra hne
      exact hk ⟨f, hf, by simpa [hp] using hne, hx, rfl⟩
    exact hn (hfe ▸ hyn)
  have hbne : b.guid ≠ edge.output.guid := fun h =>
    hac.not_reaches he hb (h ▸ .refl)
  have hane : a.guid ≠ edge.output.guid := fun h =>
    hac.not_reaches he ha (h ▸ .refl)
  have hkept : ReflTransGen (p.Kept g) a.guid edge.output.guid ↔
      ∃ f ∈ g.inEdges edge.output.guid, f ∉ p.edgesToEliminate ∧
        ∃ n ∈ f.inputs, g.Reaches a.guid n.guid := by
    have hnot : ∀ f, g.HasEdge f → f.output.guid = edge.output.guid → ∀ n ∈ f.inputs,
        ¬ g.Reaches edge.output.guid n.guid := fun f hf hfo n hn =>
      hfo ▸ hac.not_reaches hf hn
    constructor
    · intro h
      rcases ReflTransGen.cases_tail h with h | ⟨u, hau, f, hf, hfe, ⟨n, hn, rfl⟩, hfo⟩
      · exact absurd h.symm hane
      · exact ⟨f, hg.mem_inEdges.2 ⟨hf, hfo⟩, hfe, n, hn, Plan.reaches_of_kept hau⟩
    · rintro ⟨f, hf, hfe, n, hn, hr⟩
      obtain ⟨hf, hfo⟩ := hg.mem_inEdges.1 hf
      exact .tail ((havoid n (hnot f hf hfo n hn)).2 hr) ⟨f, hf, hfe, ⟨n, hn, rfl⟩, hfo⟩
  rw [hrem]
  simp only [Transformer.Untangled, hp, forall_eq, List.mem_cons,
    List.not_mem_nil, or_false, forall_eq_or_imp, ne_eq, not_true_eq_false, false_imp_iff,
    true_and, hbne, not_false_eq_true, true_imp_iff]
  rw [← hp, hkept, havoid b (hac.not_reaches he hb), and_comm]
  simp [hp]

end Addition

/-- The two sharing rules: a destination is no node that a turned TRANSIT leaves. -/
theorem SharingPlan.reaches_remaining_iff {order : IterOrder} {g : Graph}
    {src : Finset PartyDecl} {node : Node} {v : ℕ} {srcs₀ dsts₀ : List Node} {p : Plan}
    (h : SharingPlan order g src node v srcs₀ dsts₀ p) (hm : SharingMatch g src v)
    (hg : g.WellFormed) (h₀ : ∀ n ∈ dsts₀, g.inEdges n.guid = []) {d s : Node}
    (hd : d ∈ p.dsts) :
    ReflTransGen (p.Remaining g) d.guid s.guid ↔ ReflTransGen (p.Kept g) d.guid s.guid := by
  refine ⟨fun hr => ?_, ReflTransGen.mono (fun _ _ => Or.inl) _ _⟩
  obtain ⟨m, hdm, hms⟩ := Digraph.reach_union (h.turnsBack hm hg).bare hr
  rcases ReflTransGen.cases_head hdm with hdm | ⟨x, ⟨k, hk, hu, rfl⟩, -⟩
  · exact hdm ▸ hms
  · rw [h.turned, List.mem_flatMap] at hk
    obtain ⟨e, he, hk⟩ := hk
    obtain ⟨t, ht, hs, rfl⟩ := mem_sharingTurned.1 hk
    obtain ⟨n, hn, hnd⟩ := hu
    cases List.mem_singleton.1 hn
    have hin := hm.inEdges_transit hg he (h.isEval e he) ht hs
    rw [hnd] at hin
    rcases h.of_mem_dsts hd with hd | ⟨f, hf, ⟨hdf, hdv⟩ | ⟨-, rfl⟩⟩
    · rw [h₀ d hd] at hin
      exact absurd hin (by simp)
    · obtain ⟨S, -, -, hS, hrand⟩ := hm.inputs
      have hr := hrand d.guid ((hS _).2 ⟨f, hf, List.mem_map_of_mem hdf⟩) hdv
      rw [isRandomNode] at hr
      split at hr
      · simp [inDeg, hin] at hr
      · exact absurd hr (by simp)
    · have hft : f ∈ g.inEdges f.output.guid := (hg.mem_outEdges.1 hf).1
      rw [hin, List.mem_singleton] at hft
      have h₁ := h.isEval f hf
      rw [hft, (transitOut_eq_some.1 ht).2] at h₁
      exact absurd h₁ (by simp)

section Reconstruction

variable {order : IterOrder} {g : Graph} {src : Finset PartyDecl} {node : Node}
  {edge : Operation} {p : Plan}

theorem ReconstructionPlan.mem_dsts (h : ReconstructionPlan order g src node edge p)
    (hg : g.WellFormed) (he : g.HasEdge edge) {n : Node} :
    n ∈ p.dsts ↔ n ∈ edge.inputs ∧ isSourceOperand g src n = false := by
  refine ⟨h.of_mem_dsts, fun hn => ?_⟩
  rw [h.dsts, (order.perm _).mem_iff]
  obtain ⟨m, hm, hmn⟩ := exists_mem_insertNodes
    (l := edge.inputs.filter (fun s => !isSourceOperand g src s)) (n := n) (by simpa using hn)
  have hm' := (List.mem_filter.1 (mem_of_mem_insertNodes hm)).1
  rwa [← eq_of_guid (hg.input_live he hm') (hg.input_live he hn.1) hmn]

/-- An operand is reached from the node it was sent from. -/
theorem reaches_origin (hg : g.WellFormed) {s : Node} (hs : (g.beforeTransit s).isSome) :
    g.Reaches (g.origin s).guid s.guid := by
  cases ht : g.transitIn s with
  | none => rw [origin_of_transitIn_none ht]
  | some t =>
      obtain ⟨hte, hout⟩ := hg.mem_inEdges.1 (mem_inEdges_of_transitIn ht)
      refine .single ⟨t, hte, ⟨g.origin s, ?_, rfl⟩, hout⟩
      rw [inputs_of_transitIn ht hs]
      exact List.mem_singleton_self _

/-- A walk to a source operand uses no removed edge, or a destination leads
there without. -/
theorem ReconstructionPlan.kept_or_of_reaches
    (h : ReconstructionPlan order g src node edge p) (hg : g.WellFormed) (hac : g.Acyclic)
    (he : g.HasEdge edge) {s : Node} (hs : s ∈ edge.inputs) {x : ℕ}
    (hr : g.Reaches x s.guid) :
    ReflTransGen (p.Kept g) x s.guid ∨
      ∃ d ∈ p.dsts, ReflTransGen (p.Kept g) d.guid s.guid := by
  induction hr using ReflTransGen.head_induction_on with
  | refl => exact Or.inl .refl
  | @head x y hxy hys ih =>
      obtain ⟨f, hf, hx, rfl⟩ := hxy
      rcases ih with ih | ih
      · by_cases hfe : f ∈ p.edgesToEliminate
        · rw [h.eliminated] at hfe
          rcases List.mem_cons.1 hfe with rfl | hfe
          · exact absurd hys (hac.not_reaches he hs)
          · obtain ⟨d, hd, hfd⟩ := List.mem_flatMap.1 hfe
            obtain ⟨hsrc, ht⟩ := mem_operandEliminated.1 hfd
            obtain ⟨-, hout⟩ := hg.mem_inEdges.1 (mem_inEdges_of_transitIn ht)
            exact Or.inr ⟨d, (h.mem_dsts hg he).2 ⟨hd, hsrc⟩, hout ▸ ih⟩
        · exact Or.inl (.head ⟨f, hf, hfe, hx, rfl⟩ ih)
      · exact Or.inr ih

theorem untangled_reconstruction_iff (h : ReconstructionPlan order g src node edge p)
    (hm : ReconstructionMatch g edge) (hg : g.WellFormed) (hac : g.Acyclic)
    (he : g.inEdges edge.output.guid = [edge]) (hv : g.node? edge.output.guid = some node) :
    (∀ d ∈ p.dsts, ∀ s ∈ p.srcs, ¬ ReflTransGen (p.Remaining g) d.guid s.guid) ↔
      Transformer.Untangled g p (.reconstruction src) := by
  have hedge := hasEdge_of_inEdges he
  have hnode := hg.eq_output hedge hv
  have hop : ∀ s ∈ p.srcs, s.guid ≠ p.node.guid → s ∈ edge.inputs := by
    intro s hs hne
    rw [h.node_eq] at hne
    rcases h.mem_srcs.1 hs with rfl | hs
    · exact absurd rfl hne
    · exact hs.1
  constructor
  · intro hno d hd s hs hne hr
    obtain ⟨hdin, hdsrc⟩ := h.of_mem_dsts hd
    rcases h.kept_or_of_reaches hg hac hedge (hop s hs hne) hr with hk | ⟨d', hd', hk⟩
    · refine hno d hd s hs ?_
      have hk' : ReflTransGen (p.Remaining g) (g.origin d).guid s.guid :=
        ReflTransGen.mono (fun _ _ => Or.inl) _ _ hk
      cases ht : g.transitIn d with
      | none => rwa [origin_of_transitIn_none ht] at hk'
      | some t =>
          refine .head (Or.inr ⟨⟨.transit, [d], g.origin d⟩, ?_,
            ⟨d, List.mem_singleton_self d, rfl⟩, rfl⟩) hk'
          rw [h.turned]
          exact List.mem_flatMap.2 ⟨d, hdin, mem_operandTurned.2 ⟨hdsrc, ⟨t, ht⟩, rfl⟩⟩
    · exact hno d' hd' s hs (ReflTransGen.mono (fun _ _ => Or.inl) _ _ hk)
  · intro hun d hd s hs hr
    obtain ⟨m, hdm, hms⟩ := Digraph.reach_union (h.turnsBack hm hg).bare hr
    -- the walk over the edges that stay starts at a destination or at an origin
    obtain ⟨d', hd', hm'⟩ : ∃ d' ∈ p.dsts, m = d'.guid ∨ m = (g.origin d').guid := by
      rcases ReflTransGen.cases_tail hdm with rfl | ⟨x, -, k, hk, -, rfl⟩
      · exact ⟨d, hd, Or.inl rfl⟩
      · rw [h.turned, List.mem_flatMap] at hk
        obtain ⟨d', hd', hk⟩ := hk
        obtain ⟨hsrc, -, rfl⟩ := mem_operandTurned.1 hk
        exact ⟨d', (h.mem_dsts hg hedge).2 ⟨hd', hsrc⟩, Or.inr rfl⟩
    have hdin := (h.of_mem_dsts hd').1
    have hor := reaches_origin hg (hm.asserted d' hdin)
    have horm : g.Reaches (g.origin d').guid m := by
      rcases hm' with rfl | rfl
      · exact hor
      · exact .refl
    by_cases hsn : s.guid = p.node.guid
    · -- the opened value has lost its only in-edge
      rw [h.node_eq, hnode] at hsn
      rw [hsn] at hms
      rcases ReflTransGen.cases_tail hms with hms | ⟨u, -, f, hf, hfe, -, hfo⟩
      · refine hac.not_reaches hedge hdin ?_
        rw [hms]
        rcases hm' with rfl | rfl
        · exact .refl
        · exact hor
      · have hmem := hg.mem_inEdges.2 ⟨hf, hfo⟩
        rw [he, List.mem_singleton] at hmem
        refine hfe ?_
        rw [h.eliminated, hmem]
        exact List.mem_cons_self ..
    · exact hun d' hd' s hs hsn (horm.trans (Plan.reaches_of_kept hms))

end Reconstruction

/-! ## Acyclicity of a step and of a run -/

/-- The graph a match gives is acyclic exactly when the match is untangled. -/
theorem PlanShape.acyclic_result_iff {g : Graph} {p : Plan} {tr : Transformer}
    (h : PlanShape g p tr) (hg : g.WellFormed) (hac : g.Acyclic) (team : ℕ) :
    (p.result team g).Acyclic ↔ tr.Untangled g p := by
  have hval := h.valid hg
  cases h with
  | @addition edge src0 src1 he ht hin hp =>
      have h0 : src0 ∈ edge.inputs := by simp [hin]
      have h1 : src1 ∈ edge.inputs := by simp [hin]
      have hturn : p.TurnsBack g := by
        have : p.turned = [] := by rcases hp with rfl | rfl <;> rfl
        refine ⟨fun u v ⟨k, hk, _⟩ => ?_, fun u v ⟨k, hk, _⟩ => ?_⟩
        all_goals exact absurd (this ▸ hk) List.not_mem_nil
      rw [Plan.acyclic_result_iff hg hac hval hturn]
      rcases hp with hp | hp
      · exact untangled_addition_iff hg hac he h0 h1 hp
      · exact untangled_addition_iff hg hac he h1 h0 hp
  | @sharing src order v node hv hm hp =>
      rw [Plan.acyclic_result_iff hg hac hval (hp.turnsBack hm hg)]
      exact forall₂_congr fun d hd => forall₂_congr fun s _ =>
        not_congr (hp.reaches_remaining_iff hm hg (by simp) hd)
  | @randomSharing src order v node hr hv hm hp =>
      rw [Plan.acyclic_result_iff hg hac hval (hp.turnsBack hm hg)]
      have hbare : ∀ n ∈ [node], g.inEdges n.guid = [] := by
        intro n hn
        cases List.mem_singleton.1 hn
        rw [isRandomNode, hv] at hr
        simp only [inDeg, Bool.and_eq_true, decide_eq_true_eq, List.length_eq_zero_iff] at hr
        rw [hg.guid_eq hv]
        exact hr.1.1
      exact forall₂_congr fun d hd => forall₂_congr fun s _ =>
        not_congr (hp.reaches_remaining_iff hm hg hbare hd)
  | @reconstruction src order edge node he ht hv hm hp =>
      rw [Plan.acyclic_result_iff hg hac hval (hp.turnsBack hm hg)]
      exact untangled_reconstruction_iff hp hm hg hac he hv

namespace Prover

/-- One accepted rewrite from an untangled match. -/
def RewritesUntangled (trs : List Transformer) (g g' : Graph) : Prop :=
  ∃ tr ∈ trs, ∃ team order ps, tr.plans order g = some ps ∧
    ∃ p ∈ ps, g' = p.result team g ∧ g'.randomNodeCnt = g.randomNodeCnt ∧ tr.Untangled g p

/-- Every step the rewriting loop takes from `g₀` comes from an untangled match. -/
def UntangledRun (env : Env) (trs : List Transformer) (g₀ : Graph) : Prop :=
  ∀ iter g considered node g', Visited env trs g₀ iter g considered → g.hasBubble = true →
    selectMin env iter g considered trs 0 none = some (some (node, g')) →
    RewritesUntangled trs g g'

/-- **When rewriting keeps graphs acyclic.**  On a well-formed acyclic graph the
results a transformer returns are all acyclic exactly when every match that
passes the random-node filter is untangled; and the graphs the rewriting loop
visits are all acyclic exactly when every step it takes is. -/
theorem acyclic_iff_untangled {g : Graph} (hg : g.WellFormed) (hac : g.Acyclic) :
    (∀ (tr : Transformer) (team : ℕ) (order : ℕ → IterOrder) (ps : List Plan)
      (results : ResultsType), tr.plans order g = some ps →
      tr.apply team order g = some results →
      ((∀ r ∈ results, r.2.Acyclic) ↔
        ∀ p ∈ ps, (p.result team g).randomNodeCnt = g.randomNodeCnt → tr.Untangled g p)) ∧
    ∀ (env : Env) (parties : List PartyDecl),
      (∀ h, RewriteVisited env parties g h → h.Acyclic) ↔
        UntangledRun env (equivalentRewriters parties g) g := by
  refine ⟨fun tr team order ps results hps hres => ?_,
    fun env parties => ⟨fun hall => ?_, fun hrun => ?_⟩⟩
  · rw [Transformer.apply, hps, Option.map_some, Option.some.injEq] at hres
    have hiff : ∀ p ∈ ps, ((p.result team g).Acyclic ↔ tr.Untangled g p) := fun p hp =>
      (planShape_of_mem_plans hg hps hp).acyclic_result_iff hg hac team
    rw [← hres, filterResults]
    constructor
    · intro hall p hp hcnt
      refine (hiff p hp).1 (hall (p.node, p.result team g) ?_)
      exact List.mem_filter.2 ⟨List.mem_map.2 ⟨p, hp, rfl⟩, by simpa using hcnt⟩
    · intro hun r hr
      obtain ⟨hmem, hcnt⟩ := List.mem_filter.1 hr
      obtain ⟨p, hp, rfl⟩ := List.mem_map.1 hmem
      exact (hiff p hp).2 (hun p hp (by simpa using hcnt))
  · intro iter h considered node h' hv hb hs
    have hwf : h.WellFormed := hv.invariant hg fun _ _ hg hr => hr.wellFormed hg
    obtain ⟨tr, htr, team, order, ps, hps, p, hp, rfl, hcnt⟩ := rewrites_of_selectMin hs
    refine ⟨tr, htr, team, order, ps, hps, p, hp, rfl, hcnt, ?_⟩
    refine ((planShape_of_mem_plans hwf hps hp).acyclic_result_iff hwf
      (hall h ⟨iter, considered, hv⟩) team).1 ?_
    exact hall _ ⟨iter + 1, _, .step hv hb hs⟩
  · rintro h ⟨iter, considered, hv⟩
    suffices hboth : h.WellFormed ∧ h.Acyclic from hboth.2
    induction hv with
    | start => exact ⟨hg, hac⟩
    | step hv hb hs ih =>
        obtain ⟨hwf, hacy⟩ := ih
        obtain ⟨tr, htr, team, order, ps, hps, p, hp, rfl, -, hun⟩ := hrun _ _ _ _ _ hv hb hs
        have hshape := planShape_of_mem_plans hwf hps hp
        exact ⟨Plan.wellFormed_result hwf (hshape.valid hwf) team,
          (hshape.acyclic_result_iff hwf hacy team).2 hun⟩

/-! ### Doubling a share

An input share `a` of party 1 and the output `a + a`.  Solving the sum for one
operand makes it depend on the other, which is the same node. -/

/-- The input share. -/
def doubled : Node := ⟨0, "share_0", 1, .input⟩

/-- The output. -/
def double : Node := ⟨1, "share_1", 1, .output⟩

/-- The operation between them. -/
def doublingEdge : Operation := Operation.make 1 0 .add [doubled, doubled] double

/-- The protocol graph of `a + a` for two parties, the first of them corrupted. -/
def doubling : Graph := ((GraphBase.bare [doubled, double]).toGraph 2 1 {0}).addEdges [doublingEdge]

theorem wellFormed_doubling : doubling.WellFormed :=
  Graph.wellFormed_linked rfl (by decide) (by decide) (by decide)

theorem acyclic_doubling : doubling.Acyclic := by
  refine Graph.acyclic_linked rfl (by decide) (by decide) (by decide) ?_
  decide

/-- The addition rule returns a graph in which the share feeds itself, and the
rewriting loop takes it. -/
theorem cycle_closed : ∃ g : Graph, g.WellFormed ∧ g.Acyclic ∧
    (∃ results, Transformer.addition.apply 1 (fun _ => .insertion) g = some results ∧
      ∃ r ∈ results, ¬ r.2.Acyclic) ∧
    ∃ h, RewriteVisited .sequential [0, 1] g h ∧ ¬ h.Acyclic := by
  set p : Plan := ⟨double, [doublingEdge], [], .sub, [double, doubled], [doubled]⟩ with hp
  have hcyc : ¬ (p.result 1 doubling).Acyclic := by
    refine fun hac => hac 0 (.single ⟨Operation.make 1 1 .sub [double, doubled] doubled, ?_,
      ⟨doubled, by decide, rfl⟩, rfl⟩)
    decide
  refine ⟨doubling, wellFormed_doubling, acyclic_doubling, ?_, p.result 1 doubling, ?_, hcyc⟩
  · exact ⟨_, rfl, (double, p.result 1 doubling), by decide +kernel, hcyc⟩
  · exact ⟨1, _, .step .start (by decide +kernel)
      (show _ = some (some (double, p.result 1 doubling)) by decide +kernel)⟩

/-- The equivalence on that graph, where its right side fails. -/
theorem acyclic_iff_untangled_doubling :
    (∀ h, RewriteVisited .sequential [0, 1] doubling h → h.Acyclic) ↔
      UntangledRun .sequential (equivalentRewriters [0, 1] doubling) doubling :=
  (acyclic_iff_untangled wellFormed_doubling acyclic_doubling).2 .sequential [0, 1]

end Prover

end Gauv
