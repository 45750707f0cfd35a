import Gauv.Backend.Aside
import Gauv.Backend.EmbeddedPlans

/-!
# The rules beside an unused node

Beside a node whose in-edges change no test, each rule makes, but for its matches at
that node, the plans it makes without it, in the same order.
-/

namespace Gauv

open GraphBase

/-! ## Results of partial computations -/

section Collect

variable {α β γ δ : Type*}

/-- Calls that correspond one by one collect results that do. -/
theorem exists_collect {R : β → δ → Prop} {S : α → γ → Prop} {f : α → Option (List β)}
    {f' : γ → Option (List δ)} {l : List α} {l' : List γ} (h : List.Forall₂ S l l')
    (hf : ∀ a c, S a c → ∀ r, f a = some r → ∃ r', f' c = some r' ∧ List.Forall₂ R r r')
    {rs : List β} (hrs : collect f l = some rs) :
    ∃ rs', collect f' l' = some rs' ∧ List.Forall₂ R rs rs' := by
  induction h generalizing rs with
  | nil =>
      cases hrs
      exact ⟨[], rfl, .nil⟩
  | cons hac _ ih =>
      obtain ⟨r, rs, hr, hrest, rfl⟩ := collect_cons_eq_some.1 hrs
      obtain ⟨r', hr', hrr⟩ := hf _ _ hac r hr
      obtain ⟨rs', hrest', hrss⟩ := ih hrest
      exact ⟨_, collect_cons_eq_some.2 ⟨r', rs', hr', hrest', rfl⟩, List.rel_append hrr hrss⟩

/-- Leaving out the calls all of whose results are left out. -/
theorem collect_filter {f : α → Option (List β)} {p : β → Bool} {q : α → Bool} {l : List α}
    {rs : List β} (h : collect f l = some rs)
    (hpq : ∀ a r, f a = some r → ∀ b ∈ r, p b = q a) :
    collect f (l.filter q) = some (rs.filter p) := by
  induction l generalizing rs with
  | nil =>
      cases h
      rfl
  | cons a l ih =>
      obtain ⟨r, rs, hr, hrest, rfl⟩ := collect_cons_eq_some.1 h
      rw [List.filter_append]
      by_cases hq : q a = true
      · have hall : r.filter p = r :=
          List.filter_eq_self.2 fun b hb => (hpq a r hr b hb).trans hq
        rw [List.filter_cons_of_pos hq, hall]
        exact collect_cons_eq_some.2 ⟨r, _, hr, ih hrest, rfl⟩
      · have hnil : r.filter p = [] :=
          List.filter_eq_nil_iff.2 fun b hb => by rw [hpq a r hr b hb]; exact hq
        rw [List.filter_cons_of_neg hq, hnil]
        exact ih hrest

/-- A check, a node and a plan for it. -/
theorem checked_eq_some {α ν : Type} {check : Option Bool} {node : Option ν}
    {plan : ν → Option α} {r : List α} :
    (do
      let b ← check
      if b then
        let n ← node
        let p ← plan n
        return [p]
      else return []) = some r ↔
    (check = some false ∧ r = []) ∨
      (check = some true ∧ ∃ n, node = some n ∧ ∃ p, plan n = some p ∧ r = [p]) := by
  cases check with
  | none => simp
  | some b =>
      cases b with
      | false => simp [eq_comm]
      | true =>
          cases node with
          | none => simp
          | some n =>
              cases hp : plan n with
              | none => simp [hp]
              | some p => simp [hp, eq_comm]

end Collect

/-! ## Plans -/

theorem NewEdge.restored_relabel (v : ℕ) (e : NewEdge) : Restored v (e.relabel (skip v)) e :=
  ⟨⟨rfl, rfl, .refl _⟩, fun _ => rfl⟩

theorem forall₂_restored (v : ℕ) (es : List NewEdge) :
    List.Forall₂ (Restored v) (es.map (NewEdge.relabel (skip v))) es := by
  rw [List.forall₂_map_left_iff, List.forall₂_same]
  exact fun e _ => e.restored_relabel v

namespace Beside

variable {v i : ℕ} {g h : Graph} {src : Finset PartyDecl} {p q : Plan}

/-- Where the smaller plan eliminates corresponding edges. -/
theorem forall₂_eliminated (hb : Beside v g h) {es fs : List Operation}
    (hmem : ∀ e f, g.HasEdge e → h.HasEdge f → f.args.Relabelled (skip v) e.args →
      (e ∈ es ↔ f ∈ fs)) (i : ℕ) :
    List.Forall₂ (fun e f => SameEdge v e f ∧ (e ∈ es ↔ f ∈ fs)) (g.inEdges (skip v i))
      (h.inEdges i) :=
  (forall₂_mem (hb.inEdges i)).imp fun _ _ hef => ⟨hef.2.2.1,
    hmem _ _ (hb.left.mem_inEdges.1 hef.1).1 (hb.right.mem_inEdges.1 hef.2.1).1
      hef.2.2.2.toRelabelled⟩

/-- **A plan inside the larger graph is its plan**, if it spares the in-edges of the
node. -/
theorem restoredIn_of_embedsIn (hb : Beside v g h) (hpq : q.EmbedsIn (skip v) h g p)
    (hspared : ∀ e ∈ p.edgesToEliminate, e.output.guid ≠ v) : p.RestoredIn v g h q where
  left := hpq.right
  right := hpq.left
  node := congrArg Node.guid hpq.node
  added := fun i => by
    have hdsts : p.dsts.filter (fun n => n.guid = skip v i) =
        (q.dsts.filter fun n => n.guid = i).map (Node.relabel (skip v)) := by
      have hnodup : ((q.dsts.map (Node.relabel (skip v))).map Node.guid).Nodup := by
        rw [Node.map_guid_relabel]
        exact hpq.distinct.map (skip_injective v)
      rw [filter_key_perm hpq.dsts hnodup, List.filter_map]
      congr 1
      exact List.filter_congr fun n _ => by simp [(skip_injective v).eq_iff]
    unfold Plan.edgesToAdd Plan.computed
    rw [List.filter_append, List.filter_append, hpq.turnedAt]
    refine List.rel_append (forall₂_restored v _) ?_
    rw [List.filter_map, List.filter_map]
    show List.Forall₂ _ ((p.dsts.filter fun n => n.guid = skip v i).map _)
      ((q.dsts.filter fun n => n.guid = i).map _)
    rw [hdsts, List.map_map, List.forall₂_map_left_iff, List.forall₂_map_right_iff,
      List.forall₂_same]
    exact fun d _ => ⟨⟨hpq.isEval.2.trans hpq.isEval.1.symm, rfl, hpq.srcs⟩,
      fun hne => absurd hpq.isEval.1 hne⟩
  apart := fun n hn m hm => by
    have hrelabel : ∀ l : List Node, m ∈ l.map (Node.relabel (skip v)) → m.guid ≠ v := by
      intro l hml
      obtain ⟨k, -, rfl⟩ := List.mem_map.1 hml
      exact skip_ne v k.guid
    rcases List.mem_append.1 hn with hn | hn
    · obtain ⟨k, -, rfl⟩ := List.mem_map.1 (hpq.turned.mem_iff.1 hn)
      exact hrelabel (k.output :: k.inputs) hm
    · obtain ⟨d, hd, rfl⟩ := List.mem_map.1 hn
      rcases List.mem_cons.1 hm with rfl | hm
      · exact hrelabel _ (hpq.dsts.mem_iff.1 hd)
      · exact hrelabel _ (hpq.srcs.mem_iff.1 hm)
  eliminated := hb.forall₂_eliminated fun e f he hf hef => hpq.eliminated f e hf he hef
  spared := hspared

/-! ### The addition rule -/

/-- One reversed addition. -/
theorem restoredIn_addition (hb : Beside v g h) {e f : Operation} {k : ℕ}
    (he : (g.inEdges (skip v i))[k]? = some e) (hf : (h.inEdges i)[k]? = some f) {a b : Node}
    (ha : a ∈ f.inputs) (hbm : b ∈ f.inputs) (hout : e.output = f.output.relabel (skip v))
    (hin : e.inputs = f.inputs.map (Node.relabel (skip v))) :
    Plan.RestoredIn v g h
      ⟨e.output, [e], [], .sub, [e.output, a.relabel (skip v)], [b.relabel (skip v)]⟩
      ⟨f.output, [f], [], .sub, [f.output, a], [b]⟩ := by
  obtain ⟨hedge, hei⟩ := hb.left.mem_inEdges.1 (List.mem_of_getElem? he)
  have hedge' := (hb.right.mem_inEdges.1 (List.mem_of_getElem? hf)).1
  have hvalid : ∀ {G : Graph} {c : Operation} {x y : Node}, G.WellFormed → G.HasEdge c →
      x ∈ c.inputs → y ∈ c.inputs → Plan.Valid ⟨c.output, [c], [], .sub, [c.output, x], [y]⟩ G := by
    intro G c x y hG hc hx hy
    refine ⟨⟨List.nodup_singleton _, by simpa using hc⟩, ?_⟩
    simp [Plan.edgesToAdd, Plan.computed, hG.output_live hc, hG.input_live hc hx,
      hG.input_live hc hy]
  have hmem : ∀ {x : Node}, x ∈ f.inputs → x.relabel (skip v) ∈ e.inputs := fun hx => by
    rw [hin]
    exact List.mem_map_of_mem hx
  refine ⟨hvalid hb.left hedge (hmem ha) (hmem hbm), hvalid hb.right hedge' ha hbm, ?_,
    fun j => ?_, ?_, fun w => ?_, ?_⟩
  · exact congrArg Node.guid hout
  · -- the one new edge
    show List.Forall₂ (Restored v)
      ([NewEdge.mk .sub [e.output, a.relabel (skip v)] (b.relabel (skip v))].filter _)
      ([NewEdge.mk .sub [f.output, a] b].filter _)
    rw [hout]
    have hnew := NewEdge.filter_map_relabel (skip_injective v) [⟨.sub, [f.output, a], b⟩] j
    exact hnew ▸ forall₂_restored v _
  · intro n hn m hm
    cases List.mem_singleton.1 hn
    rw [hout] at hm
    have hall : ∀ m ∈ [b, f.output, a].map (Node.relabel (skip v)), m.guid ≠ v := by
      intro m hm
      obtain ⟨k, -, rfl⟩ := List.mem_map.1 hm
      exact skip_ne v k.guid
    exact hall m hm
  · refine List.forall₂_iff_get.2 ⟨(hb.inEdges w).length_eq, fun j hj hj' => ⟨?_, ?_⟩⟩
    · exact ((List.forall₂_iff_get.1 (hb.inEdges w)).2 j hj hj').1
    · rw [List.mem_singleton, List.mem_singleton, List.get_eq_getElem, List.get_eq_getElem,
        getElem_inEdges_eq_iff hb.left he hj, getElem_inEdges_eq_iff hb.right hf hj',
        (skip_injective v).eq_iff]
  · intro x hx
    rw [List.mem_singleton.1 hx, hei]
    exact skip_ne v i

/-- The matches at one in-edge. -/
theorem reverseAddition (hb : Beside v g h) {e f : Operation} {k : ℕ}
    (he : (g.inEdges (skip v i))[k]? = some e) (hf : (h.inEdges i)[k]? = some f)
    (hef : Restored v e.args f.args) {ps : List Plan}
    (hps : reverseAddition g (skip v i) e = some ps) :
    ∃ qs, Gauv.reverseAddition h i f = some qs ∧ List.Forall₂ (Plan.RestoredIn v g h) ps qs := by
  have htype : e.type = f.type := hef.type
  have hout : e.output = f.output.relabel (skip v) := hef.output
  obtain ⟨hedge, hfi⟩ := hb.right.mem_inEdges.1 (List.mem_of_getElem? hf)
  have hnode : h.node? i = some f.output := hfi ▸ hb.right.output_live hedge
  rw [Gauv.reverseAddition] at hps ⊢
  by_cases ht : f.type = .add
  · have hin : e.inputs = f.inputs.map (Node.relabel (skip v)) :=
      hef.inputs (by simp [Operation.args, ht])
    rw [if_pos (htype.trans ht), hin] at hps
    rw [if_pos ht]
    rcases hf' : f.inputs with _ | ⟨a, _ | ⟨b, _ | ⟨c, l⟩⟩⟩
    · rw [hf'] at hps
      exact absurd hps (by simp)
    · rw [hf'] at hps
      exact absurd hps (by simp)
    · rw [hf'] at hps
      simp only [List.map_cons, List.map_nil] at hps
      split at hps
      · cases hps
        refine ⟨_, if_pos hnode, ?_⟩
        have hplan := fun {x y : Node} (hx : x ∈ f.inputs) (hy : y ∈ f.inputs) =>
          hb.restoredIn_addition he hf hx hy hout hin
        refine .cons (hplan ?_ ?_) (.cons (hplan ?_ ?_) .nil) <;> simp [hf']
      · exact absurd hps (by simp)
    · rw [hf'] at hps
      exact absurd hps (by simp)
  · rw [if_neg fun h => ht (htype.symm.trans h)] at hps
    rw [if_neg ht]
    cases hps
    exact ⟨[], rfl, .nil⟩

/-! ### The sharing rules -/

/-- One sharing. -/
theorem restoredIn_sharing (hb : Beside v g h) (hc : Clear v src g) (hi : i < h.nodeSize)
    (hm : Gauv.isRewritableSecret g (skip v i) src = some true) {order order' : IterOrder}
    {node : Node} {srcs₀ dsts₀ : List Node} (h₀ : ∀ n ∈ srcs₀ ++ dsts₀, h.node? n.guid = some n)
    (hp : SharingPlan order g src (node.relabel (skip v)) (skip v i)
      (srcs₀.map (Node.relabel (skip v))) (dsts₀.map (Node.relabel (skip v))) p)
    (hq : SharingPlan order' h src node i srcs₀ dsts₀ q) : p.RestoredIn v g h q := by
  have hs := hb.sharedAlike hc hi hm
  refine hb.restoredIn_of_embedsIn (Graph.EmbedsIn.planEmbedsIn_sharing hb.embedsIn hs.outEdges
    hs.transits hb.right hb.left hs.right h₀ hq hp) fun e he => ?_
  -- what is eliminated has a counterpart, so it does not end at the node
  rw [hp.eliminated, List.mem_flatMap] at he
  obtain ⟨e', he', hee⟩ := he
  obtain ⟨f, hf, hef⟩ := hs.outEdges.exists_left he'
  have hout : e'.output = f.output.relabel (skip v) := hef.output
  rcases mem_sharingEliminated.1 hee with rfl | ⟨t, ht, -, rfl⟩
  · rw [hout]
    exact skip_ne v f.output.guid
  · have hrel := hs.transits f hf
    rw [← hout, ht] at hrel
    generalize h.transitOut f.output = o at hrel
    cases hrel with
    | @some t' _ htt =>
        have hsent : e.output = t'.output.relabel (skip v) := htt.1.output
        rw [hsent]
        exact skip_ne v t'.output.guid

/-- One match of a sharing rule, the node standing among the sources or among the
destinations. -/
theorem checkedSharing (hb : Beside v g h) (hc : Clear v src g) (hi : i < h.nodeSize)
    (order order' : IterOrder) (srcs₀ dsts₀ : Node → List Node)
    (hsrcs : ∀ n, srcs₀ (n.relabel (skip v)) = (srcs₀ n).map (Node.relabel (skip v)))
    (hdsts : ∀ n, dsts₀ (n.relabel (skip v)) = (dsts₀ n).map (Node.relabel (skip v)))
    (hself : ∀ n, ∀ m ∈ srcs₀ n ++ dsts₀ n, m = n) {ps : List Plan}
    (hps : (do
      let b ← Gauv.isRewritableSecret g (skip v i) src
      if b then
        let n ← g.node? (skip v i)
        let p ← planSharing order g src n (skip v i) (srcs₀ n) (dsts₀ n)
        return [p]
      else return []) = some ps) :
    ∃ qs, (do
      let b ← Gauv.isRewritableSecret h i src
      if b then
        let n ← h.node? i
        let p ← planSharing order' h src n i (srcs₀ n) (dsts₀ n)
        return [p]
      else return []) = some qs ∧ List.Forall₂ (Plan.RestoredIn v g h) ps qs := by
  have hcheck := hb.isRewritableSecret hc hi
  rcases checked_eq_some.1 hps with ⟨hm, rfl⟩ | ⟨hm, n', hn', p, hp, rfl⟩
  · exact ⟨[], checked_eq_some.2 (Or.inl ⟨hcheck.symm.trans hm, rfl⟩), .nil⟩
  · rw [hb.nodes, Option.map_eq_some_iff] at hn'
    obtain ⟨n, hn, rfl⟩ := hn'
    rw [hsrcs, hdsts] at hp
    have h₀ : ∀ m ∈ srcs₀ n ++ dsts₀ n, h.node? m.guid = some m := fun m hmem => by
      rw [hself n m hmem, hb.right.guid_eq hn]
      exact hn
    have hs := hb.sharedAlike hc hi hm
    have hsome := Graph.EmbedsIn.isSome_planSharing hb.embedsIn hs.outEdges hs.transits
      hb.right src order' order n h₀
    rw [hp] at hsome
    obtain ⟨q, hq⟩ := Option.isSome_iff_exists.1 hsome.symm
    exact ⟨[q], checked_eq_some.2 (Or.inr ⟨hcheck.symm.trans hm, n, hn, q, hq, rfl⟩),
      .cons (hb.restoredIn_sharing hc hi hm h₀ (sharingPlan_of_planSharing hp)
        (sharingPlan_of_planSharing hq)) .nil⟩

theorem sharingPlanAt (hb : Beside v g h) (hc : Clear v src g) (hi : i < h.nodeSize)
    (order order' : ℕ → IterOrder) {ps : List Plan}
    (hps : SharingTransformer.planAt order src g (skip v i) = some ps) :
    ∃ qs, SharingTransformer.planAt order' src h i = some qs ∧
      List.Forall₂ (Plan.RestoredIn v g h) ps qs :=
  hb.checkedSharing hc hi _ _ (fun n => [n]) (fun _ => []) (fun _ => rfl) (fun _ => rfl)
    (by simp) hps

theorem randomSharingPlanAt (hb : Beside v g h) (hc : Clear v src g) (hi : i < h.nodeSize)
    (order order' : ℕ → IterOrder) {ps : List Plan}
    (hps : RandomSharingTransformer.planAt order src g (skip v i) = some ps) :
    ∃ qs, RandomSharingTransformer.planAt order' src h i = some qs ∧
      List.Forall₂ (Plan.RestoredIn v g h) ps qs := by
  rw [RandomSharingTransformer.planAt] at hps ⊢
  rw [hb.embedsIn.isRandomNode] at hps
  by_cases hr : h.isRandomNode i = true
  · rw [if_pos hr] at hps ⊢
    exact hb.checkedSharing hc hi _ _ (fun _ => []) (fun n => [n]) (fun _ => rfl) (fun _ => rfl)
      (by simp) hps
  · rw [if_neg hr] at hps ⊢
    cases hps
    exact ⟨[], rfl, .nil⟩

/-! ### The reconstruction rule -/

/-- One opening. -/
theorem restoredIn_reconstruction (hb : Beside v g h) {order order' : IterOrder} {node : Node}
    {e f : Operation} (he : g.inEdges (skip v i) = [e]) (hf : h.inEdges i = [f])
    (hef : Restored v e.args f.args) (hm : ReconstructionMatch h f) (ht : f.type = .reconstruct)
    (hnode : h.node? i = some node)
    (hp : ReconstructionPlan order g src (node.relabel (skip v)) e p)
    (hq : ReconstructionPlan order' h src node f q) : p.RestoredIn v g h q := by
  have hin : e.inputs = f.inputs.map (Node.relabel (skip v)) :=
    hef.inputs (by simp [Operation.args, ht])
  obtain ⟨hedge, hei⟩ := hb.left.mem_inEdges.1 (he ▸ List.mem_singleton_self e)
  refine hb.restoredIn_of_embedsIn (hb.embedsIn.planEmbedsIn_reconstruction hb.right hb.left hf he
    hef.toRelabelled hin hm ht hnode hq hp) fun x hx => ?_
  -- the opening ends elsewhere, and a TRANSIT that is eliminated at one of its inputs
  rw [hp.eliminated] at hx
  rcases List.mem_cons.1 hx with rfl | hx
  · rw [hei]
    exact skip_ne v i
  · obtain ⟨s, hs, hxs⟩ := List.mem_flatMap.1 hx
    have hmem := mem_inEdges_of_transitIn (mem_operandEliminated.1 hxs).2
    rw [(hb.left.mem_inEdges.1 hmem).2]
    exact hb.not_input hedge hs

/-- One match of the reconstruction rule. -/
theorem reconstructionPlanAt (hb : Beside v g h) (order order' : ℕ → IterOrder) {ps : List Plan}
    (hps : ReconstructionTransformer.planAt order src g (skip v i) = some ps) :
    ∃ qs, ReconstructionTransformer.planAt order' src h i = some qs ∧
      List.Forall₂ (Plan.RestoredIn v g h) ps qs := by
  have hins := hb.inEdges i
  rw [ReconstructionTransformer.planAt] at hps ⊢
  generalize hg : g.inEdges (skip v i) = es at hps hins
  generalize hh : h.inEdges i = fs at hins ⊢
  rcases hins with _ | @⟨e, f, es, fs, hef, hrest⟩
  · cases hps
    exact ⟨[], rfl, .nil⟩
  · rcases hrest with _ | ⟨-, -⟩
    · have htype : e.type = f.type := hef.2.type
      simp only [htype] at hps ⊢
      by_cases ht : f.type = .reconstruct
      · have hin : e.inputs = f.inputs.map (Node.relabel (skip v)) :=
          hef.2.inputs (by simp [Operation.args, ht])
        rw [if_pos ht] at hps ⊢
        have hcheck : isRewritableReconstruction g src e = isRewritableReconstruction h src f :=
          hb.embedsIn.isRewritableReconstruction hef.2.toRelabelled hin
        rcases checked_eq_some.1 hps with ⟨hm, rfl⟩ | ⟨hm, n', hn', p, hp, rfl⟩
        · exact ⟨[], checked_eq_some.2 (Or.inl ⟨hcheck.symm.trans hm, rfl⟩), .nil⟩
        · rw [hb.nodes, Option.map_eq_some_iff] at hn'
          obtain ⟨n, hn, rfl⟩ := hn'
          have hm' := hcheck.symm.trans hm
          have hsome := hb.embedsIn.isSome_planReconstruction src (order' i)
            (order (skip v i)) n hin
          rw [hp] at hsome
          obtain ⟨q, hq⟩ := Option.isSome_iff_exists.1 hsome.symm
          exact ⟨[q], checked_eq_some.2 (Or.inr ⟨hm', n, hn, q, hq, rfl⟩),
            .cons (hb.restoredIn_reconstruction hg hh hef.2
              (reconstructionMatch_of_isRewritableReconstruction hm') ht hn
              (reconstructionPlan_of_planReconstruction hp)
              (reconstructionPlan_of_planReconstruction hq)) .nil⟩
      · rw [if_neg ht] at hps ⊢
        cases hps
        exact ⟨[], rfl, .nil⟩
    · cases hps
      exact ⟨[], rfl, .nil⟩

end Beside

/-! ## The transformers -/

/-- The node a plan is made at. -/
theorem node_of_reverseAddition {g : Graph} {j : ℕ} {e : Operation} {ps : List Plan}
    (hg : g.WellFormed) (h : reverseAddition g j e = some ps) : ∀ p ∈ ps, p.node.guid = j := by
  intro p hp
  rw [reverseAddition] at h
  split at h
  · split at h
    · simp only at h
      split at h
      · rename_i hn
        cases h
        rcases List.mem_pair.1 hp with rfl | rfl
        · exact hg.guid_eq hn
        · exact hg.guid_eq hn
      · exact absurd h (by simp)
    · exact absurd h (by simp)
  · cases h
    exact absurd hp List.not_mem_nil

theorem node_of_sharingPlanAt {g : Graph} {src : Finset PartyDecl} {order : ℕ → IterOrder} {j : ℕ}
    {ps : List Plan} (hg : g.WellFormed) (h : SharingTransformer.planAt order src g j = some ps) :
    ∀ p ∈ ps, p.node.guid = j := by
  intro p hp
  obtain ⟨-, n, hn, hplan⟩ := exists_of_mem_checked h hp
  rw [(sharingPlan_of_planSharing hplan).node_eq]
  exact hg.guid_eq hn

theorem node_of_randomSharingPlanAt {g : Graph} {src : Finset PartyDecl} {order : ℕ → IterOrder}
    {j : ℕ} {ps : List Plan} (hg : g.WellFormed)
    (h : RandomSharingTransformer.planAt order src g j = some ps) :
    ∀ p ∈ ps, p.node.guid = j := by
  intro p hp
  rw [RandomSharingTransformer.planAt] at h
  split at h
  · obtain ⟨-, n, hn, hplan⟩ := exists_of_mem_checked h hp
    rw [(sharingPlan_of_planSharing hplan).node_eq]
    exact hg.guid_eq hn
  · cases h
    exact absurd hp List.not_mem_nil

theorem node_of_reconstructionPlanAt {g : Graph} {src : Finset PartyDecl} {order : ℕ → IterOrder}
    {j : ℕ} {ps : List Plan} (hg : g.WellFormed)
    (h : ReconstructionTransformer.planAt order src g j = some ps) :
    ∀ p ∈ ps, p.node.guid = j := by
  intro p hp
  rw [ReconstructionTransformer.planAt] at h
  split at h
  · split at h
    · obtain ⟨-, n, hn, hplan⟩ := exists_of_mem_checked h hp
      rw [(reconstructionPlan_of_planReconstruction hplan).node_eq]
      exact hg.guid_eq hn
    · cases h
      exact absurd hp List.not_mem_nil
  · cases h
    exact absurd hp List.not_mem_nil

/-- The in-edges of the node at `v` change no test of the transformer. -/
def Transformer.ClearOf (v : ℕ) (g : Graph) : Transformer → Prop
  | .addition => True
  | .sharing src => Clear v src g
  | .randomSharing src => Clear v src g
  | .reconstruction _ => True

instance (v : ℕ) (g : Graph) : (tr : Transformer) → Decidable (tr.ClearOf v g)
  | .addition => inferInstanceAs (Decidable True)
  | .sharing src => inferInstanceAs (Decidable (Clear v src g))
  | .randomSharing src => inferInstanceAs (Decidable (Clear v src g))
  | .reconstruction _ => inferInstanceAs (Decidable True)

namespace Beside

variable {v : ℕ} {g h : Graph}

/-- What is found node by node is found in the whole graph, but for the matches at the
node. -/
theorem collectPlans (hb : Beside v g h) {F G : ℕ → Option (List Plan)}
    (hF : ∀ j ps, F j = some ps → ∀ p ∈ ps, p.node.guid = j)
    (hFG : ∀ i < h.nodeSize, ∀ ps, F (skip v i) = some ps →
      ∃ qs, G i = some qs ∧ List.Forall₂ (Plan.RestoredIn v g h) ps qs) {ps : List Plan}
    (hps : collect F (List.range g.nodeSize) = some ps) :
    ∃ qs, collect G (List.range h.nodeSize) = some qs ∧
      List.Forall₂ (Plan.RestoredIn v g h) (ps.filter fun p => p.node.guid ≠ v) qs := by
  have hfilter := collect_filter (p := fun p : Plan => p.node.guid ≠ v) (q := fun j => j ≠ v) hps
    fun j rs hrs p hp => by rw [hF j rs hrs p hp]
  rw [hb.out.nodeSize, filter_range_succ hb.index_le] at hfilter
  refine exists_collect (S := fun j i => j = skip v i ∧ i < h.nodeSize) ?_ ?_ hfilter
  · rw [List.forall₂_map_left_iff, List.forall₂_same]
    exact fun i hi => ⟨rfl, List.mem_range.1 hi⟩
  · rintro j i ⟨rfl, hi⟩ rs hrs
    exact hFG i hi rs hrs

/-- **A transformer finds the same matches with the node as without it**, but for those
at the node. -/
theorem plans (hb : Beside v g h) {tr : Transformer} (hc : tr.ClearOf v g)
    (order order' : ℕ → IterOrder) {ps : List Plan} (hps : tr.plans order g = some ps) :
    ∃ qs, tr.plans order' h = some qs ∧
      List.Forall₂ (Plan.RestoredIn v g h) (ps.filter fun p => p.node.guid ≠ v) qs := by
  cases tr with
  | addition =>
      refine hb.collectPlans (fun j rs hrs p hp => ?_) (fun i _ rs hrs => ?_) hps
      · obtain ⟨e, -, r, hr, hpr⟩ := exists_of_mem_collect hrs hp
        exact node_of_reverseAddition hb.left hr p hpr
      · -- the in-edges stand in the same order
        refine exists_collect (S := fun (e f : Operation) => Restored v e.args f.args ∧
          ∃ k : ℕ, (g.inEdges (skip v i))[k]? = some e ∧ (h.inEdges i)[k]? = some f) ?_ ?_ hrs
        · refine List.forall₂_iff_get.2 ⟨(hb.inEdges i).length_eq, fun k hk hk' => ?_⟩
          exact ⟨((List.forall₂_iff_get.1 (hb.inEdges i)).2 k hk hk').2, k,
            List.getElem?_eq_getElem hk, List.getElem?_eq_getElem hk'⟩
        · rintro e f ⟨hef, k, hk, hk'⟩ r hr
          exact hb.reverseAddition hk hk' hef hr
  | sharing src =>
      exact hb.collectPlans (fun _ _ hrs => node_of_sharingPlanAt hb.left hrs)
        (fun _ hi _ hrs => hb.sharingPlanAt hc hi order order' hrs) hps
  | randomSharing src =>
      exact hb.collectPlans (fun _ _ hrs => node_of_randomSharingPlanAt hb.left hrs)
        (fun _ hi _ hrs => hb.randomSharingPlanAt hc hi order order' hrs) hps
  | reconstruction src =>
      exact hb.collectPlans (fun _ _ hrs => node_of_reconstructionPlanAt hb.left hrs)
        (fun _ _ _ hrs => hb.reconstructionPlanAt order order' hrs) hps

end Beside

/-! ## Results -/

/-- The result `r` of a rewrite of `g` is the result `r'` of a rewrite of `h` with the
node in it, which has the in-edges it had. -/
structure ResultBeside (v : ℕ) (g h : Graph) (r r' : Node × Graph) : Prop where
  beside : Beside v r.2 r'.2
  inEdges : r.2.inEdges v = g.inEdges v
  left : g.SameFrame r.2
  right : h.SameFrame r'.2

namespace Beside

variable {v : ℕ} {g h : Graph}

/-- The two results change the number of random nodes or do not. -/
theorem randomNodeCnt_iff (hb : Beside v g h) {r r' : Node × Graph}
    (hr : ResultBeside v g h r r') :
    r.2.randomNodeCnt = g.randomNodeCnt ↔ r'.2.randomNodeCnt = h.randomNodeCnt := by
  have hbefore := hb.out.randomNodeCnt hb.left hb.exactLeft hb.exactRight
  have hafter := hr.beside.out.randomNodeCnt hr.beside.left hr.beside.exactLeft hr.beside.exactRight
  have hself : (r.2.node? v).any r.2.isRandom = (g.node? v).any g.isRandom := by
    rw [hr.left.node?]
    cases hn : g.node? v with
    | none => rfl
    | some n =>
        rw [Option.any_some, Option.any_some, GraphBase.isRandom, GraphBase.isRandom,
          GraphBase.inDeg, GraphBase.inDeg, hb.left.guid_eq hn, hr.inEdges]
  rw [hself] at hafter
  omega

/-- **A transformer offers the same results with the node as without it**, but for those
at the node. -/
theorem apply (hb : Beside v g h) {tr : Transformer} (hc : tr.ClearOf v g) (team team' : ℕ)
    (order order' : ℕ → IterOrder) {rs : ResultsType} (hrs : tr.apply team order g = some rs) :
    ∃ rs', tr.apply team' order' h = some rs' ∧
      List.Forall₂ (ResultBeside v g h) (rs.filter fun r => r.1.guid ≠ v) rs' := by
  rw [Transformer.apply, Option.map_eq_some_iff] at hrs
  obtain ⟨ps, hps, rfl⟩ := hrs
  obtain ⟨qs, hqs, hpq⟩ := hb.plans hc order order' hps
  refine ⟨filterResults team' h qs, by rw [Transformer.apply, hqs]; rfl, ?_⟩
  rw [filterResults, filterResults, List.filter_filter, List.filter_congr fun r _ =>
    Bool.and_comm _ _, ← List.filter_filter, List.filter_map]
  refine List.rel_filter (fun r r' hr => ?_) ?_
  · show (r.2.randomNodeCnt == g.randomNodeCnt) = true ↔
      (r'.2.randomNodeCnt == h.randomNodeCnt) = true
    rw [beq_iff_eq, beq_iff_eq]
    exact hb.randomNodeCnt_iff hr
  · rw [List.forall₂_map_left_iff, List.forall₂_map_right_iff]
    exact hpq.imp fun p q hp => ⟨hb.result hp team team', hb.inEdges_result hp team,
      Plan.sameFrame_result p team g, Plan.sameFrame_result q team' h⟩

end Beside

end Gauv
