import Gauv.Backend.Reordering

/-!
# Plans in alike graphs

The matches of a rule in alike graphs are at the same nodes, and rewriting the
two graphs by corresponding matches keeps them alike, whatever the iteration
order of the sets of destinations.
-/

namespace Gauv

open GraphBase

/-! ## Transits -/

/-- Whether a list is one TRANSIT can be read off its shapes. -/
theorem map_shape_soleTransit {l l' : List Operation}
    (h : (l'.map Operation.shape).Perm (l.map Operation.shape)) :
    (soleTransit l').map Operation.shape = (soleTransit l).map Operation.shape := by
  have hlen := h.length_eq
  rw [List.length_map, List.length_map] at hlen
  match l, l' with
  | [], [] => rfl
  | [e], [f] =>
      have hef : f.shape = e.shape := by
        simpa using h
      have ht : f.type = e.type := congrArg Shape.type hef
      rw [soleTransit, soleTransit, ht]
      split
      · rw [Option.map_some, Option.map_some, hef]
      · rfl
  | _ :: _ :: _, _ :: _ :: _ => rfl

namespace Graph.Alike

variable {g h : Graph} {src : Finset PartyDecl} {v : ℕ}

theorem symm (ha : g.Alike h) : h.Alike g :=
  ⟨ha.right, ha.left, ⟨ha.frame.nodes.symm, ha.frame.partyCnt.symm, ha.frame.T.symm,
    ha.frame.corrupted.symm⟩, ha.random.symm, ha.bubble.symm, fun v => (ha.ins v).symm⟩

/-- A share is sent on by a TRANSIT of the same shape, or by none. -/
theorem transitOut (ha : g.Alike h) (s : Node) :
    (h.transitOut s).map Operation.shape = (g.transitOut s).map Operation.shape :=
  map_shape_soleTransit (ha.outs s.guid)

/-- A share comes by a TRANSIT of the same shape, or by none. -/
theorem transitIn (ha : g.Alike h) (s : Node) :
    (h.transitIn s).map Operation.shape = (g.transitIn s).map Operation.shape :=
  map_shape_soleTransit (.of_eq (ha.ins s.guid))

/-- Each share has the same final holder. -/
theorem afterTransit (ha : g.Alike h) (s : Node) : h.afterTransit s = g.afterTransit s := by
  have hshape : ∀ k : GraphBase, k.afterTransit s =
      ((k.transitOut s).map Operation.shape).elim s Shape.output := by
    intro k
    rw [GraphBase.afterTransit]
    cases k.transitOut s <;> rfl
  rw [hshape, hshape, ha.transitOut]

/-- Each share was sent from the same node. -/
theorem beforeTransit (ha : g.Alike h) (s : Node) : h.beforeTransit s = g.beforeTransit s := by
  have hin := ha.transitIn s
  rw [GraphBase.beforeTransit, GraphBase.beforeTransit]
  cases hg : g.transitIn s with
  | none =>
      rw [hg] at hin
      rw [Option.map_eq_none_iff.1 hin]
  | some t =>
      rw [hg, Option.map_some, Option.map_eq_some_iff] at hin
      obtain ⟨t', ht', hshape⟩ := hin
      have hne : t.type ≠ .eval := by simp [(transitIn_eq_some.1 hg).2]
      simp only [ht', Operation.inputs_eq_of_shape hshape hne]

theorem origin (ha : g.Alike h) (s : Node) : h.origin s = g.origin s := by
  rw [GraphBase.origin, GraphBase.origin, ha.beforeTransit]

theorem isSourceOperand (ha : g.Alike h) (s : Node) :
    isSourceOperand h src s = isSourceOperand g src s := by
  rw [Gauv.isSourceOperand, Gauv.isSourceOperand, ha.origin]

theorem isSourceShare (ha : g.Alike h) {e f : Operation} (hef : f.shape = e.shape) :
    isSourceShare h src f = isSourceShare g src e := by
  have hout : f.output = e.output := congrArg Shape.output hef
  rw [Gauv.isSourceShare, Gauv.isSourceShare, ha.afterTransit, hout]

theorem shareParty (ha : g.Alike h) {e f : Operation} (hef : f.shape = e.shape) :
    shareParty h f = shareParty g e := by
  have hout : f.output = e.output := congrArg Shape.output hef
  rw [Gauv.shareParty, Gauv.shareParty, ha.afterTransit, hout]

/-! ## The patterns -/

/-- Each out-edge has one of its shape in the other graph. -/
theorem exists_of_mem_outs (ha : g.Alike h) {f : Operation} (hf : f ∈ h.outEdges v) :
    ∃ e ∈ g.outEdges v, f.shape = e.shape := by
  obtain ⟨e, he, hes⟩ := List.mem_map.1 ((ha.outs v).subset (List.mem_map_of_mem hf))
  exact ⟨e, he, hes.symm⟩

/-- What depends on the shape alone holds of the out-edges of both. -/
theorem forall_outs (ha : g.Alike h) {P Q : Operation → Prop}
    (hPQ : ∀ e f, f.shape = e.shape → P e → Q f) (hP : ∀ e ∈ g.outEdges v, P e) :
    ∀ f ∈ h.outEdges v, Q f := by
  intro f hf
  obtain ⟨e, he, hes⟩ := ha.exists_of_mem_outs hf
  exact hPQ e f hes (hP e he)

theorem mem_inputs_of_shape {e f : Operation} (hef : f.shape = e.shape) (i : ℕ) :
    i ∈ f.inputs.map Node.guid ↔ i ∈ e.inputs.map Node.guid :=
  ((Operation.inputs_perm_of_shape hef).map Node.guid).mem_iff

/-- A match of the sharing rules is one in both. -/
theorem sharingMatch (ha : g.Alike h) (hm : SharingMatch g src v) : SharingMatch h src v where
  outDeg := by rw [ha.outDeg, hm.outDeg, ha.frame.partyCnt]
  lengths := by
    refine ha.forall_outs (fun e f hef he => ?_) hm.lengths
    rw [(Operation.inputs_perm_of_shape hef).length_eq, he, ha.frame.T]
  parties := by
    have hlist : ∀ k : Graph, ((k.outEdges v).filter fun e => e.type = .eval).map
        (Gauv.shareParty g) = (((k.outEdges v).map Operation.shape).filter
          fun s => s.type = .eval).map fun s => (g.afterTransit s.output).party := by
      intro k
      rw [List.filter_map, List.map_map]
      rfl
    have hparty : Gauv.shareParty h = Gauv.shareParty g := funext fun e => ha.shareParty rfl
    have hp := hm.parties
    rw [hlist] at hp
    rw [hparty, hlist]
    exact (((ha.outs v).filter _).map _).nodup_iff.2 hp
  sources := by
    refine ha.forall_outs (fun e f hef he hev hsrc => ?_) hm.sources
    have hout : f.output = e.output := congrArg Shape.output hef
    rw [ha.shareParty hef] at hsrc
    rw [ha.afterTransit, hout, ha.inDeg]
    exact he ((congrArg Shape.type hef).symm.trans hev) hsrc
  inputs := by
    obtain ⟨S, hcard, hv, hmem, hrand⟩ := hm.inputs
    refine ⟨S, by rw [hcard, ha.frame.T], hv, fun i => ?_, fun i hi hne => ?_⟩
    · rw [hmem]
      constructor
      · rintro ⟨e, he, hie⟩
        obtain ⟨f, hf, hfs⟩ := ha.symm.exists_of_mem_outs he
        exact ⟨f, hf, (mem_inputs_of_shape hfs i).1 hie⟩
      · rintro ⟨f, hf, hif⟩
        obtain ⟨e, he, hes⟩ := ha.exists_of_mem_outs hf
        exact ⟨e, he, (mem_inputs_of_shape hes i).1 hif⟩
    · rw [ha.isRandomNode]
      exact hrand i hi hne

/-- **The test for secrets answers the same.** -/
theorem isRewritableSecret (ha : g.Alike h) (v : ℕ) (src : Finset PartyDecl) :
    isRewritableSecret h v src = isRewritableSecret g v src := by
  by_cases hv : v < g.nodeSize
  · by_cases hT : g.T < g.partyCnt
    · have hv' : v < h.nodeSize := by rwa [ha.frame.nodeSize]
      have hT' : h.T < h.partyCnt := by rwa [ha.frame.T, ha.frame.partyCnt]
      obtain ⟨b, hb⟩ := Option.isSome_iff_exists.1 (isSome_isRewritableSecret ha.left hT hv src)
      obtain ⟨c, hc⟩ := Option.isSome_iff_exists.1 (isSome_isRewritableSecret ha.right hT' hv' src)
      have hbm := isRewritableSecret_eq_true_iff hT hv src
      have hcm := isRewritableSecret_eq_true_iff hT' hv' src
      rw [hb, Option.some.injEq] at hbm
      rw [hc, Option.some.injEq] at hcm
      rw [hb, hc, Option.some.injEq, Bool.eq_iff_iff, hbm, hcm]
      exact ⟨ha.symm.sharingMatch, ha.sharingMatch⟩
    · rw [Gauv.isRewritableSecret, Gauv.isRewritableSecret, ha.frame.nodeSize, ha.frame.T,
        ha.frame.partyCnt, if_neg (not_not.2 hv), if_pos hT, if_neg (not_not.2 hv), if_pos hT]
  · rw [Gauv.isRewritableSecret, Gauv.isRewritableSecret, ha.frame.nodeSize, if_pos hv, if_pos hv]

/-- The loop over the operands ends the same. -/
theorem scanOperands (ha : g.Alike h) (shares : List Node) (parties : Finset PartyDecl) (k : ℕ) :
    scanOperands h src shares parties k = scanOperands g src shares parties k := by
  induction shares generalizing parties k with
  | nil => rfl
  | cons s shares ih =>
      rw [Gauv.scanOperands, Gauv.scanOperands, ha.beforeTransit]
      simp only [ha.isRandom, ih]

/-- **The test for openings answers the same.** -/
theorem isRewritableReconstruction (ha : g.Alike h) {e f : Operation} (hef : f.shape = e.shape)
    (ht : e.type ≠ .eval) : isRewritableReconstruction h src f =
      isRewritableReconstruction g src e := by
  have hout : f.output = e.output := congrArg Shape.output hef
  rw [Gauv.isRewritableReconstruction, Gauv.isRewritableReconstruction,
    Operation.inputs_eq_of_shape hef ht, ha.frame.partyCnt, ha.scanOperands]
  simp only [hout, ha.inDeg]

end Graph.Alike

/-! ## Rewriting alike graphs -/

/-- The shape of an operation that is made from the arguments. -/
def NewEdge.shape (team : ℕ) (n : NewEdge) : Shape :=
  (Operation.make team 0 n.type n.inputs n.output).shape

/-- The shapes of new edges do not depend on their addresses. -/
theorem map_shape_makeShared (team fresh : ℕ) (es : List NewEdge) :
    (makeShared team fresh es).map Operation.shape = es.map (NewEdge.shape team) := by
  have hfst : es.map (NewEdge.shape team) = es.zipIdx.map (NewEdge.shape team ∘ Prod.fst) := by
    rw [← List.map_map, List.zipIdx_map_fst]
  rw [makeShared, List.map_map, hfst]
  rfl

theorem filter_makeShared (team fresh v : ℕ) (es : List NewEdge) :
    ((makeShared team fresh es).filter fun f => f.output.guid = v).map Operation.shape =
      (es.filter fun n => n.output.guid = v).map (NewEdge.shape team) := by
  have hcomp : ((makeShared team fresh es).filter fun f => f.output.guid = v).map
      Operation.shape = ((makeShared team fresh es).map Operation.shape).filter
        fun s => s.output.guid = v := by
    rw [List.filter_map]
    rfl
  rw [hcomp, map_shape_makeShared, List.filter_map]
  rfl

/-- The hash of an operation does not see the order of its inputs. -/
theorem Operation.generateHash_perm (team : ℕ) (t : Operator) {l l' : List Node}
    (h : l'.Perm l) (o : Node) : generateHash team t l' o = generateHash team t l o := by
  have hsum : l'.foldl (fun r n => r + UInt64.ofNat n.guid) 0 =
      l.foldl (fun r n => r + UInt64.ofNat n.guid) 0 := by
    refine h.foldl_eq' (fun a _ b _ r => ?_) 0
    rw [UInt64.add_assoc, UInt64.add_assoc, UInt64.add_comm (UInt64.ofNat a.guid)]
  rw [generateHash, generateHash, hsum]

theorem NewEdge.shape_eq (team : ℕ) {t : Operator} {l l' : List Node} (h : l'.Perm l)
    (ht : t = .eval ∨ l' = l) (o : Node) :
    NewEdge.shape team ⟨t, l', o⟩ = NewEdge.shape team ⟨t, l, o⟩ := by
  have hbag : (l' : Multiset Node) = l := Multiset.coe_eq_coe.2 h
  have hin : (if t = .eval then [] else l') = if t = .eval then [] else l := by
    rcases ht with rfl | rfl
    · rfl
    · rfl
  change (⟨_, t, o, l', if t = .eval then [] else l'⟩ : Shape) =
    ⟨_, t, o, l, if t = .eval then [] else l⟩
  rw [hbag, hin]
  exact congrArg (fun x => (⟨x, t, o, l, _⟩ : Shape)) (Operation.generateHash_perm team t h o)

/-- Two results that both exist or both do not are related when their values are. -/
theorem rel_of_isSome {α β : Type*} {r : α → β → Prop} {o : Option α} {o' : Option β}
    (hs : o'.isSome = o.isSome) (h : ∀ a b, o = some a → o' = some b → r a b) :
    Option.Rel r o o' := by
  cases o with
  | none => cases o' with
    | none => exact .none
    | some b => simp at hs
  | some a => cases o' with
    | none => simp at hs
    | some b => exact .some (h a b rfl rfl)

/-- A check, a node and a plan for it: one related plan each, or none. -/
theorem rel_checked {α β ν : Type} {r : α → β → Prop} {check : Option Bool} {node : Option ν}
    {plan : ν → Option α} {plan' : ν → Option β}
    (h : check = some true → ∀ n, node = some n → Option.Rel r (plan n) (plan' n)) :
    Option.Rel (List.Forall₂ r)
      (do
        let b ← check
        if b then
          let n ← node
          let p ← plan n
          return [p]
        else return [])
      (do
        let b ← check
        if b then
          let n ← node
          let p ← plan' n
          return [p]
        else return []) := by
  cases check with
  | none => exact .none
  | some b =>
      cases b with
      | false => exact .some .nil
      | true =>
          cases node with
          | none => exact .none
          | some n =>
              have hrel := h rfl n rfl
              change Option.Rel (List.Forall₂ r) ((plan n).bind fun p => some [p])
                ((plan' n).bind fun p => some [p])
              generalize plan n = o at hrel ⊢
              generalize plan' n = o' at hrel ⊢
              cases hrel with
              | none => exact .none
              | some hab => exact .some (.cons hab .nil)

/-- The plans make corresponding changes to the two graphs. -/
structure Plan.AlikeIn (g h : Graph) (p q : Plan) : Prop where
  left : p.Valid g
  right : q.Valid h
  node : q.node = p.node
  op : q.op = p.op
  srcs : q.srcs.Perm p.srcs
  ordered : p.op = .eval ∨ q.srcs = p.srcs
  dsts : q.dsts.Perm p.dsts
  distinct : (p.dsts.map Node.guid).Nodup
  turned : ∀ v, q.turned.filter (fun n => n.output.guid = v) =
    p.turned.filter fun n => n.output.guid = v
  /-- Edges at one place of the in-lists go together. -/
  eliminated : ∀ v, (h.inEdges v).map (fun f => (f.shape, decide (f ∈ q.edgesToEliminate))) =
    (g.inEdges v).map fun e => (e.shape, decide (e ∈ p.edgesToEliminate))

/-- Alike plans add edges of the same shapes to each node, in the same order. -/
theorem Plan.AlikeIn.added {g h : Graph} {p q : Plan} (hpq : p.AlikeIn g h q) (team v : ℕ) :
    (q.edgesToAdd.filter fun n => n.output.guid = v).map (NewEdge.shape team) =
      (p.edgesToAdd.filter fun n => n.output.guid = v).map (NewEdge.shape team) := by
  have hcomputed : ∀ r : Plan, (r.computed.filter fun n => n.output.guid = v).map
      (NewEdge.shape team) = (r.dsts.filter fun n => n.guid = v).map
        fun d => NewEdge.shape team ⟨r.op, r.srcs, d⟩ := by
    intro r
    rw [Plan.computed, List.filter_map, List.map_map]
    rfl
  have hshape : (fun d => NewEdge.shape team ⟨q.op, q.srcs, d⟩) =
      fun d => NewEdge.shape team ⟨p.op, p.srcs, d⟩ := by
    funext d
    rw [hpq.op]
    exact NewEdge.shape_eq team hpq.srcs hpq.ordered d
  rw [Plan.edgesToAdd, Plan.edgesToAdd, List.filter_append, List.filter_append, List.map_append,
    List.map_append, hpq.turned, hcomputed, hcomputed, hshape,
    filter_key_perm hpq.dsts hpq.distinct]

/-- **Alike plans keep the graphs alike.** -/
theorem Graph.Alike.result {g h : Graph} {p q : Plan} (ha : g.Alike h)
    (hpq : p.AlikeIn g h q) (team : ℕ) : (p.result team g).Alike (q.result team h) := by
  have hframe : (p.result team g).SameFrame (q.result team h) := by
    have hp := Plan.sameFrame_result p team g
    have hq := Plan.sameFrame_result q team h
    exact ⟨hq.nodes.trans (ha.frame.nodes.trans hp.nodes.symm),
      hq.partyCnt.trans (ha.frame.partyCnt.trans hp.partyCnt.symm),
      hq.T.trans (ha.frame.T.trans hp.T.symm),
      hq.corrupted.trans (ha.frame.corrupted.trans hp.corrupted.symm)⟩
  have hins : ∀ v, ((q.result team h).inEdges v).map Operation.shape =
      ((p.result team g).inEdges v).map Operation.shape := by
    intro v
    have hkept : ∀ (k : Graph) (es : List Operation),
        ((k.inEdges v).filter fun e => e ∉ es).map Operation.shape =
          (((k.inEdges v).map fun e => (e.shape, decide (e ∈ es))).filter
            fun x => !x.2).map Prod.fst := by
      intro k es
      rw [List.filter_map, List.map_map]
      congr 1
      exact List.filter_congr fun e _ => by simp
    rw [Plan.inEdges_result ha.right hpq.right, Plan.inEdges_result ha.left hpq.left,
      List.map_append, List.map_append, Plan.added, Plan.added, filter_makeShared,
      filter_makeShared, hpq.added, hkept, hkept, hpq.eliminated]
  have hwg := Plan.wellFormed_result ha.left hpq.left team
  have hwh := Plan.wellFormed_result ha.right hpq.right team
  have hrandom := countRandom_of_inDeg hframe (inDeg_of_ins hins)
  have hbubble := countBubble_of_inDeg hframe (inDeg_of_ins hins)
  have hdg := Plan.drift_result ha.left hpq.left team
  have hdh := Plan.drift_result ha.right hpq.right team
  refine ⟨hwg, hwh, hframe, ?_, ?_, hins⟩
  · have h₁ := hdg.random
    have h₂ := hdh.random
    rw [hrandom, ha.random, ha.countRandom] at h₂
    omega
  · have h₁ := hdg.bubble
    have h₂ := hdh.bubble
    rw [hbubble, ha.bubble, ha.frame.corrupted, ha.countBubble] at h₂
    omega

/-! ## The edges a plan removes -/

/-- An in-edge stands at one place only. -/
theorem getElem_inEdges_eq_iff {g : Graph} (hg : g.WellFormed) {v w k j : ℕ} {e : Operation}
    (he : (g.inEdges v)[k]? = some e) (hj : j < (g.inEdges w).length) :
    (g.inEdges w)[j] = e ↔ j = k ∧ w = v := by
  have hmem := List.getElem_mem hj
  have hev := List.mem_of_getElem? he
  constructor
  · intro heq
    have hwv : w = v := by
      rw [heq] at hmem
      exact (hg.mem_inEdges.1 hmem).2.symm.trans (hg.mem_inEdges.1 hev).2
    subst hwv
    obtain ⟨hk, hke⟩ := List.getElem?_eq_some_iff.1 he
    exact ⟨(hg.nodup_inEdges w).getElem_inj_iff.1 (heq.trans hke.symm), rfl⟩
  · rintro ⟨rfl, rfl⟩
    exact (List.getElem?_eq_some_iff.1 he).2

namespace Graph.Alike

variable {g h : Graph}

open Classical in
/-- Removals that the shape decides go together. -/
theorem eliminated_of_shape (ha : g.Alike h) {es fs : List Operation} {P : Shape → Prop}
    (hes : ∀ e, g.HasEdge e → (e ∈ es ↔ P e.shape))
    (hfs : ∀ f, h.HasEdge f → (f ∈ fs ↔ P f.shape)) (v : ℕ) :
    (h.inEdges v).map (fun f => (f.shape, decide (f ∈ fs))) =
      (g.inEdges v).map fun e => (e.shape, decide (e ∈ es)) := by
  have hpair : ∀ (k : Graph) (ks : List Operation), k.WellFormed →
      (∀ e, k.HasEdge e → (e ∈ ks ↔ P e.shape)) →
      (k.inEdges v).map (fun e => (e.shape, decide (e ∈ ks))) =
        ((k.inEdges v).map Operation.shape).map fun s => (s, decide (P s)) := by
    intro k ks hk hks
    rw [List.map_map]
    refine List.map_congr_left fun e he => ?_
    rw [Function.comp_apply, Prod.mk.injEq]
    exact ⟨rfl, decide_eq_decide.2 (hks e (hk.mem_inEdges.1 he).1)⟩
  rw [hpair h fs ha.right hfs, hpair g es ha.left hes, ha.ins]

/-- So do the removals of two edges at one place. -/
theorem eliminated_at (ha : g.Alike h) {v k : ℕ} {e f : Operation}
    (he : (g.inEdges v)[k]? = some e) (hf : (h.inEdges v)[k]? = some f) (w : ℕ) :
    (h.inEdges w).map (fun x => (x.shape, decide (x ∈ [f]))) =
      (g.inEdges w).map fun x => (x.shape, decide (x ∈ [e])) := by
  have hlen : (h.inEdges w).length = (g.inEdges w).length := ha.inDeg w
  refine List.ext_getElem (by simp [hlen]) fun j hj hj' => ?_
  rw [List.length_map] at hj hj'
  rw [List.getElem_map, List.getElem_map, Prod.mk.injEq]
  refine ⟨?_, decide_eq_decide.2 ?_⟩
  · have hins := congrArg (fun l => l[j]?) (ha.ins w)
    simpa [hj, hj'] using hins
  · rw [List.mem_singleton, List.mem_singleton, getElem_inEdges_eq_iff ha.right hf hj,
      getElem_inEdges_eq_iff ha.left he hj']

/-! ## The addition rule -/

/-- Additions of one shape are reversed alike. -/
theorem reverseAddition (ha : g.Alike h) {v k : ℕ} {e f : Operation}
    (he : (g.inEdges v)[k]? = some e) (hf : (h.inEdges v)[k]? = some f)
    (hef : f.shape = e.shape) :
    Option.Rel (List.Forall₂ (Plan.AlikeIn g h)) (reverseAddition g v e)
      (reverseAddition h v f) := by
  have htype : f.type = e.type := congrArg Shape.type hef
  have hout : f.output = e.output := congrArg Shape.output hef
  have hedge := ha.left.mem_inEdges.1 (List.mem_of_getElem? he)
  have hedge' := ha.right.mem_inEdges.1 (List.mem_of_getElem? hf)
  rw [Gauv.reverseAddition, Gauv.reverseAddition, htype]
  split
  · rename_i ht
    have hin := Operation.inputs_eq_of_shape hef (by simp [ht])
    rw [hin, hout, ha.frame.node?]
    split
    · rename_i src0 src1 hsrc
      simp only
      split
      · have hplan : ∀ {a b : Node}, a ∈ e.inputs → b ∈ e.inputs →
            Plan.AlikeIn g h ⟨e.output, [e], [], .sub, [e.output, a], [b]⟩
              ⟨e.output, [f], [], .sub, [e.output, a], [b]⟩ := by
          intro a b hma hmb
          have hd := ha.left.output_live hedge.1
          have hla := ha.left.input_live hedge.1 hma
          have hlb := ha.left.input_live hedge.1 hmb
          have hvalid : ∀ {G : Graph} {c : Operation}, G.HasEdge c →
              (∀ i, G.node? i = g.node? i) →
              Plan.Valid ⟨e.output, [c], [], .sub, [e.output, a], [b]⟩ G := by
            intro G c hc hnode
            refine ⟨⟨List.nodup_singleton _, by simpa using hc⟩, ?_⟩
            simp [Plan.edgesToAdd, Plan.computed, hnode, hd, hla, hlb]
          exact ⟨hvalid hedge.1 fun _ => rfl, hvalid hedge'.1 ha.frame.node?, rfl, rfl, .refl _,
            .inr rfl, .refl _, List.nodup_singleton _, fun _ => rfl, ha.eliminated_at he hf⟩
        refine .some (.cons (hplan ?_ ?_) (.cons (hplan ?_ ?_) .nil)) <;> simp [hsrc]
      · exact .none
    · exact .none
  · exact .some .nil

/-- The addition rule makes alike plans. -/
theorem additionPlans (ha : g.Alike h) :
    Option.Rel (List.Forall₂ (Plan.AlikeIn g h)) (AdditionTransformer.plans g)
      (AdditionTransformer.plans h) := by
  rw [AdditionTransformer.plans, AdditionTransformer.plans, ha.frame.nodeSize]
  refine collect_rel (S := (· = ·)) (by rw [List.forall₂_eq_eq_eq]) fun v w hvw => ?_
  subst hvw
  refine collect_rel (S := fun e f => f.shape = e.shape ∧ ∃ k, (g.inEdges v)[k]? = some e ∧
    (h.inEdges v)[k]? = some f) ?_ fun e f hef => hef.2.elim fun k hk =>
      ha.reverseAddition hk.1 hk.2 hef.1
  refine List.forall₂_iff_get.2 ⟨(ha.inDeg v).symm, fun k hk hk' => ?_⟩
  have hins := congrArg (fun l => l[k]?) (ha.ins v)
  refine ⟨by simpa [hk, hk'] using hins, k, ?_, ?_⟩
  · exact List.getElem?_eq_getElem hk
  · exact List.getElem?_eq_getElem hk'

/-! ## The sharing rules -/

section Sharing

variable {src : Finset PartyDecl} {v : ℕ}

/-- The out-edges of the two graphs, paired off by shape. -/
theorem exists_paired_outs (ha : g.Alike h) (v : ℕ) : ∃ m : List Operation,
    m.Perm (g.outEdges v) ∧ List.Forall₂ (fun e f => f.shape = e.shape) m (h.outEdges v) := by
  obtain ⟨m, hm, hshape⟩ := exists_perm_of_map_perm (ha.outs v)
  refine ⟨m, hm, ?_⟩
  rw [← List.forall₂_eq_eq_eq, List.forall₂_map_left_iff, List.forall₂_map_right_iff] at hshape
  exact hshape.imp fun _ _ heq => heq.symm

/-- What each out-edge contributes is the same up to order. -/
theorem flatMap_outs_perm (ha : g.Alike h) {β : Type*} {F G : Operation → List β}
    (hFG : ∀ e f, f.shape = e.shape → (G f).Perm (F e)) :
    ((h.outEdges v).flatMap G).Perm ((g.outEdges v).flatMap F) := by
  obtain ⟨m, hm, hpair⟩ := ha.exists_paired_outs v
  refine List.Perm.trans ?_ (hm.flatMap_right F)
  clear hm
  generalize h.outEdges v = l at hpair
  induction hpair with
  | nil => exact .refl _
  | cons hef _ ih =>
      rw [List.flatMap_cons, List.flatMap_cons]
      exact (hFG _ _ hef).append ih

theorem sharingDsts (ha : g.Alike h) {e f : Operation} (hef : f.shape = e.shape) :
    (sharingDsts h src v f).Perm (sharingDsts g src v e) := by
  have hout : f.output = e.output := congrArg Shape.output hef
  rw [Gauv.sharingDsts, Gauv.sharingDsts, ha.isSourceShare hef, hout]
  exact ((Operation.inputs_perm_of_shape hef).filter _).append (.refl _)

theorem sharingTurned (ha : g.Alike h) {e f : Operation} (hef : f.shape = e.shape) :
    sharingTurned h src f = sharingTurned g src e := by
  have hout : f.output = e.output := congrArg Shape.output hef
  have hshape : ∀ k : Graph, Gauv.sharingTurned k src e =
      ((k.transitOut e.output).map Operation.shape).elim [] fun s =>
        if s.output.party ∈ src then [⟨.transit, [s.output], e.output⟩] else [] := by
    intro k
    rw [Gauv.sharingTurned]
    cases k.transitOut e.output <;> rfl
  have heq : Gauv.sharingTurned h src f = Gauv.sharingTurned h src e := by
    rw [Gauv.sharingTurned, Gauv.sharingTurned, hout]
  rw [heq, hshape, hshape, ha.transitOut]

/-- The shapes a sharing removes: the edges that read the secret, and the
TRANSITs that take a share to a source party. -/
def ReadsShare (g : Graph) (src : Finset PartyDecl) (v : ℕ) (s : Shape) : Prop :=
  (∃ n ∈ s.bag, n.guid = v) ∨ ∃ o ∈ (g.outEdges v).map Operation.output,
    (∃ t, g.transitOut o = some t ∧ t.output.party ∈ src) ∧ ∃ n ∈ s.bag, n.guid = o.guid

theorem readsShare (ha : g.Alike h) {s : Shape} (hs : ReadsShare g src v s) :
    ReadsShare h src v s := by
  rcases hs with hs | ⟨o, ho, ⟨t, ht, htp⟩, hs⟩
  · exact Or.inl hs
  · refine Or.inr ⟨o, ?_, ?_, hs⟩
    · obtain ⟨e, he, rfl⟩ := List.mem_map.1 ho
      obtain ⟨f, hf, hfe⟩ := ha.symm.exists_of_mem_outs he
      exact List.mem_map.2 ⟨f, hf, (congrArg Shape.output hfe).symm⟩
    · have htr := ha.transitOut o
      rw [ht, Option.map_some, Option.map_eq_some_iff] at htr
      obtain ⟨t', ht', hshape⟩ := htr
      have hout : t'.output = t.output := congrArg Shape.output hshape
      exact ⟨t', ht', by rwa [hout]⟩

/-- What a sharing eliminates, told by shapes. -/
theorem mem_sharingEliminated_iff (hg : g.WellFormed) {e : Operation} (he : g.HasEdge e) :
    e ∈ (g.outEdges v).flatMap (sharingEliminated g src) ↔ ReadsShare g src v e.shape := by
  rw [List.mem_flatMap]
  constructor
  · rintro ⟨f, hf, hef⟩
    rcases mem_sharingEliminated.1 hef with rfl | ⟨t, ht, htp, rfl⟩
    · exact Or.inl (hg.mem_outEdges.1 hf).2
    · exact Or.inr ⟨f.output, List.mem_map_of_mem hf, ⟨e, ht, htp⟩,
        (hg.mem_outEdges.1 (mem_outEdges_of_transitOut ht)).2⟩
  · rintro (hin | ⟨o, ho, ⟨t, ht, htp⟩, hin⟩)
    · exact ⟨e, hg.mem_outEdges.2 ⟨he, hin⟩, mem_sharingEliminated.2 (Or.inl rfl)⟩
    · obtain ⟨f, hf, rfl⟩ := List.mem_map.1 ho
      -- the TRANSIT is the only edge that reads the share
      have hmem : e ∈ g.outEdges f.output.guid := hg.mem_outEdges.2 ⟨he, hin⟩
      rw [(transitOut_eq_some.1 ht).1] at hmem
      exact ⟨f, hf, mem_sharingEliminated.2
        (Or.inr ⟨t, ht, htp, List.mem_singleton.1 hmem⟩)⟩

end Sharing

end Graph.Alike

/-- One of each pointer, in any order: rearranging what is inserted rearranges
the set. -/
theorem perm_insertNodes {l l' : List Node} (h : l'.Perm l)
    (hinj : ∀ m ∈ l, ∀ n ∈ l, m.guid = n.guid → m = n) :
    (insertNodes l').Perm (insertNodes l) := by
  have hmem : ∀ {k : List Node}, (∀ m ∈ k, ∀ n ∈ k, m.guid = n.guid → m = n) → ∀ n,
      n ∈ insertNodes k ↔ n ∈ k := by
    intro k hk n
    refine ⟨mem_of_mem_insertNodes, fun hn => ?_⟩
    obtain ⟨m, hm, hmn⟩ := exists_mem_insertNodes hn
    rwa [← hk m (mem_of_mem_insertNodes hm) n hn hmn]
  refine (List.perm_ext_iff_of_nodup (nodup_insertNodes l').of_map
    (nodup_insertNodes l).of_map).2 fun n => ?_
  rw [hmem hinj, hmem fun m hm n hn => hinj m (h.subset hm) n (h.subset hn), h.mem_iff]

/-! ## The plans of the sharing rules -/

/-- A plan of a sharing rule for the node `v`, whose nodes are live. -/
theorem SharingPlan.distinct {g : Graph} {src : Finset PartyDecl} {v : ℕ} {order : IterOrder}
    {node : Node} {srcs₀ dsts₀ : List Node} {p : Plan}
    (hp : SharingPlan order g src node v srcs₀ dsts₀ p) : (p.dsts.map Node.guid).Nodup := by
  rw [hp.dsts]
  exact ((order.perm _).map _).nodup_iff.2 (nodup_insertNodes _)

/-- At most one TRANSIT is turned into any node. -/
theorem SharingPlan.turned_distinct {g : Graph} {src : Finset PartyDecl} {v : ℕ}
    {order : IterOrder} {node : Node} {srcs₀ dsts₀ : List Node} {p : Plan}
    (hp : SharingPlan order g src node v srcs₀ dsts₀ p) (hm : SharingMatch g src v)
    (hg : g.WellFormed) : (p.turned.map fun n => n.output.guid).Nodup := by
  have hsub : ∀ l : List Operation, List.Sublist
      ((l.flatMap (sharingTurned g src)).map fun n => n.output.guid)
      (l.map fun e => e.output.guid) := by
    intro l
    induction l with
    | nil => exact .slnil
    | cons e l ih =>
        rw [List.flatMap_cons, List.map_append, List.map_cons]
        have hone : sharingTurned g src e = [] ∨
            ∃ n, sharingTurned g src e = [n] ∧ n.output = e.output := by
          rw [sharingTurned]
          split
          · split
            · exact Or.inr ⟨_, rfl, rfl⟩
            · exact Or.inl rfl
          · exact Or.inl rfl
        rcases hone with hnil | ⟨n, hn, hout⟩
        · rw [hnil]
          exact .cons _ ih
        · rw [hn, List.map_singleton, hout]
          exact .cons_cons _ ih
  rw [hp.turned]
  exact (hm.nodup_outputs hp.isEval hg).sublist (hsub _)

/-- The destinations of a sharing are live nodes. -/
theorem live_dsts {g : Graph} {src : Finset PartyDecl} {v : ℕ} (hg : g.WellFormed)
    {dsts₀ : List Node} (h₀ : ∀ n ∈ dsts₀, g.node? n.guid = some n) :
    ∀ n ∈ dsts₀ ++ (g.outEdges v).flatMap (sharingDsts g src v), g.node? n.guid = some n := by
  intro n hn
  rcases List.mem_append.1 hn with hn | hn
  · exact h₀ n hn
  · obtain ⟨e, he, hn⟩ := List.mem_flatMap.1 hn
    have hedge := (hg.mem_outEdges.1 he).1
    rw [sharingDsts] at hn
    rcases List.mem_append.1 hn with hn | hn
    · exact hg.input_live hedge (List.mem_filter.1 hn).1
    · split at hn
      · exact absurd hn List.not_mem_nil
      · rw [List.mem_singleton.1 hn]
        exact hg.output_live hedge

namespace Graph.Alike

variable {g h : Graph} {src : Finset PartyDecl} {v : ℕ}

/-- The two graphs find the same destinations. -/
theorem insertNodes_dsts (ha : g.Alike h) (src : Finset PartyDecl) (v : ℕ) {dsts₀ : List Node}
    (h₀ : ∀ n ∈ dsts₀, g.node? n.guid = some n) :
    (insertNodes (dsts₀ ++ (h.outEdges v).flatMap (Gauv.sharingDsts h src v))).Perm
      (insertNodes (dsts₀ ++ (g.outEdges v).flatMap (Gauv.sharingDsts g src v))) :=
  perm_insertNodes ((ha.flatMap_outs_perm fun _ _ hef => ha.sharingDsts hef).append_left dsts₀)
    fun m hm n hn hmn =>
      eq_of_guid (live_dsts ha.left h₀ m hm) (live_dsts ha.left h₀ n hn) hmn

/-- The plans of one match in alike graphs, each in its own iteration order. -/
theorem alikeIn_sharing (ha : g.Alike h) (hm : SharingMatch g src v) {order order' : IterOrder}
    {node : Node} {srcs₀ dsts₀ : List Node} {p q : Plan}
    (h₀ : ∀ n ∈ srcs₀ ++ dsts₀, g.node? n.guid = some n)
    (hp : SharingPlan order g src node v srcs₀ dsts₀ p)
    (hq : SharingPlan order' h src node v srcs₀ dsts₀ q) : p.AlikeIn g h q where
  left := hp.valid hm ha.left h₀
  right := hq.valid (ha.sharingMatch hm) ha.right fun n hn => by rw [ha.frame.node?, h₀ n hn]
  node := hq.node_eq.trans hp.node_eq.symm
  op := hq.op.trans hp.op.symm
  srcs := by
    have hlist : ∀ k : Graph, ((k.outEdges v).filter (Gauv.isSourceShare k src)).map
        Operation.output = (((k.outEdges v).map Operation.shape).filter fun s =>
          (k.afterTransit s.output).party ∈ src).map Shape.output := by
      intro k
      rw [List.filter_map, List.map_map]
      rfl
    rw [hp.srcs, hq.srcs, hlist, hlist]
    simp only [ha.afterTransit]
    exact (((ha.outs v).filter _).map _).append_left srcs₀
  ordered := Or.inl hp.op
  dsts := by
    rw [hp.dsts, hq.dsts]
    exact (order'.perm _).trans ((ha.insertNodes_dsts src v fun n hn =>
      h₀ n (List.mem_append_right _ hn)).trans (order.perm _).symm)
  distinct := hp.distinct
  turned := fun w => by
    have hperm : q.turned.Perm p.turned := by
      rw [hp.turned, hq.turned]
      exact ha.flatMap_outs_perm fun e f hef => .of_eq (ha.sharingTurned hef)
    exact filter_key_perm hperm (hp.turned_distinct hm ha.left) w
  eliminated := by
    refine ha.eliminated_of_shape (P := ReadsShare g src v) (fun e he => ?_) fun f hf => ?_
    · rw [hp.eliminated]
      exact mem_sharingEliminated_iff ha.left he
    · rw [hq.eliminated, mem_sharingEliminated_iff ha.right hf]
      exact ⟨ha.symm.readsShare, ha.readsShare⟩

/-- **A sharing is planned alike** in any iteration order. -/
theorem planSharing (ha : g.Alike h) (hm : SharingMatch g src v) (order order' : IterOrder)
    (node : Node) {srcs₀ dsts₀ : List Node}
    (h₀ : ∀ n ∈ srcs₀ ++ dsts₀, g.node? n.guid = some n) :
    Option.Rel (Plan.AlikeIn g h) (planSharing order g src node v srcs₀ dsts₀)
      (planSharing order' h src node v srcs₀ dsts₀) := by
  have hall : (h.outEdges v).all (fun e => e.type = .eval) =
      (g.outEdges v).all fun e => e.type = .eval := by
    rw [Bool.eq_iff_iff, List.all_eq_true, List.all_eq_true]
    have htype : ∀ e f : Operation, f.shape = e.shape → decide (e.type = .eval) = true →
        decide (f.type = .eval) = true := fun e f hef he => by
      rwa [show f.type = e.type from congrArg Shape.type hef]
    exact ⟨ha.symm.forall_outs htype, ha.forall_outs htype⟩
  have hlen := (ha.insertNodes_dsts src v fun n hn =>
    h₀ n (List.mem_append_right _ hn)).length_eq
  refine rel_of_isSome ?_ fun p q hp hq => ha.alikeIn_sharing hm h₀ (sharingPlan_of_planSharing hp)
    (sharingPlan_of_planSharing hq)
  rw [Gauv.planSharing, Gauv.planSharing]
  simp only [hall, hlen, ha.frame.partyCnt]
  split
  · split
    · rfl
    · rfl
  · rfl

theorem sharingPlanAt (ha : g.Alike h) (order order' : ℕ → IterOrder) (v : ℕ) :
    Option.Rel (List.Forall₂ (Plan.AlikeIn g h)) (SharingTransformer.planAt order src g v)
      (SharingTransformer.planAt order' src h v) := by
  rw [SharingTransformer.planAt, SharingTransformer.planAt, ha.isRewritableSecret, ha.frame.node?]
  refine rel_checked fun hb n hn => ?_
  have hlive : ∀ m ∈ [n] ++ [], g.node? m.guid = some m := by
    simpa [ha.left.guid_eq hn] using hn
  exact ha.planSharing (sharingMatch_of_isRewritableSecret hb) (order v) (order' v) n hlive

theorem randomSharingPlanAt (ha : g.Alike h) (order order' : ℕ → IterOrder) (v : ℕ) :
    Option.Rel (List.Forall₂ (Plan.AlikeIn g h)) (RandomSharingTransformer.planAt order src g v)
      (RandomSharingTransformer.planAt order' src h v) := by
  rw [RandomSharingTransformer.planAt, RandomSharingTransformer.planAt, ha.isRandomNode,
    ha.isRewritableSecret, ha.frame.node?]
  split
  · refine rel_checked fun hb n hn => ?_
    have hlive : ∀ m ∈ [] ++ [n], g.node? m.guid = some m := by
      simpa [ha.left.guid_eq hn] using hn
    exact ha.planSharing (sharingMatch_of_isRewritableSecret hb) (order v) (order' v) n hlive
  · exact .some .nil

/-! ## The reconstruction rule -/

theorem operandTurned (ha : g.Alike h) (s : Node) :
    operandTurned h src s = operandTurned g src s := by
  have hshape : ∀ k : Graph, Gauv.operandTurned k src s = if Gauv.isSourceOperand k src s then []
      else ((k.transitIn s).map Operation.shape).elim [] fun _ =>
        [⟨.transit, [s], k.origin s⟩] := by
    intro k
    rw [Gauv.operandTurned]
    cases k.transitIn s <;> rfl
  rw [hshape, hshape, ha.isSourceOperand, ha.transitIn, ha.origin]

theorem isSentDst (ha : g.Alike h) (s : Node) : isSentDst h src s = isSentDst g src s := by
  rw [Gauv.isSentDst, Gauv.isSentDst, ha.isSourceOperand,
    ← Option.isSome_map (f := Operation.shape), ha.transitIn, Option.isSome_map]

/-- The shapes a reconstruction removes: the edge itself, and the TRANSITs of
the operands that become destinations. -/
def OpensOrSends (g : Graph) (src : Finset PartyDecl) (shares : List Node) (v : ℕ) (s : Shape) :
    Prop :=
  s.output.guid = v ∨ ∃ n ∈ shares, Gauv.isSentDst g src n = true ∧ s.output.guid = n.guid

/-- What an opening eliminates, told by shapes. -/
theorem mem_openingEliminated_iff (hg : g.WellFormed) {edge : Operation}
    (hedge : g.inEdges v = [edge]) {e : Operation} (he : g.HasEdge e) :
    e ∈ edge :: edge.inputs.flatMap (operandEliminated g src) ↔
      OpensOrSends g src edge.inputs v e.shape := by
  have hsole : ∀ {w : ℕ} {t : Operation}, g.inEdges w = [t] → (e = t ↔ e.output.guid = w) := by
    intro w t ht
    rw [← List.mem_singleton, ← ht, hg.mem_inEdges, and_iff_right he]
  rw [List.mem_cons, hsole hedge, List.mem_flatMap, OpensOrSends]
  refine or_congr Iff.rfl (exists_congr fun n => and_congr_right fun _ => ?_)
  rw [mem_operandEliminated, Gauv.isSentDst, Bool.and_eq_true, Bool.not_eq_true']
  constructor
  · rintro ⟨hs, ht⟩
    exact ⟨⟨hs, by rw [ht]; rfl⟩, (hsole (transitIn_eq_some.1 ht).1).1 rfl⟩
  · rintro ⟨⟨hs, hsome⟩, hen⟩
    obtain ⟨t, ht⟩ := Option.isSome_iff_exists.1 hsome
    refine ⟨hs, ?_⟩
    rw [ht, (hsole (transitIn_eq_some.1 ht).1).2 hen]

/-- The plans of one reconstruction in alike graphs. -/
theorem alikeIn_reconstruction (ha : g.Alike h) {order order' : IterOrder} {node : Node}
    {edge edge' : Operation} {p q : Plan} (hedge : g.inEdges v = [edge])
    (hedge' : h.inEdges v = [edge']) (hef : edge'.shape = edge.shape)
    (hm : ReconstructionMatch g edge) (ht : edge.type = .reconstruct)
    (hnode : g.node? v = some node) (hp : ReconstructionPlan order g src node edge p)
    (hq : ReconstructionPlan order' h src node edge' q) : p.AlikeIn g h q := by
  have hmem : edge ∈ g.inEdges v := hedge ▸ List.mem_singleton_self edge
  have hmem' : edge' ∈ h.inEdges v := hedge' ▸ List.mem_singleton_self edge'
  obtain ⟨he, rfl⟩ := ha.left.mem_inEdges.1 hmem
  obtain ⟨he', hv'⟩ := ha.right.mem_inEdges.1 hmem'
  have hin := Operation.inputs_eq_of_shape hef (by simp [ht])
  have ht' : edge'.type = .reconstruct := (congrArg Shape.type hef).trans ht
  have hsource : Gauv.isSourceOperand h src = Gauv.isSourceOperand g src :=
    funext ha.isSourceOperand
  have hm' : ReconstructionMatch h edge' := by
    refine ⟨?_, fun s hs => ?_, ?_⟩
    · rw [hin, hm.length, ha.frame.partyCnt]
    · rw [ha.beforeTransit]
      exact hm.asserted s (hin ▸ hs)
    · simp only [hin, ha.origin]
      exact hm.parties
  have hdsts : ∀ (k : Graph), Gauv.isSourceOperand k src = Gauv.isSourceOperand g src →
      (edge.inputs.filter fun s => !Gauv.isSourceOperand k src s) =
        edge.inputs.filter fun s => !Gauv.isSourceOperand g src s := fun k hk => by rw [hk]
  refine ⟨hp.valid hm ha.left he ht hnode, hq.valid hm' ha.right he' ht' ?_,
    hq.node_eq.trans hp.node_eq.symm, hq.op.trans hp.op.symm, ?_, Or.inl hp.op, ?_, ?_, ?_, ?_⟩
  · rw [ha.frame.node?, hv']
    exact hnode
  · rw [hp.srcs, hq.srcs, hin, hsource]
  · rw [hp.dsts, hq.dsts, hin, hdsts h hsource]
    exact (order'.perm _).trans (order.perm _).symm
  · rw [hp.dsts]
    exact ((order.perm _).map _).nodup_iff.2 (nodup_insertNodes _)
  · intro w
    rw [hp.turned, hq.turned, hin, show Gauv.operandTurned h src = Gauv.operandTurned g src from
      funext ha.operandTurned]
  · refine ha.eliminated_of_shape (P := OpensOrSends g src edge.inputs edge.output.guid)
      (fun e he => ?_) fun f hf => ?_
    · rw [hp.eliminated]
      exact mem_openingEliminated_iff ha.left hedge he
    · rw [hq.eliminated, mem_openingEliminated_iff ha.right hedge' hf, hin]
      simp only [OpensOrSends, ha.isSentDst]

/-- **An opening is planned alike** in any iteration order. -/
theorem planReconstruction (ha : g.Alike h) (order order' : IterOrder) {node : Node}
    {edge edge' : Operation} (hedge : g.inEdges v = [edge]) (hedge' : h.inEdges v = [edge'])
    (hef : edge'.shape = edge.shape) (hm : ReconstructionMatch g edge)
    (ht : edge.type = .reconstruct) (hnode : g.node? v = some node) :
    Option.Rel (Plan.AlikeIn g h) (planReconstruction order g src node edge)
      (planReconstruction order' h src node edge') := by
  have hin := Operation.inputs_eq_of_shape hef (by simp [ht])
  have hsource : Gauv.isSourceOperand h src = Gauv.isSourceOperand g src :=
    funext ha.isSourceOperand
  have hsent : Gauv.isSentDst h src = Gauv.isSentDst g src := funext ha.isSentDst
  have hturned : Gauv.operandTurned h src = Gauv.operandTurned g src := funext ha.operandTurned
  have hlen : ∀ {k : Graph} {shares : List Node}, (shares.flatMap
      (operandEliminated k src)).length = shares.countP (Gauv.isSentDst k src) := fun {k _} =>
    length_flatMap_eq_countP fun s _ => length_operandEliminated k src s
  refine rel_of_isSome ?_ fun p q hp hq => ha.alikeIn_reconstruction hedge hedge' hef hm ht hnode
    (reconstructionPlan_of_planReconstruction hp) (reconstructionPlan_of_planReconstruction hq)
  rw [Gauv.planReconstruction, Gauv.planReconstruction]
  simp only [hin, ha.beforeTransit, hsource, Plan.edgesToAdd, Plan.computed, List.length_cons,
    List.length_append, List.length_map, (order.perm _).length_eq, (order'.perm _).length_eq,
    hlen, hsent, ha.frame.partyCnt, ha.frame.T, hturned]
  split
  · split
    · rfl
    · rfl
  · rfl

theorem reconstructionPlanAt (ha : g.Alike h) (order order' : ℕ → IterOrder) (v : ℕ) :
    Option.Rel (List.Forall₂ (Plan.AlikeIn g h)) (ReconstructionTransformer.planAt order src g v)
      (ReconstructionTransformer.planAt order' src h v) := by
  have hins := ha.ins v
  rw [ReconstructionTransformer.planAt, ReconstructionTransformer.planAt]
  rcases hg : g.inEdges v with _ | ⟨edge, _ | ⟨edge₂, edges⟩⟩
  · have hh : h.inEdges v = [] := by simpa [hg] using hins
    rw [hh]
    exact .some .nil
  · obtain ⟨edge', hh, hef⟩ : ∃ edge', h.inEdges v = [edge'] ∧ edge'.shape = edge.shape := by
      simpa [hg, List.map_eq_singleton_iff] using hins
    have htype : edge'.type = edge.type := congrArg Shape.type hef
    rw [hh]
    simp only [htype]
    split
    · rename_i ht
      rw [ha.isRewritableReconstruction hef (by simp [ht]), ha.frame.node?]
      exact rel_checked fun hb n hn => ha.planReconstruction (order v) (order' v) hg hh hef
        (reconstructionMatch_of_isRewritableReconstruction hb) ht hn
    · exact .some .nil
  · obtain ⟨f, l, hh, -, hl⟩ := List.map_eq_cons_iff.1 (hins.trans (by rw [hg, List.map_cons]))
    obtain ⟨f₂, fs, rfl, -⟩ := List.map_eq_cons_iff.1 hl
    rw [hh]
    exact .some .nil

/-! ## The transformers -/

/-- **Every transformer makes alike plans of alike graphs.** -/
theorem plans (ha : g.Alike h) (order order' : ℕ → IterOrder) (tr : Transformer) :
    Option.Rel (List.Forall₂ (Plan.AlikeIn g h)) (tr.plans order g) (tr.plans order' h) := by
  have hcollect : ∀ {F G : ℕ → Option (List Plan)},
      (∀ v, Option.Rel (List.Forall₂ (Plan.AlikeIn g h)) (F v) (G v)) →
      Option.Rel (List.Forall₂ (Plan.AlikeIn g h)) (collect F (List.range g.nodeSize))
        (collect G (List.range h.nodeSize)) := by
    intro F G hFG
    rw [ha.frame.nodeSize]
    refine collect_rel (S := (· = ·)) (by rw [List.forall₂_eq_eq_eq]) fun v w hvw => ?_
    exact hvw ▸ hFG v
  cases tr with
  | addition => exact ha.additionPlans
  | sharing src => exact hcollect fun v => ha.sharingPlanAt order order' v
  | randomSharing src => exact hcollect fun v => ha.randomSharingPlanAt order order' v
  | reconstruction src => exact hcollect fun v => ha.reconstructionPlanAt order order' v

/-- **A transformer does the same to alike graphs**, in whatever order it
iterates its sets of destinations. -/
theorem apply (ha : g.Alike h) (team : ℕ) (order order' : ℕ → IterOrder) (tr : Transformer) :
    Option.Rel (List.Forall₂ fun r r' : Node × Graph => r'.1 = r.1 ∧ r.2.Alike r'.2)
      (tr.apply team order g) (tr.apply team order' h) := by
  have hplans := ha.plans order order' tr
  rw [Transformer.apply, Transformer.apply]
  generalize tr.plans order g = ps at hplans
  generalize tr.plans order' h = qs at hplans
  cases hplans with
  | none => exact .none
  | some hpq =>
      refine .some ?_
      induction hpq with
      | nil => exact .nil
      | @cons p q ps qs hpq _ ih =>
          have hres := ha.result hpq team
          rw [filterResults, filterResults] at ih ⊢
          rw [List.map_cons, List.map_cons, List.filter_cons, List.filter_cons]
          simp only [hres.random, ha.random] at ih ⊢
          split
          · exact .cons ⟨hpq.node, hres⟩ ih
          · exact ih

end Graph.Alike

end Gauv
