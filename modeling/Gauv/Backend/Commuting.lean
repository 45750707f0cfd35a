import Gauv.Backend.Reordering

/-!
# Adding and removing edges

Every rewrite is a batch of removals followed by a batch of additions, and its
result is compared with the graphs already seen by two counters and a hash.  The
batches are sets of edges: adding an edge and removing it gives the graph back,
removing one and adding it again only moves the edge to the end of its lists,
and the order within a batch shows in the order of the lists alone.
-/

namespace Gauv

open GraphBase

/-! ## Out-lists -/

namespace OpTable

/-- Appending to the out-lists of the inputs leaves one copy for each
occurrence. -/
theorem at'_pushAll {t : OpTable} {ns : List Node} (hns : ∀ n ∈ ns, n.guid < t.length)
    (e : Operation) (j : ℕ) :
    (t.pushAll ns e).at' j = t.at' j ++ List.replicate ((ns.map Node.guid).count j) e := by
  induction ns generalizing t with
  | nil => simp [pushAll]
  | cons n ns ih =>
      have hns' : ∀ m ∈ ns, m.guid < (t.push n.guid e).length := fun m hm => by
        rw [length_push]
        exact hns m (List.mem_cons_of_mem _ hm)
      rw [pushAll, List.foldl_cons, ← pushAll, ih hns', at'_push (hns n (List.mem_cons_self ..)),
        List.append_assoc, List.map_cons, List.count_cons]
      by_cases hj : n.guid = j
      · rw [if_pos hj, if_pos (beq_iff_eq.2 hj), Nat.add_comm, List.replicate_add]
        rfl
      · rw [if_neg hj, if_neg fun h => hj (beq_iff_eq.1 h), Nat.add_zero, List.nil_append]

/-- Erasing an edge from the out-lists of the inputs takes one of its copies for
each occurrence. -/
theorem at'_eraseAll {t : OpTable} {e : Operation} {j : ℕ} {l : List Operation} (ns : List Node)
    {k : ℕ} (hl : ∀ x ∈ l, x.id ≠ e.id) (hk : (ns.map Node.guid).count j ≤ k)
    (ht : t.at' j = l ++ List.replicate k e) :
    (t.eraseAll ns e).at' j = l ++ List.replicate (k - (ns.map Node.guid).count j) e := by
  induction ns generalizing t k with
  | nil => simpa [eraseAll] using ht
  | cons n ns ih =>
      rw [eraseAll, List.foldl_cons, ← eraseAll]
      rw [List.map_cons, List.count_cons] at hk ⊢
      by_cases hj : n.guid = j
      · rw [if_pos (beq_iff_eq.2 hj)] at hk ⊢
        obtain ⟨k, rfl⟩ : ∃ k', k = k' + 1 := ⟨k - 1, by omega⟩
        have hstep : (t.erase n.guid e).at' j = l ++ List.replicate k e := by
          rw [at'_erase, if_pos hj, ht, List.replicate_succ]
          rw [List.eraseP_append_right _ fun x hx => by simpa using hl x hx,
            List.eraseP_cons_of_pos (by simp)]
        rw [ih (by omega) hstep, Nat.add_sub_add_right]
      · rw [if_neg fun h => hj (beq_iff_eq.1 h), Nat.add_zero] at hk ⊢
        exact ih hk (by rw [at'_erase, if_neg hj, ht])

/-- Tables of one length with the same entries are equal. -/
theorem ext_at' {t t' : OpTable} (hlen : t'.length = t.length) (h : ∀ j, t'.at' j = t.at' j) :
    t' = t := by
  refine List.ext_getElem hlen fun j hj hj' => ?_
  have := h j
  rwa [at', at', List.getD_eq_getElem _ _ hj, List.getD_eq_getElem _ _ hj'] at this

end OpTable

namespace Graph

variable {g h k : Graph} {e : Operation} {es es' : List Operation}

/-! ## Adding an edge and removing it -/

/-- A graph is its frame, its tables and its counters. -/
theorem eq_of_sameFrame (hf : g.SameFrame h) (hi : h.inEdgesOf = g.inEdgesOf)
    (ho : h.outEdgesOf = g.outEdgesOf) (hr : h.randomNodeCnt = g.randomNodeCnt)
    (hb : h.bubbleCnt = g.bubbleCnt) : h = g := by
  obtain ⟨hn, hp, hT, hC⟩ := hf
  cases g with
  | mk g _ _ _ _ _ =>
      cases h with
      | mk h _ _ _ _ _ =>
          cases g with
          | mk _ _ _ =>
              cases h with
              | mk _ _ _ => simp_all

/-- **An edge added and removed again leaves no trace.** -/
theorem eliminateEdge_addEdge (hg : g.WellFormed) (ha : g.Addable e) :
    (g.addEdge e).eliminateEdge e = g := by
  have hfresh : ∀ j, ∀ x ∈ g.inEdges j ++ g.outEdges j, x.id ≠ e.id := by
    intro j x hx
    refine ha.fresh x (hg.listed_iff.1 ?_)
    rcases List.mem_append.1 hx with h | h
    · exact Or.inl ⟨j, h⟩
    · exact Or.inr ⟨j, h⟩
  have hins : ∀ j, ((g.addEdge e).eliminateEdge e).inEdges j = g.inEdges j := by
    intro j
    rw [eliminateEdge_inEdges, addEdge_inEdges hg ha]
    by_cases hj : e.output.guid = j
    · rw [if_pos hj, if_pos hj, List.eraseP_append_right, List.eraseP_cons_of_pos (by simp),
        List.append_nil]
      intro x hx
      simpa using hfresh j x (List.mem_append_left _ hx)
    · rw [if_neg hj, if_neg hj, List.append_nil]
  have houts : ∀ j, ((g.addEdge e).eliminateEdge e).outEdges j = g.outEdges j := by
    intro j
    have hpush : (g.addEdge e).outEdges j = _ := OpTable.at'_pushAll (fun n hn => by
      rw [hg.outLength]
      exact lt_of_node? (ha.live n (List.mem_cons_of_mem _ hn))) e j
    rw [eliminateEdge_outEdges, OpTable.at'_eraseAll e.inputs
      (fun x hx => hfresh j x (List.mem_append_right _ hx)) le_rfl hpush, Nat.sub_self,
      List.replicate_zero, List.append_nil]
  -- each counter moves there and back by the same condition on the in-degree
  have hdeg : decide ((g.addEdge e).inDeg e.output.guid = 1) =
      decide (g.inDeg e.output.guid = 0) := by
    rw [inDeg_addEdge hg ha, if_pos rfl]
    exact decide_eq_decide.2 (by omega)
  refine eq_of_sameFrame ⟨rfl, rfl, rfl, rfl⟩ (OpTable.ext_at' ?_ hins) (OpTable.ext_at' ?_ houts)
    ?_ ?_
  · simp [eliminateEdge, addEdge]
  · change ((g.outEdgesOf.pushAll e.inputs e).eraseAll e.inputs e).length = _
    rw [OpTable.length_eraseAll, OpTable.length_pushAll]
  · rw [eliminateEdge, hdeg]
    exact sub_add_cancel _ _
  · rw [eliminateEdge, hdeg]
    exact add_sub_cancel_right _ _

/-! ## Equal up to the order of the lists -/

/-- The graphs have the same nodes, counters and hash, and the same lists up to
order.  The hash is that of a single thread. -/
structure Rearranged (g h : Graph) : Prop where
  frame : g.SameFrame h
  random : h.randomNodeCnt = g.randomNodeCnt
  bubble : h.bubbleCnt = g.bubbleCnt
  hash : GraphBase.generateHash 1 h.inEdgesOf = GraphBase.generateHash 1 g.inEdgesOf
  ins : ∀ v, (h.inEdges v).Perm (g.inEdges v)
  outs : ∀ u, (h.outEdges u).Perm (g.outEdges u)

theorem xor_hash_perm {l l' : List Operation} (hp : l'.Perm l) (r : UInt64) :
    l'.foldl (fun r e => r ^^^ e.hash) r = l.foldl (fun r e => r ^^^ e.hash) r :=
  hp.foldl_eq' (fun a _ b _ r => by
    rw [UInt64.xor_assoc, UInt64.xor_comm a.hash, UInt64.xor_assoc]) r

/-- The hash reads each in-list as a set. -/
theorem generateHash_perm {team : ℕ} {t t' : OpTable} (hp : List.Forall₂ List.Perm t' t) :
    GraphBase.generateHash team t' = GraphBase.generateHash team t := by
  rw [GraphBase.generateHash, GraphBase.generateHash]
  have hfold : ∀ f : UInt64 → List Operation → UInt64,
      (∀ r l l', l'.Perm l → f r l' = f r l) → ∀ r, t'.foldl f r = t.foldl f r := by
    intro f hf
    induction hp with
    | nil => exact fun _ => rfl
    | @cons l' l t' t hl _ ih =>
        intro r
        rw [List.foldl_cons, List.foldl_cons, hf r l l' hl, ih]
  exact hfold _ (fun r l l' hl => by simp only [xor_hash_perm hl]) 0

theorem forall₂_perm_of_inEdges (hg : g.WellFormed) (hh : h.WellFormed) (hf : g.SameFrame h)
    (hi : ∀ v, (h.inEdges v).Perm (g.inEdges v)) :
    List.Forall₂ List.Perm h.inEdgesOf g.inEdgesOf := by
  refine List.forall₂_iff_get.2 ⟨by rw [hh.inLength, hg.inLength, hf.nodeSize], ?_⟩
  intro v hv hv'
  have := hi v
  rwa [inEdges, inEdges, OpTable.at', OpTable.at', List.getD_eq_getElem _ _ hv,
    List.getD_eq_getElem _ _ hv'] at this

theorem hasEdge_of_perm (hi : ∀ v, (h.inEdges v).Perm (g.inEdges v)) (e : Operation) :
    h.HasEdge e ↔ g.HasEdge e := (hi e.output.guid).mem_iff

/-- Two graphs made from one, with the same edges up to order, have the same
counters, hash and out-lists. -/
theorem rearranged_of_drift (hg : g.WellFormed) (hh : h.WellFormed) (hf : g.SameFrame h)
    (hkg : Drift k g) (hkh : Drift k h) (hi : ∀ v, (h.inEdges v).Perm (g.inEdges v)) :
    g.Rearranged h := by
  have hdeg : ∀ v, h.inDeg v = g.inDeg v := fun v => (hi v).length_eq
  have hrandom : h.countRandom = g.countRandom := countRandom_of_inDeg hf hdeg
  have hbubble := countBubble_of_inDeg hf hdeg k.corruptedParties
  exact
    { frame := hf
      random := by linarith [hkg.random, hkh.random]
      bubble := by linarith [hkg.bubble, hkh.bubble]
      hash := generateHash_perm (forall₂_perm_of_inEdges hg hh hf hi)
      ins := hi
      outs := fun u => by
        rw [List.perm_iff_count]
        intro e
        rw [hh.out_count, hg.out_count]
        simp only [hasEdge_of_perm hi] }

/-! ## Removing an edge and adding it -/

/-- An edge that stands in the graph may be added once it is removed. -/
theorem addable_eliminateEdge (hg : g.WellFormed) (he : g.HasEdge e) :
    (g.eliminateEdge e).Addable e where
  fresh := by
    intro f hf hid
    obtain ⟨hf, hne⟩ := (hasEdge_eliminateEdge hg he).1 hf
    exact hne ((id_eq_iff hg he (hg.listed_iff.2 hf)).1 hid)
  live := hg.live (hg.listed_iff.2 he)

/-- **An edge removed and added again** only moves to the end of its lists. -/
theorem addEdge_eliminateEdge (hg : g.WellFormed) (he : g.HasEdge e) :
    g.Rearranged ((g.eliminateEdge e).addEdge e) := by
  have hw := wellFormed_eliminateEdge hg he
  have ha := addable_eliminateEdge hg he
  have hdrift : Drift g ((g.eliminateEdge e).addEdge e) :=
    (drift_eliminateEdge hg he).trans (drift_addEdge hw ha) rfl
  refine rearranged_of_drift hg (wellFormed_addEdge hw ha) ⟨rfl, rfl, rfl, rfl⟩ (.refl g) hdrift
    fun v => ?_
  rw [addEdge_inEdges hw ha, eliminateEdge_inEdges]
  by_cases hv : e.output.guid = v
  · have hmem : e ∈ g.inEdges v := hv ▸ he
    have herase : (g.inEdges v).eraseP (fun x => x.id == e.id) = (g.inEdges v).erase e :=
      eraseP_eq_erase fun x hx => by simpa using id_eq_iff hg he (Or.inl ⟨v, hx⟩)
    rw [if_pos hv, if_pos hv, herase]
    exact (List.perm_append_singleton ..).trans (List.perm_cons_erase hmem).symm
  · rw [if_neg hv, if_neg hv, List.append_nil]

/-! ## The order within a batch -/

/-- **Removing a batch in another order** leaves the same in-lists, and the
out-lists up to order. -/
theorem eliminateEdges_perm (hg : g.WellFormed) (hr : g.Removable es) (hp : es'.Perm es) :
    (g.eliminateEdges es).Rearranged (g.eliminateEdges es') := by
  have hr' := hr.of_perm hp
  refine rearranged_of_drift (wellFormed_eliminateEdges hg hr) (wellFormed_eliminateEdges hg hr')
    ((sameFrame_eliminateEdges g es).symm.trans (sameFrame_eliminateEdges g es'))
    (drift_eliminateEdges hg hr) (drift_eliminateEdges hg hr') fun v => ?_
  rw [inEdges_eliminateEdges hg hr, inEdges_eliminateEdges hg hr']
  simp only [hp.mem_iff]
  rfl

/-- **Adding a batch in another order** gives the same lists up to order. -/
theorem addEdges_perm (hg : g.WellFormed) (ha : g.AddableAll es) (hp : es'.Perm es) :
    (g.addEdges es).Rearranged (g.addEdges es') := by
  have ha' := ha.of_perm hp
  refine rearranged_of_drift (wellFormed_addEdges hg ha) (wellFormed_addEdges hg ha')
    ((sameFrame_addEdges g es).symm.trans (sameFrame_addEdges g es'))
    (drift_addEdges hg ha) (drift_addEdges hg ha') fun v => ?_
  rw [inEdges_addEdges hg ha, inEdges_addEdges hg ha']
  exact (hp.filter _).append_left _

/-- **Additions and removals of edges** undo each other and may be done in any
order. -/
theorem edges_inverse_and_commute (hg : g.WellFormed) :
    (∀ e, g.Addable e → (g.addEdge e).eliminateEdge e = g) ∧
      (∀ e, g.HasEdge e → g.Rearranged ((g.eliminateEdge e).addEdge e)) ∧
      (∀ es es', g.Removable es → es'.Perm es →
        (g.eliminateEdges es).Rearranged (g.eliminateEdges es')) ∧
      ∀ es es', g.AddableAll es → es'.Perm es →
        (g.addEdges es).Rearranged (g.addEdges es') :=
  ⟨fun _ ha => eliminateEdge_addEdge hg ha, fun _ he => addEdge_eliminateEdge hg he,
    fun _ _ hr hp => eliminateEdges_perm hg hr hp, fun _ _ ha hp => addEdges_perm hg ha hp⟩

/-! ### A sum that reads itself -/

/-- An input and a sum at party 1. -/
def loopNodes : List Node := [⟨0, "x", 1, .input⟩, ⟨1, "y", 1, .others⟩]

/-- The sum of the given nodes, stored in the second node. -/
def loopEdge (id : ℕ) (inputs : List ℕ) : Operation :=
  Operation.make 1 id .add (inputs.filterMap fun i => loopNodes[i]?) ⟨1, "y", 1, .others⟩

/-- `y` computed as `x + x` and as `x + y`. -/
def looped : Graph :=
  ((GraphBase.bare loopNodes).toGraph 2 1 {0}).addEdges [loopEdge 0 [0, 0], loopEdge 1 [0, 1]]

theorem hasEdge_looped {f : Operation} :
    looped.HasEdge f ↔ f ∈ [loopEdge 0 [0, 0], loopEdge 1 [0, 1]] :=
  hasEdge_linked rfl (by decide) (by decide) (by decide)

theorem addable_looped {id : ℕ} (hid : 2 ≤ id) {inputs : List ℕ}
    (hi : ∀ n ∈ inputs.filterMap (fun i => loopNodes[i]?), looped.node? n.guid = some n) :
    looped.Addable (loopEdge id inputs) where
  fresh := by
    intro f hf
    have hlt : ∀ f ∈ [loopEdge 0 [0, 0], loopEdge 1 [0, 1]], f.id < 2 := by decide
    exact (lt_of_lt_of_le (hlt f (hasEdge_looped.1 hf)) hid).ne
  live := fun n hn => (List.mem_cons.1 hn).elim (fun h => h ▸ rfl) fun h => hi n h

theorem edges_inverse_and_commute_looped :
    (looped.addEdge (loopEdge 2 [1, 0, 1])).eliminateEdge (loopEdge 2 [1, 0, 1]) = looped ∧
      looped.Rearranged ((looped.eliminateEdge (loopEdge 0 [0, 0])).addEdge (loopEdge 0 [0, 0])) ∧
      (looped.eliminateEdges [loopEdge 0 [0, 0], loopEdge 1 [0, 1]]).Rearranged
        (looped.eliminateEdges [loopEdge 1 [0, 1], loopEdge 0 [0, 0]]) ∧
      (looped.addEdges [loopEdge 2 [1, 1], loopEdge 3 [0]]).Rearranged
        (looped.addEdges [loopEdge 3 [0], loopEdge 2 [1, 1]]) := by
  have hlooped : looped.WellFormed := wellFormed_linked rfl (by decide) (by decide) (by decide)
  obtain ⟨hadd, hremove, hremoves, hadds⟩ := edges_inverse_and_commute hlooped
  refine ⟨hadd _ (addable_looped (by decide) (by decide)), hremove _ (by decide),
    hremoves _ _ ⟨by decide, by decide⟩ (.swap ..), hadds _ _ ⟨by decide, ?_⟩ (.swap ..)⟩
  simp only [List.forall_mem_cons]
  exact ⟨addable_looped (by decide) (by decide), addable_looped (by decide) (by decide), by simp⟩

end Graph

end Gauv
