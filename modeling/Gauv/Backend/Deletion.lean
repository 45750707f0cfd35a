import Gauv.Backend.Rewrite

/-!
# Deleting a node

`eliminateNode` clears the two lists of a node, takes its out-edges from the
in-lists of their outputs and its in-edges from the out-lists of their inputs.
An out-edge with another input stays in the out-list of that input, and what the
counters lose is read off the node alone.  Both are right exactly for the graphs
`Severable` describes.
-/

namespace Gauv

open GraphBase

/-! ## Tables -/

namespace OpTable

/-- Removing several edges, each from the out-lists of its inputs. -/
def eraseEdges (t : OpTable) (es : List Operation) : OpTable :=
  es.foldl (fun t e => t.eraseAll e.inputs e) t

@[simp] theorem length_eraseEdges (t : OpTable) (es : List Operation) :
    (t.eraseEdges es).length = t.length := by
  induction es generalizing t with
  | nil => rfl
  | cons e es ih => rw [eraseEdges, List.foldl_cons, ← eraseEdges, ih, length_eraseAll]

theorem count_eraseEdges {t : OpTable} {es : List Operation} {j : ℕ} (hn : es.Nodup)
    (hid : ∀ x ∈ t.at' j, ∀ e ∈ es, x.id = e.id ↔ x = e) (f : Operation) :
    ((t.eraseEdges es).at' j).count f =
      (t.at' j).count f - if f ∈ es then f.inputCount j else 0 := by
  induction es generalizing t with
  | nil => simp [eraseEdges]
  | cons e es ih =>
      obtain ⟨he, hn⟩ := List.nodup_cons.1 hn
      rw [eraseEdges, List.foldl_cons, ← eraseEdges, ih hn, count_eraseAll]
      · by_cases hfe : f = e
        · subst hfe
          simp [he, Operation.inputCount]
        · simp [hfe]
      · exact fun x hx => hid x hx e (List.mem_cons_self ..)
      · exact fun x hx k hk => hid x (mem_of_mem_eraseAll hx) k (List.mem_cons_of_mem _ hk)

/-- Removing several edges, each from the in-list of its output. -/
def eraseOutputs (t : OpTable) (es : List Operation) : OpTable :=
  es.foldl (fun t e => t.erase e.output.guid e) t

@[simp] theorem length_eraseOutputs (t : OpTable) (es : List Operation) :
    (t.eraseOutputs es).length = t.length := by
  induction es generalizing t with
  | nil => rfl
  | cons e es ih => rw [eraseOutputs, List.foldl_cons, ← eraseOutputs, ih, length_erase]

theorem count_eraseOutputs {t : OpTable} {es : List Operation} {j : ℕ}
    (hid : ∀ x ∈ t.at' j, ∀ e ∈ es, x.id = e.id ↔ x = e) (f : Operation) :
    ((t.eraseOutputs es).at' j).count f =
      (t.at' j).count f - if f.output.guid = j then es.count f else 0 := by
  induction es generalizing t with
  | nil => simp [eraseOutputs]
  | cons e es ih =>
      have hsub : ∀ x ∈ (t.erase e.output.guid e).at' j, x ∈ t.at' j := by
        intro x hx
        rw [at'_erase] at hx
        split at hx
        · exact List.mem_of_mem_eraseP hx
        · exact hx
      rw [eraseOutputs, List.foldl_cons, ← eraseOutputs,
        ih fun x hx k hk => hid x (hsub x hx) k (List.mem_cons_of_mem _ hk), at'_erase]
      by_cases hj : e.output.guid = j
      · have hp : ∀ x ∈ t.at' j, (x.id == e.id) = true ↔ x = e := by
          intro x hx
          rw [beq_iff_eq]
          exact hid x hx e (List.mem_cons_self ..)
        rw [if_pos hj, count_eraseP hp]
        by_cases hf : f = e
        · subst hf
          simp only [hj, if_true, List.count_cons_self]
          omega
        · simp [hf, List.count_cons_of_ne (Ne.symm hf)]
      · rw [if_neg hj]
        by_cases hf : f = e
        · subst hf
          simp [hj]
        · rw [List.count_cons_of_ne (Ne.symm hf)]

end OpTable

namespace Graph

variable {g : Graph} {n : Node}

/-! ## What the deletion leaves in the lists -/

theorem eliminateNode_node? (hn : g.node? n.guid = some n) (i : ℕ) :
    (g.eliminateNode n).node? i = if i = n.guid then none else g.node? i := by
  have hlt : n.guid < g.nodes.length := lt_of_node? hn
  change (g.nodes.set n.guid none).getD i none = _
  rw [getD_set]
  by_cases hi : n.guid = i
  · simp [hi, hi ▸ hlt]
  · simp [hi, Ne.symm hi, GraphBase.node?]

theorem count_eliminateNode_inEdges (hg : g.WellFormed) (hn : g.node? n.guid = some n) (u : ℕ)
    (f : Operation) :
    ((g.eliminateNode n).inEdges u).count f =
      if u = n.guid ∨ f ∈ g.outEdges n.guid then 0 else (g.inEdges u).count f := by
  have hlt : n.guid < g.inEdgesOf.length := hg.inLength ▸ lt_of_node? hn
  have hat : ∀ v, OpTable.at' (g.inEdgesOf.set n.guid []) v =
      if v = n.guid then [] else g.inEdges v := by
    intro v
    rw [OpTable.at'_set]
    by_cases hv : n.guid = v
    · simp [hv, hv ▸ hlt]
    · rw [if_neg (fun hc => hv hc.1), if_neg (Ne.symm hv)]
      rfl
  change ((OpTable.eraseOutputs (g.inEdgesOf.set n.guid []) (g.outEdges n.guid)).at' u).count f = _
  rw [OpTable.count_eraseOutputs, hat]
  · by_cases hu : u = n.guid
    · simp [hu]
    · rw [if_neg hu]
      by_cases hf : f ∈ g.outEdges n.guid
      · rw [if_pos (Or.inr hf)]
        have hpos := List.count_pos_iff.2 hf
        have hc := hg.in_once (Or.inr ⟨_, hf⟩) u
        by_cases hfu : u = f.output.guid
        · rw [if_pos hfu] at hc
          rw [if_pos hfu.symm]
          omega
        · rw [if_neg hfu] at hc
          omega
      · rw [if_neg (not_or.2 ⟨hu, hf⟩), List.count_eq_zero_of_not_mem hf, ite_self, Nat.sub_zero]
  · intro x hx e he
    rw [hat] at hx
    split at hx
    · exact absurd hx List.not_mem_nil
    · exact id_eq_iff hg (hg.mem_outEdges.1 he).1 (Or.inl ⟨u, hx⟩)

/-- The in-lists keep what neither ends nor starts at the node. -/
theorem mem_eliminateNode_inEdges (hg : g.WellFormed) (hn : g.node? n.guid = some n) {u : ℕ}
    {f : Operation} : f ∈ (g.eliminateNode n).inEdges u ↔
      f ∈ g.inEdges u ∧ u ≠ n.guid ∧ f ∉ g.outEdges n.guid := by
  refine List.count_pos_iff.symm.trans ?_
  rw [count_eliminateNode_inEdges hg hn]
  by_cases h : u = n.guid ∨ f ∈ g.outEdges n.guid
  · rw [if_pos h]
    exact ⟨fun hc => absurd hc (lt_irrefl 0), fun hc => absurd h (not_or.2 hc.2)⟩
  · rw [if_neg h, List.count_pos_iff]
    exact ⟨fun hc => ⟨hc, not_or.1 h⟩, fun hc => hc.1⟩

theorem count_eliminateNode_outEdges (hg : g.WellFormed) (hn : g.node? n.guid = some n) (u : ℕ)
    (f : Operation) :
    ((g.eliminateNode n).outEdges u).count f =
      if u = n.guid ∨ f ∈ g.inEdges n.guid then 0 else (g.outEdges u).count f := by
  have hlt : n.guid < g.outEdgesOf.length := hg.outLength ▸ lt_of_node? hn
  have hat : ∀ v, OpTable.at' (g.outEdgesOf.set n.guid []) v =
      if v = n.guid then [] else g.outEdges v := by
    intro v
    rw [OpTable.at'_set]
    by_cases hv : n.guid = v
    · simp [hv, hv ▸ hlt]
    · rw [if_neg (fun hc => hv hc.1), if_neg (Ne.symm hv)]
      rfl
  change ((OpTable.eraseEdges (g.outEdgesOf.set n.guid []) (g.inEdges n.guid)).at' u).count f = _
  rw [OpTable.count_eraseEdges (hg.nodup_inEdges _), hat]
  · by_cases hu : u = n.guid
    · simp [hu]
    · rw [if_neg hu]
      by_cases hf : f ∈ g.inEdges n.guid
      · rw [if_pos (Or.inr hf), if_pos hf, hg.out_count, if_pos (hg.mem_inEdges.1 hf).1,
          Nat.sub_self]
      · rw [if_neg (not_or.2 ⟨hu, hf⟩), if_neg hf, Nat.sub_zero]
  · intro x hx e he
    rw [hat] at hx
    split at hx
    · exact absurd hx List.not_mem_nil
    · exact id_eq_iff hg (hg.mem_inEdges.1 he).1 (Or.inr ⟨u, hx⟩)

/-- The out-lists of the other nodes keep all but the in-edges of the node. -/
theorem mem_eliminateNode_outEdges (hg : g.WellFormed) (hn : g.node? n.guid = some n) {u : ℕ}
    {f : Operation} : f ∈ (g.eliminateNode n).outEdges u ↔
      f ∈ g.outEdges u ∧ u ≠ n.guid ∧ f ∉ g.inEdges n.guid := by
  refine List.count_pos_iff.symm.trans ?_
  rw [count_eliminateNode_outEdges hg hn]
  by_cases h : u = n.guid ∨ f ∈ g.inEdges n.guid
  · rw [if_pos h]
    exact ⟨fun hc => absurd hc (lt_irrefl 0), fun hc => absurd h (not_or.2 hc.2)⟩
  · rw [if_neg h, List.count_pos_iff]
    exact ⟨fun hc => ⟨hc, not_or.1 h⟩, fun hc => hc.1⟩

/-- The node is neither the output nor an input of the edge. -/
def Avoids (n : Node) (e : Operation) : Prop :=
  e.output.guid ≠ n.guid ∧ ∀ m ∈ e.inputs, m.guid ≠ n.guid

/-- The edge is there and avoids the node. -/
theorem hasEdge_eliminateNode (hg : g.WellFormed) (hn : g.node? n.guid = some n) {f : Operation} :
    (g.eliminateNode n).HasEdge f ↔ g.HasEdge f ∧ Avoids n f := by
  rw [HasEdge, mem_eliminateNode_inEdges hg hn, ← HasEdge, hg.mem_outEdges, Avoids]
  refine and_congr_right fun hf => and_congr_right fun _ => ?_
  rw [not_and, not_exists]
  exact ⟨fun h m hm hmn => h hf m ⟨hm, hmn⟩, fun h _ m hm => h m hm.1 hm.2⟩

/-- What is listed after the deletion is an edge of the graph that does not end
at the node. -/
theorem listed_of_eliminateNode (hg : g.WellFormed) (hn : g.node? n.guid = some n)
    {f : Operation} (h : (g.eliminateNode n).Listed f) :
    g.HasEdge f ∧ f.output.guid ≠ n.guid := by
  rcases h with ⟨v, hv⟩ | ⟨u, hu⟩
  · obtain ⟨hv, hvn, -⟩ := (mem_eliminateNode_inEdges hg hn).1 hv
    obtain ⟨hf, rfl⟩ := hg.mem_inEdges.1 hv
    exact ⟨hf, hvn⟩
  · obtain ⟨hu, -, hfn⟩ := (mem_eliminateNode_outEdges hg hn).1 hu
    have hf := (hg.mem_outEdges.1 hu).1
    exact ⟨hf, fun h => hfn (hg.mem_inEdges.2 ⟨hf, h⟩)⟩

/-! ## The tables after the deletion -/

/-- Every edge that leads from the node to another one has no other inputs. -/
def FeedsAlone (g : Graph) (n : Node) : Prop :=
  ∀ e ∈ g.outEdges n.guid, e.output.guid ≠ n.guid → ∀ m ∈ e.inputs, m.guid = n.guid

/-- What stays listed avoids the node. -/
theorem listed_eliminateNode (hg : g.WellFormed) (hn : g.node? n.guid = some n)
    (ha : g.FeedsAlone n) {f : Operation} :
    (g.eliminateNode n).Listed f ↔ g.HasEdge f ∧ Avoids n f := by
  constructor
  · intro h
    obtain ⟨hf, hfn⟩ := listed_of_eliminateNode hg hn h
    refine ⟨hf, hfn, fun m hm hmn => ?_⟩
    have hout : f ∈ g.outEdges n.guid := hg.mem_outEdges.2 ⟨hf, m, hm, hmn⟩
    rcases h with ⟨v, hv⟩ | ⟨u, hu⟩
    · exact ((mem_eliminateNode_inEdges hg hn).1 hv).2.2 hout
    · -- the edge is listed at another of its inputs
      obtain ⟨hu, hun, -⟩ := (mem_eliminateNode_outEdges hg hn).1 hu
      obtain ⟨-, m', hm', rfl⟩ := hg.mem_outEdges.1 hu
      exact hun (ha f hout hfn m' hm')
  · exact fun h => Or.inl ⟨_, (hasEdge_eliminateNode hg hn).2 h⟩

/-- Deleting a node that feeds alone keeps the tables in step. -/
theorem wellFormed_eliminateNode (hg : g.WellFormed) (hn : g.node? n.guid = some n)
    (ha : g.FeedsAlone n) : (g.eliminateNode n).WellFormed where
  inLength := by
    have hsize : (g.eliminateNode n).nodeSize = g.nodeSize := List.length_set ..
    rw [hsize, ← hg.inLength]
    exact (OpTable.length_eraseOutputs _ _).trans (List.length_set ..)
  outLength := by
    have hsize : (g.eliminateNode n).nodeSize = g.nodeSize := List.length_set ..
    rw [hsize, ← hg.outLength]
    exact (OpTable.length_eraseEdges _ _).trans (List.length_set ..)
  guid_eq := by
    intro i m hm
    rw [eliminateNode_node? hn] at hm
    split at hm
    · exact absurd hm (by simp)
    · exact hg.guid_eq hm
  address := fun hf hf' => hg.address (hg.listed_iff.2 (listed_of_eliminateNode hg hn hf).1)
    (hg.listed_iff.2 (listed_of_eliminateNode hg hn hf').1)
  in_once := by
    intro f hf v
    obtain ⟨hfg, hfn, hin⟩ := (listed_eliminateNode hg hn ha).1 hf
    have hout : f ∉ g.outEdges n.guid := fun h => by
      obtain ⟨-, m, hm, hmn⟩ := hg.mem_outEdges.1 h
      exact hin m hm hmn
    rw [count_eliminateNode_inEdges hg hn]
    by_cases hv : v = n.guid
    · rw [if_pos (Or.inl hv), if_neg fun h => hfn (h.symm.trans hv)]
    · rw [if_neg (not_or.2 ⟨hv, hout⟩), hg.in_once (hg.listed_iff.2 hfg)]
  out_count := by
    intro u f
    rw [count_eliminateNode_outEdges hg hn]
    by_cases hf : (g.eliminateNode n).HasEdge f
    · obtain ⟨hfg, hfn, hin⟩ := (hasEdge_eliminateNode hg hn).1 hf
      rw [if_pos hf]
      by_cases hu : u = n.guid
      · rw [if_pos (Or.inl hu), Operation.inputCount, eq_comm, List.count_eq_zero]
        intro hmem
        obtain ⟨m, hm, hmu⟩ := List.mem_map.1 hmem
        exact hin m hm (hmu.trans hu)
      · have hfin : f ∉ g.inEdges n.guid := fun h => hfn (hg.mem_inEdges.1 h).2
        rw [if_neg (not_or.2 ⟨hu, hfin⟩), hg.out_count, if_pos hfg]
    · rw [if_neg hf]
      split
      · rfl
      · rename_i h
        rw [List.count_eq_zero]
        intro hu
        exact hf (((hasEdge_eliminateNode hg hn).2 ((listed_eliminateNode hg hn ha).1
          (Or.inr ⟨u, (mem_eliminateNode_outEdges hg hn).2 ⟨hu, not_or.1 h⟩⟩))))
  live := by
    intro f hf m hm
    obtain ⟨hfg, hfn, hin⟩ := (listed_eliminateNode hg hn ha).1 hf
    rw [eliminateNode_node? hn, if_neg]
    · exact hg.live (hg.listed_iff.2 hfg) m hm
    · rcases List.mem_cons.1 hm with rfl | hm
      · exact hfn
      · exact hin m hm

/-! ## The counters after the deletion -/

/-- The node has in-edges, and `n` is an input of them all. -/
def fedThrough (g : Graph) (n m : Node) : Bool :=
  m.guid != n.guid && g.inDeg m.guid != 0 &&
    (g.inEdges m.guid).all fun e => e.inputs.any fun s => s.guid == n.guid

/-- The number of live nodes with the property that lose their last in-edge. -/
def countFreed (g : Graph) (n : Node) (p : Node → Bool) : ℕ :=
  g.nodes.countP fun o => o.any fun m => g.fedThrough n m && p m

theorem fedThrough_self : g.fedThrough n n = false := by
  simp [fedThrough]

/-- The other nodes without in-edges are those that had none and those that were
fed through the node. -/
theorem inDeg_eliminateNode_eq_zero (hg : g.WellFormed) (hn : g.node? n.guid = some n) {m : Node}
    (hm : m.guid ≠ n.guid) : (g.eliminateNode n).inDeg m.guid = 0 ↔
      g.inDeg m.guid = 0 ∨ g.fedThrough n m = true := by
  have hall : (g.eliminateNode n).inDeg m.guid = 0 ↔
      ∀ e ∈ g.inEdges m.guid, ∃ s ∈ e.inputs, s.guid = n.guid := by
    rw [inDeg, List.length_eq_zero_iff, List.eq_nil_iff_forall_not_mem]
    refine forall_congr' fun e => ?_
    rw [mem_eliminateNode_inEdges hg hn, not_and, hg.mem_outEdges]
    refine imp_congr_right fun he => ?_
    rw [not_and, not_not]
    exact ⟨fun h => (h hm).2, fun h _ => ⟨(hg.mem_inEdges.1 he).1, h⟩⟩
  rw [hall]
  by_cases hdeg : g.inDeg m.guid = 0
  · have hnil : g.inEdges m.guid = [] := List.length_eq_zero_iff.1 hdeg
    simp [hdeg, hnil]
  · simp [fedThrough, hm, hdeg]

/-- The count of a property after the deletion, given what it says of the other
live nodes before. -/
theorem countP_eliminateNode (hg : g.WellFormed) (hn : g.node? n.guid = some n)
    {p q : Node → Bool}
    (h : ∀ m, g.node? m.guid = some m → m.guid ≠ n.guid → q m = p m) :
    ((g.eliminateNode n).nodes.countP (fun o => o.any q) : ℤ) =
      g.nodes.countP (fun o => o.any p) - ofBool (p n) := by
  obtain ⟨hlt, hnode⟩ := node?_eq_some_iff.1 hn
  have hcongr : (g.eliminateNode n).nodes.countP (fun o => o.any q) =
      (g.nodes.set n.guid none).countP fun o => o.any p := by
    refine List.countP_congr fun o ho => ?_
    cases o with
    | none => rfl
    | some m =>
        obtain ⟨j, hj, hm⟩ := List.mem_iff_getElem.1 ho
        have hmj : (g.eliminateNode n).node? j = some m := node?_eq_some_iff.2 ⟨hj, hm⟩
        rw [eliminateNode_node? hn] at hmj
        split at hmj
        · exact absurd hmj (by simp)
        · rename_i hne
          have hgj : m.guid = j := hg.guid_eq hmj
          rw [Option.any_some, Option.any_some, h m (hgj ▸ hmj) (hgj ▸ hne)]
  have hset := List.countP_set (p := fun o : Option Node => o.any p) (a := none) hlt
  rw [hcongr, hset, hnode, Option.any_some, Option.any_none, ofBool]
  have hle : (if p n = true then 1 else 0) ≤ g.nodes.countP fun o => o.any p := by
    split
    · rename_i hpn
      exact List.countP_pos_iff.2 ⟨some n, hnode ▸ List.getElem_mem hlt, hpn⟩
    · exact Nat.zero_le _
  rw [if_neg Bool.false_ne_true, Nat.add_zero, Nat.cast_sub hle]
  split <;> rfl

theorem countRandom_eliminateNode (hg : g.WellFormed) (hn : g.node? n.guid = some n) :
    (g.eliminateNode n).countRandom = g.countRandom - ofBool (g.isRandom n)
      + g.countFreed n fun m => !m.isInput && !m.isOutput := by
  rw [countRandom, countP_eliminateNode hg hn
    (p := fun m => g.isRandom m || (g.fedThrough n m && (!m.isInput && !m.isOutput)))]
  · rw [countRandom, countFreed, fedThrough_self, Bool.false_and, Bool.or_false,
      countP_any_or]
    · push_cast
      ring
    · intro m _ hr
      simp [isRandom] at hr
      simp [fedThrough, hr]
  · intro m _ hm
    have hdeg := inDeg_eliminateNode_eq_zero hg hn hm
    rw [Bool.eq_iff_iff]
    simp only [isRandom, Bool.and_eq_true, Bool.or_eq_true, decide_eq_true_eq, hdeg]
    tauto

theorem countBubble_eliminateNode (hg : g.WellFormed) (hn : g.node? n.guid = some n) :
    (g.eliminateNode n).countBubble g.corruptedParties =
      g.countBubble g.corruptedParties - ofBool (g.isBubble g.corruptedParties n)
        - g.countFreed n fun m => m.isInOut && g.isCorrupted m := by
  set p := fun m => g.isBubble g.corruptedParties m &&
    !(g.fedThrough n m && (m.isInOut && g.isCorrupted m)) with hp
  have hsplit : g.countBubble g.corruptedParties = (g.nodes.countP (fun o => o.any p) : ℤ)
      + g.countFreed n fun m => m.isInOut && g.isCorrupted m := by
    rw [countBubble, countFreed, ← Nat.cast_add, ← countP_any_or]
    · refine congrArg Nat.cast (List.countP_congr fun o _ => ?_)
      cases o with
      | none => rfl
      | some m =>
          have hsub : (g.fedThrough n m && (m.isInOut && g.isCorrupted m)) = true →
              g.isBubble g.corruptedParties m = true := by
            simp only [fedThrough, isBubble, isCorrupted, Bool.and_eq_true, decide_eq_true_eq]
            rintro ⟨⟨⟨-, hdeg⟩, -⟩, hio, hc⟩
            rw [if_pos hc, hio, hdeg]
            rfl
          rw [Option.any_some, Option.any_some]
          simp only [hp]
          revert hsub
          cases g.isBubble g.corruptedParties m <;>
            cases g.fedThrough n m && (m.isInOut && g.isCorrupted m) <;> simp
    · intro m _ hm
      simp only [hp, Bool.and_eq_true, Bool.not_eq_true'] at hm
      exact hm.2
  have hpn : p n = g.isBubble g.corruptedParties n := by
    simp [hp, fedThrough_self]
  rw [countBubble, countP_eliminateNode hg hn (p := p), hpn, hsplit]
  · ring
  · intro m _ hm
    have hdeg := inDeg_eliminateNode_eq_zero hg hn hm
    rw [Bool.eq_iff_iff]
    simp only [hp, isBubble, isCorrupted]
    by_cases hc : m.party ∈ g.corruptedParties
    · simp only [hc, if_true, Bool.and_eq_true, Bool.not_eq_true', bne_iff_ne, ne_eq, hdeg,
        decide_true, Bool.and_true, Bool.and_eq_false_iff]
      cases g.fedThrough n m <;> cases m.isInOut <;> simp
    · simp [hc]

/-! ## When the deletion is complete -/

/-- What deleting a node completely means: the node is gone, exactly the edges
that avoid it are left, each still listed at both ends, and the counters are
those of the remaining graph. -/
structure DeletesCompletely (g : Graph) (n : Node) : Prop where
  node : (g.eliminateNode n).node? n.guid = none
  wellFormed : (g.eliminateNode n).WellFormed
  edges : ∀ e, (g.eliminateNode n).Listed e ↔ g.Listed e ∧ Avoids n e
  ends : ∀ e, (g.eliminateNode n).Listed e → e ∈ (g.eliminateNode n).inEdges e.output.guid ∧
    ∀ m ∈ e.inputs, e ∈ (g.eliminateNode n).outEdges m.guid
  exact : (g.eliminateNode n).Exact

/-- The graphs from which the code deletes a node completely. -/
structure Severable (g : Graph) (n : Node) : Prop where
  alone : g.FeedsAlone n
  /-- As many nodes become random as random nodes are deleted. -/
  random : (g.countFreed n fun m => !m.isInput && !m.isOutput) = if g.isRandom n then 1 else 0
  /-- No corrupted input or output stops being a bubble. -/
  bubble : ∀ m, some m ∈ g.nodes → m.isInOut = true → g.isCorrupted m = true →
    g.fedThrough n m = false
  /-- The node itself is no corrupted bubble. -/
  self : g.isCorrupted n = true → g.isBubble g.corruptedParties n = false

/-- The random node count is left as it is. -/
theorem randomNodeCnt_eliminateNode_iff (hg : g.WellFormed) (hn : g.node? n.guid = some n)
    (hx : g.randomNodeCnt = g.countRandom) :
    (g.eliminateNode n).randomNodeCnt = (g.eliminateNode n).countRandom ↔
      (g.countFreed n fun m => !m.isInput && !m.isOutput) = if g.isRandom n then 1 else 0 := by
  have hcnt : (g.eliminateNode n).randomNodeCnt = g.randomNodeCnt := rfl
  rw [countRandom_eliminateNode hg hn, hcnt, hx, ofBool]
  split <;> omega

/-- The bubble count loses an honest bubble, and nothing else. -/
theorem bubbleCnt_eliminateNode_iff (hg : g.WellFormed) (hn : g.node? n.guid = some n)
    (hx : g.bubbleCnt = g.countBubble g.corruptedParties) :
    (g.eliminateNode n).bubbleCnt = (g.eliminateNode n).countBubble g.corruptedParties ↔
      (∀ m, some m ∈ g.nodes → m.isInOut = true → g.isCorrupted m = true →
        g.fedThrough n m = false) ∧
      (g.isCorrupted n = true → g.isBubble g.corruptedParties n = false) := by
  have hcnt : (g.eliminateNode n).bubbleCnt =
      g.bubbleCnt - ofBool ((n.isInput || n.isOutput) && !g.isCorrupted n) := rfl
  have hself : ofBool (g.isBubble g.corruptedParties n) =
      ofBool ((n.isInput || n.isOutput) && !g.isCorrupted n) +
        ofBool (g.isCorrupted n && g.isBubble g.corruptedParties n) := by
    simp only [isBubble, isCorrupted, Node.isInOut]
    by_cases hc : n.party ∈ g.corruptedParties <;> simp [hc, ofBool]
  have hfreed : (g.countFreed n fun m => m.isInOut && g.isCorrupted m) = 0 ↔
      ∀ m, some m ∈ g.nodes → m.isInOut = true → g.isCorrupted m = true →
        g.fedThrough n m = false := by
    rw [countFreed, List.countP_eq_zero]
    constructor
    · intro h m hm hio hc
      have := h (some m) hm
      simpa [hio, hc] using this
    · intro h o ho
      cases o with
      | none => simp
      | some m =>
          have := h m ho
          cases hio : m.isInOut <;> cases hc : g.isCorrupted m <;> simp_all
  rw [countBubble_eliminateNode hg hn, hcnt, hx, hself, ← hfreed]
  cases hc : g.isCorrupted n <;> cases hb : g.isBubble g.corruptedParties n <;>
    simp [ofBool] <;> omega

/-- **`eliminateNode` deletes a node completely exactly when** the node feeds the
others alone and takes none of the counted nodes with it. -/
theorem deletesCompletely_iff (hg : g.WellFormed) (hx : g.Exact)
    (hn : g.node? n.guid = some n) : g.DeletesCompletely n ↔ g.Severable n := by
  constructor
  · intro h
    obtain ⟨hbubble, hself⟩ := (bubbleCnt_eliminateNode_iff hg hn hx.bubble).1 h.exact.bubble
    refine ⟨fun e he hen m hm => ?_, ?_, hbubble, hself⟩
    · by_contra hmn
      -- the edge is still in the out-list of its other input
      have hlist : (g.eliminateNode n).Listed e := by
        refine Or.inr ⟨m.guid, (mem_eliminateNode_outEdges hg hn).2 ⟨?_, hmn, fun hin => ?_⟩⟩
        · exact hg.mem_outEdges.2 ⟨(hg.mem_outEdges.1 he).1, m, hm, rfl⟩
        · exact hen (hg.mem_inEdges.1 hin).2
      obtain ⟨s, hs, hsn⟩ := (hg.mem_outEdges.1 he).2
      exact ((h.edges e).1 hlist).2.2 s hs hsn
    · exact (randomNodeCnt_eliminateNode_iff hg hn hx.random).1 h.exact.random
  · intro h
    have hwf := wellFormed_eliminateNode hg hn h.alone
    refine ⟨?_, hwf, fun e => ?_, fun e he => ?_, ?_, ?_⟩
    · rw [eliminateNode_node? hn, if_pos rfl]
    · rw [listed_eliminateNode hg hn h.alone, hg.listed_iff]
    · have he := hwf.listed_iff.1 he
      exact ⟨he, fun m hm => hwf.mem_outEdges.2 ⟨he, m, hm, rfl⟩⟩
    · exact (randomNodeCnt_eliminateNode_iff hg hn hx.random).2 h.random
    · exact (bubbleCnt_eliminateNode_iff hg hn hx.bubble).2 ⟨h.bubble, h.self⟩

/-! ### A sum that keeps its other operand -/

/-- A random value, an input and their sum, at party 1. -/
def maskNodes : List Node :=
  [⟨0, "r", 1, .others⟩, ⟨1, "x", 1, .input⟩, ⟨2, "r + x", 1, .others⟩]

/-- The sum of the first two nodes. -/
def maskEdge : Operation :=
  Operation.make 1 0 .add (maskNodes.take 2) ⟨2, "r + x", 1, .others⟩

/-- The graph of the sum, for party 0 corrupted. -/
def masking : Graph := ((GraphBase.bare maskNodes).toGraph 2 1 {0}).addEdges [maskEdge]

theorem wellFormed_masking : masking.WellFormed :=
  wellFormed_linked rfl (by decide) (by decide) (by decide)

theorem exact_masking : masking.Exact := ⟨by decide, by decide⟩

/-- Deleting the random value leaves the addition in the out-list of the input. -/
theorem operand_left_behind : ∃ g : Graph, g.WellFormed ∧ g.Exact ∧
    ∃ n, g.node? n.guid = some n ∧ ¬ g.DeletesCompletely n := by
  refine ⟨masking, wellFormed_masking, exact_masking, ⟨0, "r", 1, .others⟩, by decide, fun h => ?_⟩
  have hlist : (masking.eliminateNode ⟨0, "r", 1, .others⟩).Listed maskEdge :=
    Or.inr ⟨1, by decide⟩
  exact ((h.edges maskEdge).1 hlist).2.2 ⟨0, "r", 1, .others⟩ (by decide) rfl

theorem deletesCompletely_iff_masking :
    masking.DeletesCompletely ⟨2, "r + x", 1, .others⟩ ↔
      masking.Severable ⟨2, "r + x", 1, .others⟩ :=
  deletesCompletely_iff wellFormed_masking exact_masking (by decide)

end Graph

end Gauv
