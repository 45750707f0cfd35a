import Gauv.Backend.Termination
import Gauv.Backend.Verdict

/-!
# A graph without one of its nodes

A graph with a node left out has one index less, so the nodes behind it move up.
`LeftOut` compares the two by their in-lists; the addresses and hashes of the
operations are each graph's own.  Where the node is honest and feeds nothing,
the two agree on the bubbles up to the node itself, on the reachability term of
the potential, and on the verdict of the tail phase.
-/

namespace Gauv

open GraphBase Relation

/-! ## Skipping an index -/

/-- Where the element at index `i` of a list stood before the one at `v` was left
out. -/
def skip (v i : ℕ) : ℕ := if i < v then i else i + 1

/-- Different elements stood at different indices. -/
theorem skip_injective (v : ℕ) : Function.Injective (skip v) := by
  intro i j h
  simp only [skip] at h
  split at h <;> split at h <;> omega

theorem skip_ne (v i : ℕ) : skip v i ≠ v := by
  rw [skip]
  split <;> omega

/-- Every index but the one left out is met. -/
theorem exists_skip {v j : ℕ} (h : j ≠ v) : ∃ i, skip v i = j := by
  rcases Nat.lt_or_gt_of_ne h with hlt | hgt
  · exact ⟨j, if_pos hlt⟩
  · refine ⟨j - 1, ?_⟩
    rw [skip, if_neg (by omega)]
    omega

theorem skip_lt_succ_iff {v n : ℕ} (hv : v ≤ n) (i : ℕ) : skip v i < n + 1 ↔ i < n := by
  rw [skip]
  split <;> omega

/-- All indices but one, in order. -/
theorem filter_range_succ {v n : ℕ} (hv : v ≤ n) :
    (List.range (n + 1)).filter (fun j => j ≠ v) = (List.range n).map (skip v) := by
  have hmono : StrictMono (skip v) := by
    intro i j hij
    simp only [skip]
    split <;> split <;> omega
  refine List.Pairwise.eq_of_mem_iff (List.pairwise_lt_range.filter _)
    (List.pairwise_map.2 (List.pairwise_lt_range.imp fun {i j} hij => hmono hij)) fun j => ?_
  rw [List.mem_filter, List.mem_range, List.mem_map, decide_eq_true_eq]
  constructor
  · rintro ⟨hj, hne⟩
    obtain ⟨i, rfl⟩ := exists_skip hne
    exact ⟨i, List.mem_range.2 ((skip_lt_succ_iff hv i).1 hj), rfl⟩
  · rintro ⟨i, hi, rfl⟩
    exact ⟨(skip_lt_succ_iff hv i).2 (List.mem_range.1 hi), skip_ne v i⟩

/-- All indices, the one first. -/
theorem range_succ_perm {v n : ℕ} (hv : v ≤ n) :
    (List.range (n + 1)).Perm (v :: (List.range n).map (skip v)) := by
  rw [← filter_range_succ hv]
  have herase : (List.range (n + 1)).erase v = (List.range (n + 1)).filter fun j => j ≠ v := by
    rw [List.nodup_range.erase_eq_filter]
    exact List.filter_congr fun j _ => by rw [Bool.eq_iff_iff]; simp
  rw [← herase]
  exact List.perm_cons_erase (List.mem_range.2 (by omega))

/-- Counting with and without an index. -/
theorem ncard_skip (v : ℕ) {P : ℕ → Prop} [DecidablePred P] (hfin : {j | P j}.Finite) :
    {j | P j}.ncard = {i | P (skip v i)}.ncard + if P v then 1 else 0 := by
  have himage : skip v '' {i | P (skip v i)} = {j | P j} \ {v} := by
    ext j
    constructor
    · rintro ⟨i, hi, rfl⟩
      exact ⟨hi, skip_ne v i⟩
    · rintro ⟨hj, hne⟩
      obtain ⟨i, rfl⟩ := exists_skip hne
      exact ⟨i, hj, rfl⟩
  have hcard := Set.ncard_image_of_injective {i | P (skip v i)} (skip_injective v)
  rw [← hcard, himage]
  split
  · rename_i hv
    exact (Set.ncard_sdiff_singleton_add_one hv hfin).symm
  · rename_i hv
    have hself : {j | P j} \ {v} = {j | P j} := Set.sdiff_singleton_eq_self hv
    rw [hself, Nat.add_zero]

/-! ## Leaving a node out -/

/-- `f` is the edge `e` when index `v` is skipped; the inputs of an EVAL may stand
in another order. -/
structure SameEdge (v : ℕ) (e f : Operation) : Prop where
  type : f.type = e.type
  output : skip v f.output.guid = e.output.guid
  bag : (f.inputs.map fun n => skip v n.guid).Perm (e.inputs.map Node.guid)
  inputs : e.type ≠ .eval → f.inputs.map (fun n => skip v n.guid) = e.inputs.map Node.guid

/-- `h` is `g` without the node at index `v`, which feeds nothing, and without its
in-edges. -/
structure LeftOut (v : ℕ) (g h : Graph) : Prop where
  nodes : ∀ i, h.node? i = (g.node? (skip v i)).map fun n => { n with guid := i }
  inEdges : ∀ i, List.Forall₂ (SameEdge v) (g.inEdges (skip v i)) (h.inEdges i)
  outEdges : g.outEdges v = []
  nodeSize : g.nodeSize = h.nodeSize + 1
  partyCnt : h.partyCnt = g.partyCnt
  T : h.T = g.T
  corrupted : h.corruptedParties = g.corruptedParties

instance (v : ℕ) (e f : Operation) : Decidable (SameEdge v e f) :=
  decidable_of_iff (f.type = e.type ∧ skip v f.output.guid = e.output.guid ∧
      (f.inputs.map fun n => skip v n.guid).Perm (e.inputs.map Node.guid) ∧
      (e.type ≠ .eval → f.inputs.map (fun n => skip v n.guid) = e.inputs.map Node.guid))
    ⟨fun h => ⟨h.1, h.2.1, h.2.2.1, h.2.2.2⟩, fun h => ⟨h.type, h.output, h.bag, h.inputs⟩⟩

namespace LeftOut

variable {v : ℕ} {g h : Graph}

/-- Beyond all lists there is nothing to compare. -/
theorem iff_forall_lt {k : ℕ} (hg : g.nodeSize ≤ k ∧ g.inEdgesOf.length ≤ k)
    (hh : h.nodeSize ≤ k ∧ h.inEdgesOf.length ≤ k) : LeftOut v g h ↔
      (∀ i < k, h.node? i = (g.node? (skip v i)).map fun n => { n with guid := i }) ∧
      (∀ i < k, List.Forall₂ (SameEdge v) (g.inEdges (skip v i)) (h.inEdges i)) ∧
      g.outEdges v = [] ∧ g.nodeSize = h.nodeSize + 1 ∧ h.partyCnt = g.partyCnt ∧ h.T = g.T ∧
      h.corruptedParties = g.corruptedParties := by
  have hskip : ∀ i, i ≤ skip v i := by
    intro i
    rw [skip]
    split <;> omega
  have hnode : ∀ {f : Graph} {i : ℕ}, f.nodeSize ≤ i → f.node? i = none := fun {f i} hi => by
    rw [node?, List.getD_eq_default _ _ hi]
  constructor
  · rintro ⟨hn, hi, ho, hs, hp, hT, hc⟩
    exact ⟨fun i _ => hn i, fun i _ => hi i, ho, hs, hp, hT, hc⟩
  · rintro ⟨hn, hi, ho, hs, hp, hT, hc⟩
    refine ⟨fun i => ?_, fun i => ?_, ho, hs, hp, hT, hc⟩
    · by_cases hik : i < k
      · exact hn i hik
      · have := hskip i
        rw [hnode (by omega), hnode (by omega)]
        rfl
    · by_cases hik : i < k
      · exact hi i hik
      · have := hskip i
        rw [GraphBase.inEdges, GraphBase.inEdges, OpTable.at'_of_le (by omega),
          OpTable.at'_of_le (by omega)]
        exact .nil

instance : Decidable (LeftOut v g h) :=
  decidable_of_iff _ (iff_forall_lt (v := v)
    (k := g.nodeSize + g.inEdgesOf.length + h.nodeSize + h.inEdgesOf.length)
    ⟨by omega, by omega⟩ ⟨by omega, by omega⟩).symm

/-- Each node keeps its in-degree. -/
theorem inDeg (hl : LeftOut v g h) (i : ℕ) : h.inDeg i = g.inDeg (skip v i) :=
  (hl.inEdges i).length_eq.symm

theorem isCorrupted (hl : LeftOut v g h) (n : Node) (i : ℕ) :
    h.isCorrupted { n with guid := i } = g.isCorrupted n := by
  rw [Graph.isCorrupted, Graph.isCorrupted, hl.corrupted]

/-- A test of the nodes that agrees on the counterparts. -/
theorem any_node? (hl : LeftOut v g h) (hg : g.WellFormed) {p q : Node → Bool}
    (hpq : ∀ (i : ℕ) (n : Node), n.guid = skip v i → q { n with guid := i } = p n) (i : ℕ) :
    (h.node? i).any q = (g.node? (skip v i)).any p := by
  rw [hl.nodes, Option.any_map]
  cases hn : g.node? (skip v i) with
  | none => rfl
  | some n => exact hpq i n (hg.guid_eq hn)

/-- A node is a bubble where its counterpart is. -/
theorem isBubble (hl : LeftOut v g h) (C : Finset PartyDecl) {i : ℕ} {n : Node}
    (hn : n.guid = skip v i) : h.isBubble C { n with guid := i } = g.isBubble C n := by
  rw [GraphBase.isBubble, GraphBase.isBubble, hl.inDeg, hn]
  rfl

/-- A node is random where its counterpart is. -/
theorem isRandom (hl : LeftOut v g h) {i : ℕ} {n : Node} (hn : n.guid = skip v i) :
    h.isRandom { n with guid := i } = g.isRandom n := by
  rw [GraphBase.isRandom, GraphBase.isRandom, hl.inDeg, hn]
  rfl

/-- The node itself is all that the counts of random nodes differ by. -/
theorem randomNodeCnt (hl : LeftOut v g h) (hg : g.WellFormed) (hx : g.Exact) (hx' : h.Exact) :
    g.randomNodeCnt = h.randomNodeCnt + if (g.node? v).any g.isRandom then 1 else 0 := by
  rw [hx.random, hx'.random, GraphBase.countRandom, GraphBase.countRandom, countP_nodes,
    countP_nodes, ncard_skip v (g.finite_any_node? _)]
  simp only [← hl.any_node? hg fun i n hn => hl.isRandom hn]
  push_cast
  rfl

end LeftOut

/-! ## Bubbles -/

namespace LeftOut

variable {v : ℕ} {g h : Graph}

/-- The node itself is all that the bubble counts differ by. -/
theorem countBubble (hl : LeftOut v g h) (hg : g.WellFormed) (C : Finset PartyDecl) :
    g.countBubble C = h.countBubble C + if (g.node? v).any (g.isBubble C) then 1 else 0 := by
  rw [GraphBase.countBubble, GraphBase.countBubble, countP_nodes, countP_nodes,
    ncard_skip v (g.finite_any_node? _)]
  simp only [← hl.any_node? hg fun i n hn => hl.isBubble C hn]
  push_cast
  rfl

/-- So do the counters, which are exact. -/
theorem bubbleCnt (hl : LeftOut v g h) (hg : g.WellFormed) (hx : g.Exact) (hx' : h.Exact) :
    g.bubbleCnt = h.bubbleCnt +
      if (g.node? v).any (g.isBubble g.corruptedParties) then 1 else 0 := by
  rw [hx.bubble, hx'.bubble, hl.corrupted, hl.countBubble hg]

/-- A bubble of the smaller graph is one of the larger. -/
theorem hasBubble (hl : LeftOut v g h) (hg : g.WellFormed) (hx : g.Exact) (hx' : h.Exact)
    (hb : h.hasBubble = true) : g.hasBubble = true := by
  rw [Graph.hasBubble, decide_eq_true_iff] at hb ⊢
  rw [hl.bubbleCnt hg hx hx']
  split <;> omega

/-! ## The reachability term -/

/-- A node is honest where its counterpart is. -/
theorem isHonest (hl : LeftOut v g h) (hg : g.WellFormed) (i : ℕ) :
    h.isHonest i = g.isHonest (skip v i) :=
  hl.any_node? hg (fun i n _ => by rw [hl.isCorrupted]) i

/-- Each node is computed from the counterparts of its operands. -/
theorem mem_operands (hl : LeftOut v g h) {i j : ℕ} :
    j ∈ h.operands i ↔ skip v j ∈ g.operands (skip v i) := by
  have hbag : ∀ {e f : Operation}, SameEdge v e f →
      (j ∈ f.inputs.map Node.guid ↔ skip v j ∈ e.inputs.map Node.guid) := by
    intro e f hef
    rw [← hef.bag.mem_iff, ← List.mem_map_of_injective (skip_injective v), List.map_map]
    rfl
  rw [Graph.operands, Graph.operands, List.mem_flatMap, List.mem_flatMap]
  constructor
  · rintro ⟨f, hf, hj⟩
    obtain ⟨e, he, hef⟩ := exists_of_mem_right (hl.inEdges i) hf
    exact ⟨e, he, (hbag hef).1 hj⟩
  · rintro ⟨e, he, hj⟩
    obtain ⟨f, hf, hef⟩ := exists_of_mem_left (hl.inEdges i) he
    exact ⟨f, hf, (hbag hef).2 hj⟩

/-- No edge reads the node. -/
theorem notMem_operands (hl : LeftOut v g h) (hg : g.WellFormed) (i : ℕ) : v ∉ g.operands i := by
  intro hv
  obtain ⟨e, he, hv⟩ := List.mem_flatMap.1 hv
  obtain ⟨n, hn, hnv⟩ := List.mem_map.1 hv
  have : e ∈ g.outEdges v := hg.mem_outEdges.2 ⟨(hg.mem_inEdges.1 he).1, n, hn, hnv⟩
  rw [hl.outEdges] at this
  exact List.not_mem_nil this

/-- The search starts at corresponding nodes. -/
theorem mem_corruptedNodes (hl : LeftOut v g h) (hg : g.WellFormed) (i : ℕ) :
    i ∈ h.corruptedNodes ↔ skip v i ∈ g.corruptedNodes := by
  have hmem : ∀ (k : Graph) (i : ℕ),
      i ∈ k.corruptedNodes ↔ (k.node? i).any (fun n => k.isCorrupted n) = true := by
    intro k i
    rw [Graph.corruptedNodes, List.mem_filter, List.mem_range]
    refine ⟨fun hi => hi.2, fun hi => ⟨?_, hi⟩⟩
    obtain ⟨n, hn, -⟩ := (Option.any_eq_true _ _).1 hi
    exact lt_of_node? hn
  rw [hmem, hmem, hl.any_node? hg (p := fun n => g.isCorrupted n) fun i n _ => hl.isCorrupted n i]

theorem notMem_corruptedNodes (hv : g.isHonest v = true) : v ∉ g.corruptedNodes := by
  intro hc
  obtain ⟨n, hn, hh⟩ := (Option.any_eq_true _ _).1 hv
  obtain ⟨m, hm, hcm⟩ := (Option.any_eq_true _ _).1 (List.mem_filter.1 hc).2
  rw [hn, Option.some.injEq] at hm
  subst hm
  rw [hcm] at hh
  exact absurd hh (by decide)

/-- A search backwards does not come by the node. -/
theorem not_reached (hl : LeftOut v g h) (hg : g.WellFormed) (hv : g.isHonest v = true) :
    ¬ Worklist.Reached g.operands g.corruptedNodes v := by
  rintro ⟨s, hs, hsv⟩
  rcases hsv.cases_tail with rfl | ⟨i, -, hi⟩
  · exact notMem_corruptedNodes hv hs
  · exact hl.notMem_operands hg i hi

/-- A search backwards reaches corresponding nodes. -/
theorem reached_iff (hl : LeftOut v g h) (hg : g.WellFormed) (hv : g.isHonest v = true) (i : ℕ) :
    Worklist.Reached h.operands h.corruptedNodes i ↔
      Worklist.Reached g.operands g.corruptedNodes (skip v i) := by
  constructor
  · rintro ⟨s, hs, hsi⟩
    refine ⟨skip v s, (hl.mem_corruptedNodes hg s).1 hs, ?_⟩
    exact hsi.lift (skip v) fun a b hab => hl.mem_operands.1 hab
  · rintro ⟨s, hs, hsi⟩
    have hsv : s ≠ v := fun hsv => notMem_corruptedNodes hv (hsv ▸ hs)
    obtain ⟨s, rfl⟩ := exists_skip hsv
    -- each node on the way has a counterpart
    have hback : ∀ j, ReflTransGen (fun a b => b ∈ g.operands a) (skip v s) j →
        ∃ i, skip v i = j ∧ ReflTransGen (fun a b => b ∈ h.operands a) s i := by
      intro j hj
      induction hj with
      | refl => exact ⟨s, rfl, .refl⟩
      | @tail b c _ hbc ih =>
          obtain ⟨b, rfl, hsb⟩ := ih
          have hcv : c ≠ v := fun hcv => hl.notMem_operands hg _ (hcv ▸ hbc)
          obtain ⟨c, rfl⟩ := exists_skip hcv
          exact ⟨c, rfl, hsb.tail (hl.mem_operands.2 hbc)⟩
    obtain ⟨j, hji, hsj⟩ := hback _ hsi
    rw [skip_injective v hji] at hsj
    exact ⟨s, (hl.mem_corruptedNodes hg s).2 hs, hsj⟩

/-- **The reachability terms are equal.** -/
theorem numReachableNodes (hl : LeftOut v g h) (hg : g.WellFormed) (hv : g.isHonest v = true) :
    h.numReachableNodes = g.numReachableNodes := by
  classical
  have hfin : {j | g.isHonest j = true ∧
      Worklist.Reached g.operands g.corruptedNodes j}.Finite :=
    (g.finite_any_node? _).subset fun j hj => hj.1
  rw [Graph.numReachableNodes_eq, Graph.numReachableNodes_eq, ncard_skip v hfin,
    if_neg fun hr => hl.not_reached hg hv hr.2]
  simp only [hl.isHonest hg, hl.reached_iff hg hv, Nat.add_zero]

/-- An honest node is a bubble whatever its in-edges are. -/
theorem any_isBubble_of_isHonest (hv : g.isHonest v = true) :
    (g.node? v).any (g.isBubble g.corruptedParties) = (g.node? v).any Node.isInOut := by
  obtain ⟨n, hn, hh⟩ := (Option.any_eq_true _ _).1 hv
  have hc : n.party ∉ g.corruptedParties := by simpa [Graph.isCorrupted] using hh
  rw [hn, Option.any_some, Option.any_some, GraphBase.isBubble, if_neg hc]

end LeftOut

/-! ### The last term -/

namespace Graph

/-- The node is honest and has no in-edge. -/
def isHead (g : Graph) (i : ℕ) : Bool :=
  (g.node? i).any fun n => g.inDeg i = 0 && !g.isCorrupted n

/-- How many such nodes are numbered below `v`. -/
def headsBelow (g : Graph) (v : ℕ) : ℕ :=
  (List.range g.nodeSize).countP fun i => i < v && g.isHead i

/-- The last term as a sum over all indices. -/
theorem sumTopoRandomNodes_eq (g : Graph) : g.sumTopoRandomNodes =
    ((List.range g.nodeSize).map fun i => if g.isHead i then g.nodeSize - i else 0).sum := by
  have hfold : ∀ (l : List ℕ) (s : ℕ),
      (l.filter g.isHead).foldl (fun s i => s + (g.nodeSize - i)) s =
        s + (l.map fun i => if g.isHead i then g.nodeSize - i else 0).sum := by
    intro l
    induction l with
    | nil => exact fun s => rfl
    | cons i l ih =>
        intro s
        rw [List.filter_cons, List.map_cons, List.sum_cons]
        split
        · rw [List.foldl_cons, ih, Nat.add_assoc]
        · rw [ih, Nat.zero_add]
  exact (hfold _ 0).trans (Nat.zero_add _)

end Graph

namespace LeftOut

variable {v : ℕ} {g h : Graph}

/-- A node counts in the last term where its counterpart does. -/
theorem isHead (hl : LeftOut v g h) (hg : g.WellFormed) (i : ℕ) :
    h.isHead i = g.isHead (skip v i) := by
  refine hl.any_node? hg (fun j n _ => ?_) i
  rw [hl.isCorrupted, hl.inDeg]

/-- Each honest node without in-edges that is numbered below the one left out counts
one more with it. -/
theorem sumTopoRandomNodes (hl : LeftOut v g h) (hg : g.WellFormed) (hv : v < g.nodeSize) :
    g.sumTopoRandomNodes = h.sumTopoRandomNodes + g.headsBelow v +
      if g.isHead v then g.nodeSize - v else 0 := by
  have hle : v ≤ h.nodeSize := by
    rw [hl.nodeSize] at hv
    omega
  have hperm := range_succ_perm hle
  have hbelow : g.headsBelow v =
      ((List.range h.nodeSize).map fun i => if i < v && g.isHead (skip v i) then 1 else 0).sum := by
    have hlt : ∀ i, decide (skip v i < v) = decide (i < v) := fun i => by
      rw [decide_eq_decide, skip]
      split <;> omega
    unfold Graph.headsBelow
    rw [hl.nodeSize, hperm.countP_eq, List.countP_cons_of_neg (by simp), List.countP_map]
    simp only [Function.comp_def, hlt]
    induction List.range h.nodeSize with
    | nil => rfl
    | cons i l ih =>
        rw [List.countP_cons, List.map_cons, List.sum_cons, ih, Nat.add_comm]
  have hterm : ∀ i, (if g.isHead (skip v i) then g.nodeSize - skip v i else 0) =
      (if h.isHead i then h.nodeSize - i else 0) +
        if i < v && g.isHead (skip v i) then 1 else 0 := by
    intro i
    have hminus : h.nodeSize + 1 - skip v i = h.nodeSize - i + if i < v then 1 else 0 := by
      rw [skip]
      split <;> omega
    rw [hl.isHead hg, hl.nodeSize, hminus]
    cases g.isHead (skip v i) <;> simp
  have hsplit : ∀ l : List ℕ, (l.map fun i => if g.isHead (skip v i) then
      g.nodeSize - skip v i else 0).sum =
        (l.map fun i => if h.isHead i then h.nodeSize - i else 0).sum +
          (l.map fun i => if i < v && g.isHead (skip v i) then 1 else 0).sum := by
    intro l
    rw [← List.sum_map_add]
    exact congrArg List.sum (List.map_congr_left fun i _ => hterm i)
  have hlist : (List.range g.nodeSize).Perm (v :: (List.range h.nodeSize).map (skip v)) := by
    rw [hl.nodeSize]
    exact hperm
  rw [Graph.sumTopoRandomNodes_eq, Graph.sumTopoRandomNodes_eq, hbelow,
    (hlist.map _).sum_eq, List.map_cons, List.sum_cons, List.map_map]
  show _ + ((List.range h.nodeSize).map fun i => if g.isHead (skip v i) then
    g.nodeSize - skip v i else 0).sum = _
  rw [hsplit, Nat.add_comm]

/-- Where the other terms of the potentials tie, the last ones compare as they do when
each honest node without in-edges that is numbered below `v` counts one less. -/
def Steady (v : ℕ) (a b : Graph) : Prop :=
  a.bubbleCnt = b.bubbleCnt → a.numReachableNodes = b.numReachableNodes →
    (a.sumTopoRandomNodes < b.sumTopoRandomNodes ↔
      a.sumTopoRandomNodes + b.headsBelow v < b.sumTopoRandomNodes + a.headsBelow v)

instance (v : ℕ) (a b : Graph) : Decidable (Steady v a b) :=
  inferInstanceAs (Decidable (_ → _ → _))

/-- The ranks of two results compare as those of their counterparts, if the shift of
the numbering decides no tie between them. -/
theorem potential_lt_iff {a a' b b' : Graph} (ha : LeftOut v a a') (hb : LeftOut v b b')
    (hga : a.WellFormed) (hgb : b.WellFormed) (hxa : a.Exact) (hxa' : a'.Exact) (hxb : b.Exact)
    (hxb' : b'.Exact) (hab : a.SameFrame b) (hab' : a'.SameFrame b') (hv : a.isHonest v = true)
    (hdeg : b.inDeg v = a.inDeg v) (htie : Steady v a b) :
    a.potential < b.potential ↔ a'.potential < b'.potential := by
  have hnode : b.node? v = a.node? v := hab.node? v
  have hvb : b.isHonest v = true := by
    rw [Graph.isHonest] at hv ⊢
    simpa only [hnode, Graph.isCorrupted, hab.corrupted] using hv
  have hbub := ha.bubbleCnt hga hxa hxa'
  have hbub' := hb.bubbleCnt hgb hxb hxb'
  rw [any_isBubble_of_isHonest hv] at hbub
  rw [any_isBubble_of_isHonest hvb, hnode] at hbub'
  have hlt : v < a.nodeSize := by
    obtain ⟨n, hn, -⟩ := (Option.any_eq_true _ _).1 hv
    exact lt_of_node? hn
  have hsum := ha.sumTopoRandomNodes hga hlt
  have hsum' := hb.sumTopoRandomNodes hgb (by rwa [hab.nodeSize])
  have hhead : b.isHead v = a.isHead v := by
    simp only [Graph.isHead, hnode, hdeg, Graph.isCorrupted, hab.corrupted]
  rw [hhead, hab.nodeSize] at hsum'
  have hreach := ha.numReachableNodes hga hv
  have hreach' := hb.numReachableNodes hgb hvb
  simp only [Graph.potential, Prod.Lex.toLex_lt_toLex, hab.nodeSize, hab'.nodeSize, lt_irrefl,
    true_and, false_or]
  constructor
  · rintro (h | ⟨h₁, h | ⟨h₂, h₃⟩⟩)
    · exact Or.inl (by omega)
    · exact Or.inr ⟨by omega, Or.inl (by omega)⟩
    · have := (htie h₁ h₂).1 h₃
      exact Or.inr ⟨by omega, Or.inr ⟨by omega, by omega⟩⟩
  · rintro (h | ⟨h₁, h | ⟨h₂, h₃⟩⟩)
    · exact Or.inl (by omega)
    · exact Or.inr ⟨by omega, Or.inl (by omega)⟩
    · have h₁' : a.bubbleCnt = b.bubbleCnt := by omega
      have h₂' : a.numReachableNodes = b.numReachableNodes := by omega
      exact Or.inr ⟨h₁', Or.inr ⟨h₂', (htie h₁' h₂').2 (by omega)⟩⟩

end LeftOut

/-! ## The verdict of the tail phase -/

namespace Prover

variable {v : ℕ} {g h : Graph}

theorem honestAt_iff {i : ℕ} : HonestAt g i ↔ g.isHonest i = true := by
  rw [HonestAt, Graph.isHonest, Option.any_eq_true]
  simp only [Bool.not_eq_true']

theorem feeds_iff_mem_operands (hg : g.WellFormed) {i j : ℕ} :
    g.Feeds i j ↔ i ∈ g.operands j := by
  rw [Graph.operands, List.mem_flatMap]
  constructor
  · rintro ⟨e, he, ⟨n, hn, rfl⟩, rfl⟩
    exact ⟨e, he, List.mem_map_of_mem hn⟩
  · rintro ⟨e, he, hi⟩
    obtain ⟨n, hn, hni⟩ := List.mem_map.1 hi
    obtain ⟨hedge, hout⟩ := hg.mem_inEdges.1 he
    exact ⟨e, hedge, ⟨n, hn, hni⟩, hout⟩

section LeftOut

variable (hl : LeftOut v g h) (hg : g.WellFormed) (hh : h.WellFormed)

include hl hg

/-- The node feeds nothing. -/
theorem not_feeds (j : ℕ) : ¬ g.Feeds v j := fun hf =>
  hl.notMem_operands hg j ((feeds_iff_mem_operands hg).1 hf)

/-- A node is at an honest party where its counterpart is. -/
theorem honestAt_skip {i : ℕ} : HonestAt h i ↔ HonestAt g (skip v i) := by
  rw [honestAt_iff, honestAt_iff, hl.isHonest hg]

/-- The node itself can be deleted. -/
theorem removable_self (hv : HonestAt g v) : Removable g v :=
  Peeling.removable_of_forall hv fun j hj => absurd hj (not_feeds hl hg j)

include hh

/-- A node feeds another where its counterpart does. -/
theorem feeds_skip {i j : ℕ} : h.Feeds i j ↔ g.Feeds (skip v i) (skip v j) := by
  rw [feeds_iff_mem_operands hh, feeds_iff_mem_operands hg, hl.mem_operands]

/-- A walk ends at the node or stays among the others. -/
theorem reach_of_skip {i t : ℕ} (ht : ReflTransGen g.Feeds (skip v i) t) :
    t = v ∨ ∃ j, skip v j = t ∧ ReflTransGen h.Feeds i j := by
  induction ht with
  | refl => exact Or.inr ⟨i, rfl, .refl⟩
  | @tail b c _ hbc ih =>
      rcases ih with rfl | ⟨j, rfl, hij⟩
      · exact absurd hbc (not_feeds hl hg c)
      · by_cases hc : c = v
        · exact Or.inl hc
        · obtain ⟨k, rfl⟩ := exists_skip hc
          exact Or.inr ⟨k, rfl, hij.tail ((feeds_skip hl hg hh).2 hbc)⟩

/-- What can be deleted without the node can be deleted with it. -/
theorem removable_skip (hv : HonestAt g v) {i : ℕ} (hi : Removable h i) :
    Removable g (skip v i) := by
  intro t ht
  rcases reach_of_skip hl hg hh ht with rfl | ⟨j, rfl, hij⟩
  · exact removable_self hl hg hv _ .refl
  · obtain ⟨hhon, hcycle⟩ := hi j hij
    refine ⟨(honestAt_skip hl hg).1 hhon, fun hc => hcycle ?_⟩
    obtain ⟨k, hjk, hkj⟩ := TransGen.head'_iff.1 hc
    have hkv : k ≠ v := by
      rintro rfl
      rcases hkj.cases_head with heq | ⟨x, hx, -⟩
      · exact skip_ne _ j heq.symm
      · exact not_feeds hl hg x hx
    obtain ⟨k, rfl⟩ := exists_skip hkv
    obtain ⟨j', hj', hkj'⟩ := (reach_of_skip hl hg hh hkj).resolve_left (skip_ne v j)
    rw [skip_injective v hj'] at hkj'
    exact TransGen.head' ((feeds_skip hl hg hh).2 hjk) hkj'

/-- **The tail phase does not need the node gone before**: where it answers yes
without the node, it answers yes. -/
theorem answersYes_of_leftOut (hv : HonestAt g v) (hyes : AnswersYes h) : AnswersYes g := by
  intro i n hn hio
  by_cases hi : i = v
  · subst hi
    obtain ⟨m, hm, hhon⟩ := hv
    rw [hn, Option.some.injEq] at hm
    subst hm
    rw [hhon, if_neg Bool.false_ne_true]
    exact removable_self hl hg ⟨n, hn, hhon⟩
  · obtain ⟨j, rfl⟩ := exists_skip hi
    have hj : h.node? j = some { n with guid := j } := by rw [hl.nodes, hn, Option.map_some]
    have := hyes j _ hj hio
    rw [hl.isCorrupted, hl.inDeg] at this
    split
    · rename_i hc
      rwa [if_pos hc] at this
    · rename_i hc
      rw [if_neg hc] at this
      exact removable_skip hl hg hh hv this

end LeftOut

end Prover

end Gauv
