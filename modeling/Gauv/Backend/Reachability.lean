import Gauv.Backend.LeftOut

/-!
# The search of the rank function

The second component of the rank counts the honest nodes from which a corrupted
node can be reached along edges.  The search that computes it goes backwards
from the live nodes of the corrupted parties, with a queue in which nodes may
stand repeatedly, and marks a node when it is popped.  It ends on cyclic graphs
as well, it only ever queues live nodes, and its count does not depend on the
order of in-lists or inputs.
-/

namespace Gauv

open GraphBase Relation

namespace Graph

variable {g h : Graph}

/-- The node is live and at a corrupted party. -/
def CorruptedAt (g : Graph) (i : ℕ) : Prop :=
  ∃ n, g.node? i = some n ∧ g.isCorrupted n = true

theorem mem_corruptedNodes {i : ℕ} : i ∈ g.corruptedNodes ↔ g.CorruptedAt i := by
  rw [corruptedNodes, List.mem_filter, List.mem_range, Option.any_eq_true]
  constructor
  · rintro ⟨-, n, hn⟩
    exact ⟨n, hn⟩
  · rintro ⟨n, hn, hc⟩
    exact ⟨lt_of_node? hn, n, hn, hc⟩

/-- What the search reaches are the nodes from which a corrupted one can be
reached. -/
theorem reached_iff_reaches (hg : g.WellFormed) {i : ℕ} :
    Worklist.Reached g.operands g.corruptedNodes i ↔ ∃ j, g.CorruptedAt j ∧ g.Reaches i j := by
  have hswap : (fun a b => b ∈ g.operands a) = Function.swap g.Feeds := by
    funext a b
    exact propext (Prover.feeds_iff_mem_operands hg).symm
  simp only [Worklist.Reached, mem_corruptedNodes, hswap, reflTransGen_swap]

/-! ## The states of the search -/

/-- The queue, the visited nodes and the count after `n` passes of the loop. -/
def searchState (g : Graph) (n : ℕ) : Worklist.State ℕ :=
  (Worklist.step g.operands g.isHonest)^[n] ⟨g.corruptedNodes, [], 0⟩

theorem searchLoop_eq_count (g : Graph) (n : ℕ) :
    g.searchLoop n g.corruptedNodes [] 0 = (g.searchState n).count := by
  rw [searchLoop_eq, Worklist.search_eq_iterate, searchState]

/-- **The search ends**: the queue is empty after as many passes as it has fuel,
and the count is the second component of the rank. -/
theorem search_ends (g : Graph) : (g.searchState g.searchFuel).queue = [] ∧
    (g.searchState g.searchFuel).count = g.numReachableNodes :=
  ⟨Worklist.queue_iterate_eq_nil (fun _ => mem_range_of_operands) 0 g.work_lt_searchFuel.le,
    (searchLoop_eq_count g _).symm⟩

/-- **The search never queues an eliminated node.** -/
theorem live_of_mem_queue (hg : g.WellFormed) (n : ℕ) {i : ℕ}
    (hi : i ∈ (g.searchState n).queue) : ∃ m, g.node? i = some m := by
  refine Worklist.forall_queue_iterate (P := fun i => ∃ m, g.node? i = some m) ?_ n 0 ?_ i hi
  · intro a _ b hb
    obtain ⟨e, he, ⟨m, hm, rfl⟩, -⟩ := (Prover.feeds_iff_mem_operands hg).2 hb
    exact ⟨m, hg.input_live he hm⟩
  · intro a ha
    obtain ⟨m, hm, -⟩ := mem_corruptedNodes.1 ha
    exact ⟨m, hm⟩

/-! ## What it counts -/

/-- The second component of the rank. -/
def reachabilityTerm (g : Graph) : ℕ := (ofLex (ofLex g.potential).2).1

theorem reachabilityTerm_eq (g : Graph) : g.reachabilityTerm = g.numReachableNodes := rfl

/-- The live honest nodes from which a live corrupted node can be reached. -/
def exposedNodes (g : Graph) : Set ℕ :=
  {i | Prover.HonestAt g i ∧ ∃ j, g.CorruptedAt j ∧ g.Reaches i j}

theorem reachabilityTerm_eq_ncard (hg : g.WellFormed) :
    g.reachabilityTerm = g.exposedNodes.ncard := by
  rw [reachabilityTerm_eq, numReachableNodes_eq, exposedNodes]
  simp only [Prover.honestAt_iff, reached_iff_reaches hg]

theorem finite_exposedNodes (g : Graph) : g.exposedNodes.Finite :=
  (g.finite_any_node? _).subset fun _ hi => Prover.honestAt_iff.1 hi.1

theorem reachabilityTerm_eq_zero_iff (hg : g.WellFormed) : g.reachabilityTerm = 0 ↔
    ∀ i j, Prover.HonestAt g i → g.CorruptedAt j → ¬ g.Reaches i j := by
  rw [reachabilityTerm_eq_ncard hg, Set.ncard_eq_zero g.finite_exposedNodes,
    Set.eq_empty_iff_forall_notMem]
  exact ⟨fun h i j hi hj hij => h i ⟨hi, j, hj, hij⟩, fun h i hi => by
    obtain ⟨hi, j, hj, hij⟩ := hi
    exact h i j hi hj hij⟩

/-! ## What it depends on -/

/-- Every edge of one graph is an edge of the other, up to its address and the
order of its inputs. -/
def EdgesAmong (g h : Graph) : Prop :=
  ∀ e, g.HasEdge e → ∃ f, h.HasEdge f ∧ f.output = e.output ∧ f.inputs.Perm e.inputs

theorem EdgesAmong.feeds (hs : g.EdgesAmong h) {i j : ℕ} (hf : g.Feeds i j) : h.Feeds i j := by
  obtain ⟨e, he, ⟨n, hn, hi⟩, hj⟩ := hf
  obtain ⟨f, hf, hout, hin⟩ := hs e he
  exact ⟨f, hf, ⟨n, hin.mem_iff.2 hn, hi⟩, by rw [hout, hj]⟩

/-- **The term depends on the set of edges alone.** -/
theorem reachabilityTerm_of_edges (hg : g.WellFormed) (hh : h.WellFormed)
    (hn : h.nodes = g.nodes) (hC : h.corruptedParties = g.corruptedParties)
    (hgh : g.EdgesAmong h) (hhg : h.EdgesAmong g) : h.reachabilityTerm = g.reachabilityTerm := by
  have hnode : h.node? = g.node? := by
    funext i
    rw [node?, node?, hn]
  have hcorrupted : h.isCorrupted = g.isCorrupted := by
    funext n
    rw [isCorrupted, isCorrupted, hC]
  have hfeeds : h.Feeds = g.Feeds := by
    funext i j
    exact propext ⟨hhg.feeds, hgh.feeds⟩
  rw [reachabilityTerm_eq_ncard hg, reachabilityTerm_eq_ncard hh]
  simp only [exposedNodes, Prover.HonestAt, CorruptedAt, Reaches, hnode, hcorrupted, hfeeds]

/-- **The reachability term of the rank is exact**, on cyclic graphs and on
graphs with eliminated nodes as well. -/
theorem reachabilityTerm_exact (hg : g.WellFormed) :
    ((g.searchState g.searchFuel).queue = [] ∧
      (g.searchState g.searchFuel).count = g.reachabilityTerm) ∧
    (∀ n, ∀ i ∈ (g.searchState n).queue, ∃ m, g.node? i = some m) ∧
    g.reachabilityTerm = g.exposedNodes.ncard ∧
    (g.reachabilityTerm = 0 ↔
      ∀ i j, Prover.HonestAt g i → g.CorruptedAt j → ¬ g.Reaches i j) ∧
    ∀ h : Graph, h.WellFormed → h.nodes = g.nodes → h.corruptedParties = g.corruptedParties →
      g.EdgesAmong h → h.EdgesAmong g → h.reachabilityTerm = g.reachabilityTerm :=
  ⟨search_ends g, fun n _ hi => live_of_mem_queue hg n hi, reachabilityTerm_eq_ncard hg,
    reachabilityTerm_eq_zero_iff hg, fun _ hh hn hC => reachabilityTerm_of_edges hg hh hn hC⟩

/-! ### A cycle with a node left out -/

/-- Two honest nodes that feed each other, one of which party 0 reads, and a
node to be eliminated. -/
def cycleNodes : List Node :=
  [⟨0, "a", 1, .others⟩, ⟨1, "b", 1, .others⟩, ⟨2, "c", 0, .output⟩, ⟨3, "d", 1, .others⟩]

/-- The edges of the cycle and out of it. -/
def cycleEdges : List Operation :=
  [Operation.make 1 0 .add (cycleNodes.take 1) ⟨1, "b", 1, .others⟩,
    Operation.make 1 1 .add ((cycleNodes.drop 1).take 1) ⟨0, "a", 1, .others⟩,
    Operation.make 1 2 .transit ((cycleNodes.drop 1).take 1) ⟨2, "c", 0, .output⟩]

/-- The cycle after the last node was eliminated, for party 0 corrupted. -/
def cycling : Graph :=
  (((GraphBase.bare cycleNodes).toGraph 2 1 {0}).addEdges cycleEdges).eliminateNode
    ⟨3, "d", 1, .others⟩

theorem wellFormed_cycling : cycling.WellFormed :=
  wellFormed_eliminateNode (wellFormed_linked rfl (by decide) (by decide) (by decide))
    (by decide) (by unfold FeedsAlone; decide)

example : cycling.reachabilityTerm = 2 := by decide

theorem reachabilityTerm_exact_cycling :
    cycling.reachabilityTerm = cycling.exposedNodes.ncard :=
  (reachabilityTerm_exact wellFormed_cycling).2.2.1

end Graph

end Gauv
