import Gauv.Backend.Acyclic
import Gauv.Backend.Tail
import Gauv.Peeling

/-!
# The verdict

What the tail phase decides.  Deleting honest nodes that feed nothing is a
peeling of the relation `Feeds`: it ends, and whatever the order it deletes the
honest nodes from which neither a node of a corrupted party nor a directed cycle
can be reached.  The verdict is read off the graph that enters the phase.
-/

namespace Gauv

open Relation GraphBase

namespace Prover

/-! ## Deletions in any order -/

/-- Delete an honest node that feeds nothing. -/
def Deletes (h h' : Graph) : Prop :=
  ∃ n, h.Sink n ∧ h.isCorrupted n = false ∧ h' = h.eliminateNode n

/-- The graph after `k` deletions. -/
inductive DeletesIn (g : Graph) : ℕ → Graph → Prop
  | start : DeletesIn g 0 g
  | step {k : ℕ} {h h' : Graph} (hv : DeletesIn g k h) (hd : Deletes h h') :
      DeletesIn g (k + 1) h'

/-- The number of nodes that have not been deleted. -/
def liveCount (g : GraphBase) : ℕ := g.nodes.countP Option.isSome

/-- The node is at an honest party. -/
def HonestAt (g : Graph) (i : ℕ) : Prop := ∃ n, g.node? i = some n ∧ g.isCorrupted n = false

/-- The node is honest, and so is all that can be reached from it, which contains
no directed cycle. -/
def Removable (g : Graph) (i : ℕ) : Prop := Peeling.Removable g.Feeds (HonestAt g) i

variable {g h h' : Graph}

theorem liveCount_eliminateNode {n : Node} (hn : h.Sink n) :
    liveCount (h.eliminateNode n).toGraphBase + 1 = liveCount h.toGraphBase := by
  obtain ⟨hlt, hnode⟩ := node?_eq_some_iff.1 hn.live
  have hset := List.countP_set (p := Option.isSome) (a := (none : Option Node)) hlt
  have hpos : 0 < h.nodes.countP Option.isSome :=
    List.countP_pos_iff.2 ⟨_, List.getElem_mem hlt, by rw [hnode]; rfl⟩
  have hnodes : (h.eliminateNode n).nodes = h.nodes.set n.guid none := rfl
  rw [liveCount, hnodes, hset, hnode, liveCount]
  simp only [Option.isSome_some, if_true, Option.isSome_none, Bool.false_eq_true, if_false,
    Nat.add_zero]
  omega

/-- What is left of the graph after some deletions. -/
structure Leaves (g h : Graph) : Prop where
  invariant : TailInvariant g h
  node : ∀ i, h.node? i = g.node? i ∨ h.node? i = none
  inEdges : ∀ i, h.node? i ≠ none → h.inEdges i = g.inEdges i

theorem Deletes.leaves (hv : Leaves g h) (hd : Deletes h h') : Leaves g h' := by
  obtain ⟨n, hn, hh, rfl⟩ := hd
  have ih := hv.invariant
  refine ⟨⟨Graph.wellFormed_eliminateNode ih.wellFormed hn.live hn.feedsAlone, ?_, ih.corrupted⟩,
    fun i => ?_, fun i hi => ?_⟩
  · rw [← ih.corrupted]
    exact Graph.bubble_eliminateNode ih.wellFormed hn hh (by rw [ih.corrupted]; exact ih.bubble)
  · rw [Graph.eliminateNode_node? hn.live]
    split
    · exact Or.inr rfl
    · exact hv.node i
  · rw [Graph.eliminateNode_node? hn.live] at hi
    rw [Graph.eliminateNode_inEdges hn]
    split at hi
    · exact absurd rfl hi
    · rename_i hne
      rw [if_neg hne]
      exact hv.inEdges i hi

theorem DeletesIn.leaves (hg : g.WellFormed)
    (hx : g.bubbleCnt = g.countBubble g.corruptedParties) {k : ℕ} (hv : DeletesIn g k h) :
    Leaves g h := by
  induction hv with
  | start => exact ⟨⟨hg, hx, rfl⟩, fun _ => Or.inl rfl, fun _ _ => rfl⟩
  | step _ hd ih => exact hd.leaves ih

/-- Every deletion takes one node away. -/
theorem DeletesIn.liveCount {k : ℕ} (hv : DeletesIn g k h) :
    k + Prover.liveCount h.toGraphBase = Prover.liveCount g.toGraphBase := by
  induction hv with
  | start => exact Nat.zero_add _
  | step _ hd ih =>
      obtain ⟨n, hn, -, rfl⟩ := hd
      have := liveCount_eliminateNode hn
      omega

/-! ## Deletions as a peeling -/

/-- The nodes that are left. -/
def live (g : Graph) : Set ℕ := {i | g.node? i ≠ none}

theorem mem_live {i : ℕ} : i ∈ live g ↔ g.node? i ≠ none := Iff.rfl

theorem mem_live_of_node? {i : ℕ} {n : Node} (hn : g.node? i = some n) : i ∈ live g := by
  rw [mem_live, hn]
  exact Option.some_ne_none _

theorem Leaves.sink_iff (hv : Leaves g h) (n : Node) :
    h.outEdges n.guid = [] ↔ ∀ w, g.Feeds n.guid w → w ∉ live h := by
  have hw := hv.invariant.wellFormed
  rw [List.eq_nil_iff_forall_not_mem]
  constructor
  · rintro hnil w ⟨e, he, hinput, rfl⟩ hlive
    refine hnil e (hw.mem_outEdges.2 ⟨?_, hinput⟩)
    rw [HasEdge, hv.inEdges _ hlive]
    exact he
  · intro hsucc e he
    obtain ⟨hhe, hinput⟩ := hw.mem_outEdges.1 he
    have hlive := mem_live_of_node? (hw.output_live hhe)
    refine hsucc _ ⟨e, ?_, hinput, rfl⟩ hlive
    rw [HasEdge, ← hv.inEdges _ hlive]
    exact hhe

theorem Leaves.honestAt_iff (hv : Leaves g h) {n : Node} (hn : h.node? n.guid = some n) :
    HonestAt g n.guid ↔ h.isCorrupted n = false := by
  have hg : g.node? n.guid = some n := by
    rcases hv.node n.guid with hi | hi
    · rw [← hi, hn]
    · exact absurd (hi ▸ hn) (by simp)
  have hc : h.isCorrupted n = g.isCorrupted n := by
    rw [Graph.isCorrupted, Graph.isCorrupted, hv.invariant.corrupted]
  rw [HonestAt, hg, hc]
  constructor
  · rintro ⟨m, hm, hh⟩
    exact Option.some.inj hm ▸ hh
  · exact fun hh => ⟨n, rfl, hh⟩

/-- A deletion is a round of the peeling. -/
theorem Leaves.step_iff (hv : Leaves g h) {left : Set ℕ} :
    Peeling.Step g.Feeds (HonestAt g) (live h) left ↔ ∃ h', Deletes h h' ∧ left = live h' := by
  have hw := hv.invariant.wellFormed
  have hdeleted : ∀ n, h.Sink n → live (h.eliminateNode n) = live h \ {n.guid} := by
    intro n hn
    ext i
    rw [mem_live, Graph.eliminateNode_node? hn.live]
    by_cases hi : i = n.guid
    · simp [hi]
    · simp [hi, mem_live]
  constructor
  · rintro ⟨i, hi, hhon, hsucc, rfl⟩
    obtain ⟨n, hn⟩ := Option.ne_none_iff_exists'.1 hi
    obtain rfl := hw.guid_eq hn
    have hsink : h.Sink n := ⟨hn, (hv.sink_iff n).2 hsucc⟩
    exact ⟨_, ⟨n, hsink, (hv.honestAt_iff hn).1 hhon, rfl⟩, (hdeleted n hsink).symm⟩
  · rintro ⟨h', ⟨n, hn, hh, rfl⟩, rfl⟩
    exact ⟨n.guid, mem_live_of_node? hn.live, (hv.honestAt_iff hn.live).2 hh,
      (hv.sink_iff n).1 hn.outEdges, hdeleted n hn⟩

theorem DeletesIn.peels (hg : g.WellFormed)
    (hx : g.bubbleCnt = g.countBubble g.corruptedParties) {k : ℕ} (hv : DeletesIn g k h) :
    ReflTransGen (Peeling.Step g.Feeds (HonestAt g)) (live g) (live h) := by
  induction hv with
  | start => exact .refl
  | step hv hd ih => exact ih.tail ((hv.leaves hg hx).step_iff.2 ⟨_, hd, rfl⟩)

/-- **Whatever the order**, where no node can be deleted any more the deleted
nodes are the removable ones. -/
theorem deleted_iff (hg : g.WellFormed) (hx : g.bubbleCnt = g.countBubble g.corruptedParties)
    {k : ℕ} (hv : DeletesIn g k h) (hstuck : ∀ h', ¬ Deletes h h') {i : ℕ} {n : Node}
    (hn : g.node? i = some n) : h.node? i = none ↔ Removable g i := by
  have hfin : (live g).Finite := (Set.finite_Iio g.nodeSize).subset fun j hj => by
    obtain ⟨m, hm⟩ := Option.ne_none_iff_exists'.1 hj
    exact lt_of_node? hm
  have hclosed : ∀ v ∈ live g, ∀ w, g.Feeds v w → w ∈ live g := by
    rintro v - w ⟨e, he, -, rfl⟩
    exact mem_live_of_node? (hg.output_live he)
  have hstuck' : ∀ left, ¬ Peeling.Step g.Feeds (HonestAt g) (live h) left := by
    intro left hstep
    obtain ⟨h', hd, -⟩ := (hv.leaves hg hx).step_iff.1 hstep
    exact hstuck h' hd
  have hiff := Peeling.removed_iff hfin hclosed (hv.peels hg hx) hstuck' (mem_live_of_node? hn)
  rw [mem_live, not_not] at hiff
  exact hiff

/-! ## The loop of the code -/

theorem deletes_of_tailStep (hh : h.WellFormed) (hs : tailStep h = some h') : Deletes h h' :=
  exists_of_tailStep hh hs

/-- Where the loop stops, no node can be deleted. -/
theorem not_deletes_of_tailStep (hs : tailStep h = none) : ¬ Deletes h h' := by
  rintro ⟨n, hn, hc, -⟩
  have htail : isTail h n.guid = true := by
    rw [isTail, hn.live]
    simp [outDeg, hn.outEdges, hc]
  have hfind : ((List.range h.nodeSize).find? (isTail h)).isSome = true := by
    rw [List.find?_isSome]
    exact ⟨n.guid, List.mem_range.2 (lt_of_node? hn.live), htail⟩
  obtain ⟨i, hi⟩ := Option.isSome_iff_exists.1 hfind
  have hi' := List.find?_some hi
  rw [isTail] at hi'
  obtain ⟨m, hm, -⟩ := (Option.any_eq_true _ _).1 hi'
  have hnone := hs
  simp only [tailStep, hi, Option.bind_eq_bind, Option.bind_some, hm] at hnone
  exact absurd hnone (by simp)

/-- With fuel for every live node the loop runs until nothing can be deleted. -/
theorem tailLoop_deletesIn (hg : g.WellFormed)
    (hx : g.bubbleCnt = g.countBubble g.corruptedParties) {k : ℕ} (hv : DeletesIn g k h)
    {fuel : ℕ} (hfuel : liveCount h.toGraphBase ≤ fuel) :
    (∃ k, DeletesIn g k (tailLoop fuel h)) ∧ ∀ h', ¬ Deletes (tailLoop fuel h) h' := by
  have hw := (hv.leaves hg hx).invariant.wellFormed
  induction fuel generalizing h k with
  | zero =>
      refine ⟨⟨k, hv⟩, ?_⟩
      rintro h' ⟨n, hn, -, -⟩
      have := liveCount_eliminateNode (h := h) hn
      omega
  | succ fuel ih =>
      rw [tailLoop]
      split
      · rename_i h' hs
        have hd := deletes_of_tailStep hw hs
        obtain ⟨n, hn, -, rfl⟩ := id hd
        have hcount := liveCount_eliminateNode hn
        exact ih (hv.step hd) (by omega) ((hv.step hd).leaves hg hx).invariant.wellFormed
      · rename_i hs
        exact ⟨⟨k, hv⟩, fun h' => not_deletes_of_tailStep hs⟩

theorem liveCount_le (g : GraphBase) : liveCount g ≤ g.nodeSize := List.countP_le_length

/-- What the tail phase answers: the honest inputs and outputs can all be deleted,
and the corrupted ones have no in-edge. -/
def AnswersYes (g : Graph) : Prop :=
  ∀ (i : ℕ) (n : Node), g.node? i = some n → n.isInOut = true →
    if g.isCorrupted n = true then g.inDeg i = 0 else Removable g i

/-- Where nothing can be deleted any more, a bubble is left unless the answer is
yes. -/
theorem hasBubble_iff_of_stuck (hg : g.WellFormed)
    (hx : g.bubbleCnt = g.countBubble g.corruptedParties) {k : ℕ} (hv : DeletesIn g k h)
    (hstuck : ∀ h', ¬ Deletes h h') : h.hasBubble = false ↔ AnswersYes g := by
  have hl := hv.leaves hg hx
  have hbub := Graph.hasBubble_iff hl.invariant.bubble
  have hlivenode : ∀ {i n}, h.node? i = some n → g.node? i = some n := by
    intro i n hn
    rcases hl.node i with hi | hi
    · rw [← hi, hn]
    · exact absurd (hi ▸ hn) (by simp)
  have hdeg : ∀ {i n}, h.node? i = some n → h.inDeg n.guid = g.inDeg i := by
    intro i n hn
    rw [hl.invariant.wellFormed.guid_eq hn, inDeg, inDeg, hl.inEdges i (mem_live_of_node? hn)]
  rw [← Bool.not_eq_true, hbub]
  constructor
  · intro hno i n hn hio
    split
    · rename_i hc
      -- a corrupted node is never deleted
      have hin : h.node? i = some n := by
        rcases hl.node i with hi | hi
        · rw [hi, hn]
        · obtain ⟨m, hm, hh⟩ := (((deleted_iff hg hx hv hstuck hn).1 hi) i .refl).1
          rw [hn, Option.some.injEq] at hm
          rw [hm, hh] at hc
          exact absurd hc (by simp)
      by_contra hne
      refine hno ⟨i, n, hin, ?_⟩
      have hcm : n.party ∈ g.corruptedParties := by simpa [Graph.isCorrupted] using hc
      rw [isBubble, if_pos hcm, hdeg hin, hio]
      simpa using hne
    · rename_i hc
      refine (deleted_iff hg hx hv hstuck hn).1 ?_
      by_contra hlive
      have hin : h.node? i = some n := by
        rcases hl.node i with hi | hi
        · rw [hi, hn]
        · exact absurd hi hlive
      refine hno ⟨i, n, hin, ?_⟩
      have hcm : n.party ∉ g.corruptedParties := by simpa [Graph.isCorrupted] using hc
      rw [isBubble, if_neg hcm]
      exact hio
  · rintro hyes ⟨i, n, hin, hb⟩
    have hn := hlivenode hin
    rw [isBubble] at hb
    split at hb
    · rename_i hcm
      obtain ⟨hio, hne⟩ := Bool.and_eq_true_iff.1 hb
      have hzero := hyes i n hn hio
      rw [if_pos (by simpa [Graph.isCorrupted] using hcm)] at hzero
      rw [hdeg hin, hzero] at hne
      exact absurd hne (by simp)
    · rename_i hcm
      have hrem := hyes i n hn hb
      rw [if_neg (by simpa [Graph.isCorrupted] using hcm)] at hrem
      rw [(deleted_iff hg hx hv hstuck hn).2 hrem] at hin
      exact absurd hin (by simp)

/-- The loop of the code leaves no bubble exactly when the answer is yes. -/
theorem hasBubble_tailLoop_iff (hg : g.WellFormed)
    (hx : g.bubbleCnt = g.countBubble g.corruptedParties) :
    (tailLoop g.nodeSize g).hasBubble = false ↔ AnswersYes g := by
  obtain ⟨⟨k, hrun⟩, hstuck⟩ := tailLoop_deletesIn hg hx .start (liveCount_le g.toGraphBase)
  exact hasBubble_iff_of_stuck hg hx hrun hstuck

/-- **What the tail phase decides.**  Deletions of honest nodes that feed nothing
end after at most as many rounds as there are nodes; where they end, in whatever
order they were made, exactly the removable nodes are gone; the loop of the code
is one such sequence, and it leaves no bubble exactly when the answer is yes. -/
theorem tail_phase (hg : g.WellFormed) (hx : g.bubbleCnt = g.countBubble g.corruptedParties) :
    (∀ k h, DeletesIn g k h → k ≤ g.nodeSize) ∧
    (∀ k h, DeletesIn g k h → (∀ h', ¬ Deletes h h') → ∀ i n, g.node? i = some n →
      (h.node? i = none ↔ Removable g i)) ∧
    (∃ k, DeletesIn g k (tailLoop g.nodeSize g)) ∧
    (∀ h', ¬ Deletes (tailLoop g.nodeSize g) h') ∧
    ∀ env parties g₀,
      rewriteLoop env (equivalentRewriters parties g₀) (rewriteFuel g₀) 0 g₀ [] = some g →
      (tryProving env g₀ parties = some true ↔ AnswersYes g) := by
  obtain ⟨⟨k, hrun⟩, hstuck⟩ := tailLoop_deletesIn hg hx .start (liveCount_le g.toGraphBase)
  refine ⟨fun k h hv => ?_, fun k h hv hs i n hn => deleted_iff hg hx hv hs hn, ⟨k, hrun⟩, hstuck,
    fun env parties g₀ hloop => ?_⟩
  · have := hv.liveCount
    have := liveCount_le g.toGraphBase
    omega
  · rw [tryProving_eq_some, ← hasBubble_tailLoop_iff hg hx]
    constructor
    · rintro ⟨g', hg', hb⟩
      rw [hloop, Option.some.injEq] at hg'
      subst hg'
      simpa using hb
    · exact fun hb => ⟨g, hloop, by rw [hb]; rfl⟩

theorem tail_phase_doubling : (∀ k h, DeletesIn doubling k h → k ≤ 2) ∧
    ∀ h', ¬ Deletes (tailLoop 2 doubling) h' := by
  obtain ⟨hends, -, -, hstuck, -⟩ := tail_phase wellFormed_doubling (by decide)
  exact ⟨hends, hstuck⟩

end Prover

end Gauv
