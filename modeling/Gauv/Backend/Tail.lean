import Gauv.Backend.Runs
import Gauv.Backend.Deletion

/-!
# Deleting tail nodes

The elimination loop deletes honest nodes that feed nothing.  Such a deletion
takes away the node and its in-edges and nothing else, keeps the adjacency
tables in step, and keeps the bubble count exact.  The random node count is not
maintained here: no later step reads it.
-/

namespace Gauv

open GraphBase

namespace Graph

variable {g : Graph} {n : Node}

/-- The node is live and feeds nothing. -/
structure Sink (g : Graph) (n : Node) : Prop where
  live : g.node? n.guid = some n
  outEdges : g.outEdges n.guid = []

theorem eliminateNode_inEdges (h : g.Sink n) (v : ℕ) :
    (g.eliminateNode n).inEdges v = if v = n.guid then [] else g.inEdges v := by
  have : (g.eliminateNode n).inEdges v = OpTable.at' (g.inEdgesOf.set n.guid []) v := by
    simp only [eliminateNode, GraphBase.inEdges, h.outEdges, List.foldl_nil]
  rw [this, OpTable.at'_set]
  by_cases hv : n.guid = v
  · by_cases hlt : n.guid < g.inEdgesOf.length
    · simp [hv, hv ▸ hlt]
    · have hnil : g.inEdges v = [] := OpTable.at'_of_le (hv ▸ not_lt.1 hlt)
      rw [if_neg (fun hc => hlt hc.2), if_pos hv.symm]
      exact hnil
  · rw [if_neg (fun hc => hv hc.1), if_neg (Ne.symm hv)]
    rfl

/-- A node that feeds nothing feeds nothing together with another. -/
theorem Sink.feedsAlone (h : g.Sink n) : g.FeedsAlone n := by
  intro e he
  rw [h.outEdges] at he
  exact absurd he List.not_mem_nil

/-- No edge starts at a node that feeds nothing. -/
theorem Sink.not_input (hg : g.WellFormed) (h : g.Sink n) {e : Operation} (he : g.HasEdge e) :
    ∀ m ∈ e.inputs, m.guid ≠ n.guid := by
  intro m hm hmn
  have : e ∈ g.outEdges n.guid := hg.mem_outEdges.2 ⟨he, m, hm, hmn⟩
  rw [h.outEdges] at this
  exact absurd this List.not_mem_nil

/-- Deleting an honest node that feeds nothing keeps the bubble count exact. -/
theorem bubble_eliminateNode (hg : g.WellFormed) (h : g.Sink n) (hh : g.isCorrupted n = false)
    (hx : g.bubbleCnt = g.countBubble g.corruptedParties) :
    (g.eliminateNode n).bubbleCnt = (g.eliminateNode n).countBubble g.corruptedParties := by
  refine (bubbleCnt_eliminateNode_iff hg h.live hx).2 ⟨fun m _ _ _ => ?_, fun hc => ?_⟩
  · rw [Bool.eq_false_iff]
    intro hfed
    simp only [fedThrough, Bool.and_eq_true, bne_iff_ne, List.all_eq_true, List.any_eq_true,
      beq_iff_eq] at hfed
    obtain ⟨e, he⟩ := List.exists_mem_of_length_pos (Nat.pos_of_ne_zero hfed.1.2)
    obtain ⟨s, hs, hsn⟩ := hfed.2 e he
    exact h.not_input hg (hg.mem_inEdges.1 he).1 s hs hsn
  · rw [hh] at hc
    exact absurd hc Bool.false_ne_true

end Graph

/-! ## The elimination loop -/

namespace Prover

variable {g h : Graph}

/-- One round of the loop deletes an honest node that feeds nothing. -/
theorem exists_of_tailStep {h' : Graph} (hg : h.WellFormed) (hs : tailStep h = some h') :
    ∃ n, h.Sink n ∧ h.isCorrupted n = false ∧ h' = h.eliminateNode n := by
  rw [tailStep] at hs
  simp only [Option.bind_eq_bind, Option.bind_eq_some_iff, Option.pure_def,
    Option.some.injEq] at hs
  obtain ⟨i, hi, n, hn, rfl⟩ := hs
  have htail := List.find?_some hi
  rw [isTail, hn] at htail
  simp only [Option.any_some, Bool.and_eq_true, decide_eq_true_eq, Bool.not_eq_true'] at htail
  have hni : n.guid = i := hg.guid_eq hn
  refine ⟨n, ⟨by rw [hni]; exact hn, ?_⟩, htail.2, rfl⟩
  rw [hni]
  exact List.length_eq_zero_iff.1 htail.1

/-- What the elimination loop keeps: tables in step, an exact bubble count, and
the corrupted parties. -/
structure TailInvariant (g h : Graph) : Prop where
  wellFormed : h.WellFormed
  bubble : h.bubbleCnt = h.countBubble g.corruptedParties
  corrupted : h.corruptedParties = g.corruptedParties

theorem tailInvariant (hg : g.WellFormed)
    (hx : g.bubbleCnt = g.countBubble g.corruptedParties) (hv : TailVisited g h) :
    TailInvariant g h := by
  induction hv with
  | start => exact ⟨hg, hx, rfl⟩
  | @step h h' _ hs ih =>
      obtain ⟨n, hn, hh, rfl⟩ := exists_of_tailStep ih.wellFormed hs
      refine ⟨Graph.wellFormed_eliminateNode ih.wellFormed hn.live hn.feedsAlone, ?_, ih.corrupted⟩
      rw [← ih.corrupted]
      exact Graph.bubble_eliminateNode ih.wellFormed hn hh (by rw [ih.corrupted]; exact ih.bubble)

end Prover

end Gauv
