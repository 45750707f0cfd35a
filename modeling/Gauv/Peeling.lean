import Mathlib

/-!
# Peeling a relation

Vertices are removed one after the other, each at a moment when none of its
successors is left, and only vertices that may go.  Whatever the order, what has
been removed when nothing more can be is the set of vertices from which neither
a vertex that must stay nor a closed walk can be reached.
-/

namespace Gauv

namespace Peeling

open Relation

variable {α : Type*} (r : α → α → Prop) (p : α → Prop)

/-- One round: a vertex of `left` that may go and has no successor left is
removed. -/
def Step (left left' : Set α) : Prop :=
  ∃ v ∈ left, p v ∧ (∀ w, r v w → w ∉ left) ∧ left' = left \ {v}

/-- Only vertices that may go, and no closed walk, can be reached. -/
def Removable (v : α) : Prop := ∀ w, ReflTransGen r v w → p w ∧ ¬ TransGen r w w

variable {r p} {start left : Set α}

theorem Removable.of_reach {v w : α} (h : Removable r p v) (hvw : ReflTransGen r v w) :
    Removable r p w := fun _ hwx => h _ (hvw.trans hwx)

/-- A vertex that may go is removable when all its successors are. -/
theorem removable_of_forall {v : α} (hp : p v) (h : ∀ w, r v w → Removable r p w) :
    Removable r p v := by
  intro w hvw
  rcases hvw.cases_head with rfl | ⟨x, hvx, hxw⟩
  · refine ⟨hp, fun hcycle => ?_⟩
    -- a walk from the vertex back to it passes through a successor
    obtain ⟨x, hvx, hxv⟩ := TransGen.head'_iff.1 hcycle
    exact (h x hvx x .refl).2 (TransGen.tail' hxv hvx)
  · exact h x hvx w hxw

/-- A map that keeps walks carries removability back. -/
theorem Removable.of_map {β : Type*} {s : β → β → Prop} {q : β → Prop} {f : β → α}
    (hs : ∀ v w, s v w → r (f v) (f w)) (hq : ∀ v, p (f v) → q v) {v : β}
    (h : Removable r p (f v)) : Removable s q v := by
  intro w hvw
  obtain ⟨hp, hcycle⟩ := h (f w) (hvw.lift f hs)
  exact ⟨hq w hp, fun hc => hcycle (hc.lift f hs)⟩

/-- Whatever has been removed is removable. -/
theorem removable_of_removed (hclosed : ∀ v ∈ start, ∀ w, r v w → w ∈ start)
    (h : ReflTransGen (Step r p) start left) : ∀ v ∈ start, v ∉ left → Removable r p v := by
  induction h with
  | refl => exact fun v hv hnot => absurd hv hnot
  | @tail mid left _ hstep ih =>
      obtain ⟨v, -, hp, hsucc, rfl⟩ := hstep
      intro u hu hnot
      by_cases humid : u ∈ mid
      · obtain rfl : u = v := by
          by_contra hne
          exact hnot ⟨humid, hne⟩
        exact removable_of_forall hp fun w hw => ih w (hclosed u hu w hw) (hsucc w hw)
      · exact ih u hu humid

/-- Among finitely many removable vertices one has no successor among them. -/
theorem exists_sink (hfin : left.Finite) {v : α} (hv : v ∈ left) (hr : Removable r p v) :
    ∃ u ∈ left, Removable r p u ∧ ∀ w, r u w → w ∉ left := by
  let S := {u // u ∈ left ∧ Removable r p u}
  have : Finite S := (hfin.subset fun u hu => hu.1).to_subtype
  let above : S → S → Prop := fun a b => TransGen r b.1 a.1
  have : IsTrans S above := ⟨fun _ _ _ hab hbc => hbc.trans hab⟩
  have : Std.Irrefl above := ⟨fun a ha => (a.2.2 a.1 .refl).2 ha⟩
  obtain ⟨⟨u, hu, hur⟩, -, hmin⟩ :=
    (Finite.wellFounded_of_trans_of_irrefl above).has_min Set.univ ⟨⟨v, hv, hr⟩, trivial⟩
  refine ⟨u, hu, hur, fun w huw hw => ?_⟩
  exact hmin ⟨w, hw, hur.of_reach (.single huw)⟩ trivial (.single huw)

/-- **Confluence.**  When nothing more can be removed, exactly the removable
vertices have been. -/
theorem removed_iff (hfin : start.Finite) (hclosed : ∀ v ∈ start, ∀ w, r v w → w ∈ start)
    (h : ReflTransGen (Step r p) start left) (hstuck : ∀ left', ¬ Step r p left left') {v : α}
    (hv : v ∈ start) : v ∉ left ↔ Removable r p v := by
  have hsub : left ⊆ start := by
    clear hstuck
    induction h with
    | refl => exact subset_rfl
    | tail _ hstep ih =>
        obtain ⟨v, -, -, -, rfl⟩ := hstep
        exact Set.sdiff_subset.trans ih
  refine ⟨removable_of_removed hclosed h v hv, fun hr hleft => ?_⟩
  obtain ⟨u, hu, hur, hsink⟩ := exists_sink (hfin.subset hsub) hleft hr
  exact hstuck _ ⟨u, hu, (hur u .refl).1, hsink, rfl⟩

end Peeling

end Gauv
