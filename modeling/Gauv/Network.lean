import Mathlib

/-!
# Networks of rules

A network gives some of its nodes a rule that computes their value from the
values of other nodes, and leaves the other nodes free.  When the dependence is
well-founded, every choice of values for the free nodes has exactly one
solution.  And where the values of a set of valuations are determined step by
step along a well-founded relation, two valuations that agree at the start of
every walk agree throughout.
-/

namespace Network

variable {α A : Type*} {r : α → α → Prop} {rule : α → Option ((α → A) → A)}

/-- The valuation has the value of the rule wherever there is one. -/
def Solves (rule : α → Option ((α → A) → A)) (v : α → A) : Prop :=
  ∀ i f, rule i = some f → v i = f v

/-- The rule of a node reads its predecessors only. -/
def Reads (r : α → α → Prop) (rule : α → Option ((α → A) → A)) : Prop :=
  ∀ i f, rule i = some f → ∀ v w, (∀ j, r j i → v j = w j) → f v = f w

/-- The nodes without a rule. -/
def free (rule : α → Option ((α → A) → A)) : Set α := {i | rule i = none}

theorem mem_free {i : α} : i ∈ free rule ↔ rule i = none := Iff.rfl

/-! ## Solutions -/

/-- Two solutions that agree on the free nodes are one. -/
theorem Solves.ext (hwf : WellFounded r) (hr : Reads r rule) {v w : α → A}
    (hv : Solves rule v) (hw : Solves rule w) (h : ∀ i ∈ free rule, v i = w i) : v = w := by
  funext i
  induction i using hwf.induction with
  | _ i ih =>
      cases hi : rule i with
      | none => exact h i hi
      | some f => rw [hv i f hi, hw i f hi, hr i f hi v w ih]

/-- Every choice for the free nodes has a solution. -/
theorem exists_solves [Inhabited A] (hwf : WellFounded r) (hr : Reads r rule) (b : α → A) :
    ∃ v, Solves rule v ∧ ∀ i ∈ free rule, v i = b i := by
  classical
  -- the value of a node, from those of its predecessors
  let compute (i : α) (rec : ∀ j, r j i → A) : A :=
    (rule i).elim (b i) fun f => f fun j => if h : r j i then rec j h else default
  refine ⟨hwf.fix compute, fun i f hi => ?_, fun i hi => ?_⟩
  · rw [hwf.fix_eq]
    simp only [compute, hi, Option.elim_some]
    refine hr i f hi _ _ fun j hj => ?_
    rw [dif_pos hj]
  · rw [hwf.fix_eq]
    simp only [compute, mem_free.1 hi, Option.elim_none]

/-! ## Determined values -/

/-- Within `S`, the values on `X` determine the value at `i`. -/
def Determined (S : Set (α → A)) (X : Set α) (i : α) : Prop :=
  ∀ v ∈ S, ∀ w ∈ S, (∀ j ∈ X, v j = w j) → v i = w i

theorem Determined.mono {S : Set (α → A)} {X Y : Set α} {i : α} (h : Determined S X i)
    (hXY : X ⊆ Y) : Determined S Y i :=
  fun v hv w hw hY => h v hv w hw fun j hj => hY j (hXY hj)

/-- Along a well-founded relation, valuations of `S` that agree where nothing
determines the value agree on everything below. -/
theorem eq_of_determined (hwf : WellFounded r) {S : Set (α → A)} {D B : Set α}
    (hclosed : ∀ i ∈ D, ∀ j, r j i → j ∈ D)
    (hdet : ∀ i ∈ D, i ∈ B ∨ Determined S {j | r j i} i) {v w : α → A} (hv : v ∈ S) (hw : w ∈ S)
    (hB : ∀ i ∈ D, i ∈ B → v i = w i) : ∀ i ∈ D, v i = w i := by
  intro i
  induction i using hwf.induction with
  | _ i ih =>
      intro hi
      rcases hdet i hi with hiB | hidet
      · exact hB i hi hiB
      · exact hidet v hv w hw fun j hj => ih j hj (hclosed i hi j hj)

end Network
