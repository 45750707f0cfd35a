import Mathlib

/-!
# Biased samplers

A sampler turns a uniform word into a value.  The words of a tuple are drawn
independently, so a tuple of values is drawn by as many tuples of words as the
product of the counts of its values says.  When every value has between `lo` and
`hi` words, sets of tuples of equal size are drawn about equally often.
-/

namespace Sampling

/-! ## Tuples of draws -/

section Draws

variable {W R : Type*} [Finite W] [Finite R] {f : W → R} {d lo hi : ℕ} {C C' : Set (Fin d → R)}

/-- The number of words that are turned into the value. -/
noncomputable def count (f : W → R) (r : R) : ℕ := Nat.card {w // f w = r}

/-- The number of tuples of words that are turned into a tuple of the set. -/
noncomputable def draws (f : W → R) (C : Set (Fin d → R)) : ℕ :=
  Nat.card {ws : Fin d → W // f ∘ ws ∈ C}

omit [Finite W] [Finite R] in
theorem draws_singleton (f : W → R) (c : Fin d → R) :
    draws f {c} = ∏ k, count f (c k) := by
  have hpi : {ws : Fin d → W // f ∘ ws ∈ ({c} : Set (Fin d → R))} ≃
      ((k : Fin d) → {w // f w = c k}) :=
    (Equiv.subtypeEquivRight fun ws => by
      rw [Set.mem_singleton_iff, funext_iff]
      rfl).trans Equiv.subtypePiEquivPi
  unfold draws count
  rw [Nat.card_congr hpi, Nat.card_pi]

omit [Finite R] in
/-- The draws of a set are those of its tuples. -/
theorem draws_eq_sum (f : W → R) (C : Set (Fin d → R)) [Fintype C] :
    draws f C = ∑ c : C, ∏ k, count f (c.1 k) := by
  have hsigma : {ws : Fin d → W // f ∘ ws ∈ C} ≃
      (c : C) × {ws : Fin d → W // f ∘ ws ∈ ({c.1} : Set (Fin d → R))} :=
    { toFun := fun ws => ⟨⟨f ∘ ws.1, ws.2⟩, ws.1, rfl⟩
      invFun := fun x => ⟨x.2.1, by
        rw [Set.mem_singleton_iff.1 x.2.2]
        exact x.1.2⟩
      left_inv := fun _ => rfl
      right_inv := fun x => by
        obtain ⟨⟨c, hc⟩, ws, hws⟩ := x
        cases Set.mem_singleton_iff.1 hws
        rfl }
  unfold draws
  rw [Nat.card_congr hsigma, Nat.card_sigma]
  exact Finset.sum_congr rfl fun c _ => draws_singleton f c.1

theorem draws_le (hhi : ∀ r, count f r ≤ hi) (C : Set (Fin d → R)) :
    draws f C ≤ Nat.card C * hi ^ d := by
  classical
  have := Fintype.ofFinite C
  rw [draws_eq_sum, Nat.card_eq_fintype_card]
  refine Finset.sum_le_card_nsmul _ _ _ fun c _ => ?_
  calc ∏ k, count f (c.1 k) ≤ ∏ _k : Fin d, hi := Finset.prod_le_prod' fun k _ => hhi _
    _ = hi ^ d := by simp

theorem le_draws (hlo : ∀ r, lo ≤ count f r) (C : Set (Fin d → R)) :
    Nat.card C * lo ^ d ≤ draws f C := by
  classical
  have := Fintype.ofFinite C
  rw [draws_eq_sum, Nat.card_eq_fintype_card]
  refine Finset.card_nsmul_le_sum _ _ _ fun c _ => ?_
  calc lo ^ d = ∏ _k : Fin d, lo := by simp
    _ ≤ ∏ k, count f (c.1 k) := Finset.prod_le_prod' fun k _ => hlo _

/-- Sets of one size are drawn about equally often. -/
theorem draws_ratio (hlo : ∀ r, lo ≤ count f r) (hhi : ∀ r, count f r ≤ hi)
    (hcard : Nat.card C = Nat.card C') : draws f C * lo ^ d ≤ draws f C' * hi ^ d :=
  calc draws f C * lo ^ d ≤ Nat.card C * hi ^ d * lo ^ d :=
        Nat.mul_le_mul_right _ (draws_le hhi C)
    _ = Nat.card C' * lo ^ d * hi ^ d := by
        rw [hcard]
        ring
    _ ≤ draws f C' * hi ^ d := Nat.mul_le_mul_right _ (le_draws hlo C')

/-- A sampler without bias draws sets of one size equally often. -/
theorem draws_eq_of_count (hcount : ∀ r, count f r = lo) (hcard : Nat.card C = Nat.card C') :
    draws f C = draws f C' := by
  refine le_antisymm ?_ ?_
  · calc draws f C ≤ Nat.card C' * lo ^ d := hcard ▸ draws_le (fun r => (hcount r).le) C
      _ ≤ draws f C' := le_draws (fun r => (hcount r).ge) C'
  · calc draws f C' ≤ Nat.card C * lo ^ d := hcard ▸ draws_le (fun r => (hcount r).le) C'
      _ ≤ draws f C := le_draws (fun r => (hcount r).ge) C

omit [Finite W] [Finite R] in
/-- One value that is drawn less often makes a tuple rarer. -/
theorem draws_singleton_lt {c c' : Fin d → R} (hhi : ∀ r, count f r ≤ hi)
    (hc : ∀ k, count f (c k) = hi) {k : Fin d} (hk : count f (c' k) < hi) :
    draws f {c'} < draws f {c} := by
  classical
  have hpos : 0 < hi := Nat.zero_lt_of_lt hk
  have hrest : ∏ j ∈ Finset.univ.erase k, count f (c' j) ≤ hi ^ (d - 1) :=
    calc ∏ j ∈ Finset.univ.erase k, count f (c' j) ≤ ∏ _j ∈ Finset.univ.erase k, hi :=
          Finset.prod_le_prod' fun j _ => hhi _
      _ = hi ^ (d - 1) := by simp
  rw [draws_singleton, draws_singleton, ← Finset.mul_prod_erase _ _ (Finset.mem_univ k)]
  calc count f (c' k) * ∏ j ∈ Finset.univ.erase k, count f (c' j)
      ≤ count f (c' k) * hi ^ (d - 1) := Nat.mul_le_mul_left _ hrest
    _ < hi * hi ^ (d - 1) := Nat.mul_lt_mul_of_pos_right hk (pow_pos hpos _)
    _ = hi ^ d := by
        rw [← pow_succ', Nat.sub_add_cancel (Nat.one_le_of_lt k.isLt)]
    _ = ∏ j, count f (c j) := by simp [hc]

end Draws

/-! ## Residues -/

/-- The remainders of the first `n` numbers: the small ones come once more often. -/
theorem card_residue (n : ℕ) {b : ℕ} (hb : 0 < b) {r : ℕ} (hr : r < b) :
    Nat.card {w : Fin n // w.val % b = r} = n / b + if r < n % b then 1 else 0 := by
  have hcount := Nat.count_modEq_card n hb r
  rw [Nat.mod_eq_of_lt hr] at hcount
  have hmap : (Finset.univ.filter fun w : Fin n => w.val % b = r).map Fin.valEmbedding =
      {x ∈ Finset.range n | x ≡ r [MOD b]} := by
    ext x
    simp only [Finset.mem_map, Finset.mem_filter, Finset.mem_univ, true_and, Finset.mem_range,
      Fin.valEmbedding_apply, Nat.ModEq, Nat.mod_eq_of_lt hr]
    constructor
    · rintro ⟨w, hw, rfl⟩
      exact ⟨w.isLt, hw⟩
    · intro hx
      exact ⟨⟨x, hx.1⟩, hx.2, rfl⟩
  rw [← hcount, Nat.count_eq_card_filter_range, ← hmap, Finset.card_map,
    Nat.card_eq_fintype_card, Fintype.card_subtype]

end Sampling
