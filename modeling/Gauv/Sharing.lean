import Mathlib

/-!
# Polynomial sharings

A vector of values is a sharing of `a` of degree `t` when the values are those of
a polynomial of degree at most `t` at given points, and `a` is its value at `0`.
Sharings add, scale and multiply like the values they share; a vector of sharings
of the shares is combined back into a sharing by the weights of interpolation.
-/

namespace Sharing

open Polynomial Finset

variable {F : Type*} [Field F]

/-- The Lagrange coefficient at `0` of the `i`-th of the first `n` points. -/
def weight (x : ℕ → F) (n i : ℕ) : F :=
  ∏ j ∈ (range n).erase i, x j * (x j - x i)⁻¹

/-- The first `n` values of `s` are those of a polynomial of degree at most `t`
at the points `x`, and its value at `0` is `a`. -/
def IsSharing (x : ℕ → F) (n t : ℕ) (s : ℕ → F) (a : F) : Prop :=
  ∃ p : F[X], p.natDegree ≤ t ∧ p.eval 0 = a ∧ ∀ i < n, p.eval (x i) = s i

/-- The value at `x` of the polynomial with constant term `a` and the higher
coefficients `c`. -/
def evalPoly (a : F) (t : ℕ) (c : ℕ → F) (x : F) : F :=
  a + ∑ k ∈ range t, c k * x ^ (k + 1)

variable {x : ℕ → F} {n t t' : ℕ} {s s' : ℕ → F} {a b : F}

theorem eval_basis_zero (x : ℕ → F) (n i : ℕ) :
    (Lagrange.basis (range n) x i).eval 0 = weight x n i := by
  rw [Lagrange.basis, eval_prod, weight]
  refine prod_congr rfl fun j _ => ?_
  rw [Lagrange.basisDivisor, eval_mul, eval_sub, eval_C, eval_C, eval_X, zero_sub]
  rw [← neg_sub (x j) (x i), inv_neg, neg_mul_neg, mul_comm]

/-! ## Operations on sharings -/

theorem IsSharing.congr (h : IsSharing x n t s a) (hs : ∀ i < n, s' i = s i) :
    IsSharing x n t s' a := by
  obtain ⟨p, hp, ha, hv⟩ := h
  exact ⟨p, hp, ha, fun i hi => (hv i hi).trans (hs i hi).symm⟩

theorem isSharing_evalPoly (x : ℕ → F) (n : ℕ) (a : F) (t : ℕ) (c : ℕ → F) :
    IsSharing x n t (fun i => evalPoly a t c (x i)) a := by
  refine ⟨C a + ∑ k ∈ range t, C (c k) * X ^ (k + 1), ?_, ?_, fun i _ => ?_⟩
  · refine (natDegree_add_le _ _).trans (max_le (by simp) ?_)
    refine natDegree_sum_le_of_forall_le _ _ fun k hk => ?_
    exact (natDegree_C_mul_X_pow_le _ _).trans (mem_range.1 hk)
  · simp [eval_finsetSum]
  · simp [eval_finsetSum, evalPoly]

theorem IsSharing.add (hs : IsSharing x n t s a) (hs' : IsSharing x n t s' b) :
    IsSharing x n t (fun i => s i + s' i) (a + b) := by
  obtain ⟨p, hp, rfl, hv⟩ := hs
  obtain ⟨q, hq, rfl, hw⟩ := hs'
  refine ⟨p + q, (natDegree_add_le p q).trans (max_le hp hq), eval_add, fun i hi => ?_⟩
  rw [eval_add, hv i hi, hw i hi]

theorem IsSharing.mul_const (hs : IsSharing x n t s a) (k : F) :
    IsSharing x n t (fun i => s i * k) (a * k) := by
  obtain ⟨p, hp, rfl, hv⟩ := hs
  refine ⟨p * C k, (natDegree_mul_C_le p k).trans hp, by simp, fun i hi => ?_⟩
  rw [eval_mul, eval_C, hv i hi]

/-- The products of the shares are a sharing of the product, of the sum of the
degrees. -/
theorem IsSharing.mul (hs : IsSharing x n t s a) (hs' : IsSharing x n t' s' b) :
    IsSharing x n (t + t') (fun i => s i * s' i) (a * b) := by
  obtain ⟨p, hp, rfl, hv⟩ := hs
  obtain ⟨q, hq, rfl, hw⟩ := hs'
  refine ⟨p * q, natDegree_mul_le.trans (add_le_add hp hq), eval_mul, fun i hi => ?_⟩
  rw [eval_mul, hv i hi, hw i hi]

/-! ## Reconstruction -/

/-- Interpolating more values than the degree recovers what is shared. -/
theorem IsSharing.reconstruct (hs : IsSharing x n t s a) (ht : t < n)
    (hx : Set.InjOn x (range n)) : ∑ i ∈ range n, weight x n i * s i = a := by
  obtain ⟨p, hp, rfl, hv⟩ := hs
  have hdeg : p.degree < #(range n) := by
    rw [card_range]
    exact lt_of_le_of_lt degree_le_natDegree (by exact_mod_cast hp.trans_lt ht)
  have hpoly : p = Lagrange.interpolate (range n) x s :=
    Lagrange.eq_interpolate_of_eval_eq s hx hdeg fun i hi => hv i (mem_range.1 hi)
  rw [hpoly, Lagrange.interpolate_apply, eval_finsetSum]
  refine sum_congr rfl fun i _ => ?_
  rw [eval_mul, eval_C, eval_basis_zero, mul_comm]

/-! ## What some shares tell -/

section Secrecy

variable {d : ℕ}

/-- A polynomial with constant term `1` vanishes at up to `d` points other than `0`:
adding a multiple of it changes the secret and none of the shares there. -/
theorem exists_vanishing {l : List F} (hl : ∀ x ∈ l, x ≠ 0) (hlen : l.length ≤ d) :
    ∃ b : Fin d → F, ∀ x ∈ l, ∑ k, b k * x ^ (k.val + 1) = -1 := by
  let p : F[X] := (l.map fun x => 1 - C x⁻¹ * X).prod
  have hdeg : p.natDegree < d + 1 := by
    refine Nat.lt_succ_of_le (le_trans (natDegree_list_prod_le _) (le_trans ?_ hlen))
    rw [List.map_map]
    refine (List.sum_le_card_nsmul _ 1 fun n hn => ?_).trans (by simp)
    obtain ⟨x, -, rfl⟩ := List.mem_map.1 hn
    refine (natDegree_sub_le _ _).trans (max_le (by simp) ?_)
    exact (natDegree_C_mul_le _ _).trans natDegree_X_le
  have hzero : p.coeff 0 = 1 := by
    rw [coeff_zero_eq_eval_zero, eval_list_prod, List.map_map]
    refine List.prod_eq_one fun y hy => ?_
    obtain ⟨x, -, rfl⟩ := List.mem_map.1 hy
    simp
  refine ⟨fun k => p.coeff (k.val + 1), fun x hx => ?_⟩
  have hroot : p.eval x = 0 := by
    rw [eval_list_prod, List.map_map]
    exact List.prod_eq_zero (List.mem_map.2 ⟨x, hx, by simp [inv_mul_cancel₀ (hl x hx)]⟩)
  rw [eval_eq_sum_range' hdeg, sum_range_succ', hzero, pow_zero, mul_one,
    ← Fin.sum_univ_eq_sum_range fun k => p.coeff (k + 1) * x ^ (k + 1)] at hroot
  exact eq_neg_of_add_eq_zero_left hroot

/-- As many shares as coefficients determine them, for a given secret. -/
theorem coeffs_eq_of_shares_eq {x : Fin d → F} (hx : Function.Injective x) (hx0 : ∀ i, x i ≠ 0)
    {b c : Fin d → F} (h : ∀ i, ∑ k, b k * x i ^ (k.val + 1) = ∑ k, c k * x i ^ (k.val + 1)) :
    b = c := by
  have hzero : b - c = 0 := by
    refine Matrix.eq_zero_of_forall_index_sum_mul_pow_eq_zero hx fun i => ?_
    refine (mul_eq_zero.1 (?_ : x i * _ = 0)).resolve_left (hx0 i)
    rw [mul_sum, ← sub_eq_zero.2 (h i), ← sum_sub_distrib]
    refine sum_congr rfl fun k _ => ?_
    rw [Pi.sub_apply]
    ring
  exact sub_eq_zero.1 hzero

end Secrecy

end Sharing
