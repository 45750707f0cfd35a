import Mathlib

/-!
# Polynomials through prescribed data

A position is what is read off a polynomial: one of its coefficients or its
value at a point.  Data at a set of positions fits a degree when a polynomial of
at most that degree has it.  A set of positions determines the polynomials of
that degree when only the zero polynomial vanishes there; data on a star of
fits around such a set is data of one polynomial, and only such sets have this
property.
-/

namespace Fitting

open Polynomial

variable {F : Type*} [Field F]

/-- Where a polynomial is read. -/
inductive Position (F : Type*) where
  | coeff (k : ℕ)
  | point (x : F)

namespace Position

/-- What the polynomial has there. -/
def read : Position F → F[X] → F
  | .coeff k, p => p.coeff k
  | .point x, p => p.eval x

@[simp] theorem read_coeff (k : ℕ) (p : F[X]) : (coeff k : Position F).read p = p.coeff k := rfl

@[simp] theorem read_point (x : F) (p : F[X]) : (point x).read p = p.eval x := rfl

@[simp] theorem read_zero (a : Position F) : a.read 0 = 0 := by
  cases a <;> simp

@[simp] theorem read_sub (a : Position F) (p q : F[X]) : a.read (p - q) = a.read p - a.read q := by
  cases a <;> simp

end Position

variable {ι : Type*} {t : ℕ} {pos : ι → Position F} {v : ι → F} {A D S S' : Set ι}

/-- Some polynomial of degree at most `t` has the values `v` on the set. -/
def Fits (t : ℕ) (pos : ι → Position F) (v : ι → F) (S : Set ι) : Prop :=
  ∃ p : F[X], p.natDegree ≤ t ∧ ∀ i ∈ S, (pos i).read p = v i

/-- Only the zero polynomial, of those of degree at most `t`, vanishes on the set. -/
def Determines (t : ℕ) (pos : ι → Position F) (S : Set ι) : Prop :=
  ∀ p : F[X], p.natDegree ≤ t → (∀ i ∈ S, (pos i).read p = 0) → p = 0

theorem Fits.mono (h : Fits t pos v S) (hS : S' ⊆ S) : Fits t pos v S' := by
  obtain ⟨p, hp, hv⟩ := h
  exact ⟨p, hp, fun i hi => hv i (hS hi)⟩

theorem Determines.mono (h : Determines t pos S) (hS : S ⊆ S') : Determines t pos S' :=
  fun p hp hv => h p hp fun i hi => hv i (hS hi)

theorem fits_comp {w : Position F → F} :
    Fits t pos (w ∘ pos) S ↔ Fits t id w (Set.image pos S) := by
  simp only [Fits, Set.forall_mem_image, id_eq, Function.comp_apply]

theorem determines_image : Determines t id (Set.image pos S) ↔ Determines t pos S := by
  simp only [Determines, Set.forall_mem_image, id_eq]

/-- Two polynomials with the same values on a determining set are one. -/
theorem Determines.eq (h : Determines t pos S) {p q : F[X]} (hp : p.natDegree ≤ t)
    (hq : q.natDegree ≤ t) (hpq : ∀ i ∈ S, (pos i).read p = (pos i).read q) : p = q := by
  refine sub_eq_zero.1 (h _ ((natDegree_sub_le p q).trans (max_le hp hq)) fun i hi => ?_)
  rw [Position.read_sub, hpq i hi, sub_self]

/-! ## Stars -/

/-- Around a determining set, data that fits with every single further position
fits with all of them. -/
theorem fits_union_iff (hA : Determines t pos A) (hD : D.Nonempty) :
    (∀ d ∈ D, Fits t pos v (insert d A)) ↔ Fits t pos v (A ∪ D) := by
  constructor
  · intro h
    obtain ⟨d₀, hd₀⟩ := hD
    obtain ⟨p, hp, hv⟩ := h d₀ hd₀
    refine ⟨p, hp, fun i hi => ?_⟩
    rcases hi with hi | hi
    · exact hv i (Set.mem_insert_of_mem _ hi)
    · obtain ⟨q, hq, hw⟩ := h i hi
      have hpq : p = q := hA.eq hp hq fun j hj => by
        rw [hv j (Set.mem_insert_of_mem _ hj), hw j (Set.mem_insert_of_mem _ hj)]
      rw [hpq]
      exact hw i (Set.mem_insert _ _)
  · intro h d hd
    refine h.mono fun i hi => ?_
    rcases hi with rfl | hi
    · exact Or.inr hd
    · exact Or.inl hi

/-- **The centre of a star has to determine.**  If the other positions determine
without any single one of them, data on the star is data of one polynomial only
around a determining set. -/
theorem determines_of_fits_union (hD : D.Nonempty)
    (hrest : ∀ d ∈ D, Determines t pos ((A ∪ D) \ {d}))
    (h : ∀ v, (∀ d ∈ D, Fits t pos v (insert d A)) → Fits t pos v (A ∪ D)) :
    Determines t pos A := by
  classical
  intro q hq hqA
  by_contra hq0
  obtain ⟨d₀, hd₀⟩ := hD
  have hall : Determines t pos (A ∪ D) := (hrest d₀ hd₀).mono Set.sdiff_subset
  -- the polynomial that vanishes on the centre does not vanish at some `d`
  obtain ⟨d, hd, hqd⟩ : ∃ d ∈ D, (pos d).read q ≠ 0 := by
    by_contra hnone
    push Not at hnone
    exact hq0 (hall q hq fun i hi => hi.elim (hqA i) (hnone i))
  have hdA : d ∉ A := fun hA => hqd (hqA d hA)
  obtain ⟨p, hp, hv⟩ := h (Function.update 0 d ((pos d).read q)) fun e he => by
    by_cases hed : e = d
    · subst hed
      refine ⟨q, hq, fun i hi => ?_⟩
      rcases hi with rfl | hi
      · rw [Function.update_self]
      · have hie : i ≠ e := fun h => hdA (h ▸ hi)
        rw [Function.update_of_ne hie, hqA i hi]
        rfl
    · refine ⟨0, by simp, fun i hi => ?_⟩
      have hne : i ≠ d := by
        rcases hi with rfl | hi
        · exact hed
        · exact fun h => hdA (h ▸ hi)
      rw [Position.read_zero, Function.update_of_ne hne]
      rfl
  have hp0 : p = 0 := hrest d hd p hp fun i hi => by
    rw [hv i hi.1, Function.update_of_ne hi.2]
    rfl
  have hvd := hv d (Or.inr hd)
  rw [hp0, Position.read_zero, Function.update_self] at hvd
  exact hqd hvd.symm

/-! ## Determining sets -/

/-- All coefficients determine. -/
theorem determines_coeffs (h : ∀ k ≤ t, ∃ i ∈ S, pos i = .coeff k) : Determines t pos S := by
  intro p hp hv
  ext k
  rw [coeff_zero]
  by_cases hk : k ≤ t
  · obtain ⟨i, hi, hik⟩ := h k hk
    have := hv i hi
    rwa [hik, Position.read_coeff] at this
  · exact coeff_eq_zero_of_natDegree_lt (by omega)

/-- The polynomial with the given coefficients. -/
noncomputable def ofCoeffs (l : List F) : F[X] := l.foldr (fun a q => C a + X * q) 0

theorem coeff_ofCoeffs (l : List F) (k : ℕ) : (ofCoeffs l).coeff k = l.getD k 0 := by
  induction l generalizing k with
  | nil => simp [ofCoeffs]
  | cons a l ih =>
      rw [ofCoeffs, List.foldr_cons, ← ofCoeffs]
      cases k with
      | zero => simp
      | succ k => simp [coeff_X_mul, ih]

theorem natDegree_ofCoeffs_le {l : List F} (h : l.length ≤ t + 1) :
    (ofCoeffs l).natDegree ≤ t := by
  refine natDegree_le_iff_coeff_eq_zero.2 fun k hk => ?_
  rw [coeff_ofCoeffs, List.getD_eq_default _ _ (by omega)]

theorem eval_ofCoeffs (l : List F) (x : F) :
    (ofCoeffs l).eval x = l.foldr (fun a b => a + x * b) 0 := by
  induction l with
  | nil => simp [ofCoeffs]
  | cons a l ih =>
      rw [ofCoeffs, List.foldr_cons, ← ofCoeffs, List.foldr_cons, ← ih]
      simp

theorem eval_ofCoeffs_cons (a : F) (l : List F) (x : F) : (ofCoeffs (a :: l)).eval x =
    a + ∑ k ∈ Finset.range l.length, l.getD k 0 * x ^ (k + 1) := by
  have hdeg : (ofCoeffs (a :: l)).natDegree < l.length + 1 :=
    Nat.lt_succ_of_le (natDegree_ofCoeffs_le (by simp))
  rw [eval_eq_sum_range' hdeg, Finset.sum_range_succ', add_comm]
  simp [coeff_ofCoeffs]

/-- More points than the degree determine. -/
theorem determines_points {s : Finset F} (hs : t < s.card)
    (h : ∀ x ∈ s, ∃ i ∈ S, pos i = .point x) : Determines t pos S := by
  intro p hp hv
  refine eq_zero_of_degree_lt_of_eval_finset_eq_zero s ?_ fun x hx => ?_
  · exact lt_of_le_of_lt degree_le_natDegree (by exact_mod_cast hp.trans_lt hs)
  · obtain ⟨i, hi, hix⟩ := h x hx
    have := hv i hi
    rwa [hix, Position.read_point] at this

/-- The monic polynomial with the given zeros. -/
noncomputable def nodal (s : Finset F) : F[X] := ∏ x ∈ s, (X - C x)

theorem nodal_eq (s : Finset F) : nodal s = Lagrange.nodal s id := rfl

theorem natDegree_nodal (s : Finset F) : (nodal s).natDegree = s.card :=
  Lagrange.natDegree_nodal

/-- A polynomial of degree at most `t` with `t` given zeros is a multiple of the
monic one. -/
theorem eq_nodal_of_eval_eq_zero {s : Finset F} (hs : s.card = t) {p : F[X]}
    (hp : p.natDegree ≤ t) (h : ∀ x ∈ s, p.eval x = 0) : p = C (p.coeff t) * nodal s := by
  have hdeg : (p - C (p.coeff t) * nodal s).degree < s.card := by
    rw [degree_lt_iff_coeff_zero]
    intro k hk
    have hlead : (nodal s).coeff t = 1 := by
      have := (Lagrange.nodal_monic (s := s) (v := id)).coeff_natDegree
      rwa [← nodal_eq, natDegree_nodal, hs] at this
    rcases (hs ▸ hk).eq_or_lt with rfl | hlt
    · rw [coeff_sub, coeff_C_mul, hlead, mul_one, sub_self]
    · have hpk : p.coeff k = 0 := coeff_eq_zero_of_natDegree_lt (hp.trans_lt hlt)
      have hnk : (nodal s).coeff k = 0 :=
        coeff_eq_zero_of_natDegree_lt (by rw [natDegree_nodal, hs]; exact hlt)
      rw [coeff_sub, coeff_C_mul, hpk, hnk, mul_zero, sub_self]
  refine sub_eq_zero.1 (eq_zero_of_degree_lt_of_eval_finset_eq_zero s hdeg fun x hx => ?_)
  have hx0 : (nodal s).eval x = 0 := Lagrange.eval_nodal_at_node (v := id) hx
  rw [eval_sub, eval_mul, h x hx, hx0, mul_zero, sub_zero]

/-- `t` points and one coefficient determine exactly when the polynomial with
these zeros has that coefficient. -/
theorem determines_coeff_points_iff {s : Finset F} (hs : s.card = t) {k : ℕ}
    (hS : ∀ p : F[X], (∀ i ∈ S, (pos i).read p = 0) ↔ p.coeff k = 0 ∧ ∀ x ∈ s, p.eval x = 0) :
    Determines t pos S ↔ (nodal s).coeff k ≠ 0 := by
  constructor
  · intro h hk
    have hx : ∀ x ∈ s, (nodal s).eval x = 0 := fun x hx =>
      Lagrange.eval_nodal_at_node (v := id) hx
    have hzero := h (nodal s) (by rw [natDegree_nodal, hs]) ((hS _).2 ⟨hk, hx⟩)
    exact Lagrange.nodal_ne_zero (s := s) (v := id) hzero
  · intro hk p hp hv
    obtain ⟨hpk, hpx⟩ := (hS p).1 hv
    have hmul := eq_nodal_of_eval_eq_zero hs hp hpx
    rw [hmul, coeff_C_mul] at hpk
    rw [hmul, (mul_eq_zero.1 hpk).resolve_right hk, C_0, zero_mul]

end Fitting
