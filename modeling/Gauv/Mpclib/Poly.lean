import Gauv.Mpclib.Share

/-!
# Sharing polynomials

`poly::eval` keeps a running power and a running sum.  With a modulus of at most
`2 ^ 32` no field operation wraps, so the loop computes the polynomial in the
ring of residues, and the bundles of its values add and multiply as the
polynomials do.
-/

namespace Gauv.Mpclib

variable {BASE : UInt64} [NeZero BASE]

/-! ## Small moduli -/

namespace Field

variable (hbase : BASE.toNat ≤ 2 ^ 32) (a b : Field BASE)

include hbase

theorem addExact_of_le : AddExact a b := by
  have ha := a.toNat_lt
  have hb := b.toNat_lt
  exact (addExact_iff a b).2 (Or.inl (by omega))

theorem mulExact_of_le : MulExact a b := by
  have hlt : a.val.toNat * b.val.toNat < 2 ^ 64 :=
    calc a.val.toNat * b.val.toNat
        < 2 ^ 32 * 2 ^ 32 :=
          Nat.mul_lt_mul'' (a.toNat_lt.trans_le hbase) (b.toNat_lt.trans_le hbase)
      _ = 2 ^ 64 := by norm_num
  rw [mulExact_iff, Nat.div_eq_of_lt hlt, Nat.mul_zero]
  exact dvd_zero _

theorem toZMod_add : toZMod (a + b) = toZMod a + toZMod b :=
  (toZMod_add_iff a b).2 (addExact_of_le hbase a b)

theorem toZMod_mul : toZMod (a * b) = toZMod a * toZMod b :=
  (toZMod_mul_iff a b).2 (mulExact_of_le hbase a b)

omit hbase in
theorem toZMod_one : toZMod (ofBase 1 : Field BASE) = 1 := by
  rw [toZMod, val_ofBase, UInt64.toNat_mod, UInt64.toNat_one, ZMod.natCast_mod, Nat.cast_one]

end Field

/-- `poly<BASE, DEG>`: the polynomial `secret + a_1 * x + ... + a_DEG * x ^ DEG`
of a party; `coeffs i` is `a_(i + 1)`. -/
structure Poly (BASE : UInt64) (DEG : ℕ) where
  party : Par BASE
  secret : Field BASE
  coeffs : Fin DEG → Field BASE

namespace Poly

variable {DEG : ℕ}

/-- The loop of `eval` over the coefficients that are left: the running sum and
the running power. -/
def evalLoop (alpha : Field BASE) (coeffs : List (Field BASE)) (res factor : Field BASE) :
    Field BASE :=
  match coeffs with
  | [] => res
  | c :: coeffs =>
      let factor := factor.mulAssign alpha
      evalLoop alpha coeffs (res.addAssign (factor * c)) factor

/-- `poly::eval`: the share of a party. -/
def eval (q : Poly BASE DEG) (party : Par BASE) : Share BASE :=
  ⟨party, evalLoop party.alpha (List.ofFn q.coeffs) q.secret (.ofBase 1)⟩

/-- The value of the polynomial at a number, as a number. -/
def valueAt (q : Poly BASE DEG) (x : ℕ) : ℕ :=
  q.secret.val.toNat + ∑ i : Fin DEG, (q.coeffs i).val.toNat * x ^ (i.val + 1)

/-- The polynomial of a party whose secret and coefficients are the sums. -/
def plus (party : Par BASE) (q r : Poly BASE DEG) : Poly BASE DEG :=
  ⟨party, q.secret + r.secret, fun i => q.coeffs i + r.coeffs i⟩

/-! ## The value of a share -/

section SmallBase

variable (hbase : BASE.toNat ≤ 2 ^ 32)

include hbase

/-- **The loop invariant**: what is added from here on is a polynomial in the
point times the power reached so far. -/
theorem toZMod_evalLoop (alpha : Field BASE) (coeffs : Fin DEG → Field BASE)
    (res factor : Field BASE) : (evalLoop alpha (List.ofFn coeffs) res factor).toZMod =
      res.toZMod +
        factor.toZMod * ∑ i : Fin DEG, (coeffs i).toZMod * alpha.toZMod ^ (i.val + 1) := by
  induction DEG generalizing res factor with
  | zero => simp [evalLoop]
  | succ n ih =>
      rw [List.ofFn_succ, evalLoop, ih, Field.addAssign_eq, Field.mulAssign_eq,
        Field.toZMod_add hbase, Field.toZMod_mul hbase, Field.toZMod_mul hbase, Fin.sum_univ_succ]
      have hshift : ∑ i : Fin n, (coeffs i.succ).toZMod * alpha.toZMod ^ (i.succ.val + 1) =
          alpha.toZMod * ∑ i : Fin n, (coeffs i.succ).toZMod * alpha.toZMod ^ (i.val + 1) := by
        rw [Finset.mul_sum]
        exact Finset.sum_congr rfl fun i _ => by rw [Fin.val_succ]; ring
      rw [hshift, Fin.val_zero]
      ring

theorem toZMod_eval (q : Poly BASE DEG) (party : Par BASE) :
    (q.eval party).val.toZMod = q.valueAt party.alpha.val.toNat := by
  rw [eval, toZMod_evalLoop hbase, Field.toZMod_one, one_mul, valueAt]
  push_cast
  rfl

/-- **A share is the value of the polynomial** at the party's point. -/
theorem toNat_eval (q : Poly BASE DEG) (party : Par BASE) :
    (q.eval party).val.val.toNat = q.valueAt party.alpha.val.toNat % BASE.toNat := by
  have h := toZMod_eval hbase q party
  rwa [Field.toZMod, ZMod.natCast_eq_natCast_iff',
    Nat.mod_eq_of_lt (q.eval party).val.toNat_lt] at h

/-- Shares add as the polynomials do. -/
theorem eval_plus (dealer : Par BASE) (q r : Poly BASE DEG) (party : Par BASE) :
    (plus dealer q r).eval party = ⟨party, (q.eval party).val + (r.eval party).val⟩ := by
  have hval : ((plus dealer q r).eval party).val = (q.eval party).val + (r.eval party).val := by
    refine Field.bijective_toZMod.1 ?_
    rw [toZMod_eval hbase, Field.toZMod_add hbase, toZMod_eval hbase, toZMod_eval hbase, valueAt,
      valueAt, valueAt]
    push_cast
    have hsum : ∀ a b : Field BASE, ((a + b).val.toNat : ZMod BASE.toNat) =
        a.val.toNat + b.val.toNat := fun a b => Field.toZMod_add hbase a b
    simp only [plus, hsum, add_mul, Finset.sum_add_distrib]
    ring
  rw [← hval]
  rfl

theorem toNat_mul_eval (q r : Poly BASE DEG) (party : Par BASE) :
    ((q.eval party).val * (r.eval party).val).val.toNat =
      (q.valueAt party.alpha.val.toNat * r.valueAt party.alpha.val.toNat) % BASE.toNat := by
  have hmul := Field.mulExact_of_le hbase (q.eval party).val (r.eval party).val
  rw [hmul, toNat_eval hbase, toNat_eval hbase, ← Nat.mul_mod]

/-! ## Bundles of shares -/

/-- **Running shares are homomorphic.**  A share is the value of the polynomial;
the bundles of two polynomials add up, without exception, to the bundle of their
sum; and their product holds the product of the values for every party. -/
theorem running_shares (q r : Poly BASE DEG) (dealer : Par BASE) (ps : Parset BASE)
    (hidx : (ps.map Par.idx).Nodup) :
    (∀ p, (q.eval p).party = p ∧
      (q.eval p).val.val.toNat = (q.secret.val.toNat + ∑ i : Fin DEG,
        (q.coeffs i).val.toNat * p.alpha.val.toNat ^ (i.val + 1)) % BASE.toNat) ∧
    ∃ bq br sum prod, Bundle.make ps (ps.map q.eval) = .ok bq ∧
      Bundle.make ps (ps.map r.eval) = .ok br ∧
      bq.add br = .ok sum ∧ Bundle.make ps (ps.map (plus dealer q r).eval) = .ok sum ∧
      bq.mul br = .ok prod ∧ ∀ p ∈ ps, ∃ s, prod.at' p = .ok s ∧ s.party = p ∧
        s.val.val.toNat = (q.valueAt p.alpha.val.toNat * r.valueAt p.alpha.val.toNat) %
          BASE.toNat := by
  refine ⟨fun p => ⟨rfl, toNat_eval hbase q p⟩, ?_⟩
  obtain ⟨bq, hbq, hpq, hatq⟩ := Bundle.make_map_eq_ok (f := q.eval) (fun _ => rfl) hidx
  obtain ⟨br, hbr, hpr, hatr⟩ := Bundle.make_map_eq_ok (f := r.eval) (fun _ => rfl) hidx
  obtain ⟨sum, hsum, -, -⟩ :=
    Bundle.make_map_eq_ok (f := (plus dealer q r).eval) (fun _ => rfl) hidx
  obtain ⟨prod, hprod, -, hat⟩ := Bundle.make_map_eq_ok
    (f := fun p => ⟨p, (q.eval p).val * (r.eval p).val⟩) (fun _ => rfl) hidx
  refine ⟨bq, br, sum, prod, hbq, hbr, ?_, hsum, ?_, fun p hp => ⟨_, hat p hp, rfl, ?_⟩⟩
  · rw [← hsum]
    refine Bundle.combine_eq_make hpq hpr hatq hatr fun p _ => ?_
    rw [eval_plus hbase]
    exact Share.combine_same _ p _ _
  · rw [← hprod]
    exact Bundle.combine_eq_make hpq hpr hatq hatr fun p _ => Share.combine_same _ p _ _
  · exact toNat_mul_eval hbase q r p

end SmallBase

/-! ### The polynomial of the tests -/

/-- Two parties with points 5 and 17 modulo 23. -/
def testParties : Parset 23 := [⟨0, 0, .ofBase 5⟩, ⟨16, 1, .ofBase 17⟩]

/-- `8 + x + 3 * x ^ 2`. -/
def testPoly : Poly 23 2 := ⟨⟨16, 1, .ofBase 17⟩, .ofBase 8, ![.ofBase 1, .ofBase 3]⟩

example : testParties.map (fun p => (testPoly.eval p).val.val) = [19, 18] := by decide

theorem running_shares_test : ∃ bq sum, Bundle.make testParties (testParties.map testPoly.eval) =
    .ok bq ∧ bq.add bq = .ok sum := by
  obtain ⟨-, bq, br, sum, -, hbq, hbr, hsum, -⟩ := running_shares (by decide) testPoly testPoly
    testPoly.party testParties (by decide)
  rw [hbq, Except.ok.injEq] at hbr
  exact ⟨bq, sum, hbq, hbr ▸ hsum⟩

end Poly

end Gauv.Mpclib
