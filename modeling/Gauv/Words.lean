import Mathlib

/-!
# 64-bit words

The value of a sum, difference or product of machine words is the value computed
with natural numbers, modulo `2 ^ 64`.  Two words are equal when their values
are congruent.
-/

namespace Words

theorem toNat_modEq_iff {a b : UInt64} : a.toNat ≡ b.toNat [MOD 2 ^ 64] ↔ a = b := by
  rw [Nat.ModEq, Nat.mod_eq_of_lt a.toNat_lt, Nat.mod_eq_of_lt b.toNat_lt, UInt64.toNat_inj]

theorem toNat_ofNat_modEq (n : ℕ) : (UInt64.ofNat n).toNat ≡ n [MOD 2 ^ 64] := by
  rw [UInt64.toNat_ofNat']
  exact Nat.mod_modEq _ _

theorem toNat_add_modEq (a b : UInt64) : (a + b).toNat ≡ a.toNat + b.toNat [MOD 2 ^ 64] := by
  rw [UInt64.toNat_add]
  exact Nat.mod_modEq _ _

theorem toNat_mul_modEq (a b : UInt64) : (a * b).toNat ≡ a.toNat * b.toNat [MOD 2 ^ 64] := by
  rw [UInt64.toNat_mul]
  exact Nat.mod_modEq _ _

theorem nsmul_eq (n : ℕ) (a : UInt64) : n • a = UInt64.ofNat n * a := by
  rw [← toNat_modEq_iff]
  refine Nat.ModEq.trans ?_
    ((toNat_mul_modEq _ a).trans ((toNat_ofNat_modEq n).mul_right _)).symm
  induction n with
  | zero =>
      rw [zero_nsmul, Nat.zero_mul]
      rfl
  | succ n ih =>
      rw [succ_nsmul, Nat.succ_mul]
      exact (toNat_add_modEq _ a).trans (ih.add_right _)

/-- A word reduced after it wrapped is the residue of the exact value exactly
when the lost multiple of `2 ^ 64` vanishes modulo the modulus. -/
theorem mod_word_mod_iff (n m : ℕ) : n % 2 ^ 64 % m = n % m ↔ m ∣ 2 ^ 64 * (n / 2 ^ 64) := by
  have hn : n - n % 2 ^ 64 = 2 ^ 64 * (n / 2 ^ 64) := by
    have := Nat.div_add_mod n (2 ^ 64)
    omega
  rw [← hn]
  exact Nat.modEq_iff_dvd' (Nat.mod_le _ _)

/-- A running sum of words has the value of the sum. -/
theorem toNat_foldl_add {α : Type*} (f : α → UInt64) (l : List α) (r : UInt64) :
    (l.foldl (fun r a => r + f a) r).toNat ≡ r.toNat + (l.map fun a => (f a).toNat).sum
      [MOD 2 ^ 64] := by
  induction l generalizing r with
  | nil => exact Nat.ModEq.rfl
  | cons a l ih =>
      rw [List.foldl_cons, List.map_cons, List.sum_cons, ← Nat.add_assoc]
      exact (ih _).trans ((toNat_add_modEq r (f a)).add_right _)

/-- Horner's rule on words gives the value of the polynomial. -/
theorem toNat_foldl_horner (p : UInt64) (l : List UInt64) (r : UInt64) :
    (l.foldl (fun r a => r * p + a) r).toNat ≡
      r.toNat * p.toNat ^ l.length + Nat.ofDigits p.toNat (l.map UInt64.toNat).reverse
      [MOD 2 ^ 64] := by
  induction l generalizing r with
  | nil => simpa using Nat.ModEq.rfl
  | cons a l ih =>
      have hstep : (r * p + a).toNat ≡ r.toNat * p.toNat + a.toNat [MOD 2 ^ 64] :=
        (toNat_add_modEq _ _).trans ((toNat_mul_modEq r p).add_right _)
      calc (l.foldl (fun r a => r * p + a) (r * p + a)).toNat
          ≡ (r * p + a).toNat * p.toNat ^ l.length +
              Nat.ofDigits p.toNat (l.map UInt64.toNat).reverse [MOD 2 ^ 64] := ih _
        _ ≡ (r.toNat * p.toNat + a.toNat) * p.toNat ^ l.length +
              Nat.ofDigits p.toNat (l.map UInt64.toNat).reverse [MOD 2 ^ 64] :=
            (hstep.mul_right _).add_right _
        _ = r.toNat * p.toNat ^ (a :: l).length +
              Nat.ofDigits p.toNat ((a :: l).map UInt64.toNat).reverse := by
            rw [List.map_cons, List.reverse_cons, Nat.ofDigits_append, Nat.ofDigits_singleton,
              List.length_reverse, List.length_map, List.length_cons]
            ring

end Words
