import Gauv.Words

/-!
# Field elements

`field<BASE>` keeps a 64-bit value below its modulus.  Every operator computes
on 64-bit words first and reduces afterwards, so a carry, a borrow or a large
product has lost a multiple of `2 ^ 64` by the time it is reduced.  The result
is the residue of the exact one when that multiple is divisible by the modulus.
-/

namespace Gauv.Mpclib

/-- `field<BASE>`: a value below the modulus. -/
@[ext]
structure Field (BASE : UInt64) where
  val : UInt64
  lt_base : val < BASE
  deriving DecidableEq

namespace Field

variable {BASE : UInt64} [NeZero BASE]

/-- The modulus is not zero. -/
theorem base_pos : 0 < BASE := UInt64.pos_iff_ne_zero.2 (NeZero.ne BASE)

theorem mod_base_lt (val : UInt64) : val % BASE < BASE := UInt64.mod_lt _ base_pos

/-- The constructor `field(val)`. -/
def ofBase (val : UInt64) : Field BASE := ⟨val % BASE, mod_base_lt val⟩

/-- The default constructor. -/
instance : Zero (Field BASE) := ⟨⟨0, base_pos⟩⟩

instance : Add (Field BASE) := ⟨fun a b => ofBase ((a.val + b.val) % BASE)⟩

instance : Sub (Field BASE) := ⟨fun a b => ofBase ((a.val - b.val) % BASE)⟩

instance : Mul (Field BASE) := ⟨fun a b => ofBase ((a.val * b.val) % BASE)⟩

/-- `operator+=`. -/
def addAssign (a b : Field BASE) : Field BASE := ⟨(a.val + b.val) % BASE, mod_base_lt _⟩

/-- `operator-=`. -/
def subAssign (a b : Field BASE) : Field BASE := ⟨(a.val - b.val) % BASE, mod_base_lt _⟩

/-- `operator*=`. -/
def mulAssign (a b : Field BASE) : Field BASE := ⟨(a.val * b.val) % BASE, mod_base_lt _⟩

/-- The residue as an integer modulo `BASE`. -/
def toZMod (a : Field BASE) : ZMod BASE.toNat := a.val.toNat

omit [NeZero BASE] in
/-- An element is below the modulus. -/
theorem toNat_lt (a : Field BASE) : a.val.toNat < BASE.toNat := UInt64.lt_iff_toNat_lt.1 a.lt_base

/-! ## What the operators compute -/

theorem val_ofBase (val : UInt64) : (ofBase val : Field BASE).val = val % BASE := rfl

omit [NeZero BASE] in
/-- Reducing twice is reducing once. -/
theorem mod_mod_base (val : UInt64) : val % BASE % BASE = val % BASE :=
  UInt64.toNat_inj.1 (by rw [UInt64.toNat_mod, UInt64.toNat_mod, Nat.mod_mod])

/-- The assignment operators compute what the operators compute. -/
theorem addAssign_eq (a b : Field BASE) : a.addAssign b = a + b :=
  Field.ext (mod_mod_base _).symm

theorem subAssign_eq (a b : Field BASE) : a.subAssign b = a - b :=
  Field.ext (mod_mod_base _).symm

theorem mulAssign_eq (a b : Field BASE) : a.mulAssign b = a * b :=
  Field.ext (mod_mod_base _).symm

/-- The sum wraps at the word before it is reduced. -/
theorem toNat_add (a b : Field BASE) :
    (a + b).val.toNat = (a.val.toNat + b.val.toNat) % 2 ^ 64 % BASE.toNat := by
  rw [← addAssign_eq, addAssign, UInt64.toNat_mod, UInt64.toNat_add]

/-- The difference wraps at the word before it is reduced. -/
theorem toNat_sub (a b : Field BASE) :
    (a - b).val.toNat = (2 ^ 64 - b.val.toNat + a.val.toNat) % 2 ^ 64 % BASE.toNat := by
  rw [← subAssign_eq, subAssign, UInt64.toNat_mod, UInt64.toNat_sub]

/-- The product wraps at the word before it is reduced. -/
theorem toNat_mul (a b : Field BASE) :
    (a * b).val.toNat = (a.val.toNat * b.val.toNat) % 2 ^ 64 % BASE.toNat := by
  rw [← mulAssign_eq, mulAssign, UInt64.toNat_mod, UInt64.toNat_mul]

/-! ## When they are exact -/

/-- The sum is the residue of the integer sum. -/
def AddExact (a b : Field BASE) : Prop :=
  (a + b).val.toNat = (a.val.toNat + b.val.toNat) % BASE.toNat

/-- The difference is the residue of the integer difference. -/
def SubExact (a b : Field BASE) : Prop :=
  ((a - b).val.toNat : ℤ) = (a.val.toNat - b.val.toNat : ℤ) % BASE.toNat

/-- The product is the residue of the integer product. -/
def MulExact (a b : Field BASE) : Prop :=
  (a * b).val.toNat = (a.val.toNat * b.val.toNat) % BASE.toNat

/-- A sum is the residue of the true one unless it wraps to another residue. -/
theorem addExact_iff (a b : Field BASE) :
    AddExact a b ↔ a.val.toNat + b.val.toNat < 2 ^ 64 ∨ BASE.toNat ∣ 2 ^ 64 := by
  have ha := a.val.toNat_lt
  have hb := b.val.toNat_lt
  rw [AddExact, toNat_add, Words.mod_word_mod_iff]
  by_cases hlt : a.val.toNat + b.val.toNat < 2 ^ 64
  · rw [Nat.div_eq_of_lt hlt, Nat.mul_zero]
    exact iff_of_true (dvd_zero _) (Or.inl hlt)
  · -- one carry is lost
    have hcarry : (a.val.toNat + b.val.toNat) / 2 ^ 64 = 1 := by omega
    rw [hcarry, Nat.mul_one, or_iff_right hlt]

/-- A difference is the residue of the true one unless it borrows to another residue. -/
theorem subExact_iff (a b : Field BASE) :
    SubExact a b ↔ b.val ≤ a.val ∨ BASE.toNat ∣ 2 ^ 64 := by
  have ha := a.val.toNat_lt
  have hb := b.val.toNat_lt
  rw [SubExact, toNat_sub, Int.natCast_mod, UInt64.le_iff_toNat_le]
  by_cases hle : b.val.toNat ≤ a.val.toNat
  · have hword : (2 ^ 64 - b.val.toNat + a.val.toNat) % 2 ^ 64 = a.val.toNat - b.val.toNat := by
      omega
    rw [hword, Nat.cast_sub hle]
    exact iff_of_true rfl (Or.inl hle)
  · -- the borrow adds `2 ^ 64`
    have hword : ((2 ^ 64 - b.val.toNat + a.val.toNat) % 2 ^ 64 : ℕ) =
        (a.val.toNat - b.val.toNat : ℤ) + 2 ^ 64 := by
      omega
    rw [hword, or_iff_right hle, ← Int.natCast_dvd_natCast, Int.emod_eq_emod_iff_emod_sub_eq_zero,
      add_sub_cancel_left, ← Int.dvd_iff_emod_eq_zero]
    rfl

/-- A product is the residue of the true one when what the wrapping loses has residue
zero. -/
theorem mulExact_iff (a b : Field BASE) :
    MulExact a b ↔ BASE.toNat ∣ 2 ^ 64 * (a.val.toNat * b.val.toNat / 2 ^ 64) := by
  rw [MulExact, toNat_mul, Words.mod_word_mod_iff]

/-- Every sum, difference and product is exact only for a modulus that divides
`2 ^ 64`: with any other, `0 - 1` is wrong. -/
theorem forall_exact_iff : (∀ a b : Field BASE, AddExact a b ∧ SubExact a b ∧ MulExact a b) ↔
    BASE.toNat ∣ 2 ^ 64 := by
  constructor
  · intro h
    by_contra hdvd
    have hbase : 1 < BASE := by
      rw [UInt64.lt_iff_toNat_lt, UInt64.toNat_one]
      have hpos := UInt64.lt_iff_toNat_lt.1 (@base_pos BASE _)
      rw [UInt64.toNat_zero] at hpos
      refine lt_of_le_of_ne hpos fun hone => hdvd ?_
      rw [← hone]
      exact one_dvd _
    rcases (subExact_iff 0 (⟨1, hbase⟩ : Field BASE)).1 (h _ _).2.1 with hle | h64
    · exact absurd (show (1 : UInt64) ≤ 0 from hle) (by decide)
    · exact hdvd h64
  · intro h a b
    exact ⟨(addExact_iff a b).2 (Or.inr h), (subExact_iff a b).2 (Or.inr h),
      (mulExact_iff a b).2 (h.mul_right _)⟩

/-! ## The ring of residues -/

/-- The elements are the residues. -/
theorem bijective_toZMod : Function.Bijective (@toZMod BASE) := by
  have hpos := UInt64.lt_iff_toNat_lt.1 (@base_pos BASE _)
  have : NeZero BASE.toNat := ⟨hpos.ne'⟩
  refine ⟨fun a b h => ?_, fun z => ?_⟩
  · have h := (ZMod.natCast_eq_natCast_iff' _ _ _).1 h
    rw [Nat.mod_eq_of_lt a.toNat_lt, Nat.mod_eq_of_lt b.toNat_lt] at h
    exact Field.ext (UInt64.toNat_inj.1 h)
  · have hz : z.val < 2 ^ 64 := z.val_lt.trans BASE.toNat_lt
    refine ⟨ofBase (UInt64.ofNat z.val), ?_⟩
    rw [toZMod, val_ofBase, UInt64.toNat_mod, UInt64.toNat_ofNat', Nat.mod_eq_of_lt hz,
      Nat.mod_eq_of_lt z.val_lt, ZMod.natCast_zmod_val]

/-- The sum maps to the sum of residues exactly when it is exact. -/
theorem toZMod_add_iff (a b : Field BASE) :
    toZMod (a + b) = toZMod a + toZMod b ↔ AddExact a b := by
  rw [toZMod, toZMod, toZMod, ← Nat.cast_add, ZMod.natCast_eq_natCast_iff',
    Nat.mod_eq_of_lt (a + b).toNat_lt, AddExact]

theorem toZMod_sub_iff (a b : Field BASE) :
    toZMod (a - b) = toZMod a - toZMod b ↔ SubExact a b := by
  have hcast : toZMod a - toZMod b = ((a.val.toNat - b.val.toNat : ℤ) : ZMod BASE.toNat) := by
    rw [toZMod, toZMod]
    push_cast
    rfl
  have hself : toZMod (a - b) = (((a - b).val.toNat : ℤ) : ZMod BASE.toNat) := by
    rw [toZMod, Int.cast_natCast]
  have hlt := (a - b).toNat_lt
  rw [hcast, hself, ZMod.intCast_eq_intCast_iff', SubExact,
    Int.emod_eq_of_lt (by omega) (by omega)]

theorem toZMod_mul_iff (a b : Field BASE) :
    toZMod (a * b) = toZMod a * toZMod b ↔ MulExact a b := by
  rw [toZMod, toZMod, toZMod, ← Nat.cast_mul, ZMod.natCast_eq_natCast_iff',
    Nat.mod_eq_of_lt (a * b).toNat_lt, MulExact]

/-- The values with their operators are the ring of integers modulo `BASE`. -/
def IsResidueRing (BASE : UInt64) [NeZero BASE] : Prop :=
  Function.Bijective (@toZMod BASE) ∧ ∀ a b : Field BASE,
    toZMod (a + b) = toZMod a + toZMod b ∧ toZMod (a - b) = toZMod a - toZMod b ∧
      toZMod (a * b) = toZMod a * toZMod b

/-- The operators are those of the residue ring exactly for a modulus that divides `2
^ 64`. -/
theorem isResidueRing_iff : IsResidueRing BASE ↔ BASE.toNat ∣ 2 ^ 64 := by
  rw [IsResidueRing, and_iff_right bijective_toZMod]
  simp only [toZMod_add_iff, toZMod_sub_iff, toZMod_mul_iff]
  exact forall_exact_iff

/-- **When field arithmetic is exact.**  The compound forms compute what the
operators do and every result is below the modulus; each operator is exact on
the operands given here, and all are on all operands, which makes `field<BASE>`
the ring of residues, exactly when the modulus divides `2 ^ 64`. -/
theorem field_exact_iff : (∀ a b : Field BASE,
      (AddExact a b ↔ a.val.toNat + b.val.toNat < 2 ^ 64 ∨ BASE.toNat ∣ 2 ^ 64) ∧
      (SubExact a b ↔ b.val ≤ a.val ∨ BASE.toNat ∣ 2 ^ 64) ∧
      (MulExact a b ↔ BASE.toNat ∣ 2 ^ 64 * (a.val.toNat * b.val.toNat / 2 ^ 64)) ∧
      a.addAssign b = a + b ∧ a.subAssign b = a - b ∧ a.mulAssign b = a * b ∧
      (a + b).val < BASE ∧ (a - b).val < BASE ∧ (a * b).val < BASE) ∧
    ((∀ a b : Field BASE, AddExact a b ∧ SubExact a b ∧ MulExact a b) ↔ BASE.toNat ∣ 2 ^ 64) ∧
    (IsResidueRing BASE ↔ BASE.toNat ∣ 2 ^ 64) :=
  ⟨fun a b => ⟨addExact_iff a b, subExact_iff a b, mulExact_iff a b, addAssign_eq a b,
    subAssign_eq a b, mulAssign_eq a b, (a + b).lt_base, (a - b).lt_base, (a * b).lt_base⟩,
    forall_exact_iff, isResidueRing_iff⟩

/-! ### The modulus 23 -/

instance : NeZero (23 : UInt64) := ⟨by decide⟩

/-- With modulus 23, `5 - 17` borrows and comes out as 17 in place of 11. -/
theorem borrow_wraps : ¬ ∀ (BASE : UInt64) [NeZero BASE] (a b : Field BASE),
    AddExact a b ∧ SubExact a b ∧ MulExact a b := by
  intro h
  have hsub := (h 23 (ofBase 5) (ofBase 17)).2.1
  exact absurd hsub (by unfold SubExact; decide)

theorem field_exact_iff_23 :
    (∀ a b : Field 23, AddExact a b ∧ SubExact a b ∧ MulExact a b) ↔ 23 ∣ 2 ^ 64 :=
  field_exact_iff.2.1

end Field

end Gauv.Mpclib
