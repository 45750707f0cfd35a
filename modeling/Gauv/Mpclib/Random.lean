import Gauv.Sampling
import Gauv.Sharing
import Gauv.Mpclib.Poly

/-!
# Random polynomials

`rand_field` reduces a uniform 64-bit word, so the small residues come once more
often than the others unless the modulus divides `2 ^ 64`.  The shares of a random
polynomial of `poly_gen` hide the secret up to this bias, and only up to it: modulo
an odd prime they never hide it perfectly.
-/

namespace Gauv.Mpclib

variable {BASE : UInt64} [NeZero BASE]

/-! ## One coefficient -/

/-- `rand_field`, when the generator draws the word. -/
def randField (word : UInt64) : Field BASE := .ofBase word

/-- `poly_gen`, when the generator draws the words. -/
def polyGen {DEG : ℕ} (party : Par BASE) (secret : Field BASE) (words : Fin DEG → UInt64) :
    Poly BASE DEG :=
  ⟨party, secret, randField ∘ words⟩

open Sampling

/-- The words for a residue. -/
theorem count_randField (r : Field BASE) : count randField r =
    2 ^ 64 / BASE.toNat + if r.val.toNat < 2 ^ 64 % BASE.toNat then 1 else 0 := by
  have hwords : {w : UInt64 // randField w = r} ≃
      {w : Fin (2 ^ 64) // w.val % BASE.toNat = r.val.toNat} :=
    { toFun := fun w => ⟨⟨w.1.toNat, w.1.toNat_lt⟩, by
        have hval := congrArg (UInt64.toNat ∘ Field.val) w.2
        rwa [Function.comp_apply, randField, Field.val_ofBase, UInt64.toNat_mod] at hval⟩
      invFun := fun w => ⟨UInt64.ofNatLT w.1.val w.1.isLt, by
        refine Field.ext (UInt64.toNat_inj.1 ?_)
        rw [randField, Field.val_ofBase, UInt64.toNat_mod, UInt64.toNat_ofNatLT]
        exact w.2⟩
      left_inv := fun w => Subtype.ext (UInt64.toNat_inj.1 UInt64.toNat_ofNatLT)
      right_inv := fun w => Subtype.ext (Fin.ext UInt64.toNat_ofNatLT) }
  have hpos : 0 < BASE.toNat := UInt64.lt_iff_toNat_lt.1 Field.base_pos
  unfold count
  rw [Nat.card_congr hwords, card_residue _ hpos r.toNat_lt]

theorem le_count_randField (r : Field BASE) : 2 ^ 64 / BASE.toNat ≤ count randField r := by
  rw [count_randField]
  omega

theorem count_randField_le (r : Field BASE) :
    count randField r ≤ 2 ^ 64 / BASE.toNat + 1 := by
  rw [count_randField]
  split <;> omega

/-! ## The coefficients behind a view -/

section Views

variable {DEG : ℕ} {ps : List (Par BASE)} {view : List (Share BASE)} {dealer : Par BASE}
  {s s' : Field BASE}

/-- The number of tuples of words for which `poly_gen` makes a polynomial that
sends the parties the view. -/
noncomputable def viewWords (DEG : ℕ) (dealer : Par BASE) (secret : Field BASE)
    (ps : List (Par BASE)) (view : List (Share BASE)) : ℕ :=
  Nat.card {words : Fin DEG → UInt64 // ps.map (polyGen dealer secret words).eval = view}

/-- The coefficients of such polynomials. -/
def coeffsOf (DEG : ℕ) (dealer : Par BASE) (secret : Field BASE) (ps : List (Par BASE))
    (view : List (Share BASE)) : Set (Fin DEG → Field BASE) :=
  {c | ps.map (Poly.mk dealer secret c).eval = view}

theorem viewWords_eq (DEG : ℕ) (dealer : Par BASE) (secret : Field BASE) (ps : List (Par BASE))
    (view : List (Share BASE)) : viewWords DEG dealer secret ps view =
      draws randField (coeffsOf DEG dealer secret ps view) := rfl

instance finite_field : Finite (Field BASE) :=
  haveI : NeZero BASE.toNat := ⟨(UInt64.lt_iff_toNat_lt.1 Field.base_pos).ne'⟩
  Finite.of_injective Field.toZMod Field.bijective_toZMod.1

/-- The residue with a given value. -/
noncomputable def ofZMod (x : ZMod BASE.toNat) : Field BASE :=
  (Equiv.ofBijective Field.toZMod Field.bijective_toZMod).symm x

@[simp] theorem toZMod_ofZMod (x : ZMod BASE.toNat) : (ofZMod x : Field BASE).toZMod = x :=
  Equiv.ofBijective_apply_symm_apply Field.toZMod Field.bijective_toZMod x

theorem toZMod_eval_mk (hbase : BASE.toNat ≤ 2 ^ 32) (dealer : Par BASE) (secret : Field BASE)
    (c : Fin DEG → Field BASE) (p : Par BASE) :
    ((Poly.mk dealer secret c).eval p).val.toZMod =
      secret.toZMod + ∑ k, (c k).toZMod * p.alpha.toZMod ^ (k.val + 1) := by
  rw [Poly.toZMod_eval hbase, Poly.valueAt]
  push_cast
  rfl

theorem eval_eq_iff (hbase : BASE.toNat ≤ 2 ^ 32) {c c' : Fin DEG → Field BASE} {p : Par BASE} :
    (Poly.mk dealer s c).eval p = (Poly.mk dealer s' c').eval p ↔
      s.toZMod + ∑ k, (c k).toZMod * p.alpha.toZMod ^ (k.val + 1) =
        s'.toZMod + ∑ k, (c' k).toZMod * p.alpha.toZMod ^ (k.val + 1) := by
  rw [← toZMod_eval_mk hbase dealer s c, ← toZMod_eval_mk hbase dealer s' c',
    Field.bijective_toZMod.1.eq_iff]
  exact ⟨fun h => congrArg Share.val h, fun h => congrArg (Share.mk p) h⟩

theorem toZMod_eq_zero_iff {a : Field BASE} : a.toZMod = 0 ↔ a.val = 0 := by
  have hzero : (0 : Field BASE).toZMod = 0 := Nat.cast_zero
  rw [← hzero, Field.bijective_toZMod.1.eq_iff]
  exact ⟨fun h => congrArg Field.val h, fun h => Field.ext h⟩

section Prime

variable (hprime : BASE.toNat.Prime) (hbase : BASE.toNat ≤ 2 ^ 32)

include hprime hbase

omit hbase in
theorem exists_vanishing (hps : ∀ p ∈ ps, p.alpha.val ≠ 0) (hlen : ps.length ≤ DEG) :
    ∃ b : Fin DEG → ZMod BASE.toNat,
      ∀ p ∈ ps, ∑ k, b k * p.alpha.toZMod ^ (k.val + 1) = -1 := by
  have : Fact BASE.toNat.Prime := ⟨hprime⟩
  have hpoints : ∀ x ∈ ps.map fun p => p.alpha.toZMod, x ≠ 0 := fun x hx => by
    obtain ⟨p, hp, rfl⟩ := List.mem_map.1 hx
    exact fun h => hps p hp (toZMod_eq_zero_iff.1 h)
  obtain ⟨b, hb⟩ := Sharing.exists_vanishing hpoints (by simpa using hlen)
  exact ⟨b, fun p hp => hb _ (List.mem_map_of_mem hp)⟩

/-- Up to `DEG` parties are sent a view for as many polynomials with one secret as
with another: a multiple of a polynomial that vanishes at their points takes the
ones to the others. -/
theorem card_coeffsOf_le (hps : ∀ p ∈ ps, p.alpha.val ≠ 0) (hlen : ps.length ≤ DEG) :
    Nat.card (coeffsOf DEG dealer s ps view) ≤ Nat.card (coeffsOf DEG dealer s' ps view) := by
  obtain ⟨b, hb⟩ := exists_vanishing hprime hps hlen
  let shift : (Fin DEG → Field BASE) → Fin DEG → Field BASE := fun c k =>
    ofZMod ((c k).toZMod + (s'.toZMod - s.toZMod) * b k)
  have hshift : ∀ c ∈ coeffsOf DEG dealer s ps view, shift c ∈ coeffsOf DEG dealer s' ps view := by
    intro c hc
    refine Eq.trans (List.map_congr_left fun p hp => ?_) hc
    refine (eval_eq_iff hbase).2 ?_
    simp only [shift, toZMod_ofZMod, add_mul, mul_assoc, Finset.sum_add_distrib, ← Finset.mul_sum,
      hb p hp]
    ring
  refine Nat.card_le_card_of_injective (fun c => ⟨shift c.1, hshift c.1 c.2⟩) fun c c' h => ?_
  refine Subtype.ext (funext fun k => Field.bijective_toZMod.1 ?_)
  have hk := congrArg Field.toZMod (congrFun (congrArg Subtype.val h) k)
  simp only [shift, toZMod_ofZMod] at hk
  exact add_right_cancel hk

/-- As many parties as coefficients see all of them, once the secret is known. -/
theorem eq_of_mem_coeffsOf (hps : ∀ p ∈ ps, p.alpha.val ≠ 0) (hnodup : (ps.map Par.alpha).Nodup)
    (hlen : ps.length = DEG) {c c' : Fin DEG → Field BASE}
    (hc : c ∈ coeffsOf DEG dealer s ps view) (hc' : c' ∈ coeffsOf DEG dealer s ps view) :
    c = c' := by
  have : Fact BASE.toNat.Prime := ⟨hprime⟩
  subst hlen
  have hinj : Function.Injective fun i => (ps.get i).alpha.toZMod := fun i j h =>
    List.nodup_iff_injective_get.1 hnodup.of_map
      (List.inj_on_of_nodup_map hnodup (List.get_mem ps i) (List.get_mem ps j)
        (Field.bijective_toZMod.1 h))
  have hcoeffs := Sharing.coeffs_eq_of_shares_eq (b := fun k => (c k).toZMod)
    (c := fun k => (c' k).toZMod) hinj
    (fun i h => hps _ (List.get_mem ps i) (toZMod_eq_zero_iff.1 h)) fun i =>
      add_left_cancel ((eval_eq_iff hbase).1
        (List.map_inj_left.1 (hc.trans hc'.symm) _ (List.get_mem ps i)))
  exact funext fun k => Field.bijective_toZMod.1 (congrFun hcoeffs k)

/-- The zero polynomial is drawn more often than some other polynomial that sends
the parties the same shares. -/
theorem exists_viewWords_lt (dealer : Par BASE) (hps : ∀ p ∈ ps, p.alpha.val ≠ 0)
    (hnodup : (ps.map Par.alpha).Nodup) (hlen : ps.length = DEG) (hpos : 0 < DEG)
    (hbias : 0 < 2 ^ 64 % BASE.toNat) :
    ∃ s, ∃ view : List (Share BASE),
      viewWords DEG dealer s ps view < viewWords DEG dealer 0 ps view := by
  have : Fact BASE.toNat.Prime := ⟨hprime⟩
  have hzero : (0 : Field BASE).toZMod = 0 := Nat.cast_zero
  obtain ⟨b, hb⟩ := exists_vanishing hprime hps hlen.le
  obtain ⟨p₀, hp₀⟩ := List.exists_mem_of_length_pos (hlen ▸ hpos)
  obtain ⟨k, hk⟩ : ∃ k, b k ≠ 0 := by
    by_contra hall
    push Not at hall
    have hsum := hb p₀ hp₀
    simp [hall] at hsum
  let c : Fin DEG → Field BASE := fun j => ofZMod (-(b k)⁻¹ * b j)
  let view := ps.map (Poly.mk dealer 0 fun _ : Fin DEG => 0).eval
  have hmem₀ : (fun _ => 0) ∈ coeffsOf DEG dealer 0 ps view := rfl
  have hmem : c ∈ coeffsOf DEG dealer (ofZMod (-(b k)⁻¹)) ps view := by
    refine List.map_congr_left fun p hp => (eval_eq_iff hbase).2 ?_
    simp only [c, toZMod_ofZMod, mul_assoc, ← Finset.mul_sum, hb p hp, hzero]
    simp
  have hsingle : ∀ {s : Field BASE} {c : Fin DEG → Field BASE},
      c ∈ coeffsOf DEG dealer s ps view → coeffsOf DEG dealer s ps view = {c} := fun hc =>
    Set.eq_singleton_iff_unique_mem.2
      ⟨hc, fun _ hc' => eq_of_mem_coeffsOf hprime hbase hps hnodup hlen hc' hc⟩
  refine ⟨ofZMod (-(b k)⁻¹), view, ?_⟩
  rw [viewWords_eq, viewWords_eq, hsingle hmem₀, hsingle hmem]
  refine draws_singleton_lt count_randField_le (fun _ => ?_) (k := k) ?_
  · exact (count_randField 0).trans (congrArg _ (if_pos hbias))
  · -- the coefficient is the largest residue
    have hck : (c k).toZMod = -1 := by
      simp only [c, toZMod_ofZMod, neg_mul, inv_mul_cancel₀ hk]
    have hlarge : BASE.toNat ≤ (c k).val.toNat + 1 := by
      refine Nat.le_of_dvd (Nat.succ_pos _) ((ZMod.natCast_eq_zero_iff _ _).1 ?_)
      rw [Nat.cast_succ]
      exact eq_neg_iff_add_eq_zero.1 hck
    have hmod : 2 ^ 64 % BASE.toNat < BASE.toNat := Nat.mod_lt _ hprime.pos
    rw [count_randField, if_neg (by omega)]
    omega

/-- **Shamir's secrecy, with the sampler of the library.**  For any two secrets a
view of up to `DEG` parties is drawn about equally often: the numbers of tuples of
words differ at most by the factor `(1 + 1 / q) ^ DEG`, where `q` is the quotient of
`2 ^ 64` and the modulus.  For `DEG` parties they agree for all views only modulo
`2`. -/
theorem secrecy_polyGen (hps : ∀ p ∈ ps, p.alpha.val ≠ 0) (hlen : ps.length ≤ DEG) :
    (∀ (s s' : Field BASE) view, viewWords DEG dealer s ps view * (2 ^ 64 / BASE.toNat) ^ DEG ≤
      viewWords DEG dealer s' ps view * (2 ^ 64 / BASE.toNat + 1) ^ DEG) ∧
    ((ps.map Par.alpha).Nodup → ps.length = DEG → 0 < DEG →
      ((∀ (s s' : Field BASE) view, viewWords DEG dealer s ps view =
        viewWords DEG dealer s' ps view) ↔ BASE.toNat = 2)) := by
  have hcard : ∀ (s s' : Field BASE) view, Nat.card (coeffsOf DEG dealer s ps view) =
      Nat.card (coeffsOf DEG dealer s' ps view) := fun s s' view =>
    le_antisymm (card_coeffsOf_le hprime hbase hps hlen) (card_coeffsOf_le hprime hbase hps hlen)
  refine ⟨fun s s' view => ?_, fun hnodup heq hpos => ⟨fun hall => ?_, fun htwo s s' view => ?_⟩⟩
  · exact draws_ratio le_count_randField count_randField_le (hcard s s' view)
  · by_contra hne
    have hbias : 2 ^ 64 % BASE.toNat ≠ 0 := fun h => hne
      ((Nat.prime_dvd_prime_iff_eq hprime Nat.prime_two).1
        (hprime.dvd_of_dvd_pow (Nat.dvd_of_mod_eq_zero h)))
    obtain ⟨s, view, hlt⟩ := exists_viewWords_lt hprime hbase dealer hps hnodup heq hpos
      (Nat.pos_of_ne_zero hbias)
    exact hlt.ne (hall s 0 view)
  · have hcount : ∀ r : Field BASE, count randField r = 2 ^ 64 / BASE.toNat := fun r => by
      rw [count_randField, htwo]
      norm_num
    exact draws_eq_of_count hcount (hcard s s' view)

end Prime

/-- Modulo 23 the two shares of a random polynomial of degree 2 say little, but not
nothing. -/
theorem secrecy_polyGen_23 :
    (∀ (s s' : Field 23) view, viewWords 2 ⟨0, 0, 0⟩ s Poly.testParties view * (2 ^ 64 / 23) ^ 2 ≤
      viewWords 2 ⟨0, 0, 0⟩ s' Poly.testParties view * (2 ^ 64 / 23 + 1) ^ 2) ∧
    ∃ (s s' : Field 23) (view : _), viewWords 2 ⟨0, 0, 0⟩ s Poly.testParties view ≠
      viewWords 2 ⟨0, 0, 0⟩ s' Poly.testParties view := by
  obtain ⟨hratio, hperfect⟩ := @secrecy_polyGen 23 _ 2 Poly.testParties ⟨0, 0, 0⟩
    (by decide) (by decide) (by decide) (by decide)
  refine ⟨hratio, ?_⟩
  by_contra hall
  push Not at hall
  exact absurd ((hperfect (by decide) rfl (by decide)).1 hall) (by decide)

end Views

end Gauv.Mpclib
