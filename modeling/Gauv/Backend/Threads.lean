import Gauv.Words
import Gauv.Reduction
import Gauv.Backend.Graph

/-!
# Hashes and the size of the team

Both hashes run a loop inside a `parallel reduction` region that has no
work-sharing `for`.  The builder runs them with a team of eight threads, the
prover, inside its own parallel loop, with a team of one.  The sum of the input
guids is then counted eight times, and the xor of the edge hashes is zero for
every even team.
-/

namespace Gauv

open OpenMP

/-! ## The regions as they stand in the source -/

/-- `Operation::generateHash` run by a team; the output may be the null pointer. -/
def Operation.generateHashParallel (team : ℕ) (type : Operator) (inputs : List Node)
    (output : Option Node) : UInt64 :=
  let res := UInt64.ofNat type.toNat * 2333333
  let resp := parallelReduction (· + ·) 0 team
    (fun resp => inputs.foldl (fun resp input => resp + UInt64.ofNat input.guid) resp) 0
  let res := (res + resp) * 2333333
  output.elim res fun output => res + UInt64.ofNat output.guid

/-- `GraphBase::generateHash` run by a team. -/
def GraphBase.generateHashParallel (team : ℕ) (inEdgesOf : OpTable) : UInt64 :=
  inEdgesOf.foldl (fun res inEdges =>
    let cur_res := parallelReduction (· ^^^ ·) 0 team
      (fun cur_res => inEdges.foldl (fun cur_res edge => cur_res ^^^ edge.hash) cur_res) 0
    res * 1000000009 + cur_res) 0

/-! ## Operations -/

namespace Operation

variable (team : ℕ) (type : Operator) (inputs : List Node)

theorem toNat_sum_guids :
    (inputs.foldl (fun resp input => resp + UInt64.ofNat input.guid) 0).toNat ≡
      (inputs.map Node.guid).sum [MOD 2 ^ 64] := by
  refine (Words.toNat_foldl_add _ inputs 0).trans ?_
  rw [UInt64.toNat_zero, Nat.zero_add]
  induction inputs with
  | nil => exact Nat.ModEq.rfl
  | cons n ns ih =>
      rw [List.map_cons, List.map_cons, List.sum_cons, List.sum_cons]
      exact (Words.toNat_ofNat_modEq n.guid).add ih

/-- The sum over the inputs comes out once for each thread. -/
theorem parallelReduction_guids :
    parallelReduction (· + ·) 0 team (fun resp : UInt64 =>
      inputs.foldl (fun resp input => resp + UInt64.ofNat input.guid) resp) 0 =
      UInt64.ofNat team * inputs.foldl (fun resp input => resp + UInt64.ofNat input.guid) 0 := by
  rw [parallelReduction_add, zero_add, Words.nsmul_eq]

/-- The hash kept with an operation of the graph is the one the region computes. -/
theorem generateHash_eq_parallel (output : Node) :
    generateHash team type inputs output =
      generateHashParallel team type inputs (some output) := by
  rw [generateHash, generateHashParallel, parallelReduction_guids]
  rfl

/-- The value of the hash before it wraps. -/
theorem toNat_generateHashParallel (output : Option Node) :
    (generateHashParallel team type inputs output).toNat ≡
      (type.toNat * 2333333 + team * (inputs.map Node.guid).sum) * 2333333 +
        output.elim 0 Node.guid [MOD 2 ^ 64] := by
  have hmagic : (2333333 : UInt64).toNat = 2333333 := rfl
  have htype : (UInt64.ofNat type.toNat * 2333333).toNat ≡ type.toNat * 2333333 [MOD 2 ^ 64] := by
    have h := Words.toNat_mul_modEq (UInt64.ofNat type.toNat) 2333333
    rw [hmagic] at h
    exact h.trans ((Words.toNat_ofNat_modEq _).mul_right _)
  have hguids := (Words.toNat_mul_modEq (UInt64.ofNat team) _).trans
    ((Words.toNat_ofNat_modEq team).mul (toNat_sum_guids inputs))
  have hres := Words.toNat_mul_modEq (UInt64.ofNat type.toNat * 2333333 + UInt64.ofNat team *
    inputs.foldl (fun resp input => resp + UInt64.ofNat input.guid) 0) 2333333
  rw [hmagic] at hres
  replace hres := hres.trans
    (((Words.toNat_add_modEq _ _).trans (htype.add hguids)).mul_right 2333333)
  rw [generateHashParallel, parallelReduction_guids]
  cases output with
  | none =>
      rw [Option.elim_none, Option.elim_none, Nat.add_zero]
      exact hres
  | some output =>
      rw [Option.elim_some, Option.elim_some]
      exact (Words.toNat_add_modEq _ _).trans (hres.add (Words.toNat_ofNat_modEq output.guid))

/-- **An operation's hash is that of one thread** exactly when what the other
threads add is a multiple of `2 ^ 64`. -/
theorem generateHashParallel_eq_one_iff (output : Option Node) (hteam : 1 ≤ team) :
    generateHashParallel team type inputs output = generateHashParallel 1 type inputs output ↔
      2 ^ 64 ∣ (team - 1) * (inputs.map Node.guid).sum := by
  have hcoprime : Nat.gcd (2 ^ 64) 2333333 = 1 := by decide
  have hsurplus : team * (inputs.map Node.guid).sum - 1 * (inputs.map Node.guid).sum =
      (team - 1) * (inputs.map Node.guid).sum := (Nat.sub_mul ..).symm
  rw [← Words.toNat_modEq_iff, ← hsurplus, ← Nat.modEq_iff_dvd' (Nat.mul_le_mul_right _ hteam)]
  have hk := toNat_generateHashParallel team type inputs output
  have hone := toNat_generateHashParallel 1 type inputs output
  constructor
  · intro h
    -- the output, the factor and the operator cancel: the factor is odd
    have h := (hone.symm.trans (h.symm.trans hk)).add_right_cancel'
    exact (h.cancel_right_of_coprime hcoprime).add_left_cancel'
  · intro h
    exact hk.trans ((((h.symm.add_left _).mul_right _).add_right _).trans hone.symm)

end Operation

/-! ## Tables -/

/-- The xor of the hashes of a list of operations. -/
def xorHash (edges : List Operation) : UInt64 := edges.foldl (fun r e => r ^^^ e.hash) 0

namespace GraphBase

theorem parallelReduction_xor (team : ℕ) (es : List Operation) :
    parallelReduction (· ^^^ ·) 0 team (fun r => es.foldl (fun r e => r ^^^ e.hash) r) 0 =
      if team % 2 = 1 then xorHash es else 0 := by
  rw [parallelReduction_cancel (fun _ => UInt64.xor_zero) fun _ => UInt64.xor_self,
    UInt64.zero_xor, xorHash]

/-- A team of odd size computes the hash of one thread, and a team of even size
computes zero, whatever the edges. -/
theorem generateHashParallel_eq (team : ℕ) (t : OpTable) :
    generateHashParallel team t =
      if team % 2 = 1 then (t.map xorHash).foldl (fun r a => r * 1000000009 + a) 0 else 0 := by
  rw [generateHashParallel]
  simp only [parallelReduction_xor]
  split
  · rw [List.foldl_map]
  · induction t with
    | nil => rfl
    | cons es t ih => exact ih

/-- The hash kept with a graph is the one the region computes. -/
theorem generateHash_eq_parallel (team : ℕ) (t : OpTable) :
    generateHash team t = generateHashParallel team t := by
  have hfold : ∀ r : UInt64, t.foldl (fun res inEdges =>
      let once := inEdges.foldl (fun r e => r ^^^ e.hash) 0
      res * 1000000009 + if team % 2 = 1 then once else 0) r =
      t.foldl (fun res inEdges => res * 1000000009 + parallelReduction (· ^^^ ·) 0 team
        (fun r => inEdges.foldl (fun r e => r ^^^ e.hash) r) 0) r := by
    intro r
    simp only [parallelReduction_xor]
    rfl
  exact hfold 0

/-- The value of a single thread's hash before it wraps. -/
theorem toNat_generateHashParallel_one (t : OpTable) :
    (generateHashParallel 1 t).toNat ≡
      Nat.ofDigits 1000000009 (t.map fun es => (xorHash es).toNat).reverse [MOD 2 ^ 64] := by
  have hmagic : (1000000009 : UInt64).toNat = 1000000009 := rfl
  have h := Words.toNat_foldl_horner 1000000009 (t.map xorHash) 0
  rw [hmagic, UInt64.toNat_zero, Nat.zero_mul, Nat.zero_add, List.map_map] at h
  rw [generateHashParallel_eq, if_pos rfl]
  exact h

/-- **A table's hash is that of one thread** exactly when the team is odd or the
polynomial in the xors of the in-lists vanishes. -/
theorem generateHashParallel_eq_one_iff (team : ℕ) (t : OpTable) :
    generateHashParallel team t = generateHashParallel 1 t ↔ team % 2 = 1 ∨
      2 ^ 64 ∣ Nat.ofDigits 1000000009 (t.map fun es => (xorHash es).toNat).reverse := by
  by_cases hodd : team % 2 = 1
  · rw [generateHashParallel_eq, generateHashParallel_eq 1, if_pos hodd, if_pos rfl]
    exact iff_of_true rfl (Or.inl hodd)
  · rw [generateHashParallel_eq, if_neg hodd, or_iff_right hodd, ← Nat.modEq_zero_iff_dvd,
      ← Words.toNat_modEq_iff, UInt64.toNat_zero]
    have h := toNat_generateHashParallel_one t
    exact ⟨fun h0 => h.symm.trans h0.symm, fun h0 => (h.trans h0).symm⟩

end GraphBase

/-! ## Every hash -/

/-- **Hashes and the size of the team.**  A team of `k` threads computes the hash
of one thread for an operation, for a table, and for all of them, exactly under
these conditions. -/
theorem hashes_of_team_iff {k : ℕ} (hk : 1 ≤ k) :
    (∀ type inputs output, Operation.generateHashParallel k type inputs output =
        Operation.generateHashParallel 1 type inputs output ↔
      2 ^ 64 ∣ (k - 1) * (inputs.map Node.guid).sum) ∧
    (∀ t, GraphBase.generateHashParallel k t = GraphBase.generateHashParallel 1 t ↔ k % 2 = 1 ∨
      2 ^ 64 ∣ Nat.ofDigits 1000000009 (t.map fun es => (xorHash es).toNat).reverse) ∧
    (((∀ type inputs output, Operation.generateHashParallel k type inputs output =
        Operation.generateHashParallel 1 type inputs output) ∧
      ∀ t, GraphBase.generateHashParallel k t = GraphBase.generateHashParallel 1 t) ↔
      2 ^ 64 ∣ k - 1) := by
  have hoperation := fun type inputs output =>
    Operation.generateHashParallel_eq_one_iff k type inputs output hk
  have htable := GraphBase.generateHashParallel_eq_one_iff k
  refine ⟨hoperation, htable, ⟨fun h => ?_, fun h => ⟨fun type inputs output => ?_, fun t => ?_⟩⟩⟩
  · -- one input of guid 1 counts the threads
    have h := (hoperation .add [⟨1, "", 0, .others⟩] none).1 (h.1 ..)
    rwa [List.map_singleton, List.sum_singleton, Nat.mul_one] at h
  · exact (hoperation type inputs output).2 (h.mul_right _)
  · have heven : 2 ∣ k - 1 := (Dvd.intro_left (2 ^ 63) rfl).trans h
    exact (htable t).2 (Or.inl (by omega))

theorem hashes_of_team_iff_eight :
    ((∀ type inputs output, Operation.generateHashParallel 8 type inputs output =
        Operation.generateHashParallel 1 type inputs output) ∧
      ∀ t, GraphBase.generateHashParallel 8 t = GraphBase.generateHashParallel 1 t) ↔
      2 ^ 64 ∣ 8 - 1 :=
  (hashes_of_team_iff (by decide : 1 ≤ 8)).2.2

/-- Eight threads hash the operation that copies node 1 to node 2 differently
from one thread, and the table with that operation alone to zero. -/
theorem eight_threads_differ :
    (¬ ∀ k, 1 ≤ k → ∀ type inputs output, Operation.generateHashParallel k type inputs output =
      Operation.generateHashParallel 1 type inputs output) ∧
    ¬ ∀ k, 1 ≤ k → ∀ t,
      GraphBase.generateHashParallel k t = GraphBase.generateHashParallel 1 t := by
  refine ⟨fun h => ?_, fun h => ?_⟩
  · have hop := h 8 (by decide) .transit [⟨1, "x", 0, .input⟩] (some ⟨2, "y", 1, .output⟩)
    exact absurd hop (by decide)
  · have htable := h 8 (by decide)
      [[Operation.make 8 0 .transit [⟨1, "x", 0, .input⟩] ⟨2, "y", 1, .output⟩]]
    exact absurd htable (by decide)

end Gauv
