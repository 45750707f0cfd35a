import Gauv.Mpclib.Field

/-!
# Parties

A `par` is an object that is neither copied nor moved, so its address identifies
it.  The hash code mixes the address, the index and the evaluation point, and
`operator==` compares the hash code, the index and the point.  A party set is a
list of references to parties.
-/

namespace Gauv.Mpclib

/-- `par<BASE>`: the address of the object, its index and its point. -/
structure Par (BASE : UInt64) where
  addr : UInt64
  idx : UInt32
  alpha : Field BASE
  deriving DecidableEq

namespace Par

variable {BASE : UInt64}

/-- `__hash__`, the hash code computed by the constructor. -/
def hash (p : Par BASE) : UInt32 :=
  1000003 * ((1000003 * p.addr.toUInt32) ^^^ p.idx) ^^^ p.alpha.val.toUInt32

/-- `operator==`. -/
def eq (p q : Par BASE) : Bool := p.hash == q.hash && p.idx == q.idx && p.alpha == q.alpha

@[simp] theorem eq_self (p : Par BASE) : p.eq p = true := by simp [eq]

end Par

/-- `parset<BASE>`: references to parties, in order. -/
abbrev Parset (BASE : UInt64) := List (Par BASE)

/-- `operator==` of party sets: equal sizes and equal parties at each position. -/
def Parset.eq {BASE : UInt64} (ps qs : Parset BASE) : Bool :=
  ps.length == qs.length && (ps.zip qs).all fun pq => pq.1.eq pq.2

@[simp] theorem Parset.eq_self {BASE : UInt64} (ps : Parset BASE) : Parset.eq ps ps = true := by
  rw [Parset.eq, beq_self_eq_true, Bool.true_and, List.all_eq_true]
  rintro pq hpq
  obtain ⟨i, hi, rfl⟩ := List.mem_iff_getElem.1 hpq
  rw [List.getElem_zip]
  exact Par.eq_self _

/-! ## Exceptions -/

/-- The exceptions of the library, with the objects they name. -/
inductive Exn (BASE : UInt64) where
  | partyMissmatch (p1 p2 : Par BASE)
  | parsetMissmatch (p1 p2 : Parset BASE)
  | argcMissmatch (want get : ℕ)
  | partyNonexist
  | partyDuplicated (old_one new_one : Par BASE)
  | outOfRange

end Gauv.Mpclib
