import Gauv.Lists
import Gauv.Tables
import Gauv.Mpclib.Party

/-!
# Shares and bundles

A share is a field element at a party.  A bundle holds one share for each party
of a set, in the order of the set, and finds the share of a party through a map
from indices to positions.  With pairwise distinct indices the map agrees with
the order, so an operator on two bundles over one set meets no exception.
-/

namespace Gauv.Mpclib

/-- `share<BASE>`: a value held by a party. -/
structure Share (BASE : UInt64) where
  party : Par BASE
  val : Field BASE
  deriving DecidableEq

namespace Share

variable {BASE : UInt64} [NeZero BASE]

/-- An operator of shares, which wants both at one party. -/
def combine (op : Field BASE → Field BASE → Field BASE) (a b : Share BASE) :
    Except (Exn BASE) (Share BASE) :=
  if a.party.eq b.party then .ok ⟨a.party, op a.val b.val⟩
  else .error (.partyMissmatch a.party b.party)

/-- `operator+`. -/
def add : Share BASE → Share BASE → Except (Exn BASE) (Share BASE) := combine (· + ·)

/-- `operator-`. -/
def sub : Share BASE → Share BASE → Except (Exn BASE) (Share BASE) := combine (· - ·)

/-- `operator*`. -/
def mul : Share BASE → Share BASE → Except (Exn BASE) (Share BASE) := combine (· * ·)

omit [NeZero BASE] in
theorem combine_same (op : Field BASE → Field BASE → Field BASE) (p : Par BASE)
    (x y : Field BASE) : combine op ⟨p, x⟩ ⟨p, y⟩ = .ok ⟨p, op x y⟩ := if_pos p.eq_self

end Share

/-- `bundle<BASE>`: the shares of a set of parties. -/
structure Bundle (BASE : UInt64) where
  parties : Parset BASE
  shares : List (Share BASE)
  mapping : Table UInt32 ℕ

namespace Bundle

variable {BASE : UInt64}

/-- The loop of the constructor from position `i` on: check the party of each
share and enter its position. -/
def fill : ℕ → Parset BASE → List (Share BASE) → Table UInt32 ℕ →
    Except (Exn BASE) (Table UInt32 ℕ)
  | i, p :: ps, s :: ss, mapping =>
      if p.eq s.party then fill (i + 1) ps ss (mapping.insert p.idx i)
      else .error (.partyMissmatch p s.party)
  | _, _, _, mapping => .ok mapping

/-- The constructor. -/
def make (parties : Parset BASE) (shares : List (Share BASE)) :
    Except (Exn BASE) (Bundle BASE) :=
  if parties.length = shares.length then do
    let mapping ← fill 0 parties shares .empty
    return ⟨parties, shares, mapping⟩
  else .error (.argcMissmatch parties.length shares.length)

/-- `operator[]`.  An entry of the map always is a position of the vector. -/
def at' (b : Bundle BASE) (party : Par BASE) : Except (Exn BASE) (Share BASE) :=
  match (b.mapping party.idx).bind fun i => b.shares[i]? with
  | some s => .ok s
  | none => .error .outOfRange

/-- An operator of bundles, which wants both over one party set. -/
def combine (op : Share BASE → Share BASE → Except (Exn BASE) (Share BASE))
    (b c : Bundle BASE) : Except (Exn BASE) (Bundle BASE) :=
  if Parset.eq b.parties c.parties then do
    let res ← b.parties.mapM fun p => do op (← b.at' p) (← c.at' p)
    make b.parties res
  else .error (.parsetMissmatch b.parties c.parties)

section Operators

variable [NeZero BASE]

/-- `operator+`. -/
def add : Bundle BASE → Bundle BASE → Except (Exn BASE) (Bundle BASE) := combine Share.add

/-- `operator-`. -/
def sub : Bundle BASE → Bundle BASE → Except (Exn BASE) (Bundle BASE) := combine Share.sub

/-- `operator*`. -/
def mul : Bundle BASE → Bundle BASE → Except (Exn BASE) (Bundle BASE) := combine Share.mul

end Operators

/-! ## Bundles over distinct indices -/

/-- With distinct indices the loop enters every party's position. -/
theorem fill_eq_ok {f : Par BASE → Share BASE} (hf : ∀ p, (f p).party = p) (i : ℕ)
    {ps : Parset BASE} (hidx : (ps.map Par.idx).Nodup) (mapping : Table UInt32 ℕ)
    (hnew : ∀ p ∈ ps, mapping p.idx = none) :
    ∃ mapping', fill i ps (ps.map f) mapping = .ok mapping' ∧
      (∀ k ∉ ps.map Par.idx, mapping' k = mapping k) ∧
      ∀ j p, ps[j]? = some p → mapping' p.idx = some (i + j) := by
  induction ps generalizing i mapping with
  | nil => exact ⟨mapping, rfl, fun _ _ => rfl, by simp⟩
  | cons p ps ih =>
      obtain ⟨hp, hidx⟩ := List.nodup_cons.1 hidx
      have hne : ∀ q ∈ ps, q.idx ≠ p.idx := fun q hq h => hp (h ▸ List.mem_map_of_mem hq)
      obtain ⟨mapping', hfill, hkeep, hat⟩ := ih (i + 1) hidx (mapping.insert p.idx i)
        fun q hq => by
          rw [Table.insert_of_ne (hne q hq)]
          exact hnew q (List.mem_cons_of_mem _ hq)
      refine ⟨mapping', ?_, fun k hk => ?_, fun j q hq => ?_⟩
      · rw [List.map_cons, fill, hf, if_pos p.eq_self, hfill]
      · rw [List.map_cons, List.mem_cons, not_or] at hk
        rw [hkeep k hk.2, Table.insert_of_ne hk.1]
      · cases j with
        | zero =>
            rw [List.getElem?_cons_zero, Option.some.injEq] at hq
            rw [← hq, hkeep _ hp, Table.insert_self (hnew p (List.mem_cons_self ..)), Nat.add_zero]
        | succ j =>
            rw [List.getElem?_cons_succ] at hq
            rw [hat j q hq]
            congr 1
            omega

/-- **A bundle of one share for each party** is made without exception, and it
finds the share of every party. -/
theorem make_map_eq_ok {f : Par BASE → Share BASE} (hf : ∀ p, (f p).party = p)
    {ps : Parset BASE} (hidx : (ps.map Par.idx).Nodup) :
    ∃ b, make ps (ps.map f) = .ok b ∧ b.parties = ps ∧ ∀ p ∈ ps, b.at' p = .ok (f p) := by
  obtain ⟨mapping, hfill, -, hat⟩ := fill_eq_ok hf 0 hidx .empty fun _ _ => rfl
  refine ⟨⟨ps, ps.map f, mapping⟩, ?_, rfl, fun p hp => ?_⟩
  · rw [make, if_pos (List.length_map _).symm, hfill]
    rfl
  · obtain ⟨j, hj⟩ := List.mem_iff_getElem?.1 hp
    have hfind : ((mapping p.idx).bind fun i => (ps.map f)[i]?) = some (f p) := by
      rw [hat j p hj, Nat.zero_add, Option.bind_some, List.getElem?_map, hj]
      rfl
    rw [at', hfind]

theorem mapM_eq_ok {α β ε : Type*} {g : α → Except ε β} {f : α → β} {l : List α}
    (h : ∀ a ∈ l, g a = .ok (f a)) : l.mapM g = .ok (l.map f) := by
  induction l with
  | nil => rfl
  | cons a l ih =>
      rw [List.mapM_cons, h a (List.mem_cons_self ..),
        ih fun b hb => h b (List.mem_cons_of_mem _ hb)]
      rfl

/-- **An operator on two bundles over one party set** makes the bundle of the
results. -/
theorem combine_eq_make {op : Share BASE → Share BASE → Except (Exn BASE) (Share BASE)}
    {f₁ f₂ f : Par BASE → Share BASE} {b c : Bundle BASE} {ps : Parset BASE}
    (hb : b.parties = ps) (hc : c.parties = ps) (hbf : ∀ p ∈ ps, b.at' p = .ok (f₁ p))
    (hcf : ∀ p ∈ ps, c.at' p = .ok (f₂ p)) (hop : ∀ p ∈ ps, op (f₁ p) (f₂ p) = .ok (f p)) :
    combine op b c = make ps (ps.map f) := by
  have hres : (ps.mapM fun p => do op (← b.at' p) (← c.at' p)) = .ok (ps.map f) := by
    refine mapM_eq_ok fun p hp => ?_
    rw [hbf p hp, hcf p hp]
    exact hop p hp
  rw [combine, hb, hc, if_pos (Parset.eq_self ps), hres]
  rfl

end Bundle

end Gauv.Mpclib
