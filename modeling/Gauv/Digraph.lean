import Mathlib

/-!
# Acyclic relations

Facts about relations without closed walks: how acyclicity survives when edges
that lead nowhere new are added, and what exactly a complete block of new edges,
from every source to every destination, does to it.
-/

namespace Gauv

namespace Digraph

open Relation

variable {α : Type*} {r q : α → α → Prop}

/-- No walk of positive length returns to its start. -/
def Acyclic (r : α → α → Prop) : Prop := ∀ a, ¬ TransGen r a a

theorem Acyclic.mono (h : Acyclic r) (hqr : ∀ a b, q a b → r a b) : Acyclic q :=
  fun a ha => h a (TransGen.mono hqr _ _ ha)

theorem Acyclic.swap (h : Acyclic r) : Acyclic (fun a b => r b a) :=
  fun a ha => h a (transGen_swap.1 ha)

theorem Acyclic.not_reach (h : Acyclic r) {a b : α} (hab : r a b) : ¬ ReflTransGen r b a :=
  fun hba => h b (TransGen.tail' hba hab)

/-- A relation whose edges lead upwards is acyclic. -/
theorem acyclic_of_lt {β : Type*} [Preorder β] (f : α → β) (h : ∀ a b, r a b → f a < f b) :
    Acyclic r := by
  have hlt : ∀ a b, TransGen r a b → f a < f b := by
    intro a b hab
    induction hab with
    | single hab => exact h _ _ hab
    | tail _ hbc ih => exact ih.trans (h _ _ hbc)
  exact fun a ha => lt_irrefl _ (hlt a a ha)

/-- An acyclic relation that enters finitely many nodes is well-founded. -/
theorem Acyclic.wellFounded (h : Acyclic r) (hfin : {b | ∃ a, r a b}.Finite) : WellFounded r := by
  refine wellFounded_iff_isEmpty_descending_chain.2 ⟨?_⟩
  rintro ⟨f, hf⟩
  have hdown : ∀ m n, m < n → TransGen r (f n) (f m) := by
    intro m n hmn
    induction n, hmn using Nat.le_induction with
    | base => exact .single (hf m)
    | succ n _ ih => exact .head (hf n) ih
  -- an infinite descent would visit some node twice
  obtain ⟨m, n, hmn, hfmn⟩ : ∃ m n, m < n ∧ f m = f n := by
    have hmaps : Set.MapsTo f Set.univ {b | ∃ a, r a b} := fun n _ => ⟨f (n + 1), hf n⟩
    obtain ⟨m, -, n, -, hne, heq⟩ := Set.infinite_univ.exists_ne_map_eq_of_mapsTo hmaps hfin
    rcases Nat.lt_or_gt_of_ne hne with hlt | hgt
    · exact ⟨m, n, hlt, heq⟩
    · exact ⟨n, m, hgt, heq.symm⟩
  exact h (f m) (hfmn ▸ hdown m n hmn)

/-! ## Adding edges that leave bare nodes -/

/-- When no `r`-edge enters a node that a `q`-edge leaves, a walk over both
relations is a walk over `q` followed by one over `r`. -/
theorem reach_union (hb : ∀ a b, q a b → ∀ c, ¬ r c a) {a b : α}
    (h : ReflTransGen (fun a b => r a b ∨ q a b) a b) :
    ∃ m, ReflTransGen q a m ∧ ReflTransGen r m b := by
  induction h with
  | refl => exact ⟨a, .refl, .refl⟩
  | @tail b c _ hbc ih =>
      obtain ⟨m, ham, hmb⟩ := ih
      rcases hbc with hbc | hbc
      · exact ⟨m, ham, hmb.tail hbc⟩
      · rcases ReflTransGen.cases_tail hmb with rfl | ⟨x, -, hxb⟩
        · exact ⟨c, ham.tail hbc, .refl⟩
        · exact absurd hxb (hb b c hbc x)

/-- Adding an acyclic relation whose edges leave bare nodes closes no cycle. -/
theorem acyclic_union (hr : Acyclic r) (hq : Acyclic q) (hb : ∀ a b, q a b → ∀ c, ¬ r c a) :
    Acyclic (fun a b => r a b ∨ q a b) := by
  intro a ha
  obtain ⟨x, hax, hxa⟩ := TransGen.head'_iff.1 ha
  obtain ⟨m, hxm, hma⟩ := reach_union hb hxa
  rcases hax with hax | hax
  · -- no walk over `q` leaves the node an `r`-edge has just entered
    rcases ReflTransGen.cases_head hxm with rfl | ⟨y, hxy, -⟩
    · exact hr a (.head' hax hma)
    · exact hb x y hxy a hax
  · rcases ReflTransGen.cases_tail hma with rfl | ⟨y, -, hya⟩
    · exact hq a (.head' hax hxm)
    · exact hb a x hax y hya

/-! ## Adding a complete block -/

/-- A walk over `r` and the block either stays in `r` or enters the block
through a source and leaves it through a destination. -/
theorem transGen_block {S D : Set α} {a b : α}
    (h : TransGen (fun a b => r a b ∨ (a ∈ S ∧ b ∈ D)) a b) :
    TransGen r a b ∨ ∃ s ∈ S, ∃ d ∈ D, ReflTransGen r a s ∧ ReflTransGen r d b := by
  induction h with
  | single hab =>
      rcases hab with hab | ⟨ha, hb⟩
      · exact Or.inl (.single hab)
      · exact Or.inr ⟨_, ha, _, hb, .refl, .refl⟩
  | tail _ hbc ih =>
      rcases ih with hab | ⟨s, hs, d, hd, has, hdb⟩
      · rcases hbc with hbc | ⟨hb, hc⟩
        · exact Or.inl (hab.tail hbc)
        · exact Or.inr ⟨_, hb, _, hc, hab.to_reflTransGen, .refl⟩
      · rcases hbc with hbc | ⟨-, hc⟩
        · exact Or.inr ⟨s, hs, d, hd, has, hdb.tail hbc⟩
        · exact Or.inr ⟨s, hs, _, hc, has, .refl⟩

/-- A block of edges from every source to every destination keeps a relation
acyclic exactly when no destination reaches a source. -/
theorem acyclic_block_iff (hr : Acyclic r) {S D : Set α} :
    Acyclic (fun a b => r a b ∨ (a ∈ S ∧ b ∈ D)) ↔
      ∀ d ∈ D, ∀ s ∈ S, ¬ ReflTransGen r d s := by
  constructor
  · intro h d hd s hs hds
    have hds' : ReflTransGen (fun a b => r a b ∨ (a ∈ S ∧ b ∈ D)) d s :=
      ReflTransGen.mono (fun _ _ => Or.inl) _ _ hds
    exact h d (TransGen.tail' hds' (Or.inr ⟨hs, hd⟩))
  · intro h a ha
    rcases transGen_block ha with ha | ⟨s, hs, d, hd, has, hda⟩
    · exact hr a ha
    · exact h d hd s hs (hda.trans has)

/-! ## Walks that avoid removed edges -/

/-- A walk to `b` stays in the smaller relation `q` if no edge outside `q` ends
in a node that leads to `b`. -/
theorem reach_of_avoid {a b : α} (h : ReflTransGen r a b)
    (hq : ∀ x y, r x y → ¬ q x y → ¬ ReflTransGen r y b) : ReflTransGen q a b := by
  induction h using ReflTransGen.head_induction_on with
  | refl => exact .refl
  | @head x y hxy hyb ih =>
      by_cases hxyq : q x y
      · exact .head hxyq ih
      · exact absurd hyb (hq x y hxy hxyq)

end Digraph

end Gauv
