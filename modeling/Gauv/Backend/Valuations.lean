import Gauv.Backend.Parties

/-!
# What a graph says about values

Every edge of a graph is a constraint on the values of its nodes.  A rewrite is
an equivalence when the same valuations satisfy both graphs, whatever the edges
they share say; that is a matter of the edges it removes and adds.
-/

namespace Gauv

open GraphBase

variable {A : Type*}

/-- What an operation between given nodes says about their values. -/
abbrev Meaning (A : Type*) := Operator → List Node → Node → (ℕ → A) → Prop

/-- The values of the ends are as the meaning has it. -/
def Operation.Holds (e : Operation) (m : Meaning A) (val : ℕ → A) : Prop :=
  m e.type e.inputs e.output val

namespace GraphBase

/-- Every edge holds, as `reads` has it. -/
def Satisfies (g : GraphBase) (reads : Operation → (ℕ → A) → Prop) (val : ℕ → A) : Prop :=
  ∀ e, g.HasEdge e → reads e val

/-- The edge is in one of the two graphs only. -/
def Changed (g g' : GraphBase) (e : Operation) : Prop := ¬ (g.HasEdge e ↔ g'.HasEdge e)

/-- The graphs have the same satisfying valuations, whatever their common edges
say, if the others say what `m` has them mean. -/
def Equivalent (m : Meaning A) (g g' : GraphBase) : Prop :=
  ∀ reads : Operation → (ℕ → A) → Prop,
    (∀ e, Changed g g' e → ∀ val, reads e val ↔ e.Holds m val) →
    ∀ val, g.Satisfies reads val ↔ g'.Satisfies reads val

end GraphBase

/-- The points of the parties are distinct and not `0`. -/
structure Points [Zero A] (parties : Finset PartyDecl) (x : PartyDecl → A) : Prop where
  inj : Set.InjOn x parties
  ne_zero : ∀ p ∈ parties, x p ≠ 0

/-- Together with `0`, the points of some parties are one more than these. -/
theorem Points.card_insert_zero [Zero A] [DecidableEq A] {parties S : Finset PartyDecl}
    {x : PartyDecl → A} (hx : Points parties x) (hS : S ⊆ parties) :
    (insert 0 (S.image x)).card = S.card + 1 := by
  rw [Finset.card_insert_of_notMem,
    Finset.card_image_of_injOn (hx.inj.mono (Finset.coe_subset.2 hS))]
  intro h0
  obtain ⟨P, hP, hPx⟩ := Finset.mem_image.1 h0
  exact hx.ne_zero P (hS hP) hPx

/-! ## The result of a plan -/

namespace Plan

variable {g : Graph} {p : Plan} {m : Meaning A}

theorem not_hasEdge_of_mem_added {team : ℕ} {e : Operation} (h : e ∈ p.added team g) :
    ¬ g.HasEdge e := by
  intro he
  have h₁ := id_lt_freshId he
  have h₂ := fresh_le_id h
  omega

/-- A rewrite changes the edges it removes and the edges it adds. -/
theorem changed_result_iff (hg : g.WellFormed) (hp : p.Valid g) (team : ℕ) {e : Operation} :
    Changed g.toGraphBase (p.result team g).toGraphBase e ↔
      e ∈ p.edgesToEliminate ∨ e ∈ p.added team g := by
  rw [Changed, hasEdge_result hg hp team]
  by_cases hadd : e ∈ p.added team g
  · simp [hadd, not_hasEdge_of_mem_added hadd]
  · by_cases helim : e ∈ p.edgesToEliminate
    · simp [hadd, helim, hp.removable.present e helim]
    · simp [hadd, helim]

/-- The new edges hold when the requested ones do. -/
theorem holds_added_iff (team : ℕ) (val : ℕ → A) :
    (∀ e ∈ p.added team g, e.Holds m val) ↔
      ∀ k ∈ p.edgesToAdd, m k.type k.inputs k.output val := by
  constructor
  · intro h k hk
    obtain ⟨e, he, htype, hin, hout⟩ := exists_mem_makeShared team g.freshId hk
    have := h e he
    rwa [Operation.Holds, htype, hin, hout] at this
  · intro h e he
    obtain ⟨k, hk, htype, hin, hout⟩ := exists_of_mem_makeShared he
    rw [Operation.Holds, htype, hin, hout]
    exact h k hk

/-- **A rewrite is an equivalence exactly when** the removed edges and the new
ones say the same. -/
theorem equivalent_result_iff (hg : g.WellFormed) (hp : p.Valid g) (team : ℕ) :
    Equivalent m g.toGraphBase (p.result team g).toGraphBase ↔
      ∀ val, (∀ e ∈ p.edgesToEliminate, e.Holds m val) ↔
        ∀ k ∈ p.edgesToAdd, m k.type k.inputs k.output val := by
  have hchanged := @changed_result_iff g p hg hp team
  constructor
  · intro h val
    -- the common edges say nothing
    have key := h (fun e w => Changed g.toGraphBase (p.result team g).toGraphBase e →
      e.Holds m w) (fun e he w => ⟨fun hs => hs he, fun hs _ => hs⟩) val
    rw [← holds_added_iff team (g := g)]
    constructor
    · intro helim e he
      refine key.1 (fun f hf hc => ?_) e ((hasEdge_result hg hp team).2 (Or.inr he))
        (hchanged.2 (Or.inr he))
      rcases hchanged.1 hc with hf' | hf'
      · exact helim f hf'
      · exact absurd hf (not_hasEdge_of_mem_added hf')
    · intro hadd e he
      refine key.2 (fun f hf hc => ?_) e (hp.removable.present e he) (hchanged.2 (Or.inl he))
      rcases (hasEdge_result hg hp team).1 hf with ⟨hf, hfn⟩ | hf
      · rcases hchanged.1 hc with hf' | hf'
        · exact absurd hf' hfn
        · exact hadd f hf'
      · exact hadd f hf
  · intro h reads hreads val
    have helim : ∀ e ∈ p.edgesToEliminate, reads e val ↔ e.Holds m val := fun e he =>
      hreads e (hchanged.2 (Or.inl he)) val
    have hadd : ∀ e ∈ p.added team g, reads e val ↔ e.Holds m val := fun e he =>
      hreads e (hchanged.2 (Or.inr he)) val
    have hval := h val
    rw [← holds_added_iff team (g := g)] at hval
    constructor
    · intro hsat e he
      rcases (hasEdge_result hg hp team).1 he with ⟨he, -⟩ | he
      · exact hsat e he
      · refine (hadd e he).2 (hval.1 (fun f hf => ?_) e he)
        exact (helim f hf).1 (hsat f (hp.removable.present f hf))
    · intro hsat e he
      by_cases hel : e ∈ p.edgesToEliminate
      · refine (helim e hel).2 (hval.2 (fun f hf => ?_) e hel)
        exact (hadd f hf).1 (hsat f ((hasEdge_result hg hp team).2 (Or.inr hf)))
      · exact hsat e ((hasEdge_result hg hp team).2 (Or.inl ⟨he, hel⟩))

end Plan

/-- A result of a transformer is the result of one of its plans. -/
theorem exists_of_mem_apply {tr : Transformer} {team : ℕ} {order : ℕ → IterOrder} {g : Graph}
    {results : ResultsType} (h : tr.apply team order g = some results) {r : Node × Graph}
    (hr : r ∈ results) :
    ∃ ps, tr.plans order g = some ps ∧ ∃ p ∈ ps, r = (p.node, p.result team g) := by
  rw [Transformer.apply, Option.map_eq_some_iff] at h
  obtain ⟨ps, hps, rfl⟩ := h
  obtain ⟨p, hp, rfl⟩ := List.mem_map.1 (List.mem_filter.1 hr).1
  exact ⟨ps, hps, p, hp, rfl⟩

/-! ## The addition rule -/

/-- An ADD adds and a SUB subtracts. -/
def sums [AddCommGroup A] : Meaning A
  | .add, [a, b], c, val => val c.guid = val a.guid + val b.guid
  | .sub, [a, b], c, val => val c.guid = val a.guid - val b.guid
  | _, _, _, _ => True

/-- Solving an addition for an operand is an equivalence, also when the operands
are one node. -/
theorem equivalent_addition [AddCommGroup A] {g : Graph} (hg : g.WellFormed) {team : ℕ}
    {order : ℕ → IterOrder} {results : ResultsType}
    (h : Transformer.addition.apply team order g = some results) {r : Node × Graph}
    (hr : r ∈ results) : Equivalent (sums (A := A)) g.toGraphBase r.2.toGraphBase := by
  obtain ⟨ps, hps, p, hp, rfl⟩ := exists_of_mem_apply h hr
  have hshape := planShape_of_mem_plans hg hps hp
  refine (Plan.equivalent_result_iff hg (hshape.valid hg) team).2 fun val => ?_
  cases hshape with
  | @addition edge src0 src1 he ht hin hp =>
      have hedge : edge.Holds sums val ↔
          val edge.output.guid = val src0.guid + val src1.guid := by
        rw [Operation.Holds, ht, hin]
        exact Iff.rfl
      rcases hp with rfl | rfl
      · have hsub : sums .sub [edge.output, src1] src0 val ↔
            val src0.guid = val edge.output.guid - val src1.guid := Iff.rfl
        simp only [Plan.edgesToAdd, Plan.computed, List.nil_append, List.map_cons, List.map_nil,
          List.forall_mem_singleton, hedge, hsub]
        rw [eq_sub_iff_add_eq, eq_comm]
      · have hsub : sums .sub [edge.output, src0] src1 val ↔
            val src1.guid = val edge.output.guid - val src0.guid := Iff.rfl
        simp only [Plan.edgesToAdd, Plan.computed, List.nil_append, List.map_cons, List.map_nil,
          List.forall_mem_singleton, hedge, hsub]
        rw [eq_sub_iff_add_eq', eq_comm]

end Gauv
