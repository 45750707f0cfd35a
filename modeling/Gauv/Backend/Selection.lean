import Gauv.Backend.Runs
import Gauv.Greedy

/-!
# The choice of a rewrite

An iteration of the rewriting loop goes through the results of the five
rewriters and leaves each list at the first result that improves on the running
minimum.  The result it takes has the least potential of all exactly when the
lists undercut every eligible result in time.
-/

namespace Gauv

namespace Prover

variable {env : Env} {iter : ℕ} {g : Graph} {considered : List (UInt64 × ℤ × ℤ)}

/-- The lists of results an iteration goes through; `call` counts them. -/
def offered (env : Env) (iter : ℕ) (g : Graph) :
    List Transformer → ℕ → Option (List ResultsType)
  | [], _ => some []
  | tr :: trs, call => do
      let results ← tr.apply env.team (env.order iter call) g
      let rest ← offered env iter g trs (call + 1)
      return results :: rest

/-- The result lowers the potential and has not been visited. -/
def eligible (env : Env) (g : Graph) (considered : List (UInt64 × ℤ × ℤ))
    (r : Node × Graph) : Bool :=
  decide (r.2.potential < g.potential) && !considered.contains (r.2.key env.team)

/-- The value that results are compared by. -/
def rank (r : Node × Graph) : ℤ ×ₗ ℕ ×ₗ ℕ ×ₗ ℕ := r.2.potential

theorem selectFrom_eq_takeFirst (best : Option (Node × Graph)) (results : ResultsType) :
    selectFrom env g considered best results =
      Greedy.takeFirst rank (eligible env g considered) best results := by
  have hpred : (fun r : Node × Graph => acceptable env g considered best r.2) =
      Greedy.improves rank (eligible env g considered) best := by
    funext r
    cases best with
    | none => simp [acceptable, Greedy.improves, eligible]
    | some b =>
        have hlt : decide (r.2.potential < b.2.potential) = decide (rank r < rank b) :=
          decide_eq_decide.2 Iff.rfl
        simp only [acceptable, Greedy.improves, eligible, hlt]
        cases decide (rank r < rank b) <;> simp
  unfold selectFrom Greedy.takeFirst
  rw [hpred]
  cases results.find? (Greedy.improves rank (eligible env g considered) best) <;> rfl

/-- An iteration is the running minimum over the lists. -/
theorem selectMin_eq_foldl {trs : List Transformer} {call : ℕ} {best : Option (Node × Graph)} :
    selectMin env iter g considered trs call best =
      (offered env iter g trs call).map
        (·.foldl (Greedy.takeFirst rank (eligible env g considered)) best) := by
  induction trs generalizing call best with
  | nil => rfl
  | cons tr trs ih =>
      rw [selectMin, offered]
      cases tr.apply env.team (env.order iter call) g with
      | none => rfl
      | some results =>
          simp only [Option.bind_eq_bind, Option.bind_some, ih, selectFrom_eq_takeFirst]
          cases offered env iter g trs (call + 1) <;> rfl

/-- The iteration takes a result of least potential among all eligible ones, if
there are any. -/
def TakesLeast (env : Env) (iter : ℕ) (g : Graph) (considered : List (UInt64 × ℤ × ℤ))
    (trs : List Transformer) (rss : List ResultsType) : Prop :=
  (∃ r ∈ rss.flatten, eligible env g considered r = true) →
    ∃ b, selectMin env iter g considered trs 0 none = some (some b) ∧ b ∈ rss.flatten ∧
      eligible env g considered b = true ∧
      ∀ r ∈ rss.flatten, eligible env g considered r = true → rank b ≤ rank r

/-- **The step is the steepest one exactly when** the lists of results, the last of
them read first, undercut every eligible result. -/
theorem takesLeast_iff {trs : List Transformer} {rss : List ResultsType}
    (h : offered env iter g trs 0 = some rss) :
    TakesLeast env iter g considered trs rss ↔
      ∀ r ∈ rss.flatten, eligible env g considered r = true →
        Greedy.Undercut rank (eligible env g considered) rss.reverse (rank r) := by
  have hmem : ∀ {r}, r ∈ rss.reverse.flatten ↔ r ∈ rss.flatten := by
    intro r
    simp only [List.mem_flatten, List.mem_reverse]
  have hmin : selectMin env iter g considered trs 0 none =
      some (Greedy.chosen rank (eligible env g considered) rss.reverse) := by
    rw [selectMin_eq_foldl, h, Option.map_some, Greedy.chosen, List.foldr_reverse]
  have key := Greedy.chosen_least_iff (f := rank) (c := eligible env g considered) rss.reverse
  simp only [hmem] at key
  rw [← key, TakesLeast, hmin]
  refine imp_congr_right fun _ => ⟨?_, ?_⟩
  · rintro ⟨b, hb, -, -, hleast⟩
    exact ⟨b, Option.some.inj hb, hleast⟩
  · rintro ⟨b, hb, hleast⟩
    obtain ⟨hbmem, hbc⟩ := Greedy.mem_of_chosen hb
    exact ⟨b, by rw [hb], hmem.1 hbmem, hbc, hleast⟩

/-! ## A step that is not the steepest

Two sums at the honest party are sent to the corrupted one.  Solving the second
for its first operand hides more than solving the first. -/

/-- The nodes: `a + x` is opened, and so is `b + y * z`. -/
def twoSumNodes : List Node :=
  [⟨0, "a", 1, .others⟩, ⟨1, "x", 1, .input⟩, ⟨2, "c", 1, .others⟩, ⟨3, "c'", 0, .others⟩,
    ⟨4, "b", 1, .others⟩, ⟨5, "y", 1, .input⟩, ⟨6, "z", 1, .input⟩, ⟨7, "m", 1, .others⟩,
    ⟨8, "d", 1, .others⟩, ⟨9, "d'", 0, .others⟩]

/-- The operation of the given type between nodes of that list. -/
def twoSumEdge (id : ℕ) (type : Operator) (inputs : List ℕ) (output : ℕ) : Operation :=
  Operation.make 1 id type (inputs.filterMap (twoSumNodes[·]?))
    (twoSumNodes.getD output ⟨0, "a", 1, .others⟩)

/-- The protocol graph, for party 0 corrupted. -/
def twoSums : Graph :=
  ((GraphBase.bare twoSumNodes).toGraph 2 1 {0}).addEdges
    [twoSumEdge 1 .add [0, 1] 2, twoSumEdge 2 .transit [2] 3, twoSumEdge 3 .mul [5, 6] 7,
      twoSumEdge 4 .add [4, 7] 8, twoSumEdge 5 .transit [8] 9]

/-- The first iteration takes the first improvement of the addition rule, and the
rule offered a better one. -/
theorem first_improvement_taken : ∃ rss,
    offered .sequential 0 twoSums (equivalentRewriters [0, 1] twoSums) 0 = some rss ∧
    ¬ TakesLeast .sequential 0 twoSums [] (equivalentRewriters [0, 1] twoSums) rss := by
  have hany : (offered .sequential 0 twoSums (equivalentRewriters [0, 1] twoSums) 0).any
      (fun rss => rss.flatten.any fun r => eligible .sequential twoSums [] r &&
        (selectMin .sequential 0 twoSums [] (equivalentRewriters [0, 1] twoSums) 0 none).any
          fun o => o.any fun b => decide (rank r < rank b)) = true := by decide +kernel
  obtain ⟨rss, hrss, hany⟩ := (Option.any_eq_true _ _).1 hany
  obtain ⟨r, hr, hany⟩ := List.any_eq_true.1 hany
  obtain ⟨helig, hany⟩ := Bool.and_eq_true_iff.1 hany
  obtain ⟨o, ho, hany⟩ := (Option.any_eq_true _ _).1 hany
  obtain ⟨b, rfl, hlt⟩ := (Option.any_eq_true _ _).1 hany
  refine ⟨rss, hrss, fun hleast => ?_⟩
  obtain ⟨b', hb', -, -, hle⟩ := hleast ⟨r, hr, helig⟩
  rw [ho, Option.some.injEq, Option.some.injEq] at hb'
  subst hb'
  exact absurd (of_decide_eq_true hlt) (not_lt.2 (hle r hr helig))

theorem takesLeast_iff_twoSums : ∃ rss,
    offered .sequential 0 twoSums (equivalentRewriters [0, 1] twoSums) 0 = some rss ∧
    (TakesLeast .sequential 0 twoSums [] (equivalentRewriters [0, 1] twoSums) rss ↔
      ∀ r ∈ rss.flatten, eligible .sequential twoSums [] r = true →
        Greedy.Undercut rank (eligible .sequential twoSums []) rss.reverse (rank r)) := by
  have hsome : (offered .sequential 0 twoSums
      (equivalentRewriters [0, 1] twoSums) 0).isSome = true := by decide +kernel
  obtain ⟨rss, hrss⟩ := Option.isSome_iff_exists.1 hsome
  exact ⟨rss, hrss, takesLeast_iff hrss⟩

end Prover

end Gauv
