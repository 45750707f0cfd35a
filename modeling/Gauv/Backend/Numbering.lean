import Gauv.Backend.Provability
import Gauv.Backend.Selection

/-!
# The answer depends on the numbering

The last term of the rank adds up node numbers, so it decides between two rewrites
that hide equally much.  This file follows the search on one protocol graph in two
numberings: in each of them every iteration takes a result of least rank, and only
one run finds a proof.
-/

namespace Gauv

open GraphBase

/-! ## Renumbering and nothing else -/

/-- The edge between the renumbered nodes, its inputs in the same order. -/
def NewEdge.renumber (σ : Equiv.Perm ℕ) (e : NewEdge) : NewEdge :=
  ⟨e.type, e.inputs.map (Node.renumber σ), e.output.renumber σ⟩

/-- A renumbered edge corresponds to the edge it comes from. -/
theorem NewEdge.renumbered_renumber (σ : Equiv.Perm ℕ) (e : NewEdge) :
    e.Renumbered σ (e.renumber σ) := ⟨rfl, rfl, .refl _, fun _ _ => rfl⟩

/-- Lists of edges that are renumbered one by one correspond. -/
theorem pairsOff_of_renumber {σ : Equiv.Perm ℕ} {es fs : List Operation}
    (h : fs.map Operation.args = (es.map Operation.args).map (NewEdge.renumber σ)) :
    PairsOff (fun e f => e.args.Renumbered σ f.args) es fs := by
  refine .of_forall₂ ?_
  induction es generalizing fs with
  | nil =>
      rw [List.map_nil, List.map_nil, List.map_eq_nil_iff] at h
      subst h
      exact .nil
  | cons e es ih =>
      obtain ⟨f, fs, rfl, hf, hfs⟩ := List.map_eq_cons_iff.1 h
      refine .cons ?_ (ih hfs)
      rw [hf]
      exact e.args.renumbered_renumber σ

namespace Prover

/-! ## Runs that take the least result throughout -/

/-- The iteration takes a result of least rank, or stops because none is eligible. -/
def takesLeast (env : Env) (trs : List Transformer) (iter : ℕ) (g : Graph)
    (considered : List (UInt64 × ℤ × ℤ)) (taken : Option (Node × Graph)) : Bool :=
  (offered env iter g trs 0).any fun rss => rss.flatten.all fun r =>
    !eligible env g considered r || taken.any fun b => rank b ≤ rank r

/-- So do all iterations of the loop, which ends before the fuel does. -/
def leastThroughout (env : Env) (trs : List Transformer) :
    ℕ → ℕ → Graph → List (UInt64 × ℤ × ℤ) → Bool
  | 0, _, _, _ => false
  | fuel + 1, iter, g, considered =>
      !g.hasBubble || match selectMin env iter g considered trs 0 none with
        | none => false
        | some none => takesLeast env trs iter g considered none
        | some (some r) => takesLeast env trs iter g considered (some r) &&
            leastThroughout env trs fuel (iter + 1) r.2 (r.2.key env.team :: considered)

variable {env : Env} {trs : List Transformer} {g g₀ : Graph} {iter fuel : ℕ}
  {considered : List (UInt64 × ℤ × ℤ)}

/-- The check tells that an iteration takes a result of least potential. -/
theorem takesLeast_of_check {taken : Option (Node × Graph)}
    (hs : selectMin env iter g considered trs 0 none = some taken)
    (h : takesLeast env trs iter g considered taken = true) :
    ∃ rss, offered env iter g trs 0 = some rss ∧ TakesLeast env iter g considered trs rss := by
  obtain ⟨rss, hrss, h⟩ := exists_of_any h
  refine ⟨rss, hrss, ?_⟩
  rintro ⟨r₀, hr₀, he₀⟩
  have hle : ∀ r ∈ rss.flatten, eligible env g considered r = true →
      taken.any (fun b => rank b ≤ rank r) = true := by
    intro r hr he
    have hor := List.all_eq_true.1 h r hr
    rw [he] at hor
    simpa using hor
  cases taken with
  | none => exact absurd (hle r₀ hr₀ he₀) (by simp)
  | some b =>
      have hchosen := hs
      rw [selectMin_eq_foldl, hrss, Option.map_some, Option.some.injEq] at hchosen
      rw [← List.reverse_reverse rss, List.foldl_reverse] at hchosen
      obtain ⟨hmem, hc⟩ := Greedy.mem_of_chosen hchosen
      refine ⟨b, hs, ?_, hc, fun r hr he => by simpa using hle r hr he⟩
      rw [List.mem_flatten] at hmem ⊢
      simpa only [List.mem_reverse] using hmem

/-- What the check says of the start, it says of every state of the run. -/
theorem leastThroughout_of_visited (hv : Visited env trs g₀ iter g considered)
    (h : leastThroughout env trs fuel 0 g₀ [] = true) :
    ∃ fuel', leastThroughout env trs fuel' iter g considered = true := by
  induction hv with
  | start => exact ⟨fuel, h⟩
  | step _ hb hs ih =>
      obtain ⟨fuel', ih⟩ := ih
      cases fuel' with
      | zero => exact absurd ih (by simp [leastThroughout])
      | succ fuel' =>
          rw [leastThroughout, hb, hs, Bool.not_true, Bool.false_or, Bool.and_eq_true] at ih
          exact ⟨fuel', ih.2⟩

/-- Every iteration of the run takes a result of least rank among the eligible ones. -/
theorem takesLeast_of_visited (h : leastThroughout env trs fuel 0 g₀ [] = true)
    (hv : Visited env trs g₀ iter g considered) (hb : g.hasBubble = true) :
    ∃ rss, offered env iter g trs 0 = some rss ∧ TakesLeast env iter g considered trs rss := by
  obtain ⟨fuel', ih⟩ := leastThroughout_of_visited hv h
  cases fuel' with
  | zero => exact absurd ih (by simp [leastThroughout])
  | succ fuel' =>
      rw [leastThroughout, hb, Bool.not_true, Bool.false_or] at ih
      split at ih
      · exact absurd ih (by simp)
      · rename_i hs
        exact takesLeast_of_check hs ih
      · rename_i r hs
        exact takesLeast_of_check hs (Bool.and_eq_true_iff.1 ih).1

/-! ## A sharing behind a masked sum

Party 1 shares `c = a + x` among three parties; the share of party 2 masks its input
`y`, and the share party 1 keeps is sent to party 0 behind two masks.  Solving the sum
for `a` first spoils the sharing, and `y` stays in sight; reversing the sharing first
hides everything.  Either way two nodes less are in sight of party 0. -/

/-- The nodes: an unused `p` is an input of party 0, and `u` keeps the coefficients from
passing for secrets. -/
def blockedNodes : List (String × PartyDecl × NodeGenre) :=
  [("a", 1, .others), ("x", 1, .input), ("y", 2, .input), ("m1", 1, .others)] ++
    List.replicate 12 ("p", 0, .input) ++
  [("m2", 1, .others), ("p", 0, .input), ("c", 1, .others), ("k1", 1, .others),
    ("k2", 1, .others), ("s0", 1, .others), ("s2", 1, .others), ("t2", 2, .others),
    ("s1", 1, .others), ("t0", 0, .others), ("l1", 1, .others), ("v1", 0, .others),
    ("l2", 1, .others), ("v2", 0, .others), ("g", 2, .others), ("g0", 0, .others),
    ("u", 1, .others)]

/-- The edges, between positions of that list. -/
def blockedEdges : List (Operator × List ℕ × ℕ) :=
  [(.add, [0, 1], 18), (.eval, [18, 19, 20], 21), (.eval, [18, 19, 20], 22),
    (.transit, [22], 23), (.eval, [18, 19, 20], 24), (.transit, [21], 25), (.add, [24, 3], 26),
    (.transit, [26], 27), (.add, [24, 16], 28), (.transit, [28], 29), (.add, [23, 2], 30),
    (.transit, [30], 31), (.mul, [19, 20], 32)]

/-- The node at a position of the list, with its number. -/
def blockedNode (σ : Equiv.Perm ℕ) (i : ℕ) : Node :=
  let n := blockedNodes.getD i ("", 0, .none)
  ⟨σ i, n.1, n.2.1, n.2.2⟩

/-- The nodes in the order of their numbers. -/
def blockedList (σ : Equiv.Perm ℕ) : List Node :=
  (List.range 33).map fun i => blockedNode σ (σ.symm i)

/-- The operations. -/
def blockedOps (σ : Equiv.Perm ℕ) : List Operation :=
  blockedEdges.zipIdx.map fun e => Operation.make 1 e.2 e.1.1 (e.1.2.1.map (blockedNode σ))
    (blockedNode σ e.1.2.2)

/-- The protocol, its nodes numbered by `σ`, for party 0 corrupted. -/
def blocked (σ : Equiv.Perm ℕ) : Graph :=
  ((((GraphBase.bare (blockedList σ)).toGraph 3 2 {0}).addEdges
    (blockedOps σ)).toGraphBase).toGraph 3 2 {0}

/-- The number of `a` exchanged with that of an unused input. -/
def late : Equiv.Perm ℕ := Equiv.swap 0 17

/-- Both runs, evaluated: one answers false and the other true, and each takes the
least potential throughout. -/
theorem blocked_runs :
    tryProving .sequential (blocked 1) [0, 2, 1] = some false ∧
    tryProving .sequential (blocked late) [0, 2, 1] = some true ∧
    leastThroughout .sequential (equivalentRewriters [0, 2, 1] (blocked 1)) 10 0 (blocked 1) [] =
      true ∧
    leastThroughout .sequential (equivalentRewriters [0, 2, 1] (blocked late)) 10 0
      (blocked late) [] = true := by
  refine ⟨?_, ?_, ?_, ?_⟩ <;> decide +kernel

section Frame

variable (σ : Equiv.Perm ℕ)

/-- The counters are those of a recount. -/
theorem exact_blocked : (blocked σ).Exact := Graph.exact_toGraph _ 3 2 {0}

theorem partyCnt_blocked : (blocked σ).partyCnt = 3 := rfl

theorem T_blocked : (blocked σ).T = 2 := rfl

theorem corruptedParties_blocked : (blocked σ).corruptedParties = {0} := rfl

end Frame

/-- The graph is linked from its list of nodes and edges. -/
theorem wellFormed_blocked {σ : Equiv.Perm ℕ}
    (hguid : (blockedList σ).map Node.guid = List.range (blockedList σ).length)
    (hid : ((blockedOps σ).map Operation.id).Nodup)
    (hlive : ∀ e ∈ blockedOps σ, ∀ n ∈ e.output :: e.inputs, (blockedList σ)[n.guid]? = some n) :
    (blocked σ).WellFormed :=
  Graph.wellFormed_linked (g := (GraphBase.bare (blockedList σ)).toGraph 3 2 {0}) rfl hguid hid
    hlive

/-- The exchange stays within the nodes. -/
theorem late_lt_iff (i : ℕ) : late i < 33 ↔ i < 33 := by
  rw [late, Equiv.swap_apply_def]
  split
  · omega
  · split
    · omega
    · exact Iff.rfl

/-- The edges correspond, operand by operand. -/
theorem blocked_edges (v : ℕ) : ((blocked late).inEdges (late v)).map Operation.args =
    (((blocked 1).inEdges v).map Operation.args).map (NewEdge.renumber late) := by
  by_cases hv : v < 33
  · have hall : ((List.range 33).all fun v =>
        ((blocked late).inEdges (late v)).map Operation.args ==
          (((blocked 1).inEdges v).map Operation.args).map (NewEdge.renumber late)) = true := by
      decide +kernel
    exact beq_iff_eq.1 (List.all_eq_true.1 hall v (List.mem_range.2 hv))
  · have hlate : (blocked late).inEdgesOf.length = 33 := by decide +kernel
    have hone : (blocked 1).inEdgesOf.length = 33 := by decide +kernel
    have hv' : ¬ late v < 33 := by rwa [late_lt_iff]
    rw [inEdges, OpTable.at'_of_le (by omega), inEdges, OpTable.at'_of_le (by omega)]
    rfl

/-- The nodes of the two graphs correspond. -/
theorem blocked_nodes (i : ℕ) :
    (blocked late).node? (late i) = ((blocked 1).node? i).map (Node.renumber late) := by
  by_cases hi : i < 33
  · have hall : ((List.range 33).all fun i =>
        (blocked late).node? (late i) == ((blocked 1).node? i).map (Node.renumber late)) =
          true := by
      decide +kernel
    exact beq_iff_eq.1 (List.all_eq_true.1 hall i (List.mem_range.2 hi))
  · have hlate : (blocked late).nodes.length = 33 := by decide +kernel
    have hone : (blocked 1).nodes.length = 33 := by decide +kernel
    have hi' : ¬ late i < 33 := by rwa [late_lt_iff]
    rw [node?, List.getD_eq_default _ _ (by omega), node?, List.getD_eq_default _ _ (by omega)]
    rfl

/-- The two graphs are one up to numbers. -/
theorem renumbered_blocked : (blocked 1).Renumbered late (blocked late) where
  left := wellFormed_blocked (by decide +kernel) (by decide +kernel) (by decide +kernel)
  right := wellFormed_blocked (by decide +kernel) (by decide +kernel) (by decide +kernel)
  exactLeft := exact_blocked 1
  exactRight := exact_blocked late
  index := by
    have hlate : (blocked late).nodeSize = 33 := by decide +kernel
    have hone : (blocked 1).nodeSize = 33 := by decide +kernel
    intro i
    rw [hlate, hone]
    exact late_lt_iff i
  nodes := blocked_nodes
  inEdges := fun v => pairsOff_of_renumber (blocked_edges v)
  partyCnt := by rw [partyCnt_blocked, partyCnt_blocked]
  T := by rw [T_blocked, T_blocked]
  corrupted := by rw [corruptedParties_blocked, corruptedParties_blocked]

/-- **Renumbering two nodes turns the answer**, though every iteration of both runs takes
a result of least rank, and in both graphs every edge goes from smaller numbers to a
larger one. -/
theorem numbering_decides :
    (blocked 1).Renumbered late (blocked late) ∧
    (∀ v, ((blocked late).inEdges (late v)).map Operation.args =
      (((blocked 1).inEdges v).map Operation.args).map (NewEdge.renumber late)) ∧
    (∀ e ∈ (blocked 1).inEdgesOf.flatten ++ (blocked late).inEdgesOf.flatten, ∀ n ∈ e.inputs,
      n.guid < e.output.guid) ∧
    tryProving .sequential (blocked 1) [0, 2, 1] = some false ∧
    tryProving .sequential (blocked late) [0, 2, 1] = some true ∧
    ∀ σ, σ = 1 ∨ σ = late → ∀ iter g considered,
      Visited .sequential (equivalentRewriters [0, 2, 1] (blocked σ)) (blocked σ) iter g
        considered → g.hasBubble = true →
      ∃ rss, offered .sequential iter g (equivalentRewriters [0, 2, 1] (blocked σ)) 0 = some rss ∧
        TakesLeast .sequential iter g considered
          (equivalentRewriters [0, 2, 1] (blocked σ)) rss := by
  obtain ⟨hno, hyes, hleast, hleast'⟩ := blocked_runs
  refine ⟨renumbered_blocked, blocked_edges, by decide +kernel, hno, hyes, ?_⟩
  rintro σ (rfl | rfl) iter g considered hv hb
  · exact takesLeast_of_visited hleast hv hb
  · exact takesLeast_of_visited hleast' hv hb

end Prover

end Gauv
