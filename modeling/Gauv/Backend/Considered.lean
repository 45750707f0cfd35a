import Gauv.Backend.Privacy
import Gauv.Backend.Termination
import Gauv.Backend.Threads

/-!
# The set of considered graphs

The rewriting loop skips results whose key is among those of the graphs it took
before.  Every graph it takes has a lower potential than the one before, so the
set never rejects a graph that was visited: it rejects results that share their
key with one.  Where the keys tell the offered results from the visited graphs,
the loop is plain greedy descent.  Under a team of even size all hashes are zero,
the keys are down to the counters, and after the first rewrite only those that
lower the number of bubbles are taken.
-/

namespace Gauv

open GraphBase

namespace Prover

variable {env : Env} {trs : List Transformer} {g₀ g g' : Graph} {iter : ℕ}
  {considered : List (UInt64 × ℤ × ℤ)}

/-! ## What the set holds -/

/-- The potential of a graph is at most that of the graphs taken before, and the
set holds their keys. -/
theorem Visited.exists_of_mem_considered (h : Visited env trs g₀ iter g considered)
    {k : UInt64 × ℤ × ℤ} (hk : k ∈ considered) :
    ∃ jter h considered', Visited env trs g₀ jter h considered' ∧ k = h.key env.team ∧
      g.potential ≤ h.potential := by
  induction h with
  | start => exact absurd hk List.not_mem_nil
  | @step iter g g' considered node hv hb hs ih =>
      rcases List.mem_cons.1 hk with rfl | hk
      · exact ⟨_, g', _, hv.step hb hs, rfl, le_rfl⟩
      · obtain ⟨jter, h, considered', hvh, rfl, hle⟩ := ih hk
        exact ⟨jter, h, considered', hvh, rfl, (potential_lt_of_selectMin hs).le.trans hle⟩

/-! ## Plain descent -/

/-- The rewriting loop without the set. -/
def descend (env : Env) (trs : List Transformer) : ℕ → ℕ → Graph → Option Graph
  | 0, _, g => some g
  | fuel + 1, iter, g =>
      if g.hasBubble then do
        match ← selectMin env iter g [] trs 0 none with
        | none => some g
        | some (_, g') => descend env trs fuel (iter + 1) g'
      else some g

/-- A result that the run is offered has the key of a graph the run visits only if
it has its potential. -/
def KeysTell (env : Env) (trs : List Transformer) (g₀ : Graph) : Prop :=
  ∀ iter g considered, Visited env trs g₀ iter g considered →
    ∀ rss, offered env iter g trs 0 = some rss → ∀ r ∈ rss.flatten,
      ∀ jter h considered', Visited env trs g₀ jter h considered' →
        r.2.key env.team = h.key env.team → r.2.potential = h.potential

/-- The set rejects collisions only. -/
theorem Visited.eligible_eq (hkeys : KeysTell env trs g₀)
    (h : Visited env trs g₀ iter g considered) {rss : List ResultsType}
    (hrss : offered env iter g trs 0 = some rss) {r : Node × Graph} (hr : r ∈ rss.flatten) :
    eligible env g considered r = eligible env g [] r := by
  rw [eligible, eligible, List.contains_nil, Bool.not_false, Bool.and_true]
  by_cases hlt : r.2.potential < g.potential
  · have hnot : r.2.key env.team ∉ considered := fun hmem => by
      obtain ⟨jter, h', considered', hv', hkey, hle⟩ := h.exists_of_mem_considered hmem
      have heq := hkeys iter g considered h rss hrss r hr jter h' considered' hv' hkey
      exact (hlt.trans_le hle).ne heq
    rw [List.contains_eq_mem, decide_eq_false hnot, Bool.not_false, Bool.and_true]
  · rw [decide_eq_false hlt, Bool.false_and]

theorem Visited.selectMin_eq (hkeys : KeysTell env trs g₀)
    (h : Visited env trs g₀ iter g considered) :
    selectMin env iter g considered trs 0 none = selectMin env iter g [] trs 0 none := by
  rw [selectMin_eq_foldl, selectMin_eq_foldl]
  cases hrss : offered env iter g trs 0 with
  | none => rfl
  | some rss =>
      rw [Option.map_some, Option.map_some]
      refine congrArg some (List.foldl_ext _ _ _ fun best results hresults => ?_)
      refine Greedy.takeFirst_congr fun r hr => h.eligible_eq hkeys hrss ?_
      exact List.mem_flatten.2 ⟨results, hresults, hr⟩

/-- **The set of considered graphs decides nothing** where the keys tell the results
from the visited graphs: the loop is plain descent, whatever its fuel. -/
theorem rewriteLoop_eq_descend (hkeys : KeysTell env trs g₀) (fuel : ℕ) :
    rewriteLoop env trs fuel 0 g₀ [] = descend env trs fuel 0 g₀ := by
  have hloop : ∀ (fuel iter : ℕ) (g : Graph) (considered : List (UInt64 × ℤ × ℤ)),
      Visited env trs g₀ iter g considered →
      rewriteLoop env trs fuel iter g considered = descend env trs fuel iter g := by
    intro fuel
    induction fuel with
    | zero => exact fun _ _ _ _ => rfl
    | succ fuel ih =>
        intro iter g considered hv
        rw [rewriteLoop, descend, hv.selectMin_eq hkeys]
        split
        · rename_i hb
          cases hs : selectMin env iter g [] trs 0 none with
          | none => rfl
          | some r =>
              cases r with
              | none => rfl
              | some r => exact ih _ _ _ (hv.step hb ((hv.selectMin_eq hkeys).trans hs))
        · rfl
  exact hloop fuel 0 g₀ [] .start

/-- No result offered in an iteration has the key of one of the graphs without its
potential. -/
def keysTellAt (env : Env) (trs : List Transformer) (visited : List Graph) (iter : ℕ)
    (g : Graph) : Bool :=
  (offered env iter g trs 0).all fun rss => rss.flatten.all fun r => visited.all fun h =>
    decide (r.2.key env.team = h.key env.team → r.2.potential = h.potential)

/-- A run that takes one rewrite visits two graphs. -/
theorem keysTell_of_single {r : Node × Graph}
    (hfirst : selectMin env 0 g₀ [] trs 0 none = some (some r))
    (hlast : selectMin env 1 r.2 [r.2.key env.team] trs 0 none = some none)
    (h₀ : keysTellAt env trs [g₀, r.2] 0 g₀ = true)
    (h₁ : keysTellAt env trs [g₀, r.2] 1 r.2 = true) : KeysTell env trs g₀ := by
  have hat : ∀ {iter g}, keysTellAt env trs [g₀, r.2] iter g = true → ∀ rss,
      offered env iter g trs 0 = some rss → ∀ s ∈ rss.flatten, ∀ h ∈ [g₀, r.2],
        s.2.key env.team = h.key env.team → s.2.potential = h.potential := by
    intro iter g hk rss hrss s hs h hh
    rw [keysTellAt, hrss, Option.all_some] at hk
    exact of_decide_eq_true (List.all_eq_true.1 (List.all_eq_true.1 hk s hs) h hh)
  intro iter g considered hv rss hrss s hs jter h considered' hv'
  have hmem : h ∈ [g₀, r.2] := by
    rcases visited_of_single hfirst hlast hv' with ⟨-, rfl, -⟩ | ⟨-, rfl, -⟩ <;> simp
  rcases visited_of_single hfirst hlast hv with ⟨rfl, rfl, -⟩ | ⟨rfl, rfl, -⟩
  · exact hat h₀ rss hrss s hs h hmem
  · exact hat h₁ rss hrss s hs h hmem

/-- The run that deals one secret. -/
theorem rewriteLoop_eq_descend_onePoly :
    rewriteLoop .sequential (equivalentRewriters [0, 1] onePoly) 3 0 onePoly [] =
      descend .sequential (equivalentRewriters [0, 1] onePoly) 3 0 onePoly := by
  have hfirst : selectMin .sequential 0 onePoly [] (equivalentRewriters [0, 1] onePoly) 0 none =
      some (some (onePolyNode 0, onePolyPlan.result 1 onePoly)) := by decide +kernel
  have hlast : selectMin .sequential 1 (onePolyPlan.result 1 onePoly)
      [(onePolyPlan.result 1 onePoly).key 1] (equivalentRewriters [0, 1] onePoly) 0 none =
        some none := by decide +kernel
  exact rewriteLoop_eq_descend
    (keysTell_of_single hfirst hlast (by decide +kernel) (by decide +kernel)) 3

/-! ## Teams of even size -/

theorem key_of_even (heven : env.team % 2 = 0) (g : Graph) :
    g.key env.team = (0, g.randomNodeCnt, g.bubbleCnt) := by
  rw [Graph.key, generateHash_eq_parallel, generateHashParallel_eq, if_neg (by omega)]

theorem bubbleCnt_le_of_potential_lt (h : g'.potential < g.potential) :
    g'.bubbleCnt ≤ g.bubbleCnt := by
  simp only [Graph.potential, Prod.Lex.toLex_lt_toLex] at h
  rcases h with hlt | ⟨heq, -⟩
  · exact hlt.le
  · exact heq.le

/-- After the first rewrite, a rewrite lowers the number of bubbles. -/
theorem Visited.bubbleCnt_lt (heven : env.team % 2 = 0)
    (h : Visited env trs g₀ iter g considered) (hpos : 1 ≤ iter) {node : Node}
    (hs : selectMin env iter g considered trs 0 none = some (some (node, g'))) :
    g'.bubbleCnt < g.bubbleCnt := by
  refine lt_of_le_of_ne (bubbleCnt_le_of_potential_lt (potential_lt_of_selectMin hs)) fun heq => ?_
  obtain ⟨-, -, -, -, -, -, -, -, -, hcoins⟩ := rewrites_of_selectMin hs
  have hmem : g.key env.team ∈ considered := by
    cases h with
    | start => omega
    | step hv hb hs' => exact List.mem_cons_self ..
  have hkey : g'.key env.team = g.key env.team := by
    rw [key_of_even heven, key_of_even heven, hcoins, heq]
  rw [selectMin_eq_foldl, Option.map_eq_some_iff] at hs
  obtain ⟨rss, -, hr⟩ := hs
  have hchosen : Greedy.chosen rank (eligible env g considered) rss.reverse = some (node, g') := by
    rw [Greedy.chosen, List.foldr_reverse]
    exact hr
  have helig := (Greedy.mem_of_chosen hchosen).2
  rw [eligible, hkey, List.contains_eq_mem, decide_eq_true hmem] at helig
  simp at helig

/-- After the first rewrite each rewrite costs a bubble. -/
theorem Visited.bubbleCnt_add_le (h : Visited env trs g₀ iter g considered)
    (heven : env.team % 2 = 0) : iter = 0 ∨ g.bubbleCnt + iter ≤ g₀.bubbleCnt + 1 := by
  induction h with
  | start => exact Or.inl rfl
  | @step iter g g' considered node hv hb hs ih =>
      right
      rcases Nat.eq_zero_or_pos iter with rfl | hpos
      · cases hv
        have hle : g'.bubbleCnt ≤ g₀.bubbleCnt :=
          bubbleCnt_le_of_potential_lt (potential_lt_of_selectMin hs)
        push_cast
        omega
      · have hlt := hv.bubbleCnt_lt heven hpos hs
        push_cast
        omega

/-- **Few rewrites under an even team.**  When the hashes are computed by a team of
even size, every rewrite of a run but the first lowers the number of bubbles, and
the run takes at most one rewrite more than there were bubbles. -/
theorem rewrites_le_of_even_team (heven : env.team % 2 = 0)
    (h : Visited env trs g₀ iter g considered) :
    (∀ node g', 1 ≤ iter →
      selectMin env iter g considered trs 0 none = some (some (node, g')) →
      g'.bubbleCnt < g.bubbleCnt) ∧
    iter ≤ g₀.bubbleCnt.toNat + 1 := by
  refine ⟨fun node g' hpos hs => h.bubbleCnt_lt heven hpos hs, ?_⟩
  cases h with
  | start => exact Nat.zero_le _
  | step hv hb hs =>
      -- the last rewrite was made while there was a bubble
      rw [Graph.hasBubble, decide_eq_true_iff] at hb
      rcases hv.bubbleCnt_add_le heven with h0 | hle
      · omega
      · omega

/-- Two threads deal the secret. -/
theorem rewrites_le_of_even_team_onePoly :
    (∀ node g', 1 ≤ 1 → selectMin ⟨2, fun _ _ _ => .insertion⟩ 1 (onePolyPlan.result 2 onePoly)
        [(onePolyPlan.result 2 onePoly).key 2] (equivalentRewriters [0, 1] onePoly) 0 none =
          some (some (node, g')) → g'.bubbleCnt < (onePolyPlan.result 2 onePoly).bubbleCnt) ∧
      1 ≤ onePoly.bubbleCnt.toNat + 1 := by
  have hfirst : selectMin ⟨2, fun _ _ _ => .insertion⟩ 0 onePoly []
      (equivalentRewriters [0, 1] onePoly) 0 none =
        some (some (onePolyNode 0, onePolyPlan.result 2 onePoly)) := by decide +kernel
  exact rewrites_le_of_even_team rfl (Visited.start.step (by decide) hfirst)

end Prover

end Gauv
