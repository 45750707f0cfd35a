import Gauv.Backend.Matches
import Gauv.Backend.Prover

/-!
# Runs of the prover

The states the two loops of `tryProving` go through, and the induction over
them: what every rewrite preserves holds of every graph the rewriting loop
visits, and what the deletion of a tail node preserves holds of every graph the
elimination loop visits.
-/

namespace Gauv

open GraphBase

namespace Prover

/-! ## The rewriting loop -/

/-- The states of the rewriting loop started at `g₀`: the iteration, the graph
and the visited set. -/
inductive Visited (env : Env) (trs : List Transformer) (g₀ : Graph) :
    ℕ → Graph → List (UInt64 × ℤ × ℤ) → Prop
  | start : Visited env trs g₀ 0 g₀ []
  | step {iter : ℕ} {g g' : Graph} {considered : List (UInt64 × ℤ × ℤ)} {node : Node}
      (hv : Visited env trs g₀ iter g considered) (hb : g.hasBubble = true)
      (hs : selectMin env iter g considered trs 0 none = some (some (node, g'))) :
      Visited env trs g₀ (iter + 1) g' (g'.key env.team :: considered)

/-- The graph is one the rewriting loop of `tryProving` visits. -/
def RewriteVisited (env : Env) (parties : List PartyDecl) (g₀ g : Graph) : Prop :=
  ∃ iter considered, Visited env (equivalentRewriters parties g₀) g₀ iter g considered

/-- The graph is one the elimination loop visits when it starts at `g`. -/
inductive TailVisited (g : Graph) : Graph → Prop
  | start : TailVisited g g
  | step {h h' : Graph} (hv : TailVisited g h) (hs : tailStep h = some h') : TailVisited g h'

variable {env : Env} {trs : List Transformer}

theorem mem_of_selectFrom {g : Graph} {considered : List (UInt64 × ℤ × ℤ)}
    {best : Option (Node × Graph)} {results : ResultsType} {r : Node × Graph}
    (h : selectFrom env g considered best results = some r) : best = some r ∨ r ∈ results := by
  rw [selectFrom] at h
  split at h
  · rename_i r' hr'
    cases h
    exact Or.inr (List.mem_of_find?_eq_some hr')
  · exact Or.inl h

/-- What an iteration selects is a result of one of the transformers. -/
theorem exists_of_selectMin {iter call : ℕ} {g : Graph} {considered : List (UInt64 × ℤ × ℤ)}
    {best : Option (Node × Graph)} {r : Node × Graph}
    (h : selectMin env iter g considered trs call best = some (some r)) :
    best = some r ∨ ∃ tr ∈ trs, ∃ i results,
      tr.apply env.team (env.order iter i) g = some results ∧ r ∈ results := by
  induction trs generalizing call best with
  | nil =>
      rw [selectMin, Option.some.injEq] at h
      exact Or.inl h
  | cons tr trs ih =>
      rw [selectMin] at h
      simp only [Option.bind_eq_bind, Option.bind_eq_some_iff] at h
      obtain ⟨results, hres, h⟩ := h
      rcases ih h with hb | ⟨tr', htr', rest⟩
      · rcases mem_of_selectFrom hb with hb | hr
        · exact Or.inl hb
        · exact Or.inr ⟨tr, List.mem_cons_self .., call, results, hres, hr⟩
      · exact Or.inr ⟨tr', List.mem_cons_of_mem _ htr', rest⟩

/-- One accepted rewrite: a plan of some transformer whose result has as many
random nodes as the graph before. -/
def Rewrites (trs : List Transformer) (g g' : Graph) : Prop :=
  ∃ tr ∈ trs, ∃ team order ps, tr.plans order g = some ps ∧
    ∃ p ∈ ps, g' = p.result team g ∧ g'.randomNodeCnt = g.randomNodeCnt

theorem rewrites_of_mem_apply {tr : Transformer} (htr : tr ∈ trs) {team : ℕ}
    {order : ℕ → IterOrder} {g : Graph} {results : ResultsType}
    (h : tr.apply team order g = some results) {r : Node × Graph} (hr : r ∈ results) :
    Rewrites trs g r.2 := by
  rw [Transformer.apply, Option.map_eq_some_iff] at h
  obtain ⟨ps, hps, rfl⟩ := h
  obtain ⟨hmem, hcnt⟩ := List.mem_filter.1 hr
  obtain ⟨p, hp, rfl⟩ := List.mem_map.1 hmem
  exact ⟨tr, htr, team, order, ps, hps, p, hp, rfl, by simpa using hcnt⟩

theorem rewrites_of_selectMin {iter call : ℕ} {g g' : Graph} {node : Node}
    {considered : List (UInt64 × ℤ × ℤ)}
    (h : selectMin env iter g considered trs call none = some (some (node, g'))) :
    Rewrites trs g g' := by
  rcases exists_of_selectMin h with h | ⟨tr, htr, i, results, hres, hr⟩
  · exact absurd h (by simp)
  · exact rewrites_of_mem_apply htr hres hr

/-- **The run rule.**  What holds of the start graph and is kept by every
accepted rewrite holds of every graph the loop visits. -/
theorem Visited.invariant {P : Graph → Prop} {g₀ : Graph} (h₀ : P g₀)
    (hstep : ∀ g g', P g → Rewrites trs g g' → P g') {iter : ℕ} {g : Graph}
    {considered : List (UInt64 × ℤ × ℤ)} (h : Visited env trs g₀ iter g considered) : P g := by
  induction h with
  | start => exact h₀
  | step _ _ hs ih => exact hstep _ _ ih (rewrites_of_selectMin hs)

/-- The graph the rewriting loop returns is one it visited. -/
theorem visited_of_rewriteLoop {g₀ g g' : Graph} {fuel iter : ℕ}
    {considered : List (UInt64 × ℤ × ℤ)} (hv : Visited env trs g₀ iter g considered)
    (h : rewriteLoop env trs fuel iter g considered = some g') :
    ∃ iter' considered', Visited env trs g₀ iter' g' considered' := by
  induction fuel generalizing iter g considered with
  | zero =>
      cases h
      exact ⟨iter, considered, hv⟩
  | succ fuel ih =>
      rw [rewriteLoop] at h
      split at h
      · rename_i hb
        simp only [Option.bind_eq_bind, Option.bind_eq_some_iff] at h
        obtain ⟨r, hr, h⟩ := h
        cases r with
        | none =>
            cases h
            exact ⟨iter, considered, hv⟩
        | some r => exact ih (.step hv hb hr) h
      · cases h
        exact ⟨iter, considered, hv⟩

/-- The graph the elimination loop returns is one it visited. -/
theorem tailVisited_of_tailLoop {g h : Graph} (hv : TailVisited g h) (fuel : ℕ) :
    TailVisited g (tailLoop fuel h) := by
  induction fuel generalizing h with
  | zero => exact hv
  | succ fuel ih =>
      rw [tailLoop]
      split
      · rename_i h' hs
        exact ih (.step hv hs)
      · exact hv

/-- A successful run, taken apart: the graph it ended the rewriting loop with,
and the verdict read off the elimination loop. -/
theorem tryProving_eq_some {g : Graph} {parties : List PartyDecl} {b : Bool} :
    tryProving env g parties = some b ↔
      ∃ g', rewriteLoop env (equivalentRewriters parties g) (rewriteFuel g) 0 g [] = some g' ∧
        b = !(tailLoop g'.nodeSize g').hasBubble := by
  rw [tryProving]
  simp only [Option.bind_eq_bind, Option.bind_eq_some_iff, Option.pure_def, Option.some.injEq]
  exact ⟨fun ⟨g', h, hb⟩ => ⟨g', h, hb.symm⟩, fun ⟨g', h, hb⟩ => ⟨g', h, hb.symm⟩⟩

/-! ## The shape of one step -/

theorem Rewrites.shape {g g' : Graph} (h : Rewrites trs g g') (hg : g.WellFormed) :
    ∃ tr ∈ trs, ∃ team p, PlanShape g p tr ∧ g' = p.result team g := by
  obtain ⟨tr, htr, team, order, ps, hps, p, hp, hg', -⟩ := h
  exact ⟨tr, htr, team, p, planShape_of_mem_plans hg hps hp, hg'⟩

theorem Rewrites.wellFormed {g g' : Graph} (h : Rewrites trs g g') (hg : g.WellFormed) :
    g'.WellFormed := by
  obtain ⟨tr, -, team, p, hp, rfl⟩ := h.shape hg
  exact Plan.wellFormed_result hg (hp.valid hg) team

theorem Rewrites.exact {g g' : Graph} (h : Rewrites trs g g') (hg : g.WellFormed)
    (hx : g.Exact) : g'.Exact := by
  obtain ⟨tr, -, team, p, hp, rfl⟩ := h.shape hg
  exact Plan.exact_result hg hx (hp.valid hg) team

theorem Rewrites.sameFrame {g g' : Graph} (h : Rewrites trs g g') : g.SameFrame g' := by
  obtain ⟨tr, -, team, order, ps, -, p, -, rfl, -⟩ := h
  exact Plan.sameFrame_result p team g

end Prover

end Gauv
