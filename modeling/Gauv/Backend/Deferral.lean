import Gauv.Backend.AsidePlans
import Gauv.Backend.Considered

/-!
# Deferring tail eliminations

The prover deletes unused honest nodes only after it has rewritten the graph.  That
loses no proof as long as the unused node stays aside: its in-edges change no test of
the sharing rules, no rewrite of the node itself lowers the potential, and its number
decides no tie between potentials.  Then the run goes through the graphs of the run
without the node.  A node can be in the way: reading a secret once more hides the
sharing of it.
-/

namespace Gauv

open GraphBase

/-! ## Nodes that stay aside -/

/-- The node at `v` stays aside in an iteration on `g` that is offered the results
`rs`. -/
structure Aside (trs : List Transformer) (v : ℕ) (g : Graph) (rs : ResultsType) : Prop where
  clear : ∀ tr ∈ trs, tr.ClearOf v g
  untouched : ∀ r ∈ rs, r.1.guid = v → ¬ r.2.potential < g.potential
  lowers : ∀ r ∈ rs, r.1.guid ≠ v → LeftOut.Steady v r.2 g
  compares : ∀ r ∈ rs, r.2.potential < g.potential →
    ∀ s ∈ rs, s.2.potential < g.potential → LeftOut.Steady v r.2 s.2

instance (trs : List Transformer) (v : ℕ) (g : Graph) (rs : ResultsType) :
    Decidable (Aside trs v g rs) :=
  decidable_of_iff ((∀ tr ∈ trs, tr.ClearOf v g) ∧
      (∀ r ∈ rs, r.1.guid = v → ¬ r.2.potential < g.potential) ∧
      (∀ r ∈ rs, r.1.guid ≠ v → LeftOut.Steady v r.2 g) ∧
      ∀ r ∈ rs, r.2.potential < g.potential →
        ∀ s ∈ rs, s.2.potential < g.potential → LeftOut.Steady v r.2 s.2)
    ⟨fun h => ⟨h.1, h.2.1, h.2.2.1, h.2.2.2⟩,
      fun h => ⟨h.clear, h.untouched, h.lowers, h.compares⟩⟩

namespace Prover

/-- The node at `v` stays aside throughout the run on `g₀`, in which no assertion
fails. -/
def StaysAside (env : Env) (trs : List Transformer) (v : ℕ) (g₀ : Graph) : Prop :=
  ∀ iter g considered, Visited env trs g₀ iter g considered → g.hasBubble = true →
    ∃ rss, offered env iter g trs 0 = some rss ∧ Aside trs v g rss.flatten

variable {env env' : Env} {trs : List Transformer} {iter : ℕ} {v : ℕ} {g h : Graph}

/-! ## One iteration -/

/-- The lists of results are the same with the node as without it, but for the results
at the node. -/
theorem exists_offered (hb : Beside v g h) (hc : ∀ tr ∈ trs, tr.ClearOf v g) (env' : Env)
    {call : ℕ} {rss : List ResultsType} (hrss : offered env iter g trs call = some rss) :
    ∃ rss', offered env' iter h trs call = some rss' ∧
      List.Forall₂ (fun rs rs' => List.Forall₂ (ResultBeside v g h)
        (rs.filter fun r => r.1.guid ≠ v) rs') rss rss' := by
  induction trs generalizing call rss with
  | nil =>
      cases hrss
      exact ⟨[], rfl, .nil⟩
  | cons tr trs ih =>
      rw [offered] at hrss
      simp only [Option.bind_eq_bind, Option.bind_eq_some_iff, Option.pure_def,
        Option.some.injEq] at hrss
      obtain ⟨rs, hrs, rest, hrest, rfl⟩ := hrss
      obtain ⟨rs', hrs', hrel⟩ := hb.apply (hc tr (List.mem_cons_self ..)) env.team env'.team
        (env.order iter call) (env'.order iter call) hrs
      obtain ⟨rest', hrest', hrels⟩ := ih (fun tr htr => hc tr (List.mem_cons_of_mem _ htr)) hrest
      refine ⟨rs' :: rest', ?_, .cons hrel hrels⟩
      rw [offered, hrs', Option.bind_eq_bind, Option.bind_some, hrest']
      rfl

/-- Results whose last terms do not hang on the node compare as they do without it. -/
theorem rank_lt_iff_of_beside {r r' s s' : Node × Graph} (hr : ResultBeside v g h r r')
    (hs : ResultBeside v g h s s') (ht : LeftOut.Steady v r.2 s.2) :
    rank r < rank s ↔ rank r' < rank s' :=
  hr.beside.out.potential_lt_iff hs.beside.out hr.beside.left hs.beside.left hr.beside.exactLeft
    hr.beside.exactRight hs.beside.exactLeft hs.beside.exactRight (hr.left.symm.trans hs.left)
    (hr.right.symm.trans hs.right) hr.beside.honest
    (congrArg List.length (hs.inEdges.trans hr.inEdges.symm)) ht

/-- The graph before the rewrite. -/
theorem resultBeside_self (hb : Beside v g h) (n m : Node) :
    ResultBeside v g h (n, g) (m, h) := ⟨hb, rfl, .refl g, .refl h⟩

theorem eligible_nil_iff {r : Node × Graph} :
    eligible env g [] r = true ↔ r.2.potential < g.potential := by
  rw [eligible, List.contains_nil, Bool.not_false, Bool.and_true, decide_eq_true_iff]

/-- An iteration is the running minimum over the results that lower the potential. -/
theorem selectMin_nil_eq : selectMin env iter g [] trs 0 none =
    (offered env iter g trs 0).map fun rss =>
      (rss.map (·.filter (eligible env g []))).foldl (Greedy.takeBetter rank) none := by
  rw [selectMin_eq_foldl]
  congr 1
  funext rss
  rw [List.foldl_map]
  congr 1
  funext best l
  exact Greedy.takeFirst_eq_takeBetter best l

/-- **The step lemma.**  The node makes no difference to what is taken. -/
theorem selectMin_beside (hb : Beside v g h) {rss : List ResultsType}
    (hrss : offered env iter g trs 0 = some rss) (ha : Aside trs v g rss.flatten) (env' : Env) :
    ∃ best best', selectMin env iter g [] trs 0 none = some best ∧
      selectMin env' iter h [] trs 0 none = some best' ∧
      Option.Rel (fun r r' => Beside v r.2 r'.2) best best' := by
  obtain ⟨rss', hrss', hrel⟩ := exists_offered hb ha.clear env' hrss
  refine ⟨(rss.map (·.filter (eligible env g []))).foldl (Greedy.takeBetter rank) none,
    (rss'.map (·.filter (eligible env' h []))).foldl (Greedy.takeBetter rank) none,
    by rw [selectMin_nil_eq, hrss]; rfl, by rw [selectMin_nil_eq, hrss']; rfl, ?_⟩
  let R : Node × Graph → Node × Graph → Prop := fun r r' =>
    r ∈ rss.flatten ∧ r.2.potential < g.potential ∧ ResultBeside v g h r r'
  have hrank : ∀ a a' b b', R a a' → R b b' → (rank a < rank b ↔ rank a' < rank b') := by
    rintro a a' b b' ⟨hma, hla, hra⟩ ⟨hmb, hlb, hrb⟩
    exact rank_lt_iff_of_beside hra hrb (ha.compares a hma hla b hmb hlb)
  have heligible : List.Forall₂ (List.Forall₂ R) (rss.map (·.filter (eligible env g [])))
      (rss'.map (·.filter (eligible env' h []))) := by
    rw [List.forall₂_map_left_iff, List.forall₂_map_right_iff]
    refine (forall₂_mem hrel).imp fun rs rs' hrs => ?_
    have hmem : ∀ {r}, r ∈ rs → r ∈ rss.flatten := fun hr =>
      List.mem_flatten.2 ⟨rs, hrs.1, hr⟩
    -- what is rewritten at the node is not eligible
    have hself : rs.filter (eligible env g []) =
        (rs.filter fun r => r.1.guid ≠ v).filter (eligible env g []) := by
      rw [List.filter_filter]
      refine List.filter_congr fun r hr => ?_
      by_cases hv : r.1.guid = v
      · have hnot : eligible env g [] r = false := by
          rw [Bool.eq_false_iff, ne_eq, eligible_nil_iff]
          exact ha.untouched r (hmem hr) hv
        rw [hnot, Bool.false_and]
      · rw [decide_eq_true hv, Bool.and_true]
    rw [hself]
    have hsame : List.Forall₂ (fun r r' => (r ∈ rss.flatten ∧ r.1.guid ≠ v) ∧
        ResultBeside v g h r r') (rs.filter fun r => r.1.guid ≠ v) rs' :=
      (forall₂_mem hrs.2.2).imp fun r r' hr => by
        obtain ⟨hmr, hv⟩ := List.mem_filter.1 hr.1
        exact ⟨⟨hmem hmr, of_decide_eq_true hv⟩, hr.2.2⟩
    have hiff : ∀ r r', ((r ∈ rss.flatten ∧ r.1.guid ≠ v) ∧ ResultBeside v g h r r') →
        (eligible env g [] r = true ↔ eligible env' h [] r' = true) := by
      rintro r r' ⟨⟨hmr, hv⟩, hr⟩
      rw [eligible_nil_iff, eligible_nil_iff]
      exact rank_lt_iff_of_beside hr (resultBeside_self hb r.1 r'.1) (ha.lowers r hmr hv)
    refine (forall₂_mem (List.rel_filter (fun r r' hr => hiff r r' hr) hsame)).imp
      fun r r' hr => ?_
    exact ⟨hr.2.2.1.1, eligible_nil_iff.1 (List.mem_filter.1 hr.1).2, hr.2.2.2⟩
  have hfold := Greedy.foldl_takeBetter_rel hrank .none heligible
  generalize (rss.map (·.filter (eligible env g []))).foldl (Greedy.takeBetter rank) none = o
    at hfold ⊢
  generalize (rss'.map (·.filter (eligible env' h []))).foldl (Greedy.takeBetter rank) none = o'
    at hfold ⊢
  cases hfold with
  | none => exact .none
  | some hr => exact .some hr.2.2.beside

/-! ## Runs -/

section Runs

variable {g₀ h₀ : Graph} (hb : Beside v g₀ h₀) (hkeys : KeysTell env trs g₀)
  (hkeys' : KeysTell env' trs h₀) (haside : StaysAside env trs v g₀)

include hb hkeys hkeys' haside

/-- **The run lemma.**  The run on `g₀` goes through the graphs of the run on `h₀` with
the node in them; where that one has stopped, no bubble is left but the node. -/
theorem exists_beside_of_visited {considered : List (UInt64 × ℤ × ℤ)}
    (hvis : Visited env trs g₀ iter g considered) : ∃ h, Beside v g h ∧
      ((∃ considered', Visited env' trs h₀ iter h considered') ∨ h.hasBubble = false) := by
  induction hvis with
  | start => exact ⟨h₀, hb, Or.inl ⟨[], .start⟩⟩
  | @step iter g g' considered node hvis hbub hs ih =>
      obtain ⟨h, hbh, hvish⟩ := ih
      obtain ⟨rss, hrss, ha⟩ := haside iter g considered hvis hbub
      obtain ⟨best, best', hbest, hbest', hrel⟩ := selectMin_beside hbh hrss ha env'
      rw [hvis.selectMin_eq hkeys, hbest, Option.some.injEq] at hs
      subst hs
      cases hrel with
      | @some _ r' hr =>
          refine ⟨r'.2, hr, ?_⟩
          cases hbub' : h.hasBubble with
          | true =>
              rcases hvish with ⟨considered', hvish⟩ | hnone
              · exact Or.inl ⟨_, hvish.step hbub' ((hvish.selectMin_eq hkeys').trans hbest')⟩
              · rw [hbub'] at hnone
                exact absurd hnone (by simp)
          | false =>
              right
              have hle := bubbleCnt_le_of_potential_lt (potential_lt_of_selectMin hbest')
              rw [Graph.hasBubble, decide_eq_false_iff_not] at hbub' ⊢
              omega

/-- Where the run on `g₀` stops, the one on `h₀` has stopped. -/
theorem stops_or_of_stops {considered : List (UInt64 × ℤ × ℤ)}
    (hvis : Visited env trs g₀ iter g considered) (hstop : Stops env trs iter g considered) :
    ∃ h, Beside v g h ∧ ((∃ considered', Visited env' trs h₀ iter h considered' ∧
      Stops env' trs iter h considered') ∨ h.hasBubble = false) := by
  obtain ⟨h, hbh, hvish⟩ := exists_beside_of_visited hb hkeys hkeys' haside hvis
  refine ⟨h, hbh, ?_⟩
  rcases hvish with ⟨considered', hvish⟩ | hnone
  · refine Or.inl ⟨considered', hvish, fun hbub' => ?_⟩
    have hbub := hbh.out.hasBubble hbh.left hbh.exactLeft hbh.exactRight hbub'
    obtain ⟨rss, hrss, ha⟩ := haside iter g considered hvis hbub
    obtain ⟨best, best', hbest, hbest', hrel⟩ := selectMin_beside hbh hrss ha env'
    have hnone := hstop hbub
    rw [hvis.selectMin_eq hkeys, hbest, Option.some.injEq] at hnone
    subst hnone
    cases hrel with
    | none => exact (hvish.selectMin_eq hkeys').trans hbest'
  · exact Or.inr hnone

omit hb hkeys hkeys' in
/-- No iteration aborts. -/
theorem isSome_rewriteLoop_of_staysAside (fuel : ℕ) :
    (rewriteLoop env trs fuel 0 g₀ []).isSome = true := by
  refine isSome_rewriteLoop .start fun iter g considered hvis hbub => ?_
  obtain ⟨rss, hrss, -⟩ := haside iter g considered hvis hbub
  rw [selectMin_eq_foldl, hrss]
  rfl

end Runs

/-- Without bubbles the tail phase answers yes. -/
theorem answersYes_of_not_hasBubble (hx : g.Exact) (hg : g.WellFormed)
    (hb : g.hasBubble = false) : AnswersYes g := by
  intro i n hn hio
  have hnot : ¬ g.isBubble g.corruptedParties n = true := fun hbub =>
    (Bool.eq_false_iff.1 hb) ((Graph.hasBubble_iff hx.bubble).2 ⟨i, n, hn, hbub⟩)
  rw [GraphBase.isBubble, hg.guid_eq hn, hio] at hnot
  split at hnot
  · rename_i hc
    rw [Graph.isCorrupted, decide_eq_true hc, if_pos rfl]
    simpa using hnot
  · exact absurd rfl hnot

theorem equivalentRewriters_eq {v : ℕ} {g h : Graph} (hl : LeftOut v g h)
    (parties : List PartyDecl) : equivalentRewriters parties h = equivalentRewriters parties g := by
  have hsrc : srcParties parties h = srcParties parties g := by
    rw [srcParties, srcParties, hl.corrupted, hl.T]
  have hplus : srcPartiesPlus parties h = srcPartiesPlus parties g := by
    rw [srcPartiesPlus, srcPartiesPlus, hsrc]
    simp only [hl.corrupted]
  rw [equivalentRewriters, equivalentRewriters, hsrc, hplus]

/-- **Deferring the elimination of a node that stays aside.**  The run with the node
goes through the graphs of the run without it, and proves what that one proves. -/
theorem deferral_of_staysAside (hg : g.WellFormed) (hx : g.Exact) (hh : h.WellFormed)
    (hx' : h.Exact) (hl : LeftOut v g h) (hv : HonestAt g v) (parties : List PartyDecl)
    (hkeys : KeysTell env (equivalentRewriters parties g) g)
    (hkeys' : KeysTell env' (equivalentRewriters parties h) h)
    (haside : StaysAside env (equivalentRewriters parties g) v g) :
    (∀ iter g' considered, Visited env (equivalentRewriters parties g) g iter g' considered →
      ∃ h', LeftOut v g' h' ∧
        ((∃ considered', Visited env' (equivalentRewriters parties h) h iter h' considered') ∨
          h'.hasBubble = false)) ∧
    (tryProving env' h parties = some true → tryProving env g parties = some true) := by
  have hb : Beside v g h := ⟨hg, hh, hx, hx', hl, honestAt_iff.1 hv⟩
  have hloop := isSome_rewriteLoop_of_staysAside haside (rewriteFuel g)
  rw [equivalentRewriters_eq hl] at hkeys' ⊢
  refine ⟨fun iter g' considered hvis => ?_, fun hyes => ?_⟩
  · obtain ⟨h', hbh, hvish⟩ := exists_beside_of_visited hb hkeys hkeys' haside hvis
    exact ⟨h', hbh.out, hvish⟩
  · obtain ⟨g', hg'⟩ := Option.isSome_iff_exists.1 hloop
    obtain ⟨iter, considered, hvis, hstop⟩ := (rewriteLoop_eq_some_iff hg hx).1 hg'
    obtain ⟨h', hbh, hvish⟩ := stops_or_of_stops hb hkeys hkeys' haside hvis hstop
    have hans : AnswersYes h' := by
      rcases hvish with ⟨considered', hvish, hstop'⟩ | hnone
      · -- the run without the node ends here
        obtain ⟨h'', hh'', hbub⟩ := tryProving_eq_some.1 hyes
        rw [equivalentRewriters_eq hl, (rewriteLoop_eq_some_iff hh hx').2
          ⟨iter, considered', hvish, hstop'⟩, Option.some.injEq] at hh''
        subst hh''
        rw [← hasBubble_tailLoop_iff hbh.right hbh.exactRight.bubble]
        simpa using hbub
      · exact answersYes_of_not_hasBubble hbh.exactRight hbh.right hnone
    refine tryProving_eq_some.2 ⟨g', hg', ?_⟩
    rw [(hasBubble_tailLoop_iff hbh.left hbh.exactLeft.bubble).2
      (answersYes_of_leftOut hbh.out hbh.left hbh.right (honestAt_iff.2 hbh.honest) hans)]
    rfl

/-! ## A node in the way

Party 1 shares its input between two parties, one of them corrupted. -/

/-- The input, the coefficient, the shares at the dealer, and the one that was
sent. -/
def sharedNodes (k : ℕ) : List Node :=
  [⟨k, "x", 1, .input⟩, ⟨k + 1, "c", 1, .others⟩, ⟨k + 2, "share_0", 1, .others⟩,
    ⟨k + 3, "share_1", 1, .others⟩, ⟨k + 4, "share_0", 0, .others⟩]

/-- The node at an index of that list. -/
def sharedNode (k i : ℕ) : Node := (sharedNodes k).getD i ⟨k, "x", 1, .input⟩

/-- Two evaluations and a transit. -/
def sharedEdges (k : ℕ) : List Operation :=
  [Operation.make 1 0 .eval [sharedNode k 0, sharedNode k 1] (sharedNode k 2),
    Operation.make 1 1 .eval [sharedNode k 0, sharedNode k 1] (sharedNode k 3),
    Operation.make 1 2 .transit [sharedNode k 2] (sharedNode k 4)]

/-- The sharing, for `T = 1` and party 0 corrupted. -/
def sharing : Graph :=
  ((GraphBase.bare (sharedNodes 0)).toGraph 2 1 {0}).addEdges (sharedEdges 0)

/-- The square of the input, an output at the dealer. -/
def square : Node := ⟨5, "x * x", 1, .output⟩

/-- The sharing, where the dealer also squares its input. -/
def squaring : Graph :=
  ((GraphBase.bare (sharedNodes 0 ++ [square])).toGraph 2 1 {0}).addEdges
    (sharedEdges 0 ++ [Operation.make 1 3 .mul [sharedNode 0 0, sharedNode 0 0] square])

theorem wellFormed_sharing : sharing.WellFormed :=
  Graph.wellFormed_linked rfl (by decide) (by decide) (by decide)

theorem exact_sharing : sharing.Exact := ⟨by decide, by decide⟩

/-- With the square, the secret feeds two edges too many: no rule applies, and the
input stays. -/
theorem square_in_the_way : ∃ g h v, g.WellFormed ∧ g.Exact ∧ h.WellFormed ∧ h.Exact ∧
    LeftOut v g h ∧ HonestAt g v ∧ tryProving .sequential h [0, 1] = some true ∧
    tryProving .sequential g [0, 1] = some false :=
  ⟨squaring, sharing, 5, Graph.wellFormed_linked rfl (by decide) (by decide) (by decide),
    ⟨by decide, by decide⟩, wellFormed_sharing, exact_sharing, by decide,
    ⟨square, by decide, by decide⟩, by decide +kernel, by decide +kernel⟩

/-! ## A node that is not

The dealer squares the coefficient instead. -/

/-- The square of the coefficient, an output at the dealer. -/
def squaredCoeff : Node := ⟨5, "c * c", 1, .output⟩

/-- The sharing, where the dealer also squares its coefficient. -/
def squaringCoeff : Graph :=
  ((GraphBase.bare (sharedNodes 0 ++ [squaredCoeff])).toGraph 2 1 {0}).addEdges
    (sharedEdges 0 ++ [Operation.make 1 3 .mul [sharedNode 0 1, sharedNode 0 1] squaredCoeff])

/-- A node stays aside in a run that takes one rewrite if it does at its two graphs. -/
theorem staysAside_of_single {g₀ : Graph} {r : Node × Graph}
    (hfirst : selectMin env 0 g₀ [] trs 0 none = some (some r))
    (hlast : selectMin env 1 r.2 [r.2.key env.team] trs 0 none = some none)
    (h₀ : (offered env 0 g₀ trs 0).any (fun rss => decide (Aside trs v g₀ rss.flatten)) = true)
    (h₁ : (offered env 1 r.2 trs 0).any (fun rss => decide (Aside trs v r.2 rss.flatten)) = true) :
    StaysAside env trs v g₀ := by
  intro iter g considered hv _
  rcases visited_of_single hfirst hlast hv with ⟨rfl, rfl, -⟩ | ⟨rfl, rfl, -⟩
  · obtain ⟨rss, hrss, ha⟩ := (Option.any_eq_true _ _).1 h₀
    exact ⟨rss, hrss, of_decide_eq_true ha⟩
  · obtain ⟨rss, hrss, ha⟩ := (Option.any_eq_true _ _).1 h₁
    exact ⟨rss, hrss, of_decide_eq_true ha⟩

/-- Whether the run on the graph takes one rewrite, its keys tell, and `aside` holds at
its two graphs. -/
def singleRun (trs : List Transformer) (aside : ℕ → Graph → Bool) (g₀ : Graph) : Bool :=
  (selectMin .sequential 0 g₀ [] trs 0 none).any fun o => o.any fun r =>
    decide (selectMin .sequential 1 r.2 [r.2.key 1] trs 0 none = some none) &&
    (keysTellAt .sequential trs [g₀, r.2] 0 g₀ && keysTellAt .sequential trs [g₀, r.2] 1 r.2) &&
    (aside 0 g₀ && aside 1 r.2)

theorem exists_of_singleRun {aside : ℕ → Graph → Bool} {g₀ : Graph}
    (h : singleRun trs aside g₀ = true) : KeysTell .sequential trs g₀ ∧
      ∃ r, selectMin .sequential 0 g₀ [] trs 0 none = some (some r) ∧
        selectMin .sequential 1 r.2 [r.2.key 1] trs 0 none = some none ∧
        aside 0 g₀ = true ∧ aside 1 r.2 = true := by
  obtain ⟨o, ho, hany⟩ := (Option.any_eq_true _ _).1 h
  obtain ⟨r, rfl, hall⟩ := (Option.any_eq_true _ _).1 hany
  simp only [Bool.and_eq_true, decide_eq_true_eq] at hall
  obtain ⟨⟨hlast, h₀, h₁⟩, ha₀, ha₁⟩ := hall
  exact ⟨keysTell_of_single ho hlast h₀ h₁, r, ho, hlast, ha₀, ha₁⟩

theorem deferral_of_staysAside_squaringCoeff :
    (∀ iter g' considered,
      Visited .sequential (equivalentRewriters [0, 1] squaringCoeff) squaringCoeff iter g'
        considered → ∃ h', LeftOut 5 g' h' ∧
        ((∃ considered', Visited .sequential (equivalentRewriters [0, 1] sharing) sharing iter h'
          considered') ∨ h'.hasBubble = false)) ∧
    (tryProving .sequential sharing [0, 1] = some true →
      tryProving .sequential squaringCoeff [0, 1] = some true) := by
  have hrun : singleRun (equivalentRewriters [0, 1] squaringCoeff) (fun iter g =>
      (offered .sequential iter g (equivalentRewriters [0, 1] squaringCoeff) 0).any fun rss =>
        decide (Aside (equivalentRewriters [0, 1] squaringCoeff) 5 g rss.flatten))
      squaringCoeff = true := by decide +kernel
  have hrun' : singleRun (equivalentRewriters [0, 1] sharing) (fun _ _ => true) sharing = true := by
    decide +kernel
  obtain ⟨hkeys, r, hfirst, hlast, ha₀, ha₁⟩ := exists_of_singleRun hrun
  exact deferral_of_staysAside (Graph.wellFormed_linked rfl (by decide) (by decide) (by decide))
    ⟨by decide, by decide⟩ wellFormed_sharing exact_sharing (by decide)
    ⟨squaredCoeff, by decide, by decide⟩ [0, 1] hkeys (exists_of_singleRun hrun').1
    (staysAside_of_single hfirst hlast ha₀ ha₁)

end Prover

end Gauv
