import Gauv.Backend.Replanning
import Gauv.Backend.Tail

/-!
# What a run accepts

A trace lists the rewrites a run accepts: the rule, the rewritten node, and the
potential, the counters and the hash of the graph it goes on with.  The run and
its trace are the same whatever the iteration order of the sets of destinations:
alike graphs offer alike results, so the same result is accepted, and the graphs
stay alike.
-/

namespace Gauv

namespace Prover

/-! ## Traced runs -/

/-- An accepted rewrite. -/
structure Accepted where
  rule : ℕ
  node : Node
  potential : ℤ ×ₗ ℕ ×ₗ ℕ ×ₗ ℕ
  randomNodeCnt : ℤ
  bubbleCnt : ℤ
  hash : UInt64
  deriving DecidableEq

/-- The record of going on with `g`, a result of the transformer `rule`. -/
def Accepted.of (team rule : ℕ) (node : Node) (g : Graph) : Accepted :=
  ⟨rule, node, g.potential, g.randomNodeCnt, g.bubbleCnt,
    GraphBase.generateHash team g.inEdgesOf⟩

/-- `selectMin`, keeping the number of the transformer. -/
def selectTraced (env : Env) (iter : ℕ) (g : Graph) (considered : List (UInt64 × ℤ × ℤ)) :
    List Transformer → ℕ → Option (ℕ × Node × Graph) → Option (Option (ℕ × Node × Graph))
  | [], _, best => some best
  | tr :: trs, call, best => do
      let results ← tr.apply env.team (env.order iter call) g
      selectTraced env iter g considered trs (call + 1)
        (match results.find? (fun r => acceptable env g considered (best.map Prod.snd) r.2) with
          | some r => some (call, r)
          | none => best)

/-- `rewriteLoop`, listing what it accepts. -/
def rewriteTraced (env : Env) (trs : List Transformer) :
    ℕ → ℕ → Graph → List (UInt64 × ℤ × ℤ) → Option (List Accepted × Graph)
  | 0, _, g, _ => some ([], g)
  | fuel + 1, iter, g, considered =>
      if g.hasBubble then do
        match ← selectTraced env iter g considered trs 0 none with
        | none => some ([], g)
        | some (rule, node, g') =>
            let (tail, last) ← rewriteTraced env trs fuel (iter + 1) g'
              (g'.key env.team :: considered)
            return (.of env.team rule node g' :: tail, last)
      else some ([], g)

/-- `tryProving`, listing the rewrites it accepts. -/
def tryProvingTraced (env : Env) (g : Graph) (parties : List PartyDecl) :
    Option (List Accepted × Bool) := do
  let (accepted, g') ← rewriteTraced env (equivalentRewriters parties g) (rewriteFuel g) 0 g []
  return (accepted, !(tailLoop g'.nodeSize g').hasBubble)

section Forget

variable {env : Env} {trs : List Transformer}

/-- Without the trace an iteration is that of the code. -/
theorem selectTraced_forget {iter call : ℕ} {g : Graph} {considered : List (UInt64 × ℤ × ℤ)}
    {best : Option (ℕ × Node × Graph)} :
    (selectTraced env iter g considered trs call best).map (Option.map Prod.snd) =
      selectMin env iter g considered trs call (best.map Prod.snd) := by
  induction trs generalizing call best with
  | nil => rfl
  | cons tr trs ih =>
      rw [selectTraced, selectMin]
      cases tr.apply env.team (env.order iter call) g with
      | none => rfl
      | some results =>
          simp only [Option.bind_eq_bind, Option.bind_some, ih, selectFrom]
          cases results.find? fun r => acceptable env g considered (best.map Prod.snd) r.2 <;> rfl

/-- Without the trace the loop is that of the code. -/
theorem rewriteTraced_forget {fuel iter : ℕ} {g : Graph} {considered : List (UInt64 × ℤ × ℤ)} :
    (rewriteTraced env trs fuel iter g considered).map Prod.snd =
      rewriteLoop env trs fuel iter g considered := by
  induction fuel generalizing iter g considered with
  | zero => rfl
  | succ fuel ih =>
      rw [rewriteTraced, rewriteLoop]
      split
      · have hforget : (selectTraced env iter g considered trs 0 none).map (Option.map Prod.snd) =
            selectMin env iter g considered trs 0 none := selectTraced_forget
        rw [← hforget]
        cases selectTraced env iter g considered trs 0 none with
        | none => rfl
        | some best =>
            cases best with
            | none => rfl
            | some b =>
                simp only [Option.bind_eq_bind, Option.bind_some, Option.map_some, ← ih]
                cases rewriteTraced env trs fuel (iter + 1) b.2.2
                  (b.2.2.key env.team :: considered) <;> rfl
      · rfl

/-- Forgetting the trace leaves the prover's run. -/
theorem tryProvingTraced_forget {g : Graph} {parties : List PartyDecl} :
    (tryProvingTraced env g parties).map Prod.snd = tryProving env g parties := by
  rw [tryProvingTraced, tryProving, ← rewriteTraced_forget]
  cases rewriteTraced env (equivalentRewriters parties g) (rewriteFuel g) 0 g [] <;> rfl

end Forget

/-! ## Alike graphs are treated alike -/

section Alike

variable (team : ℕ) (order order' : ℕ → ℕ → ℕ → IterOrder) (trs : List Transformer) {g h : Graph}

/-- A selection and its counterpart. -/
def SelectedAlike : Option (ℕ × Node × Graph) → Option (ℕ × Node × Graph) → Prop :=
  Option.Rel fun r r' => r'.1 = r.1 ∧ r'.2.1 = r.2.1 ∧ r.2.2.Alike r'.2.2

/-- Alike results are acceptable alike. -/
theorem acceptable_alike (ha : g.Alike h) (considered : List (UInt64 × ℤ × ℤ))
    {best best' : Option (ℕ × Node × Graph)} (hb : SelectedAlike best best') {k k' : Graph}
    (hk : k.Alike k') :
    acceptable ⟨team, order'⟩ h considered (best'.map Prod.snd) k' =
      acceptable ⟨team, order⟩ g considered (best.map Prod.snd) k := by
  simp only [acceptable, ha.potential, hk.potential, hk.key]
  cases hb with
  | none => rfl
  | some hb => simp only [Option.map_some, hb.2.2.potential]

/-- Iterations on alike graphs take alike results of the same rule. -/
theorem selectTraced_alike (ha : g.Alike h) (iter call : ℕ) {considered : List (UInt64 × ℤ × ℤ)}
    {best best' : Option (ℕ × Node × Graph)} (hb : SelectedAlike best best') :
    Option.Rel SelectedAlike
      (selectTraced ⟨team, order⟩ iter g considered trs call best)
      (selectTraced ⟨team, order'⟩ iter h considered trs call best') := by
  induction trs generalizing call best best' with
  | nil => exact .some hb
  | cons tr trs ih =>
      have happly := ha.apply team (order iter call) (order' iter call) tr
      rw [selectTraced, selectTraced]
      generalize tr.apply team (order iter call) g = rs at happly
      generalize tr.apply team (order' iter call) h = rs' at happly
      cases happly with
      | none => exact .none
      | @some rs rs' hrs =>
          simp only [Option.bind_eq_bind, Option.bind_some]
          refine ih (call + 1) ?_
          have hfind := find?_rel hrs fun r r' hr =>
            acceptable_alike team order order' ha considered hb hr.2
          revert hfind
          generalize rs.find? _ = o
          generalize rs'.find? _ = o'
          intro hfind
          cases hfind with
          | none => exact hb
          | some hr => exact .some ⟨rfl, hr⟩

/-- **Loops on alike graphs leave the same trace** and alike graphs. -/
theorem rewriteTraced_alike (ha : g.Alike h) (fuel iter : ℕ) (considered : List (UInt64 × ℤ × ℤ)) :
    Option.Rel (fun r r' : List Accepted × Graph => r'.1 = r.1 ∧ r.2.Alike r'.2)
      (rewriteTraced ⟨team, order⟩ trs fuel iter g considered)
      (rewriteTraced ⟨team, order'⟩ trs fuel iter h considered) := by
  induction fuel generalizing iter g h considered with
  | zero => exact .some ⟨rfl, ha⟩
  | succ fuel ih =>
      rw [rewriteTraced, rewriteTraced, ha.hasBubble]
      split
      · have hsel : Option.Rel SelectedAlike
            (selectTraced ⟨team, order⟩ iter g considered trs 0 none)
            (selectTraced ⟨team, order'⟩ iter h considered trs 0 none) :=
          selectTraced_alike team order order' trs ha iter 0 .none
        generalize selectTraced ⟨team, order⟩ iter g considered trs 0 none = o at hsel
        generalize selectTraced ⟨team, order'⟩ iter h considered trs 0 none = o' at hsel
        cases hsel with
        | none => exact .none
        | some hbest =>
            cases hbest with
            | none => exact .some ⟨rfl, ha⟩
            | @some b b' hb =>
                obtain ⟨rule, node, k⟩ := b
                obtain ⟨rule', node', k'⟩ := b'
                obtain ⟨rfl, rfl, hk⟩ := hb
                replace hk : k.Alike k' := hk
                have hrest := ih hk (iter + 1) (k.key team :: considered)
                simp only [Option.bind_eq_bind, Option.bind_some, hk.key]
                generalize rewriteTraced ⟨team, order⟩ trs fuel (iter + 1) k
                  (k.key team :: considered) = o at hrest
                generalize rewriteTraced ⟨team, order'⟩ trs fuel (iter + 1) k'
                  (k.key team :: considered) = o' at hrest
                cases hrest with
                | none => exact .none
                | some hr =>
                    refine .some ⟨?_, hr.2⟩
                    simp only [hr.1, Accepted.of, hk.potential, hk.random, hk.bubble,
                      hk.generateHash]
      · exact .some ⟨rfl, ha⟩

/-! ### The elimination loop -/

/-- The same nodes may be deleted. -/
theorem isTail_alike (ha : g.Alike h) (i : ℕ) : isTail h i = isTail g i := by
  rw [isTail, isTail, ha.frame.node?, ha.outDeg]
  simp only [ha.isCorrupted]

/-- Deleting a node keeps the graphs alike. -/
theorem alike_eliminateNode (ha : g.Alike h) {n : Node} (hn : g.Sink n) :
    (g.eliminateNode n).Alike (h.eliminateNode n) := by
  have hn' : h.Sink n := by
    refine ⟨by rw [ha.frame.node?]; exact hn.live, List.length_eq_zero_iff.1 ?_⟩
    exact (ha.outDeg n.guid).trans (List.length_eq_zero_iff.2 hn.outEdges)
  refine ⟨Graph.wellFormed_eliminateNode ha.left hn.live hn.feedsAlone,
    Graph.wellFormed_eliminateNode ha.right hn'.live hn'.feedsAlone,
    ⟨?_, ha.frame.partyCnt, ha.frame.T, ha.frame.corrupted⟩, ha.random, ?_, fun v => ?_⟩
  · simp only [Graph.eliminateNode, ha.frame.nodes]
  · simp only [Graph.eliminateNode, ha.bubble, ha.isCorrupted]
  · rw [Graph.eliminateNode_inEdges hn, Graph.eliminateNode_inEdges hn']
    split
    · rfl
    · exact ha.ins v

/-- A round deletes the same node of both. -/
theorem tailStep_alike (ha : g.Alike h) : Option.Rel Graph.Alike (tailStep g) (tailStep h) := by
  have hfind : (List.range h.nodeSize).find? (isTail h) =
      (List.range g.nodeSize).find? (isTail g) := by
    rw [ha.frame.nodeSize, funext (isTail_alike ha)]
  cases hi : (List.range g.nodeSize).find? (isTail g) with
  | none =>
      rw [tailStep, tailStep, hfind, hi]
      exact .none
  | some i =>
      have htail : isTail g i = true := List.find?_some hi
      obtain ⟨n, hn, hdeg⟩ := (Option.any_eq_true _ _).1 htail
      have hni : n.guid = i := ha.left.guid_eq hn
      rw [Bool.and_eq_true, decide_eq_true_iff] at hdeg
      have hsink : g.Sink n := ⟨by rw [hni]; exact hn, by
        rw [hni]
        exact List.length_eq_zero_iff.1 hdeg.1⟩
      rw [tailStep, tailStep, hfind, hi]
      simp only [Option.bind_eq_bind, Option.bind_some, ha.frame.node?, hn]
      exact .some (alike_eliminateNode ha hsink)

/-- So does the whole tail phase. -/
theorem tailLoop_alike (ha : g.Alike h) (fuel : ℕ) :
    (tailLoop fuel g).Alike (tailLoop fuel h) := by
  induction fuel generalizing g h with
  | zero => exact ha
  | succ fuel ih =>
      have hstep := tailStep_alike ha
      rw [tailLoop, tailLoop]
      generalize tailStep g = o at hstep
      generalize tailStep h = o' at hstep
      cases hstep with
      | none => exact ha
      | some hk => exact ih hk

end Alike

theorem tryProvingTraced_order {g : Graph} (hg : g.WellFormed) (parties : List PartyDecl)
    (team : ℕ) (order order' : ℕ → ℕ → ℕ → IterOrder) :
    tryProvingTraced ⟨team, order'⟩ g parties = tryProvingTraced ⟨team, order⟩ g parties := by
  have hrel := rewriteTraced_alike team order order' (equivalentRewriters parties g) (.refl hg)
    (rewriteFuel g) 0 []
  rw [tryProvingTraced, tryProvingTraced]
  generalize rewriteTraced ⟨team, order⟩ _ _ _ _ _ = o at hrel
  generalize rewriteTraced ⟨team, order'⟩ _ _ _ _ _ = o' at hrel
  cases hrel with
  | none => rfl
  | @some r r' hr =>
      have htail := tailLoop_alike hr.2 r.2.nodeSize
      simp only [Option.bind_eq_bind, Option.bind_some, hr.1, hr.2.frame.nodeSize, htail.hasBubble]

/-- **Iteration order does not matter.**  Two runs from one graph accept the same
rewrites and give the same verdict, whatever the order in which each call of a
transformer goes through its set of destinations. -/
theorem order_independence {g : Graph} (hg : g.WellFormed) (parties : List PartyDecl)
    (team : ℕ) (order order' : ℕ → ℕ → ℕ → IterOrder) :
    tryProvingTraced ⟨team, order'⟩ g parties = tryProvingTraced ⟨team, order⟩ g parties ∧
      tryProving ⟨team, order'⟩ g parties = tryProving ⟨team, order⟩ g parties := by
  have htraced := tryProvingTraced_order hg parties team order order'
  refine ⟨htraced, ?_⟩
  rw [← tryProvingTraced_forget, htraced, tryProvingTraced_forget]

/-! ## A sharing with two destinations

Party 1 shares its input among three parties, one of them corrupted.  The
destinations of the rewrite are the polynomial's coefficient and the share of
party 2, or the other way round. -/

/-- The input, the coefficient, the shares at the dealer, and two of them where
they were sent. -/
def handedNodes : List Node :=
  [⟨0, "x", 1, .input⟩, ⟨1, "c", 1, .others⟩, ⟨2, "share_0", 1, .others⟩,
    ⟨3, "share_1", 1, .others⟩, ⟨4, "share_2", 1, .others⟩, ⟨5, "share_0", 0, .others⟩,
    ⟨6, "share_2", 2, .others⟩]

/-- The node at an index. -/
def handedNode (i : ℕ) : Node := handedNodes.getD i ⟨0, "x", 1, .input⟩

/-- Three evaluations and two transits. -/
def handedEdges : List Operation :=
  [Operation.make 1 0 .eval (handedNodes.take 2) (handedNode 2),
    Operation.make 1 1 .eval (handedNodes.take 2) (handedNode 3),
    Operation.make 1 2 .eval (handedNodes.take 2) (handedNode 4),
    Operation.make 1 3 .transit [handedNode 2] (handedNode 5),
    Operation.make 1 4 .transit [handedNode 4] (handedNode 6)]

/-- The graph of the sharing, for `T = 1` and party 0 corrupted. -/
def handing : Graph := ((GraphBase.bare handedNodes).toGraph 3 1 {0}).addEdges handedEdges

theorem wellFormed_handing : handing.WellFormed :=
  Graph.wellFormed_linked rfl (by decide) (by decide) (by decide)

/-- Iterate backwards. -/
def backwards : ℕ → ℕ → ℕ → IterOrder := fun _ _ _ => ⟨List.reverse, List.reverse_perm⟩

/-- The graphs of the two runs differ. -/
example : (backwards 0 1 0).run [handedNode 1, handedNode 3] ≠
    IterOrder.insertion.run [handedNode 1, handedNode 3] := by decide

theorem order_independence_handing :
    tryProvingTraced ⟨1, backwards⟩ handing [0, 1, 2] =
        tryProvingTraced .sequential handing [0, 1, 2] ∧
      tryProving ⟨1, backwards⟩ handing [0, 1, 2] = tryProving .sequential handing [0, 1, 2] :=
  order_independence wellFormed_handing [0, 1, 2] 1 (fun _ _ _ => .insertion) backwards

end Prover

end Gauv
