import Gauv.Backend.Transformer

/-!
# The prover

`tryProving` rewrites the graph greedily as long as a rule lowers its
potential, then deletes the honest nodes nothing depends on, and answers
whether a bubble is left.  `prove` collects one start graph for each way to
corrupt parties of the equivalence classes.

What the source leaves to the platform is an `Env`: the size of the thread team
in the hash regions, and the iteration order of the unordered set in each call
of a transformer, named by the iteration of the rewriting loop, the position of
the transformer and the node.
-/

namespace Gauv

/-- The choices the platform makes during a run. -/
structure Env where
  team : ℕ
  order : ℕ → ℕ → ℕ → IterOrder

namespace Env

/-- One thread, and insertion order throughout. -/
def sequential : Env := ⟨1, fun _ _ _ => .insertion⟩

end Env

namespace Prover

/-! ## Source parties -/

/-- The corrupted parties, in the first loop. -/
def corruptedSources (corrupted : Finset PartyDecl) (parties : List PartyDecl) :
    Finset PartyDecl :=
  (parties.filter (fun p => p ∈ corrupted)).toFinset

/-- Add honest parties until the set has `t` elements. -/
def fillSources (corrupted : Finset PartyDecl) (t : ℕ) :
    List PartyDecl → Finset PartyDecl → Finset PartyDecl
  | [], src => src
  | p :: ps, src =>
      if src.card = t then src
      else if p ∉ corrupted then fillSources corrupted t ps (insert p src)
      else fillSources corrupted t ps src

/-- The `T` source parties of the sharing and of the first reconstruction rule. -/
def srcParties (parties : List PartyDecl) (g : Graph) : Finset PartyDecl :=
  fillSources g.corruptedParties g.T parties (corruptedSources g.corruptedParties parties)

/-- One more honest party, for the random sharing and the second reconstruction
rule. -/
def srcPartiesPlus (parties : List PartyDecl) (g : Graph) : Finset PartyDecl :=
  let src := srcParties parties g
  match parties.find? (fun p => p ∉ g.corruptedParties ∧ p ∉ src) with
  | some p => insert p src
  | none => src

/-- The five transformers, built for the start graph `g`. -/
def equivalentRewriters (parties : List PartyDecl) (g : Graph) : List Transformer :=
  let src := srcParties parties g
  let srcPlus := srcPartiesPlus parties g
  [.addition, .sharing src, .randomSharing srcPlus, .reconstruction src, .reconstruction srcPlus]

/-! ## The rewriting loop -/

/-- A result may replace the running minimum `best`. -/
def acceptable (env : Env) (g : Graph) (considered : List (UInt64 × ℤ × ℤ))
    (best : Option (Node × Graph)) (g' : Graph) : Bool :=
  g'.potential < g.potential &&
  (match best with
    | none => true
    | some b => g'.potential < b.2.potential) &&
  !considered.contains (g'.key env.team)

/-- The inner loop: take the first acceptable result of one transformer, then
break. -/
def selectFrom (env : Env) (g : Graph) (considered : List (UInt64 × ℤ × ℤ))
    (best : Option (Node × Graph)) (results : ResultsType) : Option (Node × Graph) :=
  match results.find? (fun r => acceptable env g considered best r.2) with
  | some r => some r
  | none => best

/-- The loop over the transformers in the iteration `iter`; `call` counts them. -/
def selectMin (env : Env) (iter : ℕ) (g : Graph) (considered : List (UInt64 × ℤ × ℤ)) :
    List Transformer → ℕ → Option (Node × Graph) → Option (Option (Node × Graph))
  | [], _, best => some best
  | tr :: trs, call, best => do
      let results ← tr.apply env.team (env.order iter call) g
      selectMin env iter g considered trs (call + 1) (selectFrom env g considered best results)

/-- The rewriting loop.  The fuel bounds the number of iterations. -/
def rewriteLoop (env : Env) (trs : List Transformer) :
    ℕ → ℕ → Graph → List (UInt64 × ℤ × ℤ) → Option Graph
  | 0, _, g, _ => some g
  | fuel + 1, iter, g, considered =>
      if g.hasBubble then do
        match ← selectMin env iter g considered trs 0 none with
        | none => some g
        | some (_, g') => rewriteLoop env trs fuel (iter + 1) g' (g'.key env.team :: considered)
      else some g

/-- The potentials of graphs with as many nodes as `g` take fewer values than
this, so the loop ends before. -/
def rewriteFuel (g : Graph) : ℕ :=
  (g.nodeSize + 1) * (g.nodeSize + 1) * (g.nodeSize * g.nodeSize + 1) + 1

/-! ## Tail elimination -/

/-- The node may be deleted: it is live, honest and feeds nothing. -/
def isTail (g : Graph) (i : ℕ) : Bool :=
  (g.node? i).any (fun n => g.outDeg i = 0 && !g.isCorrupted n)

/-- One round of the elimination loop: delete the first such node. -/
def tailStep (g : Graph) : Option Graph := do
  let i ← (List.range g.nodeSize).find? (isTail g)
  let n ← g.node? i
  return g.eliminateNode n

/-- The elimination loop; every round deletes a node. -/
def tailLoop : ℕ → Graph → Graph
  | 0, g => g
  | fuel + 1, g =>
      match tailStep g with
      | some g' => tailLoop fuel g'
      | none => g

/-- `Prover::tryProving`; `none` when an assertion fails on the way. -/
def tryProving (env : Env) (g : Graph) (parties : List PartyDecl) : Option Bool := do
  let g' ← rewriteLoop env (equivalentRewriters parties g) (rewriteFuel g) 0 g []
  return !(tailLoop g'.nodeSize g').hasBubble

/-! ## The enumeration of corrupted sets -/

/-- The loop over the members of one class, the first `i` of which are already
corrupted: corrupt one more, and search the remaining classes. -/
def searchMembers (search : ℕ → Finset PartyDecl → List Graph) (quota : ℕ) :
    List PartyDecl → ℕ → Finset PartyDecl → List Graph
  | [], _, _ => []
  | p :: ps, i, corrupted =>
      if i = quota then []
      else
        search (quota - (i + 1)) (insert p corrupted) ++
          searchMembers search quota ps (i + 1) (insert p corrupted)

/-- `Prover::search_all_possibilities`, returning the start graphs it appends.
A class is listed in its iteration order. -/
def searchAllPossibilities (graphBase : GraphBase) (partyCnt T : ℕ) (isQuotaStrict : Bool) :
    List (List PartyDecl) → ℕ → Finset PartyDecl → List Graph
  | [], quota, corrupted =>
      if corrupted.card > 0 ∧ ((isQuotaStrict = true ∧ quota = 0) ∨ isQuotaStrict = false) then
        [graphBase.toGraph partyCnt T corrupted]
      else []
  | cls :: classes, quota, corrupted =>
      let search := searchAllPossibilities graphBase partyCnt T isQuotaStrict classes
      search quota corrupted ++ searchMembers search quota cls 0 corrupted

/-- The start graphs `prove()` collects: up to `T` corrupted parties. -/
def startGraphs (graphBase : GraphBase) (classes : List (List PartyDecl))
    (parties : List PartyDecl) (T : ℕ) : List Graph :=
  searchAllPossibilities graphBase parties.length T false classes T ∅

/-- The start graphs `prove(I)` collects: exactly `I` corrupted parties. -/
def startGraphsExactly (graphBase : GraphBase) (classes : List (List PartyDecl))
    (parties : List PartyDecl) (T I : ℕ) : List Graph :=
  searchAllPossibilities graphBase parties.length T true classes I ∅

end Prover

end Gauv
