import Gauv.Backend.Independence
import Gauv.Backend.Locality
import Gauv.Backend.Rereading

/-!
# Proving runs on built graphs

The two invariants of a proving run, started from a graph that the builder made
for expressions of a program: the adjacency tables stay in step, and the
counters stay exact.  Both need the builder to have read no node of an earlier
build; the counters also need that no later build retypes a node of the graph
between the moment they are computed and the run.
-/

namespace Gauv

open GraphBase

/-- The builder made `g` for `outputs` in a process that ran the program `calls`,
which left `heap`, and then made the builds `history`. -/
def BuiltBy (team : ℕ) (calls : List Call) (history : List (List ℕ)) (outputs : List ℕ)
    (heap : Heap) (g : GraphBase) : Prop :=
  ∃ fe gs mem mem', Call.runAll calls .initial = .ok ((), fe) ∧ fe.heap = heap ∧
    builds team heap .fresh history = some (gs, mem) ∧
    build team heap mem outputs = some (g, mem')

section Built

variable {team : ℕ} {calls : List Call} {history : List (List ℕ)} {outputs : List ℕ}
  {heap : Heap} {b : GraphBase}

theorem BuiltBy.importedAll (hb : BuiltBy team calls history outputs heap b) :
    heap.Sound ∧ ∃ mem s new, Builder.Remembers heap history.flatten mem ∧
      b = s.toGraphBase team ∧
      Builder.ImportedAll heap mem [] [] (.start mem) s outputs new := by
  obtain ⟨fe, gs, mem, mem', hrun, rfl, hbs, hg⟩ := hb
  have hs := Call.sound_runAll hrun
  have hm := remembers_builds hs.acyclic Builder.remembers_fresh (hs.shaped _) hbs
  rw [List.nil_append] at hm
  obtain ⟨s, new, rfl, -, hall⟩ := importedAll_of_build hs.acyclic hm.valid hg
  exact ⟨hs, mem, s, new, hm, rfl, hall⟩

/-- Without an overlap with earlier builds the graph is well formed. -/
theorem BuiltBy.wellFormed (hb : BuiltBy team calls history outputs heap b)
    (hnew : heap.NoOverlap history.flatten outputs) : b.WellFormed := by
  obtain ⟨hs, mem, s, new, hm, rfl, hall⟩ := hb.importedAll
  have hi : Builder.Inv heap mem outputs.reverse [] new s := by simpa using hall.inv
  exact hi.wellFormed (hall.inputsHere (hs.shaped _) hm hnew) team

theorem BuiltBy.transitUnary (hb : BuiltBy team calls history outputs heap b) :
    b.TransitUnary := by
  obtain ⟨hs, mem, s, new, hm, rfl, hall⟩ := hb.importedAll
  intro f hf htr
  obtain ⟨o, e, exp, inputs, rfl, hedge⟩ := hall.inv.exists_of_listed (Or.inl ⟨_, hf⟩)
  obtain ⟨htype, hin, -⟩ := hedge.opAt team
  rw [hin, List.length_map]
  exact hedge.transit_unary hs (htype ▸ htr)

/-- The process of `BuiltBy`, read twice: after the further builds `between` the graph
reads as `b₁`, and after the builds `later` as `b₂`. -/
def ReadLater (team : ℕ) (calls : List Call) (history : List (List ℕ)) (outputs : List ℕ)
    (between later : List (List ℕ)) (heap : Heap) (b₁ b₂ : GraphBase) : Prop :=
  ∃ fe gs mem s gs₁ mem₁ gs₂ mem₂, Call.runAll calls .initial = .ok ((), fe) ∧ fe.heap = heap ∧
    builds team heap .fresh history = some (gs, mem) ∧
    Builder.importOutputs heap outputs (.start mem) = some s ∧
    builds team heap s.leave between = some (gs₁, mem₁) ∧
    b₁ = (s.readIn mem₁).toGraphBase team ∧
    builds team heap mem₁ later = some (gs₂, mem₂) ∧
    b₂ = (s.readIn mem₂).toGraphBase team

/-- Both readings are those of one builder, with more outputs marked. -/
theorem ReadLater.marked {between later : List (List ℕ)} {b₁ b₂ : GraphBase}
    (hb : ReadLater team calls history outputs between later heap b₁ b₂) :
    heap.Sound ∧ ∃ mem s new, Builder.Remembers heap history.flatten mem ∧
      Builder.ImportedAll heap mem [] [] (.start mem) s outputs new ∧
      b₁ = (s.markAll between.flatten).toGraphBase team ∧
      b₂ = ((s.markAll between.flatten).markAll later.flatten).toGraphBase team := by
  obtain ⟨fe, gs, mem, s, gs₁, mem₁, gs₂, mem₂, hrun, rfl, hbs, hs, hbs₁, rfl, hbs₂, rfl⟩ := hb
  have hsound := Call.sound_runAll hrun
  have hm := remembers_builds hsound.acyclic Builder.remembers_fresh (hsound.shaped _) hbs
  rw [List.nil_append] at hm
  obtain ⟨new, hall⟩ := Builder.importOutputs_spec hsound.acyclic hm.valid
    (Builder.inv_start hm.valid) hs
  have hm' := hall.remembers (hsound.shaped _) hm
  obtain ⟨h₁, hk₁⟩ := readIn_builds hsound.acyclic hm' (Builder.kept_leave hm'.valid)
    (hsound.shaped _) hbs₁
  have hm₁ := remembers_builds hsound.acyclic hm' (hsound.shaped _) hbs₁
  obtain ⟨h₂, -⟩ := readIn_builds hsound.acyclic hm₁ hk₁ (hsound.shaped _) hbs₂
  rw [Builder.readIn_leave] at h₁
  refine ⟨hsound, mem, s, new, hm, ?_, by rw [h₁], by rw [h₂, h₁]⟩
  simpa using hall

/-- The graph read later: its tables are in step, and if no node has been retyped since
the counters were computed, they are exact. -/
theorem ReadLater.start {between later : List (List ℕ)} {b₁ b₂ : GraphBase}
    (hb : ReadLater team calls history outputs between later heap b₁ b₂)
    (hnew : heap.NoOverlap history.flatten outputs)
    (hlater : ∀ out ∈ later.flatten,
      ¬ heap.Retypes outputs (outputs ++ between.flatten) out) (N T : ℕ) (C : Finset PartyDecl) :
    ((b₁.toGraph N T C).reread b₂).WellFormed ∧ ((b₁.toGraph N T C).reread b₂).TransitUnary ∧
      ((b₁.toGraph N T C).reread b₂).Exact := by
  obtain ⟨hsound, mem, s, new, hm, hall, rfl, rfl⟩ := hb.marked
  have hi : Builder.Inv heap mem outputs.reverse [] new s := by simpa using hall.inv
  have hh : Builder.InputsHere heap outputs.reverse new s :=
    hall.inputsHere (hsound.shaped _) hm hnew
  obtain ⟨outs₁, hi₁, houts₁⟩ := hi.markAll hm.valid between.flatten
  obtain ⟨outs₂, hi₂, -⟩ := hi₁.markAll hm.valid later.flatten
  have hh₁ : Builder.InputsHere heap outs₁ new (s.markAll between.flatten) := hh.markAll hi
  have hmemo := (Builder.markAll_frame s between.flatten).1
  refine ⟨hi₂.wellFormed (hh₁.markAll hi₁) team, ?_, ?_⟩
  · intro f hf htr
    obtain ⟨o, e, exp, inputs, rfl, hedge⟩ := hi₂.exists_of_listed (Or.inl ⟨_, hf⟩)
    obtain ⟨htype, hin, -⟩ := hedge.opAt team
    rw [hin, List.length_map]
    exact hedge.transit_unary hsound (htype ▸ htr)
  · have hcounts := hi₁.counts_markAll hm.valid later.flatten ?_ team C
    · exact ⟨hcounts.1.symm, hcounts.2.symm⟩
    · -- a later output with a node here was an output or an input before
      intro e he g hlook exp hexp hnot hgenre
      have hmem := hi₁.mem_new_of_current hm.valid hlook
      rw [hmemo] at hlook
      refine hlater e he ⟨hall.reach _ hmem, fun hmarked => hnot ?_, exp, hexp, ?_, hgenre⟩
      · rw [houts₁, List.mem_reverse]
        rcases List.mem_append.1 hmarked with h | h
        · exact Or.inl h
        · exact Or.inr ⟨h, _, hlook⟩
      · obtain ⟨exp', hexp', hent⟩ := hi₁.entry hmem
        rw [hexp, Option.some.injEq] at hexp'
        subst hexp'
        have hsh := (hsound e exp hexp).shaped
        refine ⟨?_, ?_⟩
        · by_contra hc
          rw [Bool.not_eq_false] at hc
          exact absurd (hent.eq_none hsh hc) (by simp)
        · by_contra hp
          rw [Bool.not_eq_false] at hp
          have haux := (hent.eq_aux hsh hp).1
          exact absurd haux (by simp)

/-- Read at once, the graph is the one the build returns. -/
theorem ReadLater.builtBy {b₁ b₂ : GraphBase}
    (hb : ReadLater team calls history outputs [] [] heap b₁ b₂) :
    BuiltBy team calls history outputs heap b₁ ∧ b₂ = b₁ := by
  obtain ⟨fe, gs, mem, s, gs₁, mem₁, gs₂, mem₂, hrun, hfe, hbs, hs, hbs₁, rfl, hbs₂, rfl⟩ := hb
  cases hbs₁
  cases hbs₂
  rw [Builder.readIn_leave]
  exact ⟨⟨fe, gs, mem, s.leave, hrun, hfe, hbs, build_eq_some.2 ⟨s, hs, rfl, rfl⟩⟩, rfl⟩

end Built

namespace Prover

section Runs

variable {env : Env} {parties : List PartyDecl} {g₀ g h : Graph}

/-- What the rewriting loop keeps. -/
structure RunInvariant (g₀ g : Graph) : Prop where
  wellFormed : g.WellFormed
  exact : g.Exact
  transitUnary : g.TransitUnary
  localEdges : g₀.LocalEdges → g.LocalEdges
  sameFrame : g₀.SameFrame g

theorem runInvariant (hw : g₀.WellFormed) (hx : g₀.Exact) (hu : g₀.TransitUnary)
    (hv : RewriteVisited env parties g₀ g) : RunInvariant g₀ g := by
  obtain ⟨iter, considered, hv⟩ := hv
  refine hv.invariant ⟨hw, hx, hu, id, .refl g₀⟩ fun g g' hg hr => ?_
  exact ⟨hr.wellFormed hg.wellFormed, hr.exact hg.wellFormed hg.exact,
    hr.transitUnary hg.wellFormed hg.transitUnary,
    fun hl => hr.localEdges hg.wellFormed (hg.localEdges hl), hg.sameFrame.trans hr.sameFrame⟩

end Runs

variable {team : ℕ} {calls : List Call} {history : List (List ℕ)} {outputs : List ℕ}
  {heap : Heap} {b : GraphBase} {N T : ℕ} {C : Finset PartyDecl} {env : Env}
  {parties : List PartyDecl} {g h : Graph}

/-- **The adjacency tables stay in step** over both loops of a proving run. -/
theorem adjacency_of_run (hb : BuiltBy team calls history outputs heap b)
    (hnew : heap.NoOverlap history.flatten outputs)
    (hv : RewriteVisited env parties (b.toGraph N T C) g) (ht : TailVisited g h) :
    h.WellFormed ∧ h.TransitUnary ∧ (b.LocalEdges → h.LocalEdges) := by
  have hi := runInvariant (hb.wellFormed hnew)
    (Graph.exact_toGraph b N T C) hb.transitUnary hv
  have hedge : ∀ f, h.HasEdge f → g.HasEdge f := fun _ hf =>
    ht.hasEdge hi.wellFormed hi.exact.bubble hf
  refine ⟨(tailInvariant hi.wellFormed hi.exact.bubble ht).wellFormed, fun f hf => ?_,
    fun hl f hf => ?_⟩
  · exact hi.transitUnary f (hedge f hf)
  · exact hi.localEdges hl f (hedge f hf)

/-- **The counters stay exact** over both loops of a proving run, after every
single removal and addition of an edge, and decide whether there is a bubble.  They
are computed from the graph as it reads after the builds `between`; the run reads it
after the builds `later`. -/
theorem counters_of_run {between later : List (List ℕ)} {b₁ b₂ : GraphBase}
    (hb : ReadLater team calls history outputs between later heap b₁ b₂)
    (hnew : heap.NoOverlap history.flatten outputs)
    (hlater : ∀ out ∈ later.flatten, ¬ heap.Retypes outputs (outputs ++ between.flatten) out)
    (hv : RewriteVisited env parties ((b₁.toGraph N T C).reread b₂) g) :
    (g.Exact ∧ 0 ≤ g.randomNodeCnt ∧ 0 ≤ g.bubbleCnt ∧
      (g.hasBubble = true ↔ ∃ i n, g.node? i = some n ∧ g.isBubble C n = true)) ∧
    (∀ tr ∈ equivalentRewriters parties ((b₁.toGraph N T C).reread b₂), ∀ team order ps,
      tr.plans order g = some ps → ∀ p ∈ ps,
        (∀ es, es <+: p.edgesToEliminate → (g.eliminateEdges es).Exact) ∧
        ∀ es, es <+: p.added team g →
          ((g.eliminateEdges p.edgesToEliminate).addEdges es).Exact) ∧
    ∀ h, TailVisited g h → h.bubbleCnt = h.countBubble C ∧
      (h.hasBubble = true ↔ ∃ i n, h.node? i = some n ∧ h.isBubble C n = true) := by
  obtain ⟨hw, hu, hx⟩ := hb.start hnew hlater N T C
  have hi := runInvariant hw hx hu hv
  have hC : g.corruptedParties = C := hi.sameFrame.corrupted
  have hbubble : g.bubbleCnt = g.countBubble C := hC ▸ hi.exact.bubble
  refine ⟨⟨hi.exact, hi.exact.nonneg.1, hi.exact.nonneg.2, Graph.hasBubble_iff hbubble⟩,
    fun tr _ team order ps hps p hp => ?_, fun h ht => ?_⟩
  · exact Plan.exact_prefix hi.wellFormed hi.exact
      ((planShape_of_mem_plans hi.wellFormed hps hp).valid hi.wellFormed) team
  · have hcount : h.bubbleCnt = h.countBubble C := by
      rw [← hC]
      exact (tailInvariant hi.wellFormed hi.exact.bubble ht).bubble
    exact ⟨hcount, Graph.hasBubble_iff hcount⟩

/-! ## A second build in one process -/

/-- A dealt share that is sent on, and a sum that uses it later. -/
def staleCalls : List Call :=
  [.newConstant "k", .genPoly 1 1 1, .eval 2 1, .transfer 3 2, .genShare .arithField 1,
    .genShare .arithField 1, .add 5 6, .add 7 3, .transfer 8 2]

/-- The graph for output 9, built after a build for output 4, or as the first. -/
def staleBuild (history : List (List ℕ)) : Option GraphBase :=
  match Call.runAll staleCalls .initial with
  | .ok (_, fe) => (builds 1 fe.heap .fresh history).bind fun x =>
      (build 1 fe.heap x.2 [9]).map Prod.fst
  | .error _ => none

theorem builtBy_staleBuild {history : List (List ℕ)} {b : GraphBase}
    (h : staleBuild history = some b) : ∃ heap, BuiltBy 1 staleCalls history [9] heap b := by
  rw [staleBuild] at h
  split at h
  · rename_i fe hrun
    obtain ⟨⟨gs, mem⟩, hbs, h⟩ := Option.bind_eq_some_iff.1 h
    obtain ⟨⟨g, mem'⟩, hg, rfl⟩ := Option.map_eq_some_iff.1 h
    exact ⟨fe.heap, fe, gs, mem, mem', hrun, rfl, hbs, hg⟩
  · exact absurd h (by simp)

theorem exists_of_any {α : Type} {o : Option α} {p : α → Bool} (h : o.any p = true) :
    ∃ a, o = some a ∧ p a = true := (Option.any_eq_true _ _).1 h

/-- The sum reads the share as a node of the first graph. -/
theorem stale_input : ∃ heap b g, BuiltBy 1 staleCalls [[4]] [9] heap b ∧
    RewriteVisited .sequential [1, 2] (b.toGraph 2 1 {2}) g ∧ TailVisited g g ∧
    ¬ g.WellFormed := by
  have hany : (staleBuild [[4]]).any (fun b => (b.inEdges 3).any fun f =>
      decide (∃ n ∈ f.inputs, b.node? n.guid ≠ some n)) = true := by decide +kernel
  obtain ⟨b, hb, hany⟩ := exists_of_any hany
  obtain ⟨heap, hbuilt⟩ := builtBy_staleBuild hb
  refine ⟨heap, b, b.toGraph 2 1 {2}, hbuilt, ⟨0, [], .start⟩, .start, fun hw => ?_⟩
  obtain ⟨f, hf, hbad⟩ := List.any_eq_true.1 hany
  obtain ⟨n, hn, hne⟩ := of_decide_eq_true hbad
  exact hne (hw.live (Or.inl ⟨3, hf⟩) n (List.mem_cons_of_mem _ hn))

/-- Reversing that sum makes the share random, but not the node with its index. -/
theorem stale_counter : ∃ heap b g, BuiltBy 1 staleCalls [[4]] [9] heap b ∧
    RewriteVisited .sequential [1, 2] (b.toGraph 2 1 {2}) g ∧ ¬ g.Exact := by
  have hany : (staleBuild [[4]]).any (fun b =>
      let g₀ := b.toGraph 2 1 {2}
      g₀.hasBubble && (selectMin .sequential 0 g₀ [] (equivalentRewriters [1, 2] g₀) 0 none).any
        fun r => r.any fun x => decide (x.2.randomNodeCnt ≠ x.2.countRandom)) = true := by
    decide +kernel
  obtain ⟨b, hb, hany⟩ := exists_of_any hany
  obtain ⟨heap, hbuilt⟩ := builtBy_staleBuild hb
  rw [Bool.and_eq_true] at hany
  obtain ⟨r, hr, hany'⟩ := exists_of_any hany.2
  obtain ⟨⟨node, g⟩, rfl, hne⟩ := exists_of_any hany'
  exact ⟨heap, b, g, hbuilt, ⟨1, _, .step .start hany.1 hr⟩,
    fun hx => of_decide_eq_true hne hx.random⟩

/-! ## A run between other builds -/

/-- No expression refers to one on the other side of `P`. -/
def separated (heap : Heap) (P : ℕ → Bool) : Bool :=
  (List.range heap.length).all fun e =>
    (heap[e]?).all fun exp => exp.refs.all fun x => P x == P e

theorem eq_of_separated {P : ℕ → Bool} {b : Bool} (hP : separated heap P = true)
    (houts : ∀ out ∈ outputs, P out = b) {e : ℕ} (he : heap.Reached outputs e) : P e = b := by
  obtain ⟨out, hout, hr⟩ := he
  induction hr with
  | refl => exact houts out hout
  | @tail x y _ hstep ih =>
      obtain ⟨exp, hexp, hy⟩ := hstep
      have hx := List.all_eq_true.1 hP x (List.mem_range.2 (lt_of_getElem?_some hexp))
      rw [hexp, Option.all_some, List.all_eq_true] at hx
      rw [← ih]
      exact beq_iff_eq.1 (hx y hy)

/-- Outputs on different sides have nothing in common. -/
theorem noOverlap_of_separated {P : ℕ → Bool} {prev : List ℕ} (hP : separated heap P = true)
    (hprev : ∀ out ∈ prev, P out = false) (houts : ∀ out ∈ outputs, P out = true) :
    heap.NoOverlap prev outputs := by
  intro e he _ he'
  have hout := eq_of_separated hP houts he
  rw [eq_of_separated hP hprev he'] at hout
  exact absurd hout (by simp)

/-- The two readings of `ReadLater`. -/
def readTwice (team : ℕ) (heap : Heap) (history : List (List ℕ)) (outputs : List ℕ)
    (between later : List (List ℕ)) : Option (GraphBase × GraphBase) := do
  let (_, mem) ← builds team heap .fresh history
  let s ← Builder.importOutputs heap outputs (.start mem)
  let (_, mem₁) ← builds team heap s.leave between
  let (_, mem₂) ← builds team heap mem₁ later
  return ((s.readIn mem₁).toGraphBase team, (s.readIn mem₂).toGraphBase team)

theorem readLater_of_readTwice {fe : Frontend} (hrun : Call.runAll calls .initial = .ok ((), fe))
    {between later : List (List ℕ)} {b₁ b₂ : GraphBase}
    (h : readTwice team fe.heap history outputs between later = some (b₁, b₂)) :
    ReadLater team calls history outputs between later fe.heap b₁ b₂ := by
  rw [readTwice] at h
  simp only [Option.bind_eq_bind, Option.bind_eq_some_iff, Option.pure_def, Option.some.injEq,
    Prod.mk.injEq] at h
  obtain ⟨⟨gs, mem⟩, hbs, s, hs, ⟨gs₁, mem₁⟩, hbs₁, ⟨gs₂, mem₂⟩, hbs₂, rfl, rfl⟩ := h
  exact ⟨fe, gs, mem, s, gs₁, mem₁, gs₂, mem₂, hrun, rfl, hbs, hs, hbs₁, rfl, hbs₂, rfl⟩

theorem noOverlap_nil (heap : Heap) (outputs : List ℕ) :
    heap.NoOverlap ([] : List (List ℕ)).flatten outputs := by
  rintro e - - ⟨out, hout, -⟩
  exact List.not_mem_nil hout

/-- The program returns and leaves a heap that passes the test. -/
def leaves (calls : List Call) (test : Heap → Bool) : Bool :=
  match Call.runAll calls .initial with
  | .ok (_, fe) => test fe.heap
  | .error _ => false

theorem of_leaves {test : Heap → Bool} (h : leaves calls test = true) :
    ∃ fe, Call.runAll calls .initial = .ok ((), fe) ∧ test fe.heap = true := by
  rw [leaves] at h
  split at h
  · rename_i fe hrun
    exact ⟨fe, hrun, h⟩
  · exact absurd h (by simp)

/-- A share that is sent on; a secret, dealt, whose second share goes to the other party
and back; and a share that is not used. -/
def dealtCalls : List Call :=
  [.genShare .arithField 1, .transfer 1 2, .newSecret "x" .arithField 1, .genPoly 1 3 1,
    .eval 4 1, .eval 4 2, .transfer 6 2, .transfer 7 1, .genShare .arithField 1]

/-- A run on the graph for the two shares of the dealer accepts a rewrite, and then deletes
a node. -/
def rewritesAndDeletes (heap : Heap) (between later : List (List ℕ)) : Bool :=
  (readTwice 1 heap [[2]] [5, 8] between later).any fun x =>
    let g₀ := (x.1.toGraph 2 1 {2}).reread x.2
    g₀.hasBubble && (selectMin .sequential 0 g₀ [] (equivalentRewriters [1, 2] g₀) 0 none).any
      fun r => r.any fun y => decide (y.2.inEdgesOf ≠ x.2.inEdgesOf) &&
        (tailStep y.2).any fun h => decide (h.nodes ≠ y.2.nodes)

theorem of_rewritesAndDeletes {fe : Frontend} {between later : List (List ℕ)}
    (hrun : Call.runAll dealtCalls .initial = .ok ((), fe))
    (hany : rewritesAndDeletes fe.heap between later = true) :
    ∃ b₁ b₂ g h, ReadLater 1 dealtCalls [[2]] [5, 8] between later fe.heap b₁ b₂ ∧
      RewriteVisited .sequential [1, 2] ((b₁.toGraph 2 1 {2}).reread b₂) g ∧
      g.inEdgesOf ≠ b₂.inEdgesOf ∧ TailVisited g h ∧ h.nodes ≠ g.nodes := by
  obtain ⟨⟨b₁, b₂⟩, hb, hany⟩ := exists_of_any hany
  rw [Bool.and_eq_true] at hany
  obtain ⟨r, hr, hany'⟩ := exists_of_any hany.2
  obtain ⟨⟨node, g⟩, rfl, hany''⟩ := exists_of_any hany'
  rw [Bool.and_eq_true, decide_eq_true_eq] at hany''
  obtain ⟨h, hh, hne⟩ := exists_of_any hany''.2
  exact ⟨b₁, b₂, g, h, readLater_of_readTwice hrun hb, ⟨1, _, .step .start hany.1 hr⟩,
    hany''.1, .step .start hh, of_decide_eq_true hne⟩

theorem adjacency_of_run_dealt : ∃ heap b g h, BuiltBy 1 dealtCalls [[2]] [5, 8] heap b ∧
    RewriteVisited .sequential [1, 2] (b.toGraph 2 1 {2}) g ∧ g.inEdgesOf ≠ b.inEdgesOf ∧
    TailVisited g h ∧ h.nodes ≠ g.nodes ∧
    h.WellFormed ∧ h.TransitUnary ∧ (b.LocalEdges → h.LocalEdges) := by
  have hleaves : leaves dealtCalls (fun heap =>
      separated heap (fun e => 3 ≤ e) && rewritesAndDeletes heap [] []) = true := by
    decide +kernel
  obtain ⟨fe, hrun, htest⟩ := of_leaves hleaves
  rw [Bool.and_eq_true] at htest
  obtain ⟨b, b₂, g, h, hread, hv, hne, ht, hne'⟩ := of_rewritesAndDeletes hrun htest.2
  obtain ⟨hb, rfl⟩ := hread.builtBy
  exact ⟨fe.heap, b₂, g, h, hb, hv, hne, ht, hne',
    adjacency_of_run hb (noOverlap_of_separated htest.1 (by decide) (by decide)) hv ht⟩

theorem counters_of_run_dealt : ∃ heap b₁ b₂ g h,
    ReadLater 1 dealtCalls [[2]] [5, 8] [[9]] [[3, 5]] heap b₁ b₂ ∧
    RewriteVisited .sequential [1, 2] ((b₁.toGraph 2 1 {2}).reread b₂) g ∧
    g.inEdgesOf ≠ b₂.inEdgesOf ∧ TailVisited g h ∧ h.nodes ≠ g.nodes ∧
    g.Exact ∧ h.bubbleCnt = h.countBubble {2} := by
  have hleaves : leaves dealtCalls (fun heap =>
      separated heap (fun e => 3 ≤ e) && (heap[3]?).all (fun exp => exp.genre = .input) &&
        rewritesAndDeletes heap [[9]] [[3, 5]]) = true := by
    decide +kernel
  obtain ⟨fe, hrun, htest⟩ := of_leaves hleaves
  rw [Bool.and_eq_true, Bool.and_eq_true] at htest
  obtain ⟨⟨hsep, hinput⟩, hany⟩ := htest
  obtain ⟨b₁, b₂, g, h, hread, hv, hne, ht, hne'⟩ := of_rewritesAndDeletes hrun hany
  have hlater : ∀ out ∈ [[3, 5]].flatten,
      ¬ fe.heap.Retypes [5, 8] ([5, 8] ++ [[9]].flatten) out := by
    rintro out hout ⟨-, hmarked, exp, hexp, -, hgenre⟩
    rcases List.mem_cons.1 hout with rfl | hout
    · rw [hexp, Option.all_some, decide_eq_true_eq, hgenre] at hinput
      exact absurd hinput (by simp)
    · rw [List.mem_singleton.1 hout] at hmarked
      exact hmarked (by decide)
  have hcounters := counters_of_run hread
    (noOverlap_of_separated hsep (by decide) (by decide)) hlater hv
  exact ⟨fe.heap, b₁, b₂, g, h, hread, hv, hne, ht, hne', hcounters.1.1,
    (hcounters.2.2 h ht).1⟩

/-- An output met between the two readings is a bubble that was not counted. -/
theorem retyped_counter : ∃ heap b₁ b₂,
    ReadLater 1 dealtCalls [[2]] [5, 8] [[9]] [[7]] heap b₁ b₂ ∧
    heap.NoOverlap [2] [5, 8] ∧ ¬ ((b₁.toGraph 2 1 {2}).reread b₂).Exact := by
  have hleaves : leaves dealtCalls (fun heap => separated heap (fun e => 3 ≤ e) &&
      (readTwice 1 heap [[2]] [5, 8] [[9]] [[7]]).any fun x =>
        decide (x.1.countBubble {2} ≠ x.2.countBubble {2})) = true := by
    decide +kernel
  obtain ⟨fe, hrun, htest⟩ := of_leaves hleaves
  rw [Bool.and_eq_true] at htest
  obtain ⟨⟨b₁, b₂⟩, hb, hne⟩ := exists_of_any htest.2
  exact ⟨fe.heap, b₁, b₂, readLater_of_readTwice hrun hb,
    noOverlap_of_separated htest.1 (by decide) (by decide),
    fun hx => of_decide_eq_true hne hx.bubble⟩

end Prover

end Gauv
