import Gauv.Backend.Assertions
import Gauv.Backend.BuilderRuns
import Gauv.Backend.Termination

/-!
# Runs in which no assertion fails

The graph of a build is sturdy when the protocol keeps to its `N` parties and
every reconstruction has `N` operands, and the source parties are as many as the
sharing rules need.  So a run aborts in an iteration exactly when the graph of
that iteration has a mixed fan.
-/

namespace Gauv

open GraphBase

/-! ## Arities of built graphs -/

/-- The protocol keeps to the given parties. -/
def Heap.PartiesIn (heap : Heap) (outputs : List ℕ) (parties : Finset PartyDecl) : Prop :=
  ∀ (e : ℕ) (exp : Expression), heap.Reached outputs e → heap[e]? = some exp →
    (exp.HasNode → exp.party ∈ parties) ∧
      ∀ degree q c, exp.cls = .poly degree q c → q ∈ parties

/-- Every reconstruction of the protocol has `n` operands. -/
def Heap.OpensAll (heap : Heap) (outputs : List ℕ) (n : ℕ) : Prop :=
  ∀ (e : ℕ) (exp : Expression), heap.Reached outputs e → heap[e]? = some exp →
    exp.op = .reconstruct → exp.oprands.length = n

namespace Builder

variable {heap : Heap} {mem : Memory} {prev outs pend : List ℕ}
  {new : List (ℕ × Option NodePtr)} {s : Builder} {e o : ℕ} {exp : Expression}
  {inputs : List NodePtr}

/-- A node belongs to an expression, or is a coefficient of a polynomial. -/
theorem Inv.exists_party (hi : Inv heap mem outs pend new s) {i : ℕ} {n : Node}
    (h : s.nodes[i]? = some n) : ∃ e r exp, (e, r) ∈ new ∧ heap[e]? = some exp ∧
      ((r = some (.node s.current i) ∧ n.party = exp.party) ∨
        ∃ degree c, exp.cls = .poly degree n.party c) := by
  obtain ⟨e, r, exp, hr, hexp, hcases⟩ := hi.node_cases h
  refine ⟨e, r, exp, hr, hexp, ?_⟩
  rcases hcases with ⟨hptr, rfl⟩ | ⟨degree, party, c, k, hcls, rfl⟩
  · exact Or.inl ⟨hptr, rfl⟩
  · exact Or.inr ⟨degree, c, hcls⟩

theorem operands_eq_self {xs : List ℕ}
    (h : ∀ x ∈ xs, ∃ ex, heap[x]? = some ex ∧ ex.isShare = true) : heap.operands xs = xs := by
  refine List.filter_eq_self.2 fun x hx => ?_
  obtain ⟨ex, hex, hshare⟩ := h x hx
  simp [hex, Expression.isConstant_of_isShare hshare]

/-- The operands of an edge that is no evaluation. -/
theorem EdgeOf.operands (hedge : EdgeOf heap outs new s e exp o inputs) (hev : exp.op ≠ .eval) :
    List.Forall₂ (fun x p => s.frontBackMap.lookup x = some (some p))
      (heap.operands exp.oprands) inputs := by
  cases hedge.inputsOf with
  | simple _ hin => exact hin
  | eval hop _ _ _ _ _ _ => exact absurd hop hev

/-- A sum has two summands. -/
theorem EdgeOf.add_binary (hs : heap.Sound) (hedge : EdgeOf heap outs new s e exp o inputs)
    (hop : exp.op = .add) : inputs.length = 2 := by
  rw [← (hedge.operands (by simp [hop])).length_eq]
  cases hs e exp hedge.exp_eq with
  | placeholder _ h _ => simp [h] at hop
  | typeCast _ h _ _ => simp [h] at hop
  | @binary a b ea eb _ _ hx ha hb _ _ hsa hsb =>
      rw [hx, operands_eq_self]
      · rfl
      · rw [List.forall_mem_cons, List.forall_mem_singleton]
        exact ⟨⟨ea, (Expression.Made.of_getElem?_take ha).1, hsa⟩,
          ⟨eb, (Expression.Made.of_getElem?_take hb).1, hsb⟩⟩
  | scalarMul _ h _ _ _ _ _ => simp [h] at hop
  | transit _ h _ _ _ => simp [h] at hop
  | reconstruct _ h _ => simp [h] at hop
  | poly _ h _ _ => simp [h] at hop
  | eval _ h _ _ _ => simp [h] at hop

/-- A reconstruction keeps all its operands, which are at one party. -/
theorem EdgeOf.reconstruct_operands (hs : heap.Sound) (hm : Remembers heap prev s.leave)
    (hedge : EdgeOf heap outs new s e exp o inputs) (hop : exp.op = .reconstruct) :
    inputs.length = exp.oprands.length ∧ ∃ q, ∀ p ∈ inputs, (s.nodeAt p).party = q := by
  have hin := hedge.operands (by simp [hop])
  cases hs e exp hedge.exp_eq with
  | placeholder _ h _ => simp [h] at hop
  | typeCast _ h _ _ => simp [h] at hop
  | binary _ h _ _ _ _ _ => rcases h with h | h | h | h <;> simp [h] at hop
  | scalarMul _ h _ _ _ _ _ => simp [h] at hop
  | transit _ h _ _ _ => simp [h] at hop
  | @reconstruct q _ _ hx =>
      have hshares : ∀ x ∈ exp.oprands, ∃ ex, heap[x]? = some ex ∧ ex.isShare = true ∧
          ex.party = q := fun x hxm => by
        obtain ⟨ex, hex, h⟩ := hx x hxm
        exact ⟨ex, (Expression.Made.of_getElem?_take hex).1, h⟩
      have hself : heap.operands exp.oprands = exp.oprands := operands_eq_self fun x hxm => by
        obtain ⟨ex, hex, hshare, -⟩ := hshares x hxm
        exact ⟨ex, hex, hshare⟩
      rw [hself] at hin
      refine ⟨hin.length_eq.symm, q, (hm.forall_party_iff hin hedge.idx).2 fun x hxm ex hex => ?_⟩
      obtain ⟨ex', hex', -, hq⟩ := hshares x hxm
      rw [hex, Option.some.injEq] at hex'
      rw [hex', hq]
  | poly _ h _ _ => simp [h] at hop
  | eval _ h _ _ _ => simp [h] at hop

/-- Apart from reconstructions and evaluations no edge has more than two
inputs. -/
theorem EdgeOf.length_le_two (hs : heap.Sound) (hedge : EdgeOf heap outs new s e exp o inputs)
    (hev : exp.op ≠ .eval) (hrec : exp.op ≠ .reconstruct) : inputs.length ≤ 2 := by
  have hin := hedge.operands hev
  have hle : inputs.length ≤ exp.oprands.length := by
    rw [← hin.length_eq]
    exact List.length_filter_le _ _
  refine hle.trans ?_
  cases hs e exp hedge.exp_eq with
  | placeholder _ _ hx => simp [hx]
  | typeCast _ _ hx _ => simp [hx]
  | binary _ _ hx _ _ _ _ => simp [hx]
  | scalarMul _ _ hx _ _ _ _ => simp [hx]
  | transit _ _ hx _ _ => simp [hx]
  | reconstruct _ h _ => exact absurd h hrec
  | poly _ _ hx _ => simp [hx]
  | eval _ h _ _ _ => exact absurd h hev

end Builder

section Built

variable {team : ℕ} {calls : List Call} {history : List (List ℕ)} {outputs : List ℕ}
  {heap : Heap} {b : GraphBase} {parties : Finset PartyDecl} {T : ℕ} {C : Finset PartyDecl}

/-- The graph of a protocol among `N` parties that reconstructs from all of them
is sturdy. -/
theorem BuiltBy.sturdy (hb : BuiltBy team calls history outputs heap b)
    (hnew : heap.NoOverlap history.flatten outputs) (hp : heap.PartiesIn outputs parties)
    (hopen : heap.OpensAll outputs parties.card) (hT : T < parties.card) :
    (b.toGraph parties.card T C).Sturdy parties := by
  have hwf := hb.wellFormed hnew
  have hunary := hb.transitUnary
  obtain ⟨hs, mem, s, new, hm, rfl, hall⟩ := hb.importedAll
  have hm' := hall.remembers (hs.shaped _) hm
  have hi : Builder.Inv heap mem outputs.reverse [] new s := by simpa using hall.inv
  have hedge : ∀ f, (s.toGraphBase team).HasEdge f → ∃ e o exp inputs, heap.Reached outputs e ∧
      Builder.EdgeOf heap outputs.reverse new s e exp o inputs ∧ f.type = exp.op ∧
      f.inputs = inputs.map s.nodeAt := by
    intro f hf
    obtain ⟨o, e, exp, inputs, rfl, hedge⟩ := hi.exists_of_listed (Or.inl ⟨_, hf⟩)
    obtain ⟨htype, hin, -⟩ := hedge.opAt team
    exact ⟨e, o, exp, inputs, hall.reach _ hedge.mem, hedge, htype, hin⟩
  refine ⟨hwf, hunary, fun f hf ht => ?_, fun f hf ht => ?_, fun f hf hne => ?_,
    fun i n hn => ?_, rfl, hT⟩
  · obtain ⟨e, o, exp, inputs, -, hedge, htype, hin⟩ := hedge f hf
    rw [hin, List.length_map]
    exact hedge.add_binary hs (htype ▸ ht)
  · obtain ⟨e, o, exp, inputs, hre, hedge, htype, hin⟩ := hedge f hf
    obtain ⟨hlen, q, hq⟩ := hedge.reconstruct_operands hs hm' (htype ▸ ht)
    rw [hin, List.length_map, hlen]
    refine ⟨hopen e exp hre hedge.exp_eq (htype ▸ ht), q, fun n hn => ?_⟩
    obtain ⟨p, hpm, rfl⟩ := List.mem_map.1 hn
    exact hq p hpm
  · obtain ⟨e, o, exp, inputs, hre, hedge, htype, hin⟩ := hedge f hf
    rw [htype] at hne
    rw [hin, List.length_map]
    by_cases hrec : exp.op = .reconstruct
    · refine Or.inr ?_
      rw [(hedge.reconstruct_operands hs hm' hrec).1]
      exact hopen e exp hre hedge.exp_eq hrec
    · exact Or.inl (hedge.length_le_two hs hne hrec)
  · change (s.toGraphBase team).node? i = some n at hn
    rw [Builder.node?_toGraphBase] at hn
    obtain ⟨e, r, exp, hmem, hexp, ⟨hr, hparty⟩ | ⟨degree, c, hcls⟩⟩ := hi.exists_party hn
    · rw [hparty]
      refine (hp e exp (hall.reach _ hmem) hexp).1 ?_
      obtain ⟨exp', hexp', hent⟩ := hi.entry hmem
      rw [hexp, Option.some.injEq] at hexp'
      subst hexp'
      have hsh := (hs e exp hexp).shaped
      refine ⟨?_, ?_⟩
      · by_contra hc
        simp [hent.eq_none hsh (by simpa using hc)] at hr
      · by_contra hpoly
        simp [(hent.eq_aux hsh (by simpa using hpoly)).1] at hr
    · exact (hp e exp (hall.reach _ hmem) hexp).2 degree n.party c hcls

end Built

/-! ## Source parties -/

namespace Prover

section Sources

variable {parties : List PartyDecl} {C : Finset PartyDecl} {T : ℕ}

theorem subset_fillSources (t : ℕ) (ps : List PartyDecl) (src : Finset PartyDecl) :
    src ⊆ fillSources C t ps src := by
  induction ps generalizing src with
  | nil => exact Finset.Subset.refl src
  | cons p ps ih =>
      rw [fillSources]
      split
      · exact Finset.Subset.refl src
      split
      · exact (Finset.subset_insert p src).trans (ih _)
      · exact ih src

theorem fillSources_subset {t : ℕ} {ps : List PartyDecl} {src s : Finset PartyDecl}
    (hsrc : src ⊆ s) (hps : ∀ p ∈ ps, p ∈ s) : fillSources C t ps src ⊆ s := by
  induction ps generalizing src with
  | nil => exact hsrc
  | cons p ps ih =>
      obtain ⟨hp, hps⟩ := List.forall_mem_cons.1 hps
      rw [fillSources]
      split
      · exact hsrc
      split
      · exact ih (Finset.insert_subset hp hsrc) hps
      · exact ih hsrc hps

/-- Filling stops at `t` parties, if there are enough honest ones. -/
theorem card_fillSources {t : ℕ} {ps : List PartyDecl} {src : Finset PartyDecl}
    (hle : src.card ≤ t) (hge : t ≤ (src ∪ (ps.filter fun p => p ∉ C).toFinset).card) :
    (fillSources C t ps src).card = t := by
  induction ps generalizing src with
  | nil =>
      rw [fillSources]
      exact le_antisymm hle (by simpa using hge)
  | cons p ps ih =>
      rw [fillSources]
      split
      · assumption
      rename_i hne
      split
      · rename_i hp
        refine ih ((Finset.card_insert_le p src).trans (by omega)) ?_
        rwa [List.filter_cons_of_pos (by simpa using hp), List.toFinset_cons,
          Finset.union_insert, ← Finset.insert_union] at hge
      · rename_i hp
        rw [List.filter_cons_of_neg (by simpa using hp)] at hge
        exact ih hle hge

variable {g : Graph} (hC : g.corruptedParties.card ≤ g.T) (hT : g.T < parties.toFinset.card)

theorem srcParties_subset (parties : List PartyDecl) (g : Graph) :
    srcParties parties g ⊆ parties.toFinset := by
  refine fillSources_subset (fun p hp => ?_) fun p hp => List.mem_toFinset.2 hp
  exact List.mem_toFinset.2 (List.mem_filter.1 (List.mem_toFinset.1 hp)).1

include hC hT

/-- There are `T` source parties. -/
theorem card_srcParties : (srcParties parties g).card = g.T := by
  have hsub : corruptedSources g.corruptedParties parties ⊆ g.corruptedParties := by
    intro p hp
    exact of_decide_eq_true (List.mem_filter.1 (List.mem_toFinset.1 hp)).2
  refine card_fillSources ((Finset.card_le_card hsub).trans hC) ?_
  have hall : corruptedSources g.corruptedParties parties ∪
      (parties.filter fun p => p ∉ g.corruptedParties).toFinset = parties.toFinset := by
    ext p
    by_cases hp : p ∈ g.corruptedParties
    · simp [corruptedSources, hp]
    · simp [corruptedSources, hp]
  rw [hall]
  exact hT.le

/-- One honest party is left for the second set. -/
theorem srcPartiesPlus_eq : ∃ p ∈ parties, p ∉ srcParties parties g ∧
    srcPartiesPlus parties g = insert p (srcParties parties g) := by
  obtain ⟨p, hp, hsrc⟩ := Finset.exists_mem_notMem_of_card_lt_card
    ((card_srcParties hC hT).trans_lt hT)
  rw [List.mem_toFinset] at hp
  have hhonest : p ∉ g.corruptedParties := fun hpC =>
    hsrc (subset_fillSources _ _ _ (List.mem_toFinset.2 (List.mem_filter.2
      ⟨hp, decide_eq_true hpC⟩)))
  rw [srcPartiesPlus]
  cases hfind : parties.find? fun p => p ∉ g.corruptedParties ∧ p ∉ srcParties parties g with
  | none =>
      have := List.find?_eq_none.1 hfind p hp
      exact absurd (decide_eq_true ⟨hhonest, hsrc⟩) this
  | some q =>
      have hq := List.find?_some hfind
      exact ⟨q, List.mem_of_find?_eq_some hfind, (of_decide_eq_true hq).2, rfl⟩

theorem card_srcPartiesPlus : (srcPartiesPlus parties g).card = g.T + 1 := by
  obtain ⟨p, -, hp, heq⟩ := srcPartiesPlus_eq hC hT
  rw [heq, Finset.card_insert_of_notMem hp, card_srcParties hC hT]

theorem srcPartiesPlus_subset : srcPartiesPlus parties g ⊆ parties.toFinset := by
  obtain ⟨p, hmem, -, heq⟩ := srcPartiesPlus_eq hC hT
  rw [heq]
  exact Finset.insert_subset (List.mem_toFinset.2 hmem) (srcParties_subset parties g)

end Sources

/-! ## Iterations -/

section Runs

variable {env : Env} {trs : List Transformer} {parties : List PartyDecl} {g g₀ : Graph}

/-- Every transformer of the run gets through on the graph exactly when no node
is the centre of a mixed fan. -/
theorem isSome_plans_iff (hs : g.Sturdy parties.toFinset)
    (hC : g₀.corruptedParties.card ≤ g₀.T) (hT : g₀.T < parties.toFinset.card)
    (hframe : g₀.T = g.T) (order : Transformer → ℕ → IterOrder) :
    (∀ tr ∈ equivalentRewriters parties g₀, (tr.plans (order tr) g).isSome = true) ↔
      g.Unmixed (srcParties parties g₀) (srcPartiesPlus parties g₀) := by
  have hsub := srcParties_subset parties g₀
  have hsubPlus := srcPartiesPlus_subset hC hT
  have hcard := (card_srcParties hC hT).trans hframe
  have hcardPlus := (card_srcPartiesPlus hC hT).trans (congrArg (· + 1) hframe)
  simp only [equivalentRewriters, List.forall_mem_cons, List.not_mem_nil, false_imp_iff,
    implies_true, and_true, Transformer.plans, isSome_additionPlans hs, true_and,
    isSome_sharingPlans_iff hs hsub hcard, isSome_randomSharingPlans_iff hs hsubPlus hcardPlus,
    isSome_reconstructionPlans hs (hcard.le.trans (Nat.le_succ _)),
    isSome_reconstructionPlans hs hcardPlus.le]
  exact Iff.rfl

theorem isSome_selectMin {iter call : ℕ} {considered : List (UInt64 × ℤ × ℤ)}
    {best : Option (Node × Graph)}
    (h : ∀ tr ∈ trs, ∀ order, (tr.plans order g).isSome = true) :
    (selectMin env iter g considered trs call best).isSome = true := by
  induction trs generalizing call best with
  | nil => rfl
  | cons tr trs ih =>
      obtain ⟨ps, hps⟩ := Option.isSome_iff_exists.1
        (h tr (List.mem_cons_self ..) (env.order iter call))
      rw [selectMin, Transformer.apply, hps]
      exact ih fun tr' htr' => h tr' (List.mem_cons_of_mem _ htr')

theorem exists_order_of_selectMin {iter call : ℕ} {considered : List (UInt64 × ℤ × ℤ)}
    {best : Option (Node × Graph)}
    (h : (selectMin env iter g considered trs call best).isSome = true) :
    ∀ tr ∈ trs, ∃ order, (tr.plans order g).isSome = true := by
  induction trs generalizing call best with
  | nil => exact fun tr htr => absurd htr List.not_mem_nil
  | cons tr trs ih =>
      rw [selectMin, Transformer.apply] at h
      cases hps : tr.plans (env.order iter call) g with
      | none =>
          rw [hps] at h
          exact absurd h (by simp)
      | some ps =>
          rw [hps] at h
          refine List.forall_mem_cons.2 ⟨⟨env.order iter call, ?_⟩, ih h⟩
          rw [hps]
          rfl

theorem sturdy_of_visited (hs : g₀.Sturdy parties.toFinset)
    (hv : RewriteVisited env parties g₀ g) :
    g.Sturdy parties.toFinset ∧ g₀.SameFrame g := by
  obtain ⟨iter, considered, hv⟩ := hv
  exact hv.invariant (P := fun g => g.Sturdy parties.toFinset ∧ g₀.SameFrame g) ⟨hs, .refl g₀⟩
    fun g g' hg hr => ⟨hr.sturdy hg.1, hg.2.trans hr.sameFrame⟩

/-- What the sharing pattern promises where no fan is mixed: the out-edges of
the secret are EVALs, and the rules find one destination for each party. -/
theorem destinations_of_unmixed (hs : g.Sturdy parties.toFinset)
    (hC : g₀.corruptedParties.card ≤ g₀.T) (hT : g₀.T < parties.toFinset.card)
    (hframe : g₀.T = g.T)
    (hu : g.Unmixed (srcParties parties g₀) (srcPartiesPlus parties g₀)) {v : ℕ} :
    (isRewritableSecret g v (srcParties parties g₀) = some true →
      (∀ e ∈ g.outEdges v, e.type = .eval) ∧
        (newDsts g (srcParties parties g₀) v).card = g.partyCnt) ∧
    (g.isRandomNode v = true → isRewritableSecret g v (srcPartiesPlus parties g₀) = some true →
      (∀ e ∈ g.outEdges v, e.type = .eval) ∧
        (insert v (newDsts g (srcPartiesPlus parties g₀) v)).card = g.partyCnt) := by
  have heval : ∀ {src : Finset PartyDecl}, SharingMatch g src v → ¬ MixedFan g src v →
      ∀ e ∈ g.outEdges v, e.type = .eval := fun hm hmix e he => by
    by_contra hne
    exact hmix (mixedFan_iff.2 ⟨hm, e, he, hne⟩)
  refine ⟨fun hr => ?_, fun hrand hr => ?_⟩
  · have hm := sharingMatch_of_isRewritableSecret hr
    have hev := heval hm (hu.1 v)
    have hcard := hm.card_newDsts hev hs.wellFormed hs.partiesIn hs.card
      (srcParties_subset parties g₀)
    rw [card_srcParties hC hT, hframe] at hcard
    exact ⟨hev, by omega⟩
  · have hm := sharingMatch_of_isRewritableSecret hr
    have hev := heval hm (hu.2 v hrand)
    have hcard := hm.card_newDsts hev hs.wellFormed hs.partiesIn hs.card
      (srcPartiesPlus_subset hC hT)
    rw [card_srcPartiesPlus hC hT, hframe] at hcard
    refine ⟨hev, ?_⟩
    rw [Finset.card_insert_of_notMem (hm.notMem_newDsts hs.wellFormed hrand)]
    omega

end Runs

section Assertions

variable {team : ℕ} {calls : List Call} {history : List (List ℕ)} {outputs : List ℕ}
  {heap : Heap} {b : GraphBase} {parties : List PartyDecl} {T : ℕ} {C : Finset PartyDecl}

/-- **When no assertion fails.**  In a proving run of a protocol among `N`
parties that reconstructs from all of them, every index is in range and an
iteration gets through exactly when its graph has no mixed fan; so a run whose
graphs have none returns, and the sharing rules find what they expect.  With
`T ≥ 2` and `N ≠ T + 1` there never is one. -/
theorem asserts_of_run (env : Env) (hb : BuiltBy team calls history outputs heap b)
    (hnew : heap.NoOverlap history.flatten outputs)
    (hp : heap.PartiesIn outputs parties.toFinset) (hopen : heap.OpensAll outputs parties.length)
    (hnodup : parties.Nodup) (hC : C.card ≤ T) (hT : T < parties.length) :
    let g₀ := b.toGraph parties.length T C
    let trs := equivalentRewriters parties g₀
    let src := srcParties parties g₀
    let srcPlus := srcPartiesPlus parties g₀
    (∀ iter g considered, Visited env trs g₀ iter g considered →
      (∀ f, g.HasEdge f → ∀ n ∈ f.output :: f.inputs, n.guid < g.nodeSize) ∧
      ((selectMin env iter g considered trs 0 none).isSome = true ↔ g.Unmixed src srcPlus)) ∧
    ((∀ g, RewriteVisited env parties g₀ g → g.hasBubble = true → g.Unmixed src srcPlus) →
      (tryProving env g₀ parties).isSome = true ∧
      ∀ g, RewriteVisited env parties g₀ g → g.hasBubble = true → ∀ v,
        (isRewritableSecret g v src = some true →
          (∀ e ∈ g.outEdges v, e.type = .eval) ∧ (newDsts g src v).card = parties.length) ∧
        (g.isRandomNode v = true → isRewritableSecret g v srcPlus = some true →
          (∀ e ∈ g.outEdges v, e.type = .eval) ∧
            (insert v (newDsts g srcPlus v)).card = parties.length)) ∧
    (2 ≤ T → parties.length ≠ T + 1 →
      ∀ g, RewriteVisited env parties g₀ g → g.Unmixed src srcPlus) := by
  intro g₀ trs src srcPlus
  have hlen : parties.toFinset.card = parties.length := List.toFinset_card_of_nodup hnodup
  have hs₀ : g₀.Sturdy parties.toFinset := by
    have := hb.sturdy (C := C) hnew hp (by rwa [hlen]) (by rwa [hlen])
    rwa [hlen] at this
  have hT' : g₀.T < parties.toFinset.card := by rwa [hlen]
  have hsturdy : ∀ g, RewriteVisited env parties g₀ g →
      g.Sturdy parties.toFinset ∧ g₀.SameFrame g := fun g => sturdy_of_visited hs₀
  have hiff : ∀ iter g considered, Visited env trs g₀ iter g considered →
      ((selectMin env iter g considered trs 0 none).isSome = true ↔ g.Unmixed src srcPlus) := by
    intro iter g considered hv
    obtain ⟨hs, hframe⟩ := hsturdy g ⟨iter, considered, hv⟩
    have hplans := isSome_plans_iff hs hC hT' hframe.T.symm
    constructor
    · intro h
      choose! order horder using exists_order_of_selectMin h
      exact (hplans order).1 horder
    · exact fun h => isSome_selectMin fun tr htr order => (hplans fun _ => order).2 h tr htr
  refine ⟨fun iter g considered hv => ⟨fun f hf n hn => ?_, hiff iter g considered hv⟩,
    fun hu => ⟨?_, fun g hv hbub v => ?_⟩, fun h2 hne g hv => ?_⟩
  · have hwf := (hsturdy g ⟨iter, considered, hv⟩).1.wellFormed
    exact lt_of_node? (hwf.live (hwf.listed_iff.2 hf) n hn)
  · have hloop : (rewriteLoop env trs (rewriteFuel g₀) 0 g₀ []).isSome = true :=
      isSome_rewriteLoop .start fun iter g considered hv hbub =>
        (hiff iter g considered hv).2 (hu g ⟨iter, considered, hv⟩ hbub)
    obtain ⟨g', hg'⟩ := Option.isSome_iff_exists.1 hloop
    exact Option.isSome_iff_exists.2 ⟨_, tryProving_eq_some.2 ⟨g', hg', rfl⟩⟩
  · obtain ⟨hs, hframe⟩ := hsturdy g hv
    have := destinations_of_unmixed hs hC hT' hframe.T.symm (hu g hv hbub) (v := v)
    rwa [hframe.partyCnt] at this
  · obtain ⟨hs, hframe⟩ := hsturdy g hv
    have hmix : ∀ s v, ¬ MixedFan g s v := fun s v =>
      hs.not_mixedFan (by rw [hframe.T]; exact h2) (by rw [hframe.partyCnt, hframe.T]; exact hne) v
    exact ⟨hmix src, fun v _ => hmix srcPlus v⟩

end Assertions

/-! ## A mixed fan that a run meets -/

/-- Run a program and build the graph of its outputs, with one thread. -/
def firstBuild (calls : List Call) (outputs : List ℕ) : Option (Heap × GraphBase) :=
  match Call.runAll calls .initial with
  | .ok (_, fe) => (build 1 fe.heap .fresh outputs).map fun x => (fe.heap, x.1)
  | .error _ => none

theorem builtBy_firstBuild {calls : List Call} {outputs : List ℕ} {heap : Heap} {b : GraphBase}
    (h : firstBuild calls outputs = some (heap, b)) : BuiltBy 1 calls [] outputs heap b := by
  rw [firstBuild] at h
  split at h
  · rename_i fe hrun
    obtain ⟨⟨g, mem⟩, hg, hx⟩ := Option.map_eq_some_iff.1 h
    cases hx
    exact ⟨fe, [], .fresh, mem, hrun, rfl, rfl, hg⟩
  · exact absurd h (by simp)

/-- The party that deals a polynomial. -/
def dealer? (e : Expression) : Option PartyDecl :=
  match e.cls with
  | .poly _ q _ => some q
  | _ => none

/-- All expressions are at the given parties, and every reconstruction has one
operand for each of them. -/
def isAmong (heap : Heap) (parties : List PartyDecl) : Bool :=
  heap.all fun e => (e.isConstant || e.isPoly || parties.contains e.party) &&
    (dealer? e).all (fun q => parties.contains q) &&
    (e.op ≠ .reconstruct || e.oprands.length = parties.length)

theorem partiesIn_of_isAmong {heap : Heap} {parties : List PartyDecl}
    (h : isAmong heap parties = true) (outputs : List ℕ) :
    heap.PartiesIn outputs parties.toFinset ∧ heap.OpensAll outputs parties.length := by
  have hmem : ∀ (e : ℕ) (exp : Expression), heap[e]? = some exp → _ := fun e exp he =>
    List.all_eq_true.1 h exp (List.mem_of_getElem? he)
  simp only [Bool.and_eq_true, Bool.or_eq_true, List.contains_iff_mem, decide_eq_true_eq] at hmem
  refine ⟨fun e exp _ he => ⟨fun hn => ?_, fun degree q c hcls => ?_⟩, fun e exp _ he hop => ?_⟩
  · exact List.mem_toFinset.2 ((hmem e exp he).1.1.resolve_left (by simp [hn.1, hn.2]))
  · have := (hmem e exp he).1.2
    rw [dealer?, hcls] at this
    exact List.mem_toFinset.2 (List.contains_iff_mem.1 this)
  · exact (hmem e exp he).2.resolve_left (not_not.2 hop)

/-- Party 1 deals a share `x` of its secret to party 2, which multiplies an
input `v` of its own by `x`, and subtracts `x` from it. -/
def mixedCalls : List Call :=
  [.genShare .arithField 2, .newSecret "s" .arithField 1, .genPoly 1 2 1, .eval 3 2,
    .transfer 4 2, .eval 3 1, .sub 1 5, .mul 1 5]

/-- Once the dealt share is random, `v` passes for a secret: both its out-edges
read `v` and `x`. -/
theorem mixed_fan_aborts : ∃ heap b, BuiltBy 1 mixedCalls [] [7, 8, 6] heap b ∧
    heap.PartiesIn [7, 8, 6] [1, 2].toFinset ∧ heap.OpensAll [7, 8, 6] 2 ∧
    tryProving .sequential (b.toGraph 2 1 {2}) [1, 2] = none ∧
    ∃ g, RewriteVisited .sequential [1, 2] (b.toGraph 2 1 {2}) g ∧
      isRewritableSecret g 0 (srcParties [1, 2] (b.toGraph 2 1 {2})) = some true ∧
      (g.outEdges 0).map Operation.type = [.sub, .mul] := by
  have hany : (firstBuild mixedCalls [7, 8, 6]).any (fun x =>
      let g₀ := x.2.toGraph 2 1 {2}
      isAmong x.1 [1, 2] && (tryProving .sequential g₀ [1, 2]).isNone && g₀.hasBubble &&
        (selectMin .sequential 0 g₀ [] (equivalentRewriters [1, 2] g₀) 0 none).any fun r =>
          r.any fun y => decide (isRewritableSecret y.2 0 (srcParties [1, 2] g₀) = some true ∧
            (y.2.outEdges 0).map Operation.type = [.sub, .mul])) = true := by decide +kernel
  obtain ⟨⟨heap, b⟩, hb, hany⟩ := exists_of_any hany
  simp only [Bool.and_eq_true, Option.isNone_iff_eq_none] at hany
  obtain ⟨⟨⟨hamong, hnone⟩, hbub⟩, hsel⟩ := hany
  obtain ⟨hp, hopen⟩ := partiesIn_of_isAmong hamong [7, 8, 6]
  obtain ⟨r, hr, hsel⟩ := exists_of_any hsel
  obtain ⟨⟨node, g⟩, rfl, hg⟩ := exists_of_any hsel
  exact ⟨heap, b, builtBy_firstBuild hb, hp, hopen, hnone, g, ⟨1, _, .step .start hbub hr⟩,
    of_decide_eq_true hg⟩

/-- Four parties share two secrets with polynomials of degree 2, add the shares they
hold, and open the sum to party 2. -/
def openedCalls : List Call :=
  [.newSecret "x" .arithField 1, .genPoly 1 1 2, .eval 2 1, .eval 2 2, .eval 2 3, .eval 2 4,
    .transfer 4 2, .transfer 5 3, .transfer 6 4,
    .newSecret "z" .arithField 3, .genPoly 3 10 2, .eval 11 1, .eval 11 2, .eval 11 3, .eval 11 4,
    .transfer 12 1, .transfer 13 2, .transfer 15 4,
    .add 3 16, .add 7 17, .add 8 14, .add 9 18,
    .transfer 19 2, .transfer 21 2, .transfer 22 2, .reconstruct [23, 20, 24, 25] 2 "y"]

/-- The opening and then a sharing are rewritten: the RECONSTRUCT of node 27 is gone, and
the coefficient that is node 1 is computed from shares. -/
theorem asserts_of_run_opened : ∃ heap b g considered, BuiltBy 1 openedCalls [] [26] heap b ∧
    heap.OpensAll [26] 4 ∧
    Visited .sequential (equivalentRewriters [1, 2, 3, 4] (b.toGraph 4 2 {2, 3}))
      (b.toGraph 4 2 {2, 3}) 2 g considered ∧
    (b.inEdges 27).map Operation.type = [.reconstruct] ∧
    (g.inEdges 27).map Operation.type = [] ∧
    (b.inEdges 1).map Operation.type = [] ∧ (g.inEdges 1).map Operation.type = [.eval] ∧
    (selectMin .sequential 2 g considered
      (equivalentRewriters [1, 2, 3, 4] (b.toGraph 4 2 {2, 3})) 0 none).isSome = true ∧
    (tryProving .sequential (b.toGraph 4 2 {2, 3}) [1, 2, 3, 4]).isSome = true := by
  have hany : (firstBuild openedCalls [26]).any (fun x =>
      let g₀ := x.2.toGraph 4 2 {2, 3}
      let trs := equivalentRewriters [1, 2, 3, 4] g₀
      isAmong x.1 [1, 2, 3, 4] && g₀.hasBubble && (selectMin .sequential 0 g₀ [] trs 0 none).any
        fun r => r.any fun y => y.2.hasBubble &&
          (selectMin .sequential 1 y.2 [y.2.key 1] trs 0 none).any fun r' => r'.any fun z =>
            decide ((x.2.inEdges 27).map Operation.type = [.reconstruct] ∧
              (z.2.inEdges 27).map Operation.type = [] ∧
              (x.2.inEdges 1).map Operation.type = [] ∧
              (z.2.inEdges 1).map Operation.type = [.eval])) = true := by
    decide +kernel
  obtain ⟨⟨heap, b⟩, hb, hany⟩ := exists_of_any hany
  simp only [Bool.and_eq_true] at hany
  obtain ⟨⟨hamong, hbub⟩, hsel⟩ := hany
  obtain ⟨r, hr, hsel⟩ := exists_of_any hsel
  obtain ⟨⟨node, g₁⟩, rfl, hsel⟩ := exists_of_any hsel
  obtain ⟨hbub₁, hsel⟩ := Bool.and_eq_true_iff.1 hsel
  obtain ⟨r', hr', hsel⟩ := exists_of_any hsel
  obtain ⟨⟨node', g⟩, rfl, hfacts⟩ := exists_of_any hsel
  obtain ⟨hrec, hrec', hev, hev'⟩ := of_decide_eq_true hfacts
  obtain ⟨hp, hopen⟩ := partiesIn_of_isAmong hamong [26]
  have hbuilt := builtBy_firstBuild hb
  have hv : Visited .sequential (equivalentRewriters [1, 2, 3, 4] (b.toGraph 4 2 {2, 3}))
      (b.toGraph 4 2 {2, 3}) 2 g [g.key 1, g₁.key 1] := .step (.step .start hbub hr) hbub₁ hr'
  have h := asserts_of_run (T := 2) (C := {2, 3}) .sequential hbuilt (noOverlap_nil heap [26]) hp
    hopen (by decide) (by decide) (by decide)
  have hunmixed := h.2.2 le_rfl (by decide)
  exact ⟨heap, b, g, _, hbuilt, hopen, hv, hrec, hrec', hev, hev',
    (h.1 2 g _ hv).2.2 (hunmixed g ⟨2, _, hv⟩), (h.2.1 fun g hv _ => hunmixed g hv).1⟩

end Prover

end Gauv
