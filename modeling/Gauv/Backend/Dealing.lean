import Gauv.Fitting
import Gauv.Backend.Valuations

/-!
# The sharing rules as equivalences

The EVAL edges a sharing rule rewrites put the secret, the coefficients and the
shares of one polynomial together, and so do the new ones, around other nodes.
`T + 1` shares determine the polynomial; `T` shares and one of its coefficients
do so for some coefficients and points only, and the rule takes whichever
coefficient it can.
-/

namespace Gauv

open GraphBase Fitting Polynomial

variable {F : Type*} [Field F]

/-- A TRANSIT copies, any other operation puts its ends on one polynomial of
degree at most `t`. -/
def fitted (t : ℕ) (pos : ℕ → Position F) : Meaning F
  | .transit, inputs, output, val => ∀ n ∈ inputs, val output.guid = val n.guid
  | _, inputs, output, val => Fits t pos val {i | ∃ n ∈ output :: inputs, n.guid = i}

/-- The out-edges of node `v` evaluate one polynomial of degree `T` once for each
party: `ns` are its coefficients, and the share of a party is its value at the
point of the party, both where it is computed and where it ends. -/
structure OnePolynomial (g : Graph) (v : ℕ) (parties : Finset PartyDecl) (x : PartyDecl → F)
    (ns : List Node) (pos : ℕ → Position F) : Prop where
  inputs : ∀ e ∈ g.outEdges v, e.inputs = ns
  coefficient : ∀ (k : ℕ) (n : Node), ns[k]? = some n → pos n.guid = .coeff k
  party : ∀ e ∈ g.outEdges v, shareParty g e ∈ parties
  share : ∀ e ∈ g.outEdges v, pos e.output.guid = .point (x (shareParty g e)) ∧
    pos (g.afterTransit e.output).guid = .point (x (shareParty g e))

section Sharing

variable {g : Graph} {src parties : Finset PartyDecl} {v : ℕ} {x : PartyDecl → F}
  {ns : List Node} {pos : ℕ → Position F} {order : IterOrder} {node : Node}
  {srcs₀ dsts₀ : List Node} {p : Plan}

/-- The nodes of a list, by index. -/
def guids (l : List Node) : Set ℕ := {i | ∃ n ∈ l, n.guid = i}

theorem fitted_eval {t : ℕ} {type : Operator} (ht : type ≠ .transit) {inputs : List Node}
    {output : Node} {val : ℕ → F} :
    fitted t pos type inputs output val ↔ Fits t pos val (insert output.guid (guids inputs)) := by
  have hset : {i | ∃ n ∈ output :: inputs, n.guid = i} = insert output.guid (guids inputs) := by
    ext i
    simp only [guids, List.mem_cons, exists_eq_or_imp, Set.mem_insert_iff, eq_comm (a := i)]
    exact Iff.rfl
  cases type with
  | transit => exact absurd rfl ht
  | _ => rw [← hset]; exact Iff.rfl

/-! ## The pattern -/

/-- The nodes the shares are computed at. -/
def sharesOf (g : Graph) (v : ℕ) : Set ℕ := {i | ∃ e ∈ g.outEdges v, e.output.guid = i}

/-- The copies between the source shares and the nodes they were sent to. -/
def SourcesCopied (g : Graph) (src : Finset PartyDecl) (v : ℕ) (val : ℕ → F) : Prop :=
  ∀ e ∈ g.outEdges v, ∀ t, g.transitOut e.output = some t → t.output.party ∈ src →
    val t.output.guid = val e.output.guid

theorem holds_eliminated_iff (hp : SharingPlan order g src node v srcs₀ dsts₀ p)
    (hg : g.WellFormed) (hu : g.TransitUnary) (hd : OnePolynomial g v parties x ns pos)
    (val : ℕ → F) :
    (∀ e ∈ p.edgesToEliminate, e.Holds (fitted g.T pos) val) ↔
      SourcesCopied g src v val ∧ ∀ d ∈ sharesOf g v, Fits g.T pos val (insert d (guids ns)) := by
  have heval : ∀ e ∈ g.outEdges v, e.Holds (fitted g.T pos) val ↔
      Fits g.T pos val (insert e.output.guid (guids ns)) := by
    intro e he
    rw [Operation.Holds, fitted_eval (by rw [hp.isEval e he]; decide), hd.inputs e he]
  have htransit : ∀ e ∈ g.outEdges v, ∀ t, g.transitOut e.output = some t →
      (t.Holds (fitted g.T pos) val ↔ val t.output.guid = val e.output.guid) := by
    intro e he t ht
    have hmem := mem_outEdges_of_transitOut ht
    obtain ⟨hte, n, hn, hne⟩ := hg.mem_outEdges.1 hmem
    obtain ⟨a, ha⟩ := List.length_eq_one_iff.1 (hu t hte (transitOut_eq_some.1 ht).2)
    rw [ha, List.mem_singleton] at hn
    rw [Operation.Holds, (transitOut_eq_some.1 ht).2, ha, ← hn, fitted]
    simp only [List.forall_mem_singleton, hne]
  rw [hp.eliminated]
  constructor
  · intro h
    refine ⟨fun e he t ht hs => (htransit e he t ht).1 (h t ?_), ?_⟩
    · exact List.mem_flatMap.2 ⟨e, he, mem_sharingEliminated.2 (Or.inr ⟨t, ht, hs, rfl⟩)⟩
    · rintro d ⟨e, he, rfl⟩
      exact (heval e he).1 (h e (List.mem_flatMap.2 ⟨e, he, mem_sharingEliminated.2 (Or.inl rfl)⟩))
  · rintro ⟨hcopy, hfits⟩ k hk
    obtain ⟨e, he, hke⟩ := List.mem_flatMap.1 hk
    rcases mem_sharingEliminated.1 hke with rfl | ⟨t, ht, hs, rfl⟩
    · exact (heval k he).2 (hfits _ ⟨k, he, rfl⟩)
    · exact (htransit e he k ht).2 (hcopy e he k ht hs)

theorem holds_requested_iff (hp : SharingPlan order g src node v srcs₀ dsts₀ p) (val : ℕ → F) :
    (∀ k ∈ p.edgesToAdd, fitted g.T pos k.type k.inputs k.output val) ↔
      SourcesCopied g src v val ∧
        ∀ d ∈ guids p.dsts, Fits g.T pos val (insert d (guids p.srcs)) := by
  have hcopied : (∀ k ∈ p.turned, fitted g.T pos k.type k.inputs k.output val) ↔
      SourcesCopied g src v val := by
    rw [hp.turned]
    constructor
    · intro h e he t ht hs
      have := h _ (List.mem_flatMap.2 ⟨e, he, mem_sharingTurned.2 ⟨t, ht, hs, rfl⟩⟩)
      exact (this t.output (List.mem_singleton_self _)).symm
    · intro h k hk
      obtain ⟨e, he, hke⟩ := List.mem_flatMap.1 hk
      obtain ⟨t, ht, hs, rfl⟩ := mem_sharingTurned.1 hke
      intro n hn
      rw [List.mem_singleton.1 hn]
      exact (h e he t ht hs).symm
  have hcomputed : (∀ k ∈ p.computed, fitted g.T pos k.type k.inputs k.output val) ↔
      ∀ d ∈ guids p.dsts, Fits g.T pos val (insert d (guids p.srcs)) := by
    have hop : p.op ≠ .transit := by
      rw [hp.op]
      decide
    simp only [Plan.computed, List.forall_mem_map, fitted_eval hop]
    constructor
    · rintro h d ⟨n, hn, rfl⟩
      exact h n hn
    · exact fun h n hn => h _ ⟨n, hn, rfl⟩
  rw [Plan.edgesToAdd, List.forall_mem_append, hcopied, hcomputed]

omit [Field F] in
/-- Sources and destinations are the coefficients and the shares. -/
theorem guids_srcs_union_dsts (hp : SharingPlan order g src node v srcs₀ dsts₀ p)
    (hm : SharingMatch g src v) (hg : g.WellFormed) (hd : OnePolynomial g v parties x ns pos)
    (hv : g.node? v = some node) (h₀ : ∀ n, n ∈ srcs₀ ++ dsts₀ ↔ n = node) :
    guids p.srcs ∪ guids p.dsts = guids ns ∪ sharesOf g v := by
  obtain ⟨S, hcard, hvS, hS, -⟩ := hm.inputs
  obtain ⟨e₀, he₀, hve₀⟩ := (hS v).1 hvS
  have hvn : v ∈ guids ns := by
    obtain ⟨n, hn, hnv⟩ := List.mem_map.1 hve₀
    exact ⟨n, hd.inputs e₀ he₀ ▸ hn, hnv⟩
  have hnode : node.guid = v := hg.guid_eq hv
  ext i
  constructor
  · rintro (⟨n, hn, rfl⟩ | ⟨n, hn, rfl⟩)
    · rcases hp.mem_srcs.1 hn with hn | ⟨e, he, -, rfl⟩
      · rw [(h₀ n).1 (List.mem_append_left _ hn), hnode]
        exact Or.inl hvn
      · exact Or.inr ⟨e, he, rfl⟩
    · rcases hp.of_mem_dsts hn with hn | ⟨e, he, ⟨hn, -⟩ | ⟨-, rfl⟩⟩
      · rw [(h₀ n).1 (List.mem_append_right _ hn), hnode]
        exact Or.inl hvn
      · exact Or.inl ⟨n, hd.inputs e he ▸ hn, rfl⟩
      · exact Or.inr ⟨e, he, rfl⟩
  · have hdst : ∀ n ∈ dsts₀ ++ (g.outEdges v).flatMap (sharingDsts g src v),
        n.guid ∈ guids p.dsts := by
      intro n hn
      obtain ⟨m, hm, hmn⟩ := exists_mem_insertNodes hn
      exact ⟨m, by rw [hp.dsts, (order.perm _).mem_iff]; exact hm, hmn⟩
    rintro (⟨n, hn, rfl⟩ | ⟨e, he, rfl⟩)
    · by_cases hnv : n.guid = v
      · have hnode₀ := (h₀ node).2 rfl
        rw [hnv, ← hnode]
        rcases List.mem_append.1 hnode₀ with h | h
        · exact Or.inl ⟨node, hp.mem_srcs.2 (Or.inl h), rfl⟩
        · exact Or.inr (hdst node (List.mem_append_left _ h))
      · refine Or.inr (hdst n (List.mem_append_right _ (List.mem_flatMap.2 ⟨e₀, he₀, ?_⟩)))
        rw [sharingDsts, List.mem_append, List.mem_filter, hd.inputs e₀ he₀]
        exact Or.inl ⟨hn, by simpa using hnv⟩
    · cases hs : isSourceShare g src e with
      | true => exact Or.inl ⟨e.output, hp.mem_srcs.2 (Or.inr ⟨e, he, hs, rfl⟩), rfl⟩
      | false =>
          refine Or.inr (hdst _ (List.mem_append_right _ (List.mem_flatMap.2 ⟨e, he, ?_⟩)))
          rw [sharingDsts, List.mem_append, hs]
          exact Or.inr (List.mem_singleton_self _)

/-! ## What determines the polynomial -/

omit [Field F] in
/-- Every party has a share. -/
theorem exists_share (hp : SharingPlan order g src node v srcs₀ dsts₀ p)
    (hm : SharingMatch g src v) (hd : OnePolynomial g v parties x ns pos)
    (hcard : parties.card = g.partyCnt) {P : PartyDecl} (hP : P ∈ parties) :
    ∃ e ∈ g.outEdges v, shareParty g e = P := by
  have hnodup : ((g.outEdges v).map (shareParty g)).Nodup := by
    have := hm.parties
    rwa [List.filter_eq_self.2 fun e he => by simpa using hp.isEval e he] at this
  exact exists_of_nodup_map hnodup hd.party (hcard.trans hm.outDeg.symm) hP

omit [Field F] in
/-- Every coefficient is a node of the sharing. -/
theorem exists_coefficient (hm : SharingMatch g src v)
    (hd : OnePolynomial g v parties x ns pos) {k : ℕ} (hk : k ≤ g.T) :
    ∃ i ∈ guids ns, pos i = .coeff k := by
  obtain ⟨S, -, hvS, hS, -⟩ := hm.inputs
  obtain ⟨e, he, -⟩ := (hS v).1 hvS
  have hlen : k < ns.length := by
    rw [← hd.inputs e he, hm.lengths e he]
    omega
  exact ⟨ns[k].guid, ⟨ns[k], List.getElem_mem hlen, rfl⟩,
    hd.coefficient k ns[k] (List.getElem?_eq_getElem hlen)⟩

/-- The removed edges put the coefficients and the shares on one polynomial. -/
theorem eliminated_iff_fits (hp : SharingPlan order g src node v srcs₀ dsts₀ p)
    (hm : SharingMatch g src v) (hg : g.WellFormed) (hu : g.TransitUnary)
    (hd : OnePolynomial g v parties x ns pos) (val : ℕ → F) :
    (∀ e ∈ p.edgesToEliminate, e.Holds (fitted g.T pos) val) ↔
      SourcesCopied g src v val ∧ Fits g.T pos val (guids ns ∪ sharesOf g v) := by
  rw [holds_eliminated_iff hp hg hu hd]
  refine and_congr_right fun _ => fits_union_iff ?_ ?_
  · exact determines_coeffs fun k hk => exists_coefficient hm hd hk
  · obtain ⟨S, -, hvS, hS, -⟩ := hm.inputs
    obtain ⟨e, he, -⟩ := (hS v).1 hvS
    exact ⟨_, e, he, rfl⟩

/-- Without one of them, the coefficients and the shares still determine. -/
theorem determines_rest (hp : SharingPlan order g src node v srcs₀ dsts₀ p)
    (hm : SharingMatch g src v) (hd : OnePolynomial g v parties x ns pos)
    (hcard : parties.card = g.partyCnt) (hT : g.T < g.partyCnt) (hx : Points parties x)
    (d : Position F) :
    Determines g.T id (Set.image pos (guids ns ∪ sharesOf g v) \ {d}) := by
  classical
  cases d with
  | coeff k =>
      refine determines_points (s := parties.image x) ?_ fun y hy => ?_
      · rwa [Finset.card_image_of_injOn hx.inj, hcard]
      · obtain ⟨P, hP, rfl⟩ := Finset.mem_image.1 hy
        obtain ⟨e, he, rfl⟩ := exists_share hp hm hd hcard hP
        exact ⟨_, ⟨⟨e.output.guid, Or.inr ⟨e, he, rfl⟩, (hd.share e he).1⟩, by simp⟩, rfl⟩
  | point y =>
      refine determines_coeffs fun k hk => ?_
      obtain ⟨i, hi, hik⟩ := exists_coefficient hm hd hk
      exact ⟨_, ⟨⟨i, Or.inl hi, hik⟩, by simp⟩, rfl⟩

/-- **A sharing rule is an equivalence exactly when** its sources determine the
polynomial. -/
theorem sharing_iff_determines (hp : SharingPlan order g src node v srcs₀ dsts₀ p)
    (hm : SharingMatch g src v) (hg : g.WellFormed) (hu : g.TransitUnary)
    (hd : OnePolynomial g v parties x ns pos) (hv : g.node? v = some node)
    (h₀ : ∀ n, n ∈ srcs₀ ++ dsts₀ ↔ n = node) (hcard : parties.card = g.partyCnt)
    (hT : g.T < g.partyCnt) (hx : Points parties x) :
    (∀ val : ℕ → F, (∀ e ∈ p.edgesToEliminate, e.Holds (fitted g.T pos) val) ↔
      ∀ k ∈ p.edgesToAdd, fitted g.T pos k.type k.inputs k.output val) ↔
    Determines g.T pos (guids p.srcs) := by
  have hunion := guids_srcs_union_dsts hp hm hg hd hv h₀
  have hdsts : (guids p.dsts).Nonempty := by
    obtain ⟨n, hn⟩ := List.exists_mem_of_length_pos
      (show 0 < p.dsts.length by rw [hp.dsts_length]; omega)
    exact ⟨n.guid, n, hn, rfl⟩
  constructor
  · intro h
    rw [← determines_image]
    refine determines_of_fits_union (D := Set.image pos (guids p.dsts)) (hdsts.image pos)
      (fun d _ => ?_) fun w hw => ?_
    · rw [← Set.image_union, hunion]
      exact determines_rest hp hm hd hcard hT hx d
    · -- values that depend on the position only are copied along the transits
      have hcopied : SourcesCopied g src v (w ∘ pos) := by
        intro e he t ht _
        have hshare := hd.share e he
        rw [afterTransit, ht] at hshare
        rw [Function.comp_apply, Function.comp_apply, hshare.1, hshare.2]
      have hstar : ∀ d ∈ guids p.dsts, Fits g.T pos (w ∘ pos) (insert d (guids p.srcs)) := by
        intro d hd
        rw [fits_comp, Set.image_insert_eq]
        exact hw _ ⟨d, hd, rfl⟩
      have helim := (h (w ∘ pos)).2 ((holds_requested_iff hp _).2 ⟨hcopied, hstar⟩)
      rw [← Set.image_union, hunion, ← fits_comp]
      exact ((eliminated_iff_fits hp hm hg hu hd _).1 helim).2
  · intro hdet val
    rw [eliminated_iff_fits hp hm hg hu hd, holds_requested_iff hp, fits_union_iff hdet hdsts,
      hunion]

/-! ## The two rules -/

omit [Field F] in
/-- The sources are the nodes on the source side and the shares of the source
parties. -/
theorem mem_guids_srcs (hp : SharingPlan order g src node v srcs₀ dsts₀ p) {i : ℕ} :
    i ∈ guids p.srcs ↔ i ∈ guids srcs₀ ∨
      ∃ e ∈ g.outEdges v, shareParty g e ∈ src ∧ e.output.guid = i := by
  have hs : ∀ e, isSourceShare g src e = true ↔ shareParty g e ∈ src := fun e =>
    decide_eq_true_iff
  constructor
  · rintro ⟨n, hn, rfl⟩
    rcases hp.mem_srcs.1 hn with hn | ⟨e, he, hes, rfl⟩
    · exact Or.inl ⟨n, hn, rfl⟩
    · exact Or.inr ⟨e, he, (hs e).1 hes, rfl⟩
  · rintro (⟨n, hn, rfl⟩ | ⟨e, he, hes, rfl⟩)
    · exact ⟨n, hp.mem_srcs.2 (Or.inl hn), rfl⟩
    · exact ⟨e.output, hp.mem_srcs.2 (Or.inr ⟨e, he, (hs e).2 hes, rfl⟩), rfl⟩

/-- `T + 1` shares determine the polynomial. -/
theorem determines_shares (hp : SharingPlan order g src node v srcs₀ dsts₀ p)
    (hm : SharingMatch g src v) (hd : OnePolynomial g v parties x ns pos)
    (hcard : parties.card = g.partyCnt) (hx : Points parties x) (hsub : src ⊆ parties)
    (hsrc : src.card = g.T + 1) : Determines g.T pos (guids p.srcs) := by
  classical
  refine determines_points (s := src.image x) ?_ fun y hy => ?_
  · rw [Finset.card_image_of_injOn (hx.inj.mono (Finset.coe_subset.2 hsub)), hsrc]
    exact Nat.lt_succ_self _
  · obtain ⟨P, hP, rfl⟩ := Finset.mem_image.1 hy
    obtain ⟨e, he, rfl⟩ := exists_share hp hm hd hcard (hsub hP)
    exact ⟨_, (mem_guids_srcs hp).2 (Or.inr ⟨e, he, hP, rfl⟩), (hd.share e he).1⟩

/-- `T` shares and the `k`-th coefficient determine the polynomial exactly when
the polynomial that vanishes at the `T` points has a `k`-th coefficient. -/
theorem determines_shares_coeff_iff (hp : SharingPlan order g src node v [node] [] p)
    (hm : SharingMatch g src v) (hd : OnePolynomial g v parties x ns pos)
    (hcard : parties.card = g.partyCnt) (hx : Points parties x) (hsub : src ⊆ parties)
    (hsrc : src.card = g.T) {k : ℕ} (hk : ns[k]? = some node) :
    Determines g.T pos (guids p.srcs) ↔ (∏ P ∈ src, (X - C (x P))).coeff k ≠ 0 := by
  classical
  have hinj := hx.inj.mono (Finset.coe_subset.2 hsub)
  have hnodal : ∏ P ∈ src, (X - C (x P)) = nodal (src.image x) := by
    rw [nodal, Finset.prod_image hinj]
  rw [hnodal]
  refine determines_coeff_points_iff (by rw [Finset.card_image_of_injOn hinj, hsrc]) fun q => ?_
  constructor
  · intro h
    refine ⟨?_, fun y hy => ?_⟩
    · have := h node.guid ((mem_guids_srcs hp).2 (Or.inl ⟨node, List.mem_singleton_self _, rfl⟩))
      rwa [hd.coefficient k node hk] at this
    · obtain ⟨P, hP, rfl⟩ := Finset.mem_image.1 hy
      obtain ⟨e, he, rfl⟩ := exists_share hp hm hd hcard (hsub hP)
      have := h e.output.guid ((mem_guids_srcs hp).2 (Or.inr ⟨e, he, hP, rfl⟩))
      rwa [(hd.share e he).1] at this
  · rintro ⟨hqk, hqx⟩ i hi
    rcases (mem_guids_srcs hp).1 hi with ⟨n, hn, rfl⟩ | ⟨e, he, hes, rfl⟩
    · rw [List.mem_singleton.1 hn, hd.coefficient k node hk]
      exact hqk
    · rw [(hd.share e he).1]
      exact hqx _ (Finset.mem_image_of_mem x hes)

end Sharing

section Rules

variable {g : Graph} {src parties : Finset PartyDecl} {x : PartyDecl → F} {ns : List Node}
  {pos : ℕ → Position F} {team : ℕ} {order : ℕ → IterOrder} {results : ResultsType}
  {r : Node × Graph}

/-- **The sharing rule is an equivalence exactly when** the polynomial that
vanishes at the source points has the coefficient that plays the secret. -/
theorem equivalent_sharing_iff (hg : g.WellFormed) (hu : g.TransitUnary)
    (hcard : parties.card = g.partyCnt) (hT : g.T < g.partyCnt) (hx : Points parties x)
    (hsub : src ⊆ parties) (hsrc : src.card = g.T)
    (h : (Transformer.sharing src).apply team order g = some results) (hr : r ∈ results)
    (hd : OnePolynomial g r.1.guid parties x ns pos) {k : ℕ} (hk : ns[k]? = some r.1) :
    Equivalent (fitted g.T pos) g.toGraphBase r.2.toGraphBase ↔
      (∏ P ∈ src, (X - C (x P))).coeff k ≠ 0 := by
  obtain ⟨ps, hps, p, hpm, rfl⟩ := exists_of_mem_apply h hr
  have hshape := planShape_of_mem_plans hg hps hpm
  rw [Plan.equivalent_result_iff hg (hshape.valid hg) team]
  cases hshape with
  | @sharing _ order v node hv hm hp =>
      have hnode : p.node = node := hp.node_eq
      rw [hnode, hg.guid_eq hv] at hd
      rw [hnode] at hk
      rw [sharing_iff_determines hp hm hg hu hd hv (by simp) hcard hT hx]
      exact determines_shares_coeff_iff hp hm hd hcard hx hsub hsrc hk

/-- The random sharing rule is an equivalence. -/
theorem equivalent_randomSharing (hg : g.WellFormed) (hu : g.TransitUnary)
    (hcard : parties.card = g.partyCnt) (hT : g.T < g.partyCnt) (hx : Points parties x)
    (hsub : src ⊆ parties) (hsrc : src.card = g.T + 1)
    (h : (Transformer.randomSharing src).apply team order g = some results) (hr : r ∈ results)
    (hd : OnePolynomial g r.1.guid parties x ns pos) :
    Equivalent (fitted g.T pos) g.toGraphBase r.2.toGraphBase := by
  obtain ⟨ps, hps, p, hpm, rfl⟩ := exists_of_mem_apply h hr
  have hshape := planShape_of_mem_plans hg hps hpm
  refine (Plan.equivalent_result_iff hg (hshape.valid hg) team).2 ?_
  cases hshape with
  | @randomSharing _ order v node hrand hv hm hp =>
      have hnode : p.node = node := hp.node_eq
      rw [hnode, hg.guid_eq hv] at hd
      rw [sharing_iff_determines hp hm hg hu hd hv (by simp) hcard hT hx]
      exact determines_shares hp hm hd hcard hx hsub hsrc

/-- **The addition and the random sharing rule are equivalences.** -/
theorem equivalent_addition_randomSharing {A : Type*} [AddCommGroup A] (hg : g.WellFormed) :
    (∀ team order results, Transformer.addition.apply team order g = some results →
      ∀ r ∈ results, Equivalent (sums (A := A)) g.toGraphBase r.2.toGraphBase) ∧
    ∀ (src parties : Finset PartyDecl) (x : PartyDecl → F) (ns : List Node)
      (pos : ℕ → Position F) (team : ℕ) (order : ℕ → IterOrder) (results : ResultsType),
      g.TransitUnary → parties.card = g.partyCnt → g.T < g.partyCnt → Points parties x →
      src ⊆ parties → src.card = g.T + 1 →
      (Transformer.randomSharing src).apply team order g = some results →
      ∀ r ∈ results, OnePolynomial g r.1.guid parties x ns pos →
        Equivalent (fitted g.T pos) g.toGraphBase r.2.toGraphBase :=
  ⟨fun _ _ _ h _ hr => equivalent_addition hg h hr,
    fun _ _ _ _ _ _ _ _ hu hcard hT hx hsub hsrc h _ hr hd =>
      equivalent_randomSharing hg hu hcard hT hx hsub hsrc h hr hd⟩

end Rules

/-! ## A coefficient in the place of the secret

Party 0 shares a random secret `s` among three parties, with two coefficients.
The rule takes the first coefficient for the secret: its sources are that
coefficient and the shares of parties 0 and 1, whose points are opposite. -/

/-- The secret, the coefficients, the shares at the dealer, and the shares at
parties 1 and 2. -/
def dealtNodes : List Node :=
  [⟨0, "s", 0, .others⟩, ⟨1, "c1", 0, .others⟩, ⟨2, "c2", 0, .others⟩,
    ⟨3, "share_0", 0, .others⟩, ⟨4, "share_1", 0, .others⟩, ⟨5, "share_2", 0, .others⟩,
    ⟨6, "share_1", 1, .others⟩, ⟨7, "share_2", 2, .others⟩]

/-- The node at an index. -/
def dealtNode (i : ℕ) : Node := dealtNodes.getD i ⟨0, "s", 0, .others⟩

/-- Three evaluations and two transits. -/
def dealtEdges : List Operation :=
  [Operation.make 1 0 .eval (dealtNodes.take 3) (dealtNode 3),
    Operation.make 1 1 .eval (dealtNodes.take 3) (dealtNode 4),
    Operation.make 1 2 .transit [dealtNode 4] (dealtNode 6),
    Operation.make 1 3 .eval (dealtNodes.take 3) (dealtNode 5),
    Operation.make 1 4 .transit [dealtNode 5] (dealtNode 7)]

/-- The graph of the sharing, for `T = 2` and party 0 corrupted. -/
def dealing : Graph := ((GraphBase.bare dealtNodes).toGraph 3 2 {0}).addEdges dealtEdges

/-- The points `1`, `-1` and `2`. -/
def dealtPoint (p : PartyDecl) : ℚ := if p = 0 then 1 else if p = 1 then -1 else 2

/-- The coefficients, the shares at the dealer, and two of them where they end. -/
def dealtPosition (i : ℕ) : Position ℚ :=
  [.coeff 0, .coeff 1, .coeff 2, .point 1, .point (-1), .point 2, .point (-1), .point 2].getD i
    (.coeff i)

theorem wellFormed_dealing : dealing.WellFormed :=
  Graph.wellFormed_linked rfl (by decide) (by decide) (by decide)

theorem hasEdge_dealing {f : Operation} : dealing.HasEdge f ↔ f ∈ dealtEdges :=
  Graph.hasEdge_linked rfl (by decide) (by decide) (by decide)

theorem transitUnary_dealing : dealing.TransitUnary := by
  intro f hf
  have : ∀ e ∈ dealtEdges, e.type = .transit → e.inputs.length = 1 := by decide
  exact this f (hasEdge_dealing.1 hf)

theorem points_dealing : Points {0, 1, 2} dealtPoint where
  inj := by
    intro a ha b hb h
    simp only [Finset.coe_insert, Finset.coe_singleton, Set.mem_insert_iff,
      Set.mem_singleton_iff] at ha hb
    rcases ha with rfl | rfl | rfl <;> rcases hb with rfl | rfl | rfl <;>
      simp [dealtPoint] at h ⊢ <;> norm_num at h
  ne_zero := by
    intro p hp
    simp only [Finset.mem_insert, Finset.mem_singleton] at hp
    rcases hp with rfl | rfl | rfl <;> simp [dealtPoint]

/-- Every coefficient node feeds the three evaluations. -/
theorem onePolynomial_dealing {i : ℕ} (hi : i < 3) :
    OnePolynomial dealing i {0, 1, 2} dealtPoint (dealtNodes.take 3) dealtPosition := by
  have hout : dealing.outEdges i = dealtEdges.filter fun e => e.type = .eval := by
    rcases i with - | - | - | i
    · decide
    · decide
    · decide
    · omega
  refine ⟨?_, ?_, ?_, ?_⟩
  · rw [hout]
    decide
  · intro k n hk
    rcases k with - | - | - | k
    · cases hk
      rfl
    · cases hk
      rfl
    · cases hk
      rfl
    · exact absurd hk (by simp [dealtNodes])
  · rw [hout]
    decide
  · rw [hout]
    intro e he
    have hmem : e ∈ [dealtEdges[0], dealtEdges[1], dealtEdges[3]] := he
    simp only [List.mem_cons, List.not_mem_nil, or_false] at hmem
    rcases hmem with rfl | rfl | rfl
    · exact ⟨rfl, rfl⟩
    · exact ⟨rfl, rfl⟩
    · exact ⟨rfl, rfl⟩

/-- The match at the first coefficient. -/
def coefficientPlan : Plan :=
  ⟨dealtNode 1, dealtEdges.take 4, [⟨.transit, [dealtNode 6], dealtNode 4⟩], .eval,
    [dealtNode 1, dealtNode 3, dealtNode 4], [dealtNode 0, dealtNode 2, dealtNode 5]⟩

/-- Only the second coefficient is not zero. -/
def secondOnly (i : ℕ) : ℚ := if i = 2 then 1 else 0

theorem valid_coefficientPlan : coefficientPlan.Valid dealing := by
  obtain ⟨ps, hps, hp⟩ : ∃ ps, (Transformer.sharing {0, 1}).plans (fun _ => .insertion) dealing =
      some ps ∧ coefficientPlan ∈ ps := ⟨_, rfl, by decide +kernel⟩
  exact (planShape_of_mem_plans wellFormed_dealing hps hp).valid wellFormed_dealing

/-- The rewritten graph allows a second coefficient `1` beside shares `0`. -/
theorem satisfies_coefficientPlan : (coefficientPlan.result 1 dealing).Satisfies
    (fun e => e.Holds (fitted dealing.T dealtPosition)) secondOnly := by
  have hlast : ∀ e ∈ dealtEdges, e ∉ dealtEdges.take 4 →
      e = Operation.make 1 4 .transit [dealtNode 5] (dealtNode 7) := by decide
  have hadd : ∀ k ∈ coefficientPlan.edgesToAdd,
      fitted dealing.T dealtPosition k.type k.inputs k.output secondOnly := by
    intro k hk
    simp only [coefficientPlan, Plan.edgesToAdd, Plan.computed, List.map_cons, List.map_nil,
      List.cons_append, List.nil_append, List.mem_cons, List.not_mem_nil, or_false] at hk
    rcases hk with rfl | rfl | rfl | rfl
    · intro n hn
      rw [List.mem_singleton.1 hn]
      rfl
    · refine ⟨0, by simp, ?_⟩
      rintro i ⟨n, hn, rfl⟩
      have : ∀ n ∈ [dealtNode 0, dealtNode 1, dealtNode 3, dealtNode 4],
          secondOnly n.guid = 0 := by decide +kernel
      rw [Position.read_zero, this n hn]
    · -- the polynomial `X ^ 2 - 1` vanishes at the source points
      refine ⟨X ^ 2 - 1, ?_, ?_⟩
      · exact (natDegree_sub_le _ _).trans (by simp; decide)
      · rintro i ⟨n, hn, rfl⟩
        simp only [List.mem_cons, List.not_mem_nil, or_false] at hn
        rcases hn with rfl | rfl | rfl | rfl <;>
          simp [dealtNode, dealtNodes, dealtPosition, secondOnly, coeff_one, coeff_X_pow]
    · refine ⟨0, by simp, ?_⟩
      rintro i ⟨n, hn, rfl⟩
      have : ∀ n ∈ [dealtNode 5, dealtNode 1, dealtNode 3, dealtNode 4],
          secondOnly n.guid = 0 := by decide +kernel
      rw [Position.read_zero, this n hn]
  intro e he
  rcases (Plan.hasEdge_result wellFormed_dealing valid_coefficientPlan 1).1 he with ⟨he, hn⟩ | he
  · rw [hlast e (hasEdge_dealing.1 he) hn]
    intro n hn
    rw [List.mem_singleton.1 hn]
    rfl
  · exact (Plan.holds_added_iff 1 secondOnly).2 hadd e he

/-- With its first coefficient in the place of the secret, a valuation satisfies
the rewritten graph that does not satisfy the graph. -/
theorem coefficient_as_secret :
    Prover.srcParties [0, 1, 2] dealing = {0, 1} ∧
    ∃ results, (Transformer.sharing {0, 1}).apply 1 (fun _ => .insertion) dealing = some results ∧
    ∃ r ∈ results, OnePolynomial dealing r.1.guid {0, 1, 2} dealtPoint (dealtNodes.take 3)
        dealtPosition ∧
      ∃ val, r.2.Satisfies (fun e => e.Holds (fitted dealing.T dealtPosition)) val ∧
        ¬ dealing.Satisfies (fun e => e.Holds (fitted dealing.T dealtPosition)) val := by
  refine ⟨by decide +kernel, _, rfl, (dealtNode 1, coefficientPlan.result 1 dealing),
    by decide +kernel, onePolynomial_dealing (by decide), secondOnly, satisfies_coefficientPlan,
    fun h => ?_⟩
  -- the coefficients are those of `X ^ 2`, and the share of party 0 is `0`
  obtain ⟨q, hq, hv⟩ := h (Operation.make 1 0 .eval (dealtNodes.take 3) (dealtNode 3))
    (hasEdge_dealing.2 (List.mem_cons_self ..))
  have h0 : q.coeff 0 = 0 := hv 0 ⟨dealtNode 0, by decide, rfl⟩
  have h1 : q.coeff 1 = 0 := hv 1 ⟨dealtNode 1, by decide, rfl⟩
  have h2 : q.coeff 2 = 1 := hv 2 ⟨dealtNode 2, by decide, rfl⟩
  have hshare : q.eval 1 = 0 := hv 3 ⟨dealtNode 3, by decide, rfl⟩
  have hq2 : q.natDegree < 3 := Nat.lt_succ_of_le hq
  rw [eval_eq_sum_range' hq2, Finset.sum_range_succ, Finset.sum_range_succ,
    Finset.sum_range_one, h0, h1, h2] at hshare
  norm_num at hshare

/-- The equivalence there. -/
theorem equivalent_sharing_iff_dealing :
    Equivalent (fitted 2 dealtPosition) dealing.toGraphBase
      (coefficientPlan.result 1 dealing).toGraphBase ↔
    (∏ P ∈ ({0, 1} : Finset PartyDecl), (X - C (dealtPoint P))).coeff 1 ≠ 0 := by
  obtain ⟨results, hres, hr⟩ : ∃ results,
      (Transformer.sharing {0, 1}).apply 1 (fun _ => .insertion) dealing = some results ∧
        (dealtNode 1, coefficientPlan.result 1 dealing) ∈ results := ⟨_, rfl, by decide +kernel⟩
  exact equivalent_sharing_iff wellFormed_dealing transitUnary_dealing (by decide) (by decide)
    points_dealing (by decide) (by decide) hres hr (onePolynomial_dealing (by decide)) rfl

/-- The random sharing rule reverses the sharing at each of its three coefficients. -/
theorem equivalent_addition_randomSharing_dealing :
    ∃ results, (Transformer.randomSharing {0, 1, 2}).apply 1 (fun _ => .insertion) dealing =
        some results ∧ results.map (fun r => r.1.guid) = [0, 1, 2] ∧
      ∀ r ∈ results,
        Equivalent (fitted 2 dealtPosition) dealing.toGraphBase r.2.toGraphBase := by
  have hguids : ((Transformer.randomSharing {0, 1, 2}).apply 1 (fun _ => .insertion) dealing).map
      (fun results => results.map fun r => r.1.guid) = some [0, 1, 2] := by decide +kernel
  obtain ⟨results, hres, hmap⟩ := Option.map_eq_some_iff.1 hguids
  refine ⟨results, hres, hmap, fun r hr => ?_⟩
  have hlt : r.1.guid < 3 := by
    have hmem : r.1.guid ∈ [0, 1, 2] := hmap ▸ List.mem_map_of_mem hr
    simp only [List.mem_cons, List.not_mem_nil, or_false] at hmem
    omega
  exact (equivalent_addition_randomSharing (A := ℚ) wellFormed_dealing).2 {0, 1, 2} {0, 1, 2}
    dealtPoint _ dealtPosition 1 (fun _ => .insertion) results transitUnary_dealing (by decide)
    (by decide) points_dealing (by decide) (by decide) hres r hr (onePolynomial_dealing hlt)

end Gauv
