import Gauv.Bgwfrontend.Circuit
import Gauv.Bgwfrontend.Assign

/-!
# When the operators return

Sharing, `+`, `*` and `*` with a constant return when their operands begin with one
share for each party, and a product when, besides, the names of its Lagrange
constants are free.  What they return begins so too, with the type of the first
operand.  Only the constructors of constants and secrets take names.
-/

namespace Gauv

open FrontM

/-! ## Calls that take no name -/

/-- When the call returns, it has taken no name of a placeholder. -/
def FrontM.KeepsNames {α : Type} (m : FrontM α) : Prop :=
  ∀ (fe fe' : Frontend) (a : α), m fe = .ok (a, fe') →
    fe'.constants = fe.constants ∧ fe'.secrets = fe.secrets ∧ fe'.randomness = fe.randomness

namespace FrontM

variable {α β : Type}

theorem keepsNames_pure (a : α) : KeepsNames (pure a) := by
  intro fe fe' a' h
  cases pure_ok.1 h
  exact ⟨rfl, rfl, rfl⟩

theorem keepsNames_throw (x : Exn) : KeepsNames (throw x : FrontM α) := fun _ _ _ h =>
  absurd (throw_ok.1 h) id

theorem keepsNames_deref (a : ℕ) : KeepsNames (deref a) := by
  intro fe fe' e h
  obtain ⟨-, rfl⟩ := deref_ok.1 h
  exact ⟨rfl, rfl, rfl⟩

theorem keepsNames_derefShare (a : ℕ) : KeepsNames (derefShare a) := by
  intro fe fe' e h
  obtain ⟨-, -, rfl⟩ := derefShare_ok.1 h
  exact ⟨rfl, rfl, rfl⟩

theorem keepsNames_get : KeepsNames (get : FrontM Frontend) := by
  intro fe fe' a h
  cases get_ok.1 h
  exact ⟨rfl, rfl, rfl⟩

/-- Calls that take no name, one after the other. -/
theorem KeepsNames.bind {m : FrontM α} {f : α → FrontM β} (hm : KeepsNames m)
    (hf : ∀ a, KeepsNames (f a)) : KeepsNames (m >>= f) := by
  intro fe fe' b h
  obtain ⟨a, fe₁, h₁, h₂⟩ := bind_ok.1 h
  obtain ⟨hc, hs, hr⟩ := hm _ _ _ h₁
  obtain ⟨hc', hs', hr'⟩ := hf a _ _ _ h₂
  exact ⟨hc'.trans hc, hs'.trans hs, hr'.trans hr⟩

theorem KeepsNames.ite {c : Prop} [Decidable c] {m n : FrontM α} (hm : KeepsNames m)
    (hn : KeepsNames n) : KeepsNames (if c then m else n) := by
  split
  · exact hm
  · exact hn

/-- A call for each element of a list. -/
theorem KeepsNames.mapM {f : α → FrontM β} (hf : ∀ a, KeepsNames (f a)) (l : List α) :
    KeepsNames (l.mapM f) := by
  induction l with
  | nil =>
      rw [List.mapM_nil]
      exact keepsNames_pure _
  | cons a l ih =>
      rw [List.mapM_cons]
      exact (hf a).bind fun b => ih.bind fun bs => keepsNames_pure _

end FrontM

namespace Share

/-- A new share takes no name of a constant or secret. -/
theorem keepsNames_new (name : String) (type : Ty) (op : Operator) (oprands : List ℕ)
    (params : List PartyDecl) (party : PartyDecl) :
    KeepsNames (new name type op oprands params party) := by
  intro fe fe' r h
  simp only [new, bind_ok, modify_ok, alloc_ok] at h
  obtain ⟨_, _, hm, ha⟩ := h
  cases hm
  cases ha
  unfold Frontend.registerShare
  split <;> exact ⟨rfl, rfl, rfl⟩

theorem keepsNames_binaryOp (a b : ℕ) (op : Operator) : KeepsNames (binaryOp a b op) :=
  (keepsNames_derefShare a).bind fun _ => (keepsNames_derefShare b).bind fun _ =>
    .ite ((keepsNames_throw _).bind fun _ => keepsNames_get.bind fun _ =>
      keepsNames_new _ _ _ _ _ _) (keepsNames_get.bind fun _ => keepsNames_new _ _ _ _ _ _)

theorem keepsNames_scalarMul (s c : ℕ) : KeepsNames (scalarMul s c) :=
  (keepsNames_derefShare s).bind fun _ => (keepsNames_deref c).bind fun _ =>
    .ite ((keepsNames_throw _).bind fun _ => keepsNames_get.bind fun _ =>
      keepsNames_new _ _ _ _ _ _) (keepsNames_get.bind fun _ => keepsNames_new _ _ _ _ _ _)

theorem keepsNames_transfer (s : ℕ) (party : PartyDecl) : KeepsNames (transfer s party) :=
  (keepsNames_derefShare s).bind fun _ =>
    .ite (keepsNames_pure _) (keepsNames_get.bind fun _ => keepsNames_new _ _ _ _ _ _)

/-- A reconstruction takes none. -/
theorem keepsNames_reconstruct (shares : List ℕ) (party : PartyDecl) (name : String) :
    KeepsNames (reconstruct shares party name) := by
  intro fe fe' r h
  simp only [reconstruct, bind_ok] at h
  obtain ⟨es, _, hes, h⟩ := h
  obtain ⟨rfl, -⟩ := mapM_deref_ok hes
  cases es with
  | nil => exact absurd (throw_ok.1 h) id
  | cons e₀ rest =>
      simp only [bind_ok, get_ok] at h
      obtain ⟨_, _, htypes, _, _, hparties, _, _, hg, h⟩ := h
      obtain ⟨rfl, -⟩ := checkTypes_ok htypes
      obtain ⟨rfl, -⟩ := checkParties_ok hparties
      cases hg
      exact keepsNames_new _ _ _ _ _ _ _ _ _ h

end Share

namespace Poly

/-- A polynomial takes none. -/
theorem keepsNames_genPoly (party : PartyDecl) (c degree : ℕ) :
    KeepsNames (genPoly party c degree) := by
  intro fe fe' r h
  simp only [genPoly, bind_ok, deref_ok] at h
  obtain ⟨ec, fe₁, ⟨-, rfl⟩, h⟩ := h
  simp only [guard_ok, bind_ok, get_ok, set_ok, alloc_ok] at h
  obtain ⟨-, _, _, hg, _, _, hs, ha⟩ := h
  cases hg
  cases hs
  cases ha
  unfold Frontend.registerPoly
  split <;> exact ⟨rfl, rfl, rfl⟩

theorem keepsNames_eval (p : ℕ) (party : PartyDecl) : KeepsNames (eval p party) := by
  refine (keepsNames_deref p).bind fun ep => ?_
  split
  · exact keepsNames_get.bind fun _ => Share.keepsNames_new _ _ _ _ _ _
  · exact keepsNames_throw _

end Poly

namespace Bgw

namespace Variable

variable {ctx : Context}

theorem keepsNames_shareAt (v : Variable) (i : ℕ) : KeepsNames (shareAt v i) := by
  unfold shareAt
  split
  · exact keepsNames_pure _
  · exact keepsNames_throw _

/-- Dealing a secret takes none. -/
theorem keepsNames_share (s : ℕ) : KeepsNames (share ctx s) :=
  (keepsNames_deref s).bind fun _ => (Poly.keepsNames_genPoly _ _ _).bind fun poly =>
    .mapM (fun p => (Poly.keepsNames_eval poly p).bind fun a => Share.keepsNames_transfer a p) _

theorem keepsNames_add (v w : Variable) : KeepsNames (add ctx v w) :=
  .mapM (fun i => (keepsNames_shareAt v i).bind fun a => (keepsNames_shareAt w i).bind fun b =>
    Share.keepsNames_binaryOp a b .add) _

theorem keepsNames_mulConst (v : Variable) (c : ℕ) : KeepsNames (mulConst ctx v c) :=
  (KeepsNames.mapM (fun i => (keepsNames_shareAt v i).bind fun a =>
    Share.keepsNames_scalarMul a c) _).bind fun _ => keepsNames_pure _

theorem keepsNames_yield (v : Variable) (party : PartyDecl) (name : String) :
    KeepsNames (yield v party name) :=
  (KeepsNames.mapM (fun s => Share.keepsNames_transfer s party) _).bind fun xs =>
    Share.keepsNames_reconstruct xs party name

end Variable

/-! ## The operators return -/

variable {fe fe' : Frontend} {heap heap' : Heap} {ctx : Context} {v w r : Variable}
  {type type' : Ty} {p : PartyDecl} {a b q : ℕ}

/-- The first shares of the variable are at the parties, in order, with one type. -/
def Starts (ctx : Context) (heap : Heap) (type : Ty) (v : Variable) : Prop :=
  ∀ (i : ℕ) (p : PartyDecl), ctx.parties[i]? = some p →
    ∃ a, v[i]? = some a ∧ HeldShare heap type a p

/-- What a variable begins with stays. -/
theorem Starts.mono (h : Starts ctx heap type v) (hpre : heap <+: heap') :
    Starts ctx heap' type v := by
  intro i p hp
  obtain ⟨a, ha, hheld⟩ := h i p hp
  exact ⟨a, ha, hheld.mono hpre⟩

/-- A call on a share leaves its result at the party, with the type of the share. -/
theorem heldShare_of_allocs {name : String} {op : Operator} {xs : List ℕ}
    {params : List PartyDecl} {e : Expression} (hal : fe.Allocs fe' q
      ⟨.share, name, e.type, op, xs, params, e.party⟩) (he : fe.heap[a]? = some e)
    (h : HeldShare fe.heap type a p) : HeldShare fe'.heap type q p := by
  obtain ⟨hp, ht⟩ := h.of_isPrefix (List.prefix_refl _) he
  exact ⟨_, hal.getElem? (List.prefix_refl _), rfl, hp, ht⟩

/-- An operator returns for two shares at one party. -/
theorem binaryOp_returns (op : Operator) (ha : HeldShare fe.heap type a p)
    (hb : HeldShare fe.heap type' b p) :
    ∃ q fe', Share.binaryOp a b op fe = .ok (q, fe') ∧ HeldShare fe'.heap type q p := by
  obtain ⟨ea, hea, hsa, hpa, -⟩ := id ha
  obtain ⟨eb, heb, hsb, hpb, -⟩ := hb
  obtain ⟨q, fe', hnew⟩ :=
    Share.new_returns fe.shareName ea.type op [a, b] [] ea.party fe
  refine ⟨q, fe', bind_ok.2 ⟨ea, fe, derefShare_ok.2 ⟨hea, hsa, rfl⟩, bind_ok.2 ⟨eb, fe,
    derefShare_ok.2 ⟨heb, hsb, rfl⟩, guard_ok.2 ⟨?_, bind_ok.2 ⟨fe, fe, get_ok.2 rfl, hnew⟩⟩⟩⟩,
    heldShare_of_allocs (Share.new_ok hnew) hea ha⟩
  exact not_not.2 (hpa.trans hpb.symm)

/-- A scaling returns for a share and a constant. -/
theorem scalarMul_returns {ec : Expression} (ha : HeldShare fe.heap type a p)
    (hb : fe.heap[b]? = some ec) (hc : ec.isConstant = true) :
    ∃ q fe', Share.scalarMul a b fe = .ok (q, fe') ∧ HeldShare fe'.heap type q p := by
  obtain ⟨ea, hea, hsa, -⟩ := id ha
  obtain ⟨q, fe', hnew⟩ :=
    Share.new_returns fe.shareName ea.type .scalarMul [a, b] [] ea.party fe
  refine ⟨q, fe', bind_ok.2 ⟨ea, fe, derefShare_ok.2 ⟨hea, hsa, rfl⟩, bind_ok.2 ⟨ec, fe,
    deref_ok.2 ⟨hb, rfl⟩, guard_ok.2 ⟨?_, bind_ok.2 ⟨fe, fe, get_ok.2 rfl, hnew⟩⟩⟩⟩,
    heldShare_of_allocs (Share.new_ok hnew) hea ha⟩
  simp [hc]

/-- A loop whose steps return does. -/
theorem mapM_returns {α : Type} {f : α → FrontM ℕ} (hf : ∀ x, KeepsSound (f x)) {l : List α}
    (hs : fe.heap.Sound)
    (h : ∀ x ∈ l, ∀ fe₁ : Frontend, fe₁.heap.Sound → fe.heap <+: fe₁.heap →
      ∃ q fe₂, f x fe₁ = .ok (q, fe₂)) : ∃ r fe', l.mapM f fe = .ok (r, fe') := by
  induction l generalizing fe with
  | nil => exact ⟨[], fe, rfl⟩
  | cons x l ih =>
      obtain ⟨hx, hl⟩ := List.forall_mem_cons.1 h
      obtain ⟨q, fe₁, hq⟩ := hx fe hs (List.prefix_refl _)
      obtain ⟨hs₁, hpre⟩ := hf x _ _ _ hq hs
      obtain ⟨r, fe', hr⟩ := ih hs₁ fun y hy fe₂ hs₂ hpre₂ => hl y hy fe₂ hs₂ (hpre.trans hpre₂)
      refine ⟨q :: r, fe', ?_⟩
      rw [List.mapM_cons]
      exact bind_ok.2 ⟨q, fe₁, hq, bind_ok.2 ⟨r, fe', hr, pure_ok.2 rfl⟩⟩

/-- A loop over the parties that makes a share for each. -/
theorem mapM_starts {f : ℕ → FrontM ℕ} (hf : ∀ i, KeepsSound (f i)) (hs : fe.heap.Sound)
    (h : ∀ (i : ℕ) (p : PartyDecl), ctx.parties[i]? = some p → ∀ fe₁ : Frontend,
      fe.heap <+: fe₁.heap → ∃ q fe₂, f i fe₁ = .ok (q, fe₂) ∧ HeldShare fe₂.heap type q p) :
    ∃ r fe', (List.range ctx.N).mapM f fe = .ok (r, fe') ∧ r.length = ctx.N ∧
      Starts ctx fe'.heap type r := by
  have hparty : ∀ i < ctx.N, ∃ p, ctx.parties[i]? = some p := fun i hi =>
    ⟨_, List.getElem?_eq_getElem hi⟩
  obtain ⟨r, fe', hr⟩ := mapM_returns hf hs fun i hi fe₁ _ hpre => by
    obtain ⟨p, hp⟩ := hparty i (List.mem_range.1 hi)
    obtain ⟨q, fe₂, hq, -⟩ := h i p hp fe₁ hpre
    exact ⟨q, fe₂, hq⟩
  obtain ⟨hlen, hall⟩ := mapM_ok hf hs hr
  rw [List.length_range] at hlen
  refine ⟨r, fe', hr, hlen, fun i p hp => ?_⟩
  have hi : i < r.length := by
    rw [hlen]
    exact lt_of_getElem?_some hp
  have hget := List.getElem?_eq_getElem hi
  obtain ⟨j, hj, fe₁, fe₂, -, hpre₁, hstep, hpre₂⟩ := hall i _ hget
  obtain ⟨rfl, -⟩ := of_getElem?_range hj
  obtain ⟨q, fe₃, hq, hheld⟩ := h j p hp fe₁ hpre₁
  rw [hstep, Except.ok.injEq, Prod.mk.injEq] at hq
  obtain ⟨rfl, rfl⟩ := hq
  exact ⟨_, hget, hheld.mono hpre₂⟩

/-- An addition returns for variables that begin with enough shares. -/
theorem add_returns (hs : fe.heap.Sound) (hv : Starts ctx fe.heap type v)
    (hw : Starts ctx fe.heap type' w) : ∃ r fe', Variable.add ctx v w fe = .ok (r, fe') ∧
      r.length = ctx.N ∧ Starts ctx fe'.heap type r := by
  refine mapM_starts (Variable.keepsSound_addAt v w) hs fun i p hp fe₁ hpre => ?_
  obtain ⟨a, ha, hheld⟩ := hv i p hp
  obtain ⟨b, hb, hheld'⟩ := hw i p hp
  obtain ⟨q, fe₂, hq, hh⟩ := binaryOp_returns .add (hheld.mono hpre) (hheld'.mono hpre)
  exact ⟨q, fe₂, bind_ok.2 ⟨a, fe₁, shareAt_ok.2 ⟨ha, rfl⟩,
    bind_ok.2 ⟨b, fe₁, shareAt_ok.2 ⟨hb, rfl⟩, hq⟩⟩, hh⟩

/-- Only the first shares are scaled. -/
theorem mulConst_returns {c : ℕ} {ec : Expression} (hs : fe.heap.Sound)
    (hv : Starts ctx fe.heap type v) (hc : fe.heap[c]? = some ec) (hec : ec.isConstant = true) :
    ∃ r fe', Variable.mulConst ctx v c fe = .ok (r ++ v.drop ctx.N, fe') ∧ r.length = ctx.N ∧
      Starts ctx fe'.heap type r := by
  obtain ⟨r, fe', hr, hlen, hstarts⟩ :=
    mapM_starts (Variable.keepsSound_mulConstAt v c) hs fun i p hp fe₁ hpre => by
      obtain ⟨a, ha, hheld⟩ := hv i p hp
      obtain ⟨q, fe₂, hq, hh⟩ :=
        scalarMul_returns (hheld.mono hpre) (Heap.getElem?_of_isPrefix hpre hc) hec
      exact ⟨q, fe₂, bind_ok.2 ⟨a, fe₁, shareAt_ok.2 ⟨ha, rfl⟩, hq⟩, hh⟩
  exact ⟨r, fe', bind_ok.2 ⟨r, fe', hr, pure_ok.2 rfl⟩, hlen, hstarts⟩

/-- Where shares are and which type they have is the same in every reading. -/
def noValues : Reading ℚ := ⟨[], fun _ => 0, fun _ => 0, fun _ => 0, fun _ _ => 0⟩

/-- Sharing an expression deals shares of its type. -/
theorem share_starts {s : ℕ} {es : Expression} (hs : fe.heap.Sound)
    (hes : fe.heap[s]? = some es) : ∃ r fe', Variable.share ctx s fe = .ok (r, fe') ∧
      r.length = ctx.N ∧ Starts ctx fe'.heap es.type r := by
  obtain ⟨r, fe', hr⟩ : ∃ r fe', Variable.share ctx s fe = .ok (r, fe') := share_returns hs hes
  obtain ⟨hs', -⟩ := Variable.keepsSound_share ctx s _ _ _ hr hs
  obtain ⟨es', _, hderef, poly, fe₁, hpoly, hloop⟩ : ∃ es' fe₂, deref s fe = .ok (es', fe₂) ∧
      ∃ poly fe₁, Poly.genPoly es'.party s ctx.T fe₂ = .ok (poly, fe₁) ∧
        ctx.parties.mapM (Variable.deal poly) fe₁ = .ok (r, fe') := by
    obtain ⟨es', fe₂, hd, h⟩ := bind_ok.1 hr
    exact ⟨es', fe₂, hd, bind_ok.1 h⟩
  obtain ⟨hes', rfl⟩ := deref_ok.1 hderef
  obtain ⟨hs₁, -⟩ := Poly.keepsSound_genPoly _ _ _ _ _ _ hpoly hs
  obtain ⟨ec, name, hec, -, hal⟩ := Poly.genPoly_ok hpoly
  obtain rfl := Option.some.inj (hec.symm.trans hes)
  obtain ⟨hlen, hall⟩ := mapM_ok (Variable.keepsSound_deal poly) hs₁ hloop
  have hpre := (KeepsSound.mapM (Variable.keepsSound_deal poly) _ _ _ _ hloop hs₁).2
  refine ⟨r, fe', hr, hlen, fun i p hp => ?_⟩
  have hi : i < r.length := by
    rw [hlen]
    exact lt_of_getElem?_some hp
  have hget := List.getElem?_eq_getElem hi
  obtain ⟨p', hp', fe₂, fe₃, hs₂, -, hdeal, hpre₃⟩ := hall i _ hget
  obtain rfl := Option.some.inj (hp.symm.trans hp')
  have hheld := (deal_held (ρ := noValues) hdeal hs₂ hpre₃ hs' (hal.getElem? hpre) rfl rfl).1
  exact ⟨_, hget, hheld⟩

/-- A constant is made exactly when its name is free. -/
theorem newConstant_iff {name : String} : newConstant name fe = .ok (q, fe') ↔
    name ∉ fe.constants ∧ q = fe.heap.length ∧ fe' = { fe with
      constants := name :: fe.constants
      heap := fe.heap ++ [⟨.constant, name, .arithField, .input, [], [], nullParty⟩] } := by
  unfold newConstant
  simp only [bind_ok, get_ok]
  constructor
  · rintro ⟨_, _, hg, h⟩
    cases hg
    simp only [guard_ok, bind_ok, set_ok, alloc_ok] at h
    obtain ⟨hname, _, _, hs, ha⟩ := h
    cases hs
    cases ha
    exact ⟨hname, rfl, rfl⟩
  · rintro ⟨hname, rfl, rfl⟩
    refine ⟨fe, fe, rfl, guard_ok.2 ⟨hname, ?_⟩⟩
    exact bind_ok.2 ⟨⟨⟩, _, set_ok.2 rfl, alloc_ok.2 rfl⟩

/-- So is a secret. -/
theorem newSecret_iff {name : String} : newSecret name type p fe = .ok (q, fe') ↔
    name ∉ fe.secrets ∧ q = fe.heap.length ∧ fe' = { fe with
      secrets := name :: fe.secrets
      heap := fe.heap ++ [⟨.secret, name, type, .input, [], [], p⟩] } := by
  unfold newSecret
  simp only [bind_ok, get_ok]
  constructor
  · rintro ⟨_, _, hg, h⟩
    cases hg
    simp only [guard_ok, bind_ok, set_ok, alloc_ok] at h
    obtain ⟨hname, _, _, hs, ha⟩ := h
    cases hs
    cases ha
    exact ⟨hname, rfl, rfl⟩
  · rintro ⟨hname, rfl, rfl⟩
    refine ⟨fe, fe, rfl, guard_ok.2 ⟨hname, ?_⟩⟩
    exact bind_ok.2 ⟨⟨⟩, _, set_ok.2 rfl, alloc_ok.2 rfl⟩

/-! ### The loop of `operator*` -/

/-- A round of the multiplication returns while its constant's name is free. -/
theorem mulRound_returns {sum : Variable} {i : ℕ} (hs : fe.heap.Sound)
    (hv : Starts ctx fe.heap type v) (hw : Starts ctx fe.heap type' w)
    (hi : ctx.parties[i]? = some p) (hfree : Variable.lambdaName ctx i ∉ fe.constants)
    (hsum : 0 < i → Starts ctx fe.heap type sum) :
    ∃ r fe', Variable.mulRound ctx v w sum i fe = .ok (r, fe') ∧ r.length = ctx.N ∧
      Starts ctx fe'.heap type r ∧ fe'.constants = Variable.lambdaName ctx i :: fe.constants ∧
      fe'.secrets = fe.secrets := by
  obtain ⟨a, ha, hheld⟩ := hv i p hi
  obtain ⟨b, hb, hheld'⟩ := hw i p hi
  -- the product at the party, and its sharing
  obtain ⟨product, fe₁, hproduct, e, he, -, -, rfl⟩ := binaryOp_returns .mul hheld hheld'
  obtain ⟨hs₁, hpre₁⟩ :=
    Share.keepsSound_binaryOp a b (.inr (.inr (.inl rfl))) _ _ _ hproduct hs
  obtain ⟨hc₁, hn₁, -⟩ := Share.keepsNames_binaryOp a b .mul _ _ _ hproduct
  obtain ⟨inter, fe₂, hinter, hlen₂, hstarts₂⟩ :
      ∃ inter fe₂, Variable.share ctx product fe₁ = .ok (inter, fe₂) ∧ inter.length = ctx.N ∧
        Starts ctx fe₂.heap e.type inter := share_starts hs₁ he
  obtain ⟨hs₂, hpre₂⟩ := Variable.keepsSound_share ctx product _ _ _ hinter hs₁
  obtain ⟨hc₂, hn₂, -⟩ := Variable.keepsNames_share product _ _ _ hinter
  -- the weighted sharing
  obtain ⟨lambda, fe₃, hlambda⟩ :
      ∃ lambda fe₃, newConstant (Variable.lambdaName ctx i) fe₂ = .ok (lambda, fe₃) :=
    ⟨_, _, newConstant_iff.2 ⟨by rwa [hc₂, hc₁], rfl, rfl⟩⟩
  obtain ⟨hs₃, hpre₃⟩ := keepsSound_newConstant _ _ _ _ hlambda hs₂
  have hal := newConstant_ok hlambda
  obtain ⟨-, -, hfe₃⟩ := newConstant_iff.1 hlambda
  obtain ⟨term, fe₄, hterm, hlen₄, hstarts₄⟩ := mulConst_returns hs₃ (hstarts₂.mono hpre₃)
    (hal.getElem? (List.prefix_refl _)) rfl
  rw [List.drop_of_length_le hlen₂.le, List.append_nil] at hterm
  obtain ⟨hs₄, hpre₄⟩ := Variable.keepsSound_mulConst ctx inter lambda _ _ _ hterm hs₃
  obtain ⟨hc₄, hn₄, -⟩ := Variable.keepsNames_mulConst inter lambda _ _ _ hterm
  have hconstants : fe₄.constants = Variable.lambdaName ctx i :: fe.constants := by
    rw [hc₄, hfe₃, hc₂, hc₁]
  have hsecrets : fe₄.secrets = fe.secrets := by
    rw [hn₄, hfe₃, hn₂, hn₁]
  have hround : ∀ x, (if i = 0 then pure term else Variable.add ctx sum term) fe₄ = .ok x →
      Variable.mulRound ctx v w sum i fe = .ok x := fun x hx =>
    bind_ok.2 ⟨a, fe, shareAt_ok.2 ⟨ha, rfl⟩, bind_ok.2 ⟨b, fe, shareAt_ok.2 ⟨hb, rfl⟩,
      bind_ok.2 ⟨product, fe₁, hproduct, bind_ok.2 ⟨inter, fe₂, hinter,
        bind_ok.2 ⟨lambda, fe₃, hlambda, bind_ok.2 ⟨term, fe₄, hterm, hx⟩⟩⟩⟩⟩⟩
  rcases Nat.eq_zero_or_pos i with hzero | hpos
  · refine ⟨term, fe₄, hround _ ?_, hlen₄, hstarts₄, hconstants, hsecrets⟩
    rw [if_pos hzero]
    exact pure_ok.2 rfl
  · have hpre := hpre₁.trans (hpre₂.trans (hpre₃.trans hpre₄))
    obtain ⟨r, fe', hr, hlen, hstarts⟩ := add_returns hs₄ ((hsum hpos).mono hpre) hstarts₄
    obtain ⟨hc₅, hn₅, -⟩ := Variable.keepsNames_add sum term _ _ _ hr
    refine ⟨r, fe', hround _ ?_, hlen, hstarts, hc₅.trans hconstants, hn₅.trans hsecrets⟩
    rw [if_neg (by omega)]
    exact hr

/-- Different weights get different names. -/
theorem lambdaName_injective (ctx : Context) : Function.Injective (Variable.lambdaName ctx) :=
  fun _ _ h => Nat.repr_inj.1 ((String.append_right_inj _).1 h)

/-! ### The names of the Lagrange constants -/

/-- A number is read up to the first character that is not a digit. -/
theorem takeWhile_toString (n : ℕ) {c : Char} (hc : c.isDigit = false) (l : List Char) :
    ((toString n).toList ++ c :: l).takeWhile Char.isDigit = (toString n).toList := by
  rw [List.takeWhile_append_of_pos, List.takeWhile_cons_of_neg (by simp [hc]), List.append_nil]
  intro d hd
  rw [Nat.toString_eq_repr, Nat.toList_repr] at hd
  exact Nat.isDigit_of_mem_toDigits (by decide) (by decide) hd

/-- The number at the front of a text. -/
theorem toString_append_inj {m n : ℕ} {c d : Char} (hc : c.isDigit = false)
    (hd : d.isDigit = false) {l l' : List Char}
    (h : (toString m).toList ++ c :: l = (toString n).toList ++ d :: l') :
    m = n ∧ c :: l = d :: l' := by
  have hdigits := congrArg (List.takeWhile Char.isDigit) h
  rw [takeWhile_toString m hc, takeWhile_toString n hd] at hdigits
  have hnumber : toString m = toString n := String.toList_inj.1 hdigits
  refine ⟨Nat.repr_inj.1 hnumber, ?_⟩
  rw [hdigits] at h
  exact List.append_cancel_left h

/-- Two multiplications never name a Lagrange constant alike. -/
theorem mulCounter_eq_of_lambdaName {c c' : Context} {i i' : ℕ}
    (h : Variable.lambdaName c i = Variable.lambdaName c' i') : c.mulCounter = c'.mulCounter := by
  have hname : ∀ (c : Context) (i : ℕ), (Variable.lambdaName c i).toList = "mul_".toList ++
      ((toString c.mulCounter).toList ++ '_' :: ("lambda_" ++ toString i).toList) := by
    intro c i
    simp [Variable.lambdaName, String.toList_append]
  have hlist := congrArg String.toList h
  rw [hname, hname] at hlist
  exact (toString_append_inj (by decide) (by decide) (List.append_cancel_left hlist)).1

/-- A name with another first letter is no name of a weight. -/
theorem lambdaName_ne {c : Context} {i : ℕ} {name : String} (h : name.toList.head? ≠ some 'm') :
    Variable.lambdaName c i ≠ name := by
  rintro rfl
  exact h (by simp [Variable.lambdaName, String.toList_append])

/-! ### The whole loop -/

/-- The names of the Lagrange constants of the next multiplication. -/
def lambdaNames (ctx : Context) (n : ℕ) : List String :=
  (List.range n).map (Variable.lambdaName ctx)

theorem lambdaNames_succ (ctx : Context) (n : ℕ) :
    lambdaNames ctx (n + 1) = lambdaNames ctx n ++ [Variable.lambdaName ctx n] := by
  unfold lambdaNames
  rw [List.range_succ, List.map_append, List.map_singleton]

/-- The names of the weights so far. -/
theorem mem_lambdaNames {n : ℕ} {name : String} :
    name ∈ lambdaNames ctx n ↔ ∃ i < n, Variable.lambdaName ctx i = name := by
  simp [lambdaNames]

/-- The loop returns when the names of its Lagrange constants are free. -/
theorem mulLoop_returns {n : ℕ} (hs : fe.heap.Sound) (hv : Starts ctx fe.heap type v)
    (hw : Starts ctx fe.heap type' w) (hn : n ≤ ctx.N)
    (hfree : ∀ name ∈ lambdaNames ctx n, name ∉ fe.constants) :
    ∃ sum fe', (List.range n).foldlM (Variable.mulRound ctx v w) [] fe = .ok (sum, fe') ∧
      (0 < n → sum.length = ctx.N ∧ Starts ctx fe'.heap type sum) ∧
      fe'.constants = (lambdaNames ctx n).reverse ++ fe.constants ∧ fe'.secrets = fe.secrets := by
  induction n with
  | zero => exact ⟨[], fe, rfl, fun h => absurd h (by omega), rfl, rfl⟩
  | succ n ih =>
      rw [lambdaNames_succ] at hfree ⊢
      obtain ⟨sum, fe₁, hsum, hstarts, hc₁, hn₁⟩ :=
        ih (by omega) fun name hname => hfree name (List.mem_append_left _ hname)
      obtain ⟨hs₁, hpre₁⟩ :=
        KeepsSound.foldlM (Variable.keepsSound_mulRound ctx v w) [] _ _ _ _ hsum hs
      have hnext : Variable.lambdaName ctx n ∉ fe₁.constants := by
        rw [hc₁, List.mem_append, List.mem_reverse, not_or]
        refine ⟨fun h => ?_, hfree _ (by simp)⟩
        obtain ⟨i, hi, heq⟩ := mem_lambdaNames.1 h
        have := lambdaName_injective ctx heq
        omega
      have hp : ctx.parties[n]? = some ctx.parties[n] := List.getElem?_eq_getElem hn
      obtain ⟨r, fe', hr, hlen, hstarts', hc', hn'⟩ := mulRound_returns hs₁ (hv.mono hpre₁)
        (hw.mono hpre₁) hp hnext fun hpos => (hstarts hpos).2
      refine ⟨r, fe', ?_, fun _ => ⟨hlen, hstarts'⟩, ?_, hn'.trans hn₁⟩
      · rw [List.range_succ, List.foldlM_append]
        exact bind_ok.2 ⟨sum, fe₁, hsum, bind_ok.2 ⟨r, fe', hr, rfl⟩⟩
      · rw [hc', hc₁, List.reverse_append]
        rfl

/-- **A multiplication returns** while the names of its weights are free. -/
theorem mul_returns (hs : fe.heap.Sound) (hv : Starts ctx fe.heap type v)
    (hw : Starts ctx fe.heap type' w) (hN : 0 < ctx.N)
    (hfree : ∀ name ∈ lambdaNames ctx ctx.N, name ∉ fe.constants) :
    ∃ r fe', Variable.mul ctx v w fe =
        .ok ((r, { ctx with mulCounter := ctx.mulCounter + 1 }), fe') ∧
      r.length = ctx.N ∧ Starts ctx fe'.heap type r ∧
      fe'.constants = (lambdaNames ctx ctx.N).reverse ++ fe.constants ∧
      fe'.secrets = fe.secrets := by
  obtain ⟨r, fe', hr, hstarts, hc, hn⟩ := mulLoop_returns hs hv hw le_rfl hfree
  exact ⟨r, fe', bind_ok.2 ⟨r, fe', hr, pure_ok.2 rfl⟩, (hstarts hN).1, (hstarts hN).2, hc, hn⟩

/-- A multiplication that returns found the names of its Lagrange constants free. -/
theorem free_of_mulLoop {n : ℕ} {sum : Variable}
    (h : (List.range n).foldlM (Variable.mulRound ctx v w) [] fe = .ok (sum, fe')) :
    (∀ name ∈ lambdaNames ctx n, name ∉ fe.constants) ∧
      fe'.constants = (lambdaNames ctx n).reverse ++ fe.constants := by
  induction n generalizing sum fe' with
  | zero =>
      cases pure_ok.1 h
      exact ⟨by simp [lambdaNames], rfl⟩
  | succ n ih =>
      rw [List.range_succ, List.foldlM_append] at h
      obtain ⟨sum₁, fe₁, h₁, h₂⟩ := bind_ok.1 h
      rw [List.foldlM_cons] at h₂
      obtain ⟨sum₂, fe₂, hround, hp⟩ := bind_ok.1 h₂
      cases pure_ok.1 hp
      obtain ⟨hfree, hc₁⟩ := ih h₁
      simp only [Variable.mulRound, bind_ok, shareAt_ok] at hround
      obtain ⟨a, _, ⟨-, rfl⟩, b, _, ⟨-, rfl⟩, product, fe₂, hproduct, inter, fe₃, hinter,
        lambda, fe₄, hlambda, term, fe₅, hterm, hlast⟩ := hround
      have hc₂ := (Share.keepsNames_binaryOp a b .mul _ _ _ hproduct).1
      have hc₃ := (Variable.keepsNames_share product _ _ _ hinter).1
      obtain ⟨hname, -, hfe₄⟩ := newConstant_iff.1 hlambda
      have hc₅ := (Variable.keepsNames_mulConst inter lambda _ _ _ hterm).1
      have hc : fe'.constants = fe₅.constants := by
        split at hlast
        · cases pure_ok.1 hlast
          rfl
        · exact (Variable.keepsNames_add sum₁ term _ _ _ hlast).1
      rw [hc₃, hc₂, hc₁, List.mem_append, not_or] at hname
      rw [lambdaNames_succ]
      refine ⟨fun name hmem => ?_, ?_⟩
      · rcases List.mem_append.1 hmem with hmem | hmem
        · exact hfree name hmem
        · rw [List.mem_singleton.1 hmem]
          exact hname.2
      · rw [hc, hc₅, hfe₄, List.reverse_append, hc₃, hc₂, hc₁]
        rfl

end Bgw

end Gauv
