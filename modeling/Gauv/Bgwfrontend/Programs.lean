import Gauv.Bgwfrontend.Circuit
import Gauv.Backend.Overall
import Gauv.Backend.Soundness

/-!
# Protocols written with variables

A protocol makes secrets and constants, shares the secrets, computes with
variables, and yields some of them to the parties, as the examples do.  Whatever
it computes, its expressions keep to the parties, its polynomials stand only
where they are evaluated, its reconstructions open sharings of degree at most
`T`, and its outputs are a function of its secrets.  So an overall yes of the
prover means that the protocol hides everything else from every `T` parties.
-/

namespace Gauv

open FrontM

/-! ## Heaps of such protocols -/

/-- The expression keeps to the parties, refers to polynomials only to evaluate
them, and is a reconstruction only if `R` says so. -/
structure Expression.Tidy (ps : List PartyDecl) (R : Expression → Prop) (heap : Heap)
    (e : Expression) : Prop where
  polies : e.op ≠ .eval → ∀ x ∈ e.refs, ∀ ex, heap[x]? = some ex → ex.isPoly = false
  party : e.HasNode → e.party ∈ ps
  dealer : ∀ degree q c, e.cls = .poly degree q c → q ∈ ps
  reconstructs : e.op = .reconstruct → R e

/-- Every expression is tidy, and was made from those before it. -/
structure Heap.Tidy (ps : List PartyDecl) (R : Expression → Prop) (heap : Heap) : Prop where
  sound : heap.Sound
  tidy : ∀ (a : ℕ) (e : Expression), heap[a]? = some e → e.Tidy ps R heap

section Tidy

variable {ps : List PartyDecl} {R : Expression → Prop} {heap heap' : Heap} {e : Expression}
  {fe fe' : Frontend} {r : ℕ}

theorem Expression.Tidy.mono (h : e.Tidy ps R heap) (hx : ∀ x ∈ e.refs, ∃ ex, heap[x]? = some ex)
    (hpre : heap <+: heap') : e.Tidy ps R heap' := by
  refine ⟨fun hop x hxm ex hex => ?_, h.party, h.dealer, h.reconstructs⟩
  obtain ⟨ex', hex'⟩ := hx x hxm
  obtain rfl : ex = ex' := Option.some.inj (hex.symm.trans (Heap.getElem?_of_isPrefix hpre hex'))
  exact h.polies hop x hxm ex hex'

/-- A tidy expression may be added. -/
theorem Heap.Tidy.concat (h : heap.Tidy ps R) (hm : e.Made heap) (he : e.Tidy ps R heap) :
    Heap.Tidy ps R (heap ++ [e]) := by
  refine ⟨Heap.sound_append h.sound hm, fun a e' he' => ?_⟩
  rcases Nat.lt_or_ge a heap.length with hlt | hge
  · rw [List.getElem?_append_left hlt] at he'
    refine (h.tidy a e' he').mono (fun x hx => ?_) (List.prefix_append _ _)
    obtain ⟨ex, hex⟩ := (h.sound a e' he').exists_of_refs hx
    exact ⟨ex, (Expression.Made.of_getElem?_take hex).1⟩
  · have hlen := lt_of_getElem?_some he'
    rw [List.length_append, List.length_singleton] at hlen
    obtain rfl : a = heap.length := by omega
    rw [List.getElem?_concat_length, Option.some.injEq] at he'
    exact he' ▸ he.mono (fun x hx => hm.exists_of_refs hx) (List.prefix_append _ _)

/-- What is allocated keeps the heap tidy. -/
theorem Frontend.Allocs.tidy (h : fe.Allocs fe' r e) (ht : fe.heap.Tidy ps R)
    (hm : e.Made fe.heap) (he : e.Tidy ps R fe.heap) : fe'.heap.Tidy ps R := by
  rw [h.2]
  exact ht.concat hm he

theorem Heap.tidy_initial : Heap.Tidy ps R Frontend.initial.heap := by
  refine ⟨Heap.sound_initial, fun a e he => ?_⟩
  have hlt := lt_of_getElem?_some he
  simp only [Frontend.initial, List.length_singleton, Nat.lt_one_iff] at hlt
  subst hlt
  cases he
  refine ⟨fun _ x hx => absurd hx List.not_mem_nil, fun hn => absurd hn.1 (by decide), ?_, ?_⟩
  · exact fun _ _ _ h => absurd h (by simp [Frontend.zeroConstant])
  · exact fun h => absurd h (by decide)

/-- An expression without operands. -/
theorem Expression.Tidy.of_input (hrefs : e.refs = []) (hparty : e.HasNode → e.party ∈ ps)
    (hcls : e.isPoly = false) (hop : e.op ≠ .reconstruct) : e.Tidy ps R heap where
  polies := fun _ x hx => by rw [hrefs] at hx; exact absurd hx List.not_mem_nil
  party := hparty
  dealer := fun _ _ _ h => by simp [isPoly, h] at hcls
  reconstructs := fun h => absurd h hop

/-- A share whose operands are no polynomials. -/
theorem Expression.Tidy.of_share {name : String} {type : Ty} {op : Operator} {xs : List ℕ}
    {params : List PartyDecl} {party : PartyDecl}
    (hxs : op ≠ .eval → ∀ x ∈ xs, ∀ ex, heap[x]? = some ex → ex.isPoly = false)
    (hparty : party ∈ ps) (hR : op = .reconstruct → R ⟨.share, name, type, op, xs, params, party⟩) :
    Expression.Tidy ps R heap ⟨.share, name, type, op, xs, params, party⟩ where
  polies := hxs
  party := fun _ => hparty
  dealer := fun _ _ _ h => absurd h (by simp)
  reconstructs := hR

theorem Expression.hasNode_of_isShare (h : e.isShare = true) : e.HasNode := by
  rw [isShare, decide_eq_true_eq] at h
  simp [HasNode, isConstant, isPoly, h]

theorem Expression.isPoly_of_isConstant (h : e.isConstant = true) : e.isPoly = false := by
  rw [isConstant, decide_eq_true_eq] at h
  rw [isPoly, h]

/-! ### Calls keep the heap tidy -/

/-- When the call returns, it has kept the heap tidy. -/
def FrontM.KeepsTidy (ps : List PartyDecl) (R : Expression → Prop) {α : Type} (m : FrontM α) :
    Prop :=
  ∀ (fe fe' : Frontend) (a : α), m fe = .ok (a, fe') → fe.heap.Tidy ps R → fe'.heap.Tidy ps R

namespace FrontM

variable {α β : Type}

theorem keepsTidy_pure (a : α) : KeepsTidy ps R (pure a) := by
  intro fe fe' a' h ht
  cases pure_ok.1 h
  exact ht

/-- Calls that keep the heap tidy, one after the other. -/
theorem KeepsTidy.bind {m : FrontM α} {f : α → FrontM β} (hm : KeepsTidy ps R m)
    (hf : ∀ a, KeepsTidy ps R (f a)) : KeepsTidy ps R (m >>= f) := by
  intro fe fe' b h ht
  obtain ⟨a, fe₁, h₁, h₂⟩ := bind_ok.1 h
  exact hf a _ _ _ h₂ (hm _ _ _ h₁ ht)

theorem KeepsTidy.mapM {f : α → FrontM β} {l : List α} (hf : ∀ a ∈ l, KeepsTidy ps R (f a)) :
    KeepsTidy ps R (l.mapM f) := by
  induction l with
  | nil =>
      rw [List.mapM_nil]
      exact keepsTidy_pure _
  | cons a l ih =>
      obtain ⟨ha, hl⟩ := List.forall_mem_cons.1 hf
      rw [List.mapM_cons]
      exact ha.bind fun b => (ih hl).bind fun bs => keepsTidy_pure _

/-- A loop of such calls. -/
theorem KeepsTidy.foldlM {f : β → α → FrontM β} (hf : ∀ b a, KeepsTidy ps R (f b a)) (b : β)
    (l : List α) : KeepsTidy ps R (l.foldlM f b) := by
  induction l generalizing b with
  | nil =>
      rw [List.foldlM_nil]
      exact keepsTidy_pure _
  | cons a l ih =>
      rw [List.foldlM_cons]
      exact (hf b a).bind fun b' => ih b'

end FrontM

theorem keepsTidy_newConstant (name : String) : KeepsTidy ps R (newConstant name) :=
  fun _ _ _ h ht => (newConstant_ok h).tidy ht (.placeholder (.inl rfl) rfl rfl)
    (.of_input rfl (fun hn => absurd hn.1 (by simp [Expression.isConstant])) rfl (by simp))

/-- A secret at one of the parties. -/
theorem keepsTidy_newSecret (name : String) (type : Ty) {party : PartyDecl} (hp : party ∈ ps) :
    KeepsTidy ps R (newSecret name type party) :=
  fun _ _ _ h ht => (newSecret_ok h).tidy ht (.placeholder (.inr (.inl rfl)) rfl rfl)
    (.of_input rfl (fun _ => hp) rfl (by simp))

namespace Share

theorem keepsTidy_binaryOp (a b : ℕ) {op : Operator}
    (hop : op = .add ∨ op = .sub ∨ op = .mul ∨ op = .div) :
    KeepsTidy ps R (binaryOp a b op) := by
  intro fe fe' r h ht
  obtain ⟨ea, eb, name, ha, hsa, hb, hsb, hp, hal⟩ := binaryOp_ok h
  refine hal.tidy ht (.binary rfl hop rfl ha hb rfl hp.symm hsa hsb) (.of_share ?_ ?_ ?_)
  · intro _ x hx ex hex
    simp only [List.mem_cons, List.not_mem_nil, or_false] at hx
    rcases hx with rfl | rfl
    · obtain rfl := Option.some.inj (hex.symm.trans ha)
      exact (Expression.hasNode_of_isShare hsa).2
    · obtain rfl := Option.some.inj (hex.symm.trans hb)
      exact (Expression.hasNode_of_isShare hsb).2
  · exact (ht.tidy a ea ha).party (Expression.hasNode_of_isShare hsa)
  · rcases hop with rfl | rfl | rfl | rfl <;> simp

theorem keepsTidy_scalarMul (s c : ℕ) : KeepsTidy ps R (scalarMul s c) := by
  intro fe fe' r h ht
  obtain ⟨es, ec, name, hes, hss, hec, hcc, hal⟩ := scalarMul_ok h
  refine hal.tidy ht (.scalarMul rfl rfl rfl hes hec rfl hcc) (.of_share ?_ ?_ (by simp))
  · intro _ x hx ex hex
    simp only [List.mem_cons, List.not_mem_nil, or_false] at hx
    rcases hx with rfl | rfl
    · obtain rfl := Option.some.inj (hex.symm.trans hes)
      exact (Expression.hasNode_of_isShare hss).2
    · obtain rfl := Option.some.inj (hex.symm.trans hec)
      exact Expression.isPoly_of_isConstant hcc
  · exact (ht.tidy s es hes).party (Expression.hasNode_of_isShare hss)

/-- A transfer to one of the parties. -/
theorem keepsTidy_transfer (s : ℕ) {party : PartyDecl} (hp : party ∈ ps) :
    KeepsTidy ps R (transfer s party) := by
  intro fe fe' r h ht
  obtain ⟨es, hes, hss, ⟨-, -, rfl⟩ | ⟨-, name, hal⟩⟩ := transfer_ok h
  · exact ht
  · refine hal.tidy ht (.transit rfl rfl rfl hes hss) (.of_share ?_ hp (by simp))
    intro _ x hx ex hex
    rw [List.mem_singleton] at hx
    subst hx
    obtain rfl := Option.some.inj (hex.symm.trans hes)
    exact (Expression.hasNode_of_isShare hss).2

/-- A reconstruction from shares of all parties that agree with it. -/
theorem tidy_reconstruct {shares : List ℕ} {party : PartyDecl} {name : String}
    (h : reconstruct shares party name fe = .ok (r, fe')) (ht : fe.heap.Tidy ps R)
    (hp : party ∈ ps) (hR : ∀ e, e.oprands = shares → R e) : fe'.heap.Tidy ps R := by
  obtain ⟨es, holder, type, name', hes, -, hchecked, hal⟩ := reconstruct_ok h
  have hex : ∀ x ∈ shares, ∃ ex, fe.heap[x]? = some ex ∧ ex.isShare = true ∧ ex.party = holder :=
    fun x hx => by
      obtain ⟨ex, hmem, hex⟩ := exists_of_mem_left hes hx
      exact ⟨ex, hex, (hchecked ex hmem).1, (hchecked ex hmem).2.1⟩
  refine hal.tidy ht (.reconstruct (q := holder) rfl rfl hex) (.of_share ?_ hp fun _ => hR _ rfl)
  intro _ x hx ex hx'
  obtain ⟨ex', hex', hs, -⟩ := hex x hx
  obtain rfl := Option.some.inj (hx'.symm.trans hex')
  exact (Expression.hasNode_of_isShare hs).2

end Share

namespace Poly

/-- A polynomial whose dealer is one of the parties. -/
theorem tidy_genPoly {c degree : ℕ} {ec : Expression}
    (h : genPoly ec.party c degree fe = .ok (r, fe')) (ht : fe.heap.Tidy ps R)
    (hec : fe.heap[c]? = some ec) (hn : ec.HasNode) : fe'.heap.Tidy ps R := by
  obtain ⟨ec', name, hc, -, hal⟩ := genPoly_ok h
  obtain rfl := Option.some.inj (hc.symm.trans hec)
  refine hal.tidy ht (.poly rfl rfl rfl hc)
    ⟨?_, fun hn => absurd hn.2 (by simp [Expression.isPoly]), fun degree q c hcls => ?_,
      fun hop => absurd hop (by simp)⟩
  · intro _ x hx ex hex
    simp only [Expression.refs, List.mem_cons, List.not_mem_nil, or_false, or_self] at hx
    subst hx
    obtain rfl := Option.some.inj (hex.symm.trans hc)
    exact hn.2
  · cases hcls
    exact (ht.tidy _ _ hc).party hn

theorem keepsTidy_eval (p : ℕ) (party : PartyDecl) : KeepsTidy ps R (eval p party) := by
  intro fe fe' r h ht
  obtain ⟨ep, degree, dealer, c, elemType, name, hp, hcls, -, hal⟩ := eval_ok h
  exact hal.tidy ht (.eval rfl rfl rfl hp hcls)
    (.of_share (fun hop => absurd rfl hop) ((ht.tidy p ep hp).dealer _ _ _ hcls) (by simp))

end Poly

/-! ### Variables -/

namespace Bgw

open Variable

variable {ctx : Context}

theorem keepsTidy_shareAt (v : Variable) (i : ℕ) : KeepsTidy ps R (shareAt v i) := by
  intro fe fe' a h ht
  obtain ⟨-, rfl⟩ := shareAt_ok.1 h
  exact ht

theorem keepsTidy_deal (poly : ℕ) {p : PartyDecl} (hp : p ∈ ps) : KeepsTidy ps R (deal poly p) :=
  (Poly.keepsTidy_eval poly p).bind fun x => Share.keepsTidy_transfer x hp

/-- Only what has a node of its own may be shared. -/
theorem tidy_share {s : ℕ} {es : Expression} {v : Variable}
    (h : Variable.share ctx s fe = .ok (v, fe')) (ht : fe.heap.Tidy ps R)
    (hctx : ∀ p ∈ ctx.parties, p ∈ ps) (hes : fe.heap[s]? = some es) (hn : es.HasNode) :
    fe'.heap.Tidy ps R := by
  simp only [Variable.share, bind_ok, deref_ok] at h
  obtain ⟨es', _, ⟨hes', rfl⟩, poly, fe₁, hpoly, hloop⟩ := h
  obtain rfl := Option.some.inj (hes'.symm.trans hes)
  exact KeepsTidy.mapM (fun p hp => keepsTidy_deal poly (hctx p hp)) _ _ _ hloop
    (Poly.tidy_genPoly hpoly ht hes' hn)

theorem keepsTidy_add (v w : Variable) : KeepsTidy ps R (Variable.add ctx v w) :=
  .mapM fun i _ => (keepsTidy_shareAt v i).bind fun a => (keepsTidy_shareAt w i).bind fun b =>
    Share.keepsTidy_binaryOp a b (.inl rfl)

theorem keepsTidy_mulConst (v : Variable) (c : ℕ) : KeepsTidy ps R (Variable.mulConst ctx v c) :=
  (KeepsTidy.mapM fun i _ => (keepsTidy_shareAt v i).bind fun a =>
    Share.keepsTidy_scalarMul a c).bind fun _ => keepsTidy_pure _

theorem keepsTidy_mulRound (hctx : ∀ p ∈ ctx.parties, p ∈ ps) (v w sum : Variable) (i : ℕ) :
    KeepsTidy ps R (mulRound ctx v w sum i) := by
  intro fe fe' r h ht
  simp only [mulRound, bind_ok, shareAt_ok] at h
  obtain ⟨a, _, ⟨-, rfl⟩, b, _, ⟨-, rfl⟩, product, fe₁, hproduct, inter, fe₂, hinter,
    lambda, fe₃, hlambda, term, fe₄, hterm, hlast⟩ := h
  obtain ⟨ea, eb, name, -, -, -, -, -, hal⟩ := Share.binaryOp_ok hproduct
  have ht₁ := Share.keepsTidy_binaryOp a b (.inr (.inr (.inl rfl))) _ _ _ hproduct ht
  have ht₂ := tidy_share hinter ht₁ hctx (hal.getElem? (List.prefix_refl _))
    (Expression.hasNode_of_isShare rfl)
  have ht₄ := keepsTidy_mulConst inter lambda _ _ _ hterm
    (keepsTidy_newConstant _ _ _ _ hlambda ht₂)
  split at hlast
  · cases pure_ok.1 hlast
    exact ht₄
  · exact keepsTidy_add sum term _ _ _ hlast ht₄

/-- A multiplication of variables keeps the heap tidy. -/
theorem keepsTidy_mul (hctx : ∀ p ∈ ctx.parties, p ∈ ps) (v w : Variable) :
    KeepsTidy ps R (Variable.mul ctx v w) :=
  (KeepsTidy.foldlM (keepsTidy_mulRound hctx v w) [] _).bind fun _ => keepsTidy_pure _

/-- The reconstruction of a variable is one that `R` allows. -/
theorem tidy_yield {v : Variable} {q : ℕ} {p : PartyDecl} {name : String}
    (h : Variable.yield v p name fe = .ok (q, fe')) (ht : fe.heap.Tidy ps R) (hp : p ∈ ps)
    (hR : ∀ qs fe₁, (v.mapM fun s => Share.transfer s p : FrontM (List ℕ)) fe = .ok (qs, fe₁) →
      fe₁.heap <+: fe'.heap → ∀ e : Expression, e.oprands = qs → R e) : fe'.heap.Tidy ps R := by
  obtain ⟨qs, fe₁, hqs, hrec⟩ := bind_ok.1 h
  have ht₁ := KeepsTidy.mapM (fun s _ => Share.keepsTidy_transfer s hp) _ _ _ hqs ht
  have hpre := (Share.keepsSound_reconstruct qs p name _ _ _ hrec ht₁.sound).2
  exact Share.tidy_reconstruct hrec ht₁ hp (hR qs fe₁ hqs hpre)

end Bgw

end Tidy

/-! ## Values that nothing reaches -/

section Values

variable {F : Type*} [Field F] {ρ ρ' : Reading F} {heap : Heap} {roots : List ℕ}

/-- Readings that differ only in inputs which the roots do not reach give what the
roots reach the same values. -/
theorem Heap.value_congr (hs : heap.Sound) (hsame : ρ.SameScheme ρ') (hcoef : ρ'.coef = ρ.coef)
    (hin : ∀ e, heap.Reached roots e → ρ'.input e = ρ.input e) {e : ℕ} {exp : Expression}
    (he : heap.Reached roots e) (hexp : heap[e]? = some exp) :
    heap.value ρ' e = heap.value ρ e := by
  have hpoint : ρ'.pointAt = ρ.pointAt := by
    funext i
    rw [Reading.pointAt, Reading.pointAt, hsame.parties, hsame.point]
  induction e using Nat.strong_induction_on generalizing exp with
  | _ e ih =>
      have hrefs : ∀ x ∈ exp.refs, heap.value ρ' x = heap.value ρ x := fun x hx => by
        obtain ⟨ex, hex⟩ := (hs e exp hexp).exists_of_refs hx
        obtain ⟨hex, hlt⟩ := Expression.Made.of_getElem?_take hex
        exact ih x hlt (he.follow hexp hx) hex
      have hoprand : ∀ x ∈ exp.oprands, heap.value ρ' x = heap.value ρ x :=
        fun x hx => hrefs x (Expression.mem_refs hx)
      rw [Heap.value_eq hs hexp, Heap.value_eq hs hexp]
      cases hs e exp hexp with
      | placeholder _ hop _ => simp only [Expression.value, hop, hsame.constant, hin e he]
      | typeCast _ hop hx _ => simp [Expression.value, hop, hx, hoprand]
      | binary _ hop hx _ _ _ _ _ _ =>
          rw [hx, List.forall_mem_cons, List.forall_mem_singleton] at hoprand
          rcases hop with hop | hop | hop | hop <;>
            simp only [Expression.value, hop, hx, hoprand.1, hoprand.2]
      | scalarMul _ hop hx _ _ _ _ =>
          rw [hx, List.forall_mem_cons, List.forall_mem_singleton] at hoprand
          simp only [Expression.value, hop, hx, hoprand.1, hoprand.2]
      | transit _ hop hx _ _ => simp [Expression.value, hop, hx, hoprand]
      | reconstruct _ hop _ =>
          simp only [Expression.value, hop, hpoint]
          refine Finset.sum_congr rfl fun i hi => ?_
          have hi' := Finset.mem_range.1 hi
          rw [List.getD_eq_getElem _ _ hi', hoprand _ (List.getElem_mem hi')]
      | poly _ hop hx _ => simp [Expression.value, hop, hx, hoprand]
      | @eval p degree c ep _ hop hx hp hep =>
          obtain ⟨hp, hpe⟩ := Expression.Made.of_getElem?_take hp
          have hcref : c ∈ ep.refs := by simp [Expression.refs, hep]
          obtain ⟨ec, hec⟩ := (hs p ep hp).exists_of_refs hcref
          obtain ⟨hec, hcp⟩ := Expression.Made.of_getElem?_take hec
          have hpr := he.follow hexp (Expression.mem_refs (by simp [hx]) : p ∈ exp.refs)
          have hc := ih c (hcp.trans hpe) (hpr.follow hp hcref) hec
          rcases hpar : exp.params with _ | ⟨party, _ | _⟩ <;>
            simp only [Expression.value, hop, hx, hp, Option.map_some, hep, hpar, hc, hcoef,
              hsame.point]

end Values

/-! ## Programs -/

namespace Bgw

/-- The step makes a variable, a secret of one of the parties, or a constant. -/
def Gate.Plain (ps : List PartyDecl) : Gate → Prop
  | .call (.newConstant _) => True
  | .call (.newSecret _ _ p) => p ∈ ps
  | .call _ => False
  | _ => True

/-- A variable that is yielded, by the order in which it was made, and to whom. -/
structure Yield where
  var : ℕ
  party : PartyDecl
  name : String
  deriving DecidableEq, Repr

/-- Yield the variables; the results are the outputs of the protocol. -/
def runYields (w : Wires) (yields : List Yield) : FrontM (List ℕ) :=
  yields.mapM fun y => do
    let v ← w.varAt y.var
    Variable.yield v y.party y.name

/-- Run a whole protocol in the context `ctx`. -/
def runProgram (ctx : Context) (gates : List Gate) (yields : List Yield) :
    FrontM (Wires × List ℕ) := do
  let w ← runGates ctx gates
  let outputs ← runYields w yields
  return (w, outputs)

/-- The protocol ran: its steps are plain, it shares secrets only, and it yields to
the parties. -/
structure ProtocolRun (ctx : Context) (gates : List Gate) (yields : List Yield) (w : Wires)
    (outputs : List ℕ) (fe : Frontend) : Prop where
  run : runProgram ctx gates yields .initial = .ok ((w, outputs), fe)
  plain : ∀ g ∈ gates, g.Plain ctx.parties
  secrets : ∀ s, .share s ∈ gates → ∃ e, fe.heap[s]? = some e ∧ e.cls = .secret
  parties : ∀ y ∈ yields, y.party ∈ ctx.parties

variable {F : Type*} [Field F] {ρ ρ' : Reading F} {ctx : Context} {gates : List Gate}
  {yields : List Yield} {w w' : Wires} {outputs : List ℕ} {fe fe' fe₂ : Frontend}
  {heap : Heap} {ps : List PartyDecl} {R : Expression → Prop}

/-! ### The steps keep the heap tidy -/

/-- No step changes the parties. -/
theorem Gate.parties_run {g : Gate} (h : g.run w fe = .ok (w', fe')) :
    w'.ctx.parties = w.ctx.parties := by
  cases g with
  | call c =>
      obtain ⟨_, fe₁, -, hp⟩ := bind_ok.1 h
      cases pure_ok.1 hp
      rfl
  | share s =>
      obtain ⟨v, fe₁, -, hp⟩ := bind_ok.1 h
      cases pure_ok.1 hp
      rfl
  | add i j =>
      simp only [Gate.run, bind_ok] at h
      obtain ⟨a, _, -, b, _, -, v, fe₁, -, hp⟩ := h
      cases pure_ok.1 hp
      rfl
  | mulConst i c =>
      simp only [Gate.run, bind_ok] at h
      obtain ⟨a, _, -, v, fe₁, -, hp⟩ := h
      cases pure_ok.1 hp
      rfl
  | mul i j =>
      simp only [Gate.run, bind_ok] at h
      obtain ⟨a, _, -, b, _, -, ⟨v, ctx'⟩, fe₁, hv, hp⟩ := h
      cases pure_ok.1 hp
      obtain ⟨_, _, -, hp'⟩ := bind_ok.1 hv
      cases pure_ok.1 hp'
      rfl

/-- **Every gate keeps the heap tidy.** -/
theorem Gate.tidy {g : Gate} (h : g.run w fe = .ok (w', fe')) (ht : fe.heap.Tidy ps R)
    (hctx : ∀ p ∈ w.ctx.parties, p ∈ ps) (hplain : g.Plain ps)
    (hshare : ∀ s, g = .share s → ∀ es, fe.heap[s]? = some es → es.HasNode) :
    fe'.heap.Tidy ps R := by
  cases g with
  | call c =>
      obtain ⟨_, fe₁, hc, hp⟩ := bind_ok.1 h
      cases pure_ok.1 hp
      cases c with
      | newConstant name =>
          exact ((keepsTidy_newConstant name).bind fun _ => keepsTidy_pure _) _ _ _ hc ht
      | newSecret name type party =>
          exact ((keepsTidy_newSecret name type hplain).bind fun _ => keepsTidy_pure _) _ _ _ hc ht
      | _ => exact absurd hplain id
  | share s =>
      obtain ⟨v, fe₁, hv, hp⟩ := bind_ok.1 h
      cases pure_ok.1 hp
      have hv' := hv
      simp only [Variable.share, bind_ok, deref_ok] at hv'
      obtain ⟨es, _, ⟨hes, rfl⟩, -⟩ := hv'
      exact tidy_share hv ht hctx hes (hshare s rfl es hes)
  | add i j =>
      simp only [Gate.run, bind_ok, Wires.varAt_ok] at h
      obtain ⟨a, _, ⟨-, rfl⟩, b, _, ⟨-, rfl⟩, v, fe₁, hv, hp⟩ := h
      cases pure_ok.1 hp
      exact keepsTidy_add a b _ _ _ hv ht
  | mulConst i c =>
      simp only [Gate.run, bind_ok, Wires.varAt_ok] at h
      obtain ⟨a, _, ⟨-, rfl⟩, v, fe₁, hv, hp⟩ := h
      cases pure_ok.1 hp
      exact keepsTidy_mulConst a c _ _ _ hv ht
  | mul i j =>
      simp only [Gate.run, bind_ok, Wires.varAt_ok] at h
      obtain ⟨a, _, ⟨-, rfl⟩, b, _, ⟨-, rfl⟩, ⟨v, ctx'⟩, fe₁, hv, hp⟩ := h
      cases pure_ok.1 hp
      exact keepsTidy_mul hctx a b _ _ _ hv ht

/-- So does a circuit. -/
theorem runGates_tidy (h : gates.foldlM Gate.run w fe = .ok (w', fe')) (ht : fe.heap.Tidy ps R)
    (hctx : ∀ p ∈ w.ctx.parties, p ∈ ps) (hplain : ∀ g ∈ gates, g.Plain ps)
    (hpre : fe'.heap <+: heap)
    (hshare : ∀ s, .share s ∈ gates → ∃ es, heap[s]? = some es ∧ es.HasNode) :
    fe'.heap.Tidy ps R := by
  induction gates generalizing w fe with
  | nil =>
      cases pure_ok.1 h
      exact ht
  | cons g gates ih =>
      rw [List.foldlM_cons] at h
      obtain ⟨w₁, fe₁, hg, h⟩ := bind_ok.1 h
      obtain ⟨hplain₀, hplain⟩ := List.forall_mem_cons.1 hplain
      obtain ⟨hs₁, hpre₁⟩ := Gate.keepsSound_run w g _ _ _ hg ht.sound
      have hpre₂ := (KeepsSound.foldlM Gate.keepsSound_run w₁ gates _ _ _ h hs₁).2
      have hctx₁ := Gate.parties_run hg
      have ht₁ := Gate.tidy hg ht hctx hplain₀ fun s hs es hes => by
        obtain ⟨es', hes', hn⟩ := hshare s (hs ▸ List.mem_cons_self ..)
        have hgrown := Heap.getElem?_of_isPrefix ((hpre₁.trans hpre₂).trans hpre) hes
        obtain rfl := Option.some.inj (hgrown.symm.trans hes')
        exact hn
      exact ih h ht₁ (hctx₁ ▸ hctx) hplain fun s hs => hshare s (List.mem_cons_of_mem _ hs)

/-! ### What is opened -/

/-- The expression combines one value for each party, which lie on a polynomial of
degree at most `T` under every reading with the given parties, points and
constants. -/
def Opened (ρ : Reading F) (ctx : Context) (heap : Heap) (e : Expression) : Prop :=
  e.oprands.length = ctx.N ∧ ∀ ρ', ρ.SameScheme ρ' →
    ∃ x, Sharing.IsSharing ρ'.pointAt ctx.N ctx.T
      (fun i => heap.value ρ' (e.oprands.getD i 0)) x

theorem Reads.of_sameScheme (h : Reads ρ ctx) (hsame : ρ.SameScheme ρ') : Reads ρ' ctx := by
  have hpoint : ρ'.pointAt = ρ.pointAt := by
    funext i
    rw [Reading.pointAt, Reading.pointAt, hsame.parties, hsame.point]
  exact ⟨h.parties.trans hsame.parties.symm, h.enough, by rw [hsame.point]; exact h.distinct,
    fun k i hi => by rw [hsame.constant, hpoint]; exact h.weights k i hi⟩

/-- What a step of the yields does. -/
theorem keepsSound_yieldStep (w : Wires) (y : Yield) :
    KeepsSound (w.varAt y.var >>= fun v => Variable.yield v y.party y.name) := by
  refine KeepsSound.bind ?_ fun v => Variable.keepsSound_yield v y.party y.name
  rw [Wires.varAt]
  split
  · exact keepsSound_pure _
  · exact keepsSound_throw _

/-- The yields keep the heap tidy. -/
theorem runYields_tidy (h : runYields w yields fe = .ok (outputs, fe'))
    (ht : fe.heap.Tidy ps (Opened ρ ctx heap)) (hpre : fe'.heap <+: heap) (hheap : heap.Sound)
    (hparties : ∀ y ∈ yields, y.party ∈ ps) (hN : ctx.N = ρ.parties.length)
    (hvars : ∀ ρ', ρ.SameScheme ρ' → ∀ (i : ℕ) (v : Variable), w.vars[i]? = some v →
      ∃ x, Represents ρ' ctx.T heap v x) : fe'.heap.Tidy ps (Opened ρ ctx heap) := by
  induction yields generalizing fe outputs with
  | nil =>
      rw [runYields, List.mapM_nil] at h
      cases pure_ok.1 h
      exact ht
  | cons y yields ih =>
      rw [runYields, List.mapM_cons] at h
      obtain ⟨q, fe₁, hq, h⟩ := bind_ok.1 h
      obtain ⟨qs, fe₂, hqs, hp⟩ := bind_ok.1 h
      cases pure_ok.1 hp
      obtain ⟨hparty, hparties⟩ := List.forall_mem_cons.1 hparties
      obtain ⟨hs₁, -⟩ := keepsSound_yieldStep w y _ _ _ hq ht.sound
      have hpre₁ := (KeepsSound.mapM (keepsSound_yieldStep w) yields _ _ _ hqs hs₁).2.trans hpre
      obtain ⟨v, _, hat, hyield⟩ := bind_ok.1 hq
      obtain ⟨hv, rfl⟩ := Wires.varAt_ok.1 hat
      refine ih hqs (tidy_yield hyield ht hparty fun xs fe₃ hxs hpre₃ e he => ?_) hparties
      obtain ⟨x, hrep⟩ := hvars ρ ⟨rfl, rfl, rfl⟩ y.var v hv
      refine ⟨?_, fun ρ' hsame => ?_⟩
      · obtain ⟨type, hheld⟩ := hrep.held
        have hlen := (transfers_held (ρ := ρ) hxs ht.sound (hpre₃.trans hpre₁) hheap
          fun i a ha => ⟨_, (hheld i a ha).choose_spec.2⟩).1
        rw [he, hlen, hrep.length, hN]
      · obtain ⟨x, hrep⟩ := hvars ρ' hsame y.var v hv
        obtain ⟨type, hheld⟩ := hrep.held
        obtain ⟨hlen, hall⟩ := transfers_held (ρ := ρ') hxs ht.sound (hpre₃.trans hpre₁) hheap
          fun i a ha => ⟨_, (hheld i a ha).choose_spec.2⟩
        rw [hN, ← hsame.parties]
        refine ⟨x, hrep.sharing.congr fun i hi => ?_⟩
        have hi' : i < xs.length := by
          rw [hlen, hrep.length]
          exact hi
        have hx := List.getElem?_eq_getElem hi'
        rw [he, getD_of_getElem? hx, (hall i _ hx).2]

/-! ### What the circuit reads -/

/-- A constant factor is a constant of the front end. -/
theorem constant_of_mulConst (h : gates.foldlM Gate.run w fe = .ok (w', fe'))
    (hs : fe.heap.Sound) (hpos : 0 < w.ctx.N) (hpre : fe'.heap <+: heap) {i c : ℕ}
    (hmem : .mulConst i c ∈ gates) : ∃ e, heap[c]? = some e ∧ e.isConstant = true := by
  induction gates generalizing w fe with
  | nil => exact absurd hmem List.not_mem_nil
  | cons g gates ih =>
      rw [List.foldlM_cons] at h
      obtain ⟨w₁, fe₁, hg, h⟩ := bind_ok.1 h
      obtain ⟨hs₁, hpre₁⟩ := Gate.keepsSound_run w g _ _ _ hg hs
      have hpre₂ := (KeepsSound.foldlM Gate.keepsSound_run w₁ gates _ _ _ h hs₁).2.trans hpre
      rcases List.mem_cons.1 hmem with rfl | hmem
      · simp only [Gate.run, bind_ok, Wires.varAt_ok] at hg
        obtain ⟨a, _, ⟨-, rfl⟩, v, fe₂, hv, hp⟩ := hg
        cases pure_ok.1 hp
        simp only [Variable.mulConst, bind_ok] at hv
        obtain ⟨scaled, _, hloop, hp⟩ := hv
        cases pure_ok.1 hp
        obtain ⟨hlen, hall⟩ := mapM_ok (Variable.keepsSound_mulConstAt a c) hs hloop
        rw [List.length_range] at hlen
        obtain ⟨k, -, fe₃, fe₄, hs₃, -, hmul, hpre₄⟩ :=
          hall 0 _ (List.getElem?_eq_getElem (hlen.symm ▸ hpos))
        simp only [bind_ok, shareAt_ok] at hmul
        obtain ⟨x, _, ⟨-, rfl⟩, hmul⟩ := hmul
        have hpre₃ := (Share.keepsSound_scalarMul x c _ _ _ hmul hs₃).2
        obtain ⟨es, ec, name, -, -, hec, hcc, -⟩ := Share.scalarMul_ok hmul
        exact ⟨ec, Heap.getElem?_of_isPrefix ((hpre₃.trans hpre₄).trans hpre₂) hec, hcc⟩
      · refine ih h hs₁ ?_ hmem
        rwa [Context.N, Gate.parties_run hg]

/-- The circuit reads secrets and constants only. -/
theorem circuitValues_congr {val val' : ℕ → F}
    (hshare : ∀ s, .share s ∈ gates → val s = val' s)
    (hconst : ∀ i c, .mulConst i c ∈ gates → val c = val' c) :
    circuitValues val gates = circuitValues val' gates := by
  refine List.foldl_ext _ _ _ fun xs g hg => ?_
  cases g with
  | call c => rfl
  | share s => rw [Gate.value, Gate.value, hshare s hg]
  | add i j => rfl
  | mulConst i c => rw [Gate.value, Gate.value, hconst i c hg]
  | mul i j => rfl

/-! ### What the prover asks of a program -/

namespace ProtocolRun

/-- The two parts of a run. -/
theorem split (h : ProtocolRun ctx gates yields w outputs fe) :
    ∃ fe₁, gates.foldlM Gate.run ⟨ctx, []⟩ .initial = .ok (w, fe₁) ∧
      runYields w yields fe₁ = .ok (outputs, fe) ∧ fe₁.heap.Sound ∧ fe₁.heap <+: fe.heap ∧
      fe.heap.Sound := by
  have hrun := h.run
  rw [runProgram] at hrun
  obtain ⟨w', fe₁, hgates, hrun⟩ := bind_ok.1 hrun
  obtain ⟨outputs', fe₂, hyields, hp⟩ := bind_ok.1 hrun
  cases pure_ok.1 hp
  have hs := (KeepsSound.foldlM Gate.keepsSound_run _ _ _ _ _ hgates Heap.sound_initial).1
  obtain ⟨hs', hpre⟩ := KeepsSound.mapM (keepsSound_yieldStep w) yields _ _ _ hyields hs
  exact ⟨fe₁, hgates, hyields, hs, hpre, hs'⟩

/-- The outputs have the values of the circuit. -/
theorem computes (h : ProtocolRun ctx gates yields w outputs fe) (hρ : Reads ρ ctx) :
    Computes ρ ctx fe.heap w (circuitValues (fe.heap.value ρ) gates) := by
  obtain ⟨fe₁, hgates, -, -, hpre, hs⟩ := h.split
  exact runGates_computes hρ hgates Heap.sound_initial hpre hs
    ⟨⟨ctx.mulCounter, rfl⟩, rfl, by simp⟩

theorem tidy (h : ProtocolRun ctx gates yields w outputs fe) (hρ : Reads ρ ctx) :
    fe.heap.Tidy ctx.parties (Opened ρ ctx fe.heap) := by
  obtain ⟨fe₁, hgates, hyields, -, hpre, hs⟩ := h.split
  have ht := runGates_tidy hgates (R := Opened ρ ctx fe.heap) Heap.tidy_initial (fun p hp => hp)
    h.plain hpre fun s hs => by
      obtain ⟨e, he, hcls⟩ := h.secrets s hs
      exact ⟨e, he, by simp [Expression.HasNode, Expression.isConstant, Expression.isPoly, hcls]⟩
  refine runYields_tidy hyields ht (List.prefix_refl _) hs h.parties
    (congrArg List.length hρ.parties) fun ρ' hsame i v hv => ?_
  exact ⟨_, (h.computes (hρ.of_sameScheme hsame)).represents i v hv⟩

/-- The value of an output is that of the circuit at the variable. -/
theorem output_value (h : ProtocolRun ctx gates yields w outputs fe) (hρ : Reads ρ ctx) :
    outputs.length = yields.length ∧ ∀ (j q : ℕ), outputs[j]? = some q →
      ∃ y, yields[j]? = some y ∧
        fe.heap.value ρ q = (circuitValues (fe.heap.value ρ) gates).getD y.var 0 := by
  obtain ⟨fe₁, -, hyields, hs₁, -, hs⟩ := h.split
  have hN : ctx.N = ρ.parties.length := congrArg List.length hρ.parties
  have henough := hρ.enough
  obtain ⟨hlen, hall⟩ := mapM_ok (keepsSound_yieldStep w) hs₁ hyields
  refine ⟨hlen, fun j q hq => ?_⟩
  obtain ⟨y, hy, fe₂, fe₃, hs₂, -, hstep, hpre⟩ := hall j q hq
  obtain ⟨v, _, hat, hyield⟩ := bind_ok.1 hstep
  obtain ⟨hv, rfl⟩ := Wires.varAt_ok.1 hat
  refine ⟨y, hy, (yield_value hyield hs₂ hpre hs ((h.computes hρ).represents y.var v hv) ?_
    hρ.injOn).2⟩
  omega

/-- The outputs are shares. -/
theorem output_isShare (h : ProtocolRun ctx gates yields w outputs fe) {q : ℕ}
    (hq : q ∈ outputs) : ∃ exp, fe.heap[q]? = some exp ∧ exp.isShare = true := by
  obtain ⟨fe₁, -, hyields, hs₁, -, -⟩ := h.split
  obtain ⟨j, hj⟩ := List.getElem?_of_mem hq
  obtain ⟨y, -, fe₂, fe₃, hs₂, -, hstep, hpre⟩ :=
    (mapM_ok (keepsSound_yieldStep w) hs₁ hyields).2 j q hj
  obtain ⟨v, _, -, hyield⟩ := bind_ok.1 hstep
  obtain ⟨qs, _, -, hrec⟩ := bind_ok.1 hyield
  obtain ⟨-, -, type, name, -, -, -, hal⟩ := Share.reconstruct_ok hrec
  exact ⟨_, hal.getElem? hpre, rfl⟩

/-- Polynomials stand under evaluations only. -/
theorem poliesEvaluated (h : ProtocolRun ctx gates yields w outputs fe) (hρ : Reads ρ ctx) :
    fe.heap.PoliesEvaluated outputs :=
  fun e exp _ he => ((h.tidy hρ).tidy e exp he).polies

/-- Every expression is at one of the parties. -/
theorem partiesIn (h : ProtocolRun ctx gates yields w outputs fe) (hρ : Reads ρ ctx) :
    fe.heap.PartiesIn outputs ctx.parties.toFinset := by
  intro e exp _ he
  have ht := (h.tidy hρ).tidy e exp he
  exact ⟨fun hn => List.mem_toFinset.2 (ht.party hn),
    fun degree q c hcls => List.mem_toFinset.2 (ht.dealer degree q c hcls)⟩

/-- Every reconstruction has an operand for each party. -/
theorem opensAll (h : ProtocolRun ctx gates yields w outputs fe) (hρ : Reads ρ ctx) :
    fe.heap.OpensAll outputs ctx.parties.length :=
  fun e exp _ he hop => (((h.tidy hρ).tidy e exp he).reconstructs hop).1

/-- Reconstructions open sharings of degree at most the threshold. -/
theorem opensSharings (h : ProtocolRun ctx gates yields w outputs fe) (hρ : Reads ρ ctx)
    (hne : ∀ p ∈ ctx.parties, ρ.point p ≠ 0) : fe.heap.OpensSharings ρ outputs ctx.T := by
  classical
  intro e exp _ he hop
  obtain ⟨hlen, hopened⟩ := ((h.tidy hρ).tidy e exp he).reconstructs hop
  have hN : ctx.N = ρ.parties.length := congrArg List.length hρ.parties
  have henough := hρ.enough
  -- the point of an operand, from its place
  have hidx : ∀ x ∈ exp.oprands, exp.oprands.idxOf x < ctx.N := fun x hx =>
    hlen ▸ List.idxOf_lt_length_iff.2 hx
  refine ⟨fun x => ρ.pointAt (exp.oprands.idxOf x), ?_, fun x hx => ?_, fun ρ' hsame => ?_⟩
  · intro x hx y hy hxy
    refine (List.idxOf_inj hx).1 (hρ.injOn ?_ ?_ hxy)
    · exact Finset.mem_coe.2 (Finset.mem_range.2 (hN ▸ hidx x hx))
    · exact Finset.mem_coe.2 (Finset.mem_range.2 (hN ▸ hidx y hy))
  · have hlt : exp.oprands.idxOf x < ρ.parties.length := hN ▸ hidx x hx
    have hmem : ρ.parties[exp.oprands.idxOf x] ∈ ctx.parties := by
      rw [hρ.parties]
      exact List.getElem_mem hlt
    beta_reduce
    rw [Reading.pointAt, List.getD_eq_getElem _ _ hlt]
    exact hne _ hmem
  · have hρ' := hρ.of_sameScheme hsame
    have hpoint : ρ'.pointAt = ρ.pointAt := by
      funext i
      rw [Reading.pointAt, Reading.pointAt, hsame.parties, hsame.point]
    obtain ⟨x, hsharing⟩ := hopened ρ' hsame
    have hinj := hρ'.injOn
    rw [← hρ'.parties] at hinj
    have hvalue : fe.heap.value ρ' e = x := by
      rw [Heap.value_eq h.split.choose_spec.2.2.2.2 he]
      simp only [Expression.value, hop, hlen]
      exact hsharing.reconstruct (by omega) hinj
    obtain ⟨q, hdeg, hzero, heval⟩ := hsharing
    refine ⟨q, hdeg, hzero.trans hvalue.symm, fun x hx => ?_⟩
    have hget : exp.oprands.getD (exp.oprands.idxOf x) 0 = x := by
      rw [List.getD_eq_getElem _ _ (List.idxOf_lt_length_iff.2 hx), List.getElem_idxOf]
    rw [← hpoint, heval _ (hidx x hx)]
    exact congrArg (fe.heap.value ρ') hget

/-- The outputs are a function of the secrets. -/
theorem functional (h : ProtocolRun ctx gates yields w outputs fe) (hρ : Reads ρ ctx) :
    fe.heap.Functional ρ outputs := by
  classical
  obtain ⟨fe₁, hgates, hyields, hs₁, hpre, hs⟩ := h.split
  have henough := hρ.enough
  intro ρ₁ ρ₂ hsame₁ hsame₂ hagree out hout
  -- change the second reading where nothing reads it
  let ρ₃ : Reading F := { ρ₂ with
    input := fun e => if fe.heap.Reached outputs e then ρ₂.input e else ρ₁.input e }
  have hsame₃ : ρ.SameScheme ρ₃ := ⟨hsame₂.parties, hsame₂.point, hsame₂.constant⟩
  obtain ⟨j, hj⟩ := List.getElem?_of_mem hout
  have hvalue : ∀ ρ', ρ.SameScheme ρ' → ∃ y, yields[j]? = some y ∧ fe.heap.value ρ' out =
      (circuitValues (fe.heap.value ρ') gates).getD y.var 0 :=
    fun ρ' hsame => (h.output_value (hρ.of_sameScheme hsame)).2 j out hj
  obtain ⟨exp, hexp, -⟩ := h.output_isShare hout
  have h₂₃ : fe.heap.value ρ₃ out = fe.heap.value ρ₂ out :=
    @Heap.value_congr _ _ ρ₂ ρ₃ _ outputs hs ⟨rfl, rfl, rfl⟩ rfl (fun e he => if_pos he) _ _
      (fe.heap.reached_self hout) hexp
  have hcircuit : circuitValues (fe.heap.value ρ₁) gates =
      circuitValues (fe.heap.value ρ₃) gates := by
    refine circuitValues_congr (fun s hmem => ?_) fun i c hmem => ?_
    · obtain ⟨e, he, hcls⟩ := h.secrets s hmem
      have hconst : e.isConstant = false := by simp [Expression.isConstant, hcls]
      have hop : e.op = .input := by
        cases hs s e he with
        | placeholder _ hop _ => exact hop
        | typeCast h' => simp [hcls] at h'
        | binary h' => simp [hcls] at h'
        | scalarMul h' => simp [hcls] at h'
        | transit h' => simp [hcls] at h'
        | reconstruct h' => simp [hcls] at h'
        | poly h' => simp [hcls] at h'
        | eval h' => simp [hcls] at h'
      rw [Heap.value_input hs he hop hconst, Heap.value_input hs he hop hconst]
      by_cases hr : fe.heap.Reached outputs s
      · refine (hagree s ⟨Heap.mem_exprsOf.2 ⟨hr, e, he, hconst, ?_⟩, e, he, hop, ?_⟩).trans
          (if_pos hr).symm
        · simp [Expression.isPoly, hcls]
        · exact Or.inr (by simp [hcls])
      · exact (if_neg hr).symm
    · obtain ⟨e, he, hc⟩ := constant_of_mulConst hgates Heap.sound_initial
        (show 0 < ctx.N by omega) hpre hmem
      rw [Heap.value_constant hs he hc, Heap.value_constant hs he hc, hsame₁.constant]
      exact congrFun hsame₃.constant.symm e.name
  obtain ⟨y, hy, h₁⟩ := hvalue ρ₁ hsame₁
  obtain ⟨y', hy', h₃⟩ := hvalue ρ₃ hsame₃
  obtain rfl := Option.some.inj (hy.symm.trans hy')
  rw [h₁, hcircuit, ← h₃, h₂₃]

end ProtocolRun

/-! ### Built programs -/

theorem discard_ok {α : Type} {m : FrontM α} {r : PUnit × Frontend} :
    Functor.discard m fe = .ok r ↔ ∃ a, m fe = .ok (a, r.2) := by
  have hbind : Functor.discard m fe = (m >>= fun _ => pure PUnit.unit) fe := rfl
  rw [hbind, bind_ok]
  constructor
  · rintro ⟨a, fe₁, ha, hp⟩
    cases pure_ok.1 hp
    exact ⟨a, ha⟩
  · rintro ⟨a, ha⟩
    exact ⟨a, r.2, ha, pure_ok.2 rfl⟩

/-- A step is a call of the front end. -/
theorem Gate.exists_call {g : Gate} (h : g.run w fe = .ok (w', fe')) :
    ∃ c : Call, c.run fe = .ok ((), fe') := by
  cases g with
  | call c =>
      obtain ⟨_, fe₁, hc, hp⟩ := bind_ok.1 h
      cases pure_ok.1 hp
      exact ⟨c, hc⟩
  | share s =>
      obtain ⟨v, fe₁, hv, hp⟩ := bind_ok.1 h
      cases pure_ok.1 hp
      exact ⟨.varShare w.ctx s, discard_ok.2 ⟨v, hv⟩⟩
  | add i j =>
      simp only [Gate.run, bind_ok, Wires.varAt_ok] at h
      obtain ⟨a, _, ⟨-, rfl⟩, b, _, ⟨-, rfl⟩, v, fe₁, hv, hp⟩ := h
      cases pure_ok.1 hp
      exact ⟨.varAdd w.ctx a b, discard_ok.2 ⟨v, hv⟩⟩
  | mulConst i c =>
      simp only [Gate.run, bind_ok, Wires.varAt_ok] at h
      obtain ⟨a, _, ⟨-, rfl⟩, v, fe₁, hv, hp⟩ := h
      cases pure_ok.1 hp
      exact ⟨.varMulConst w.ctx a c, discard_ok.2 ⟨v, hv⟩⟩
  | mul i j =>
      simp only [Gate.run, bind_ok, Wires.varAt_ok] at h
      obtain ⟨a, _, ⟨-, rfl⟩, b, _, ⟨-, rfl⟩, v, fe₁, hv, hp⟩ := h
      cases pure_ok.1 hp
      exact ⟨.varMul w.ctx a b, discard_ok.2 ⟨v, hv⟩⟩

/-- So are the yields, and a run is a sequence of calls. -/
theorem exists_calls_of_yields (h : runYields w yields fe = .ok (outputs, fe')) :
    ∃ calls, Call.runAll calls fe = .ok ((), fe') := by
  induction yields generalizing fe outputs with
  | nil =>
      rw [runYields, List.mapM_nil] at h
      cases pure_ok.1 h
      exact ⟨[], rfl⟩
  | cons y yields ih =>
      rw [runYields, List.mapM_cons] at h
      obtain ⟨q, fe₁, hq, h⟩ := bind_ok.1 h
      obtain ⟨qs, fe₂, hqs, hp⟩ := bind_ok.1 h
      cases pure_ok.1 hp
      obtain ⟨v, _, hat, hyield⟩ := bind_ok.1 hq
      obtain ⟨-, rfl⟩ := Wires.varAt_ok.1 hat
      obtain ⟨calls, hcalls⟩ := ih hqs
      exact ⟨.varYield v y.party y.name :: calls,
        bind_ok.2 ⟨(), fe₁, discard_ok.2 ⟨q, hyield⟩, hcalls⟩⟩

/-- A circuit is a sequence of front-end calls. -/
theorem exists_calls (h : gates.foldlM Gate.run w fe = .ok (w', fe'))
    (hrest : ∃ calls, Call.runAll calls fe' = .ok ((), fe₂)) :
    ∃ calls, Call.runAll calls fe = .ok ((), fe₂) := by
  induction gates generalizing w fe with
  | nil =>
      cases pure_ok.1 h
      exact hrest
  | cons g gates ih =>
      rw [List.foldlM_cons] at h
      obtain ⟨w₁, fe₁, hg, h⟩ := bind_ok.1 h
      obtain ⟨c, hc⟩ := Gate.exists_call hg
      obtain ⟨calls, hcalls⟩ := ih h
      exact ⟨c :: calls, bind_ok.2 ⟨(), fe₁, hc, hcalls⟩⟩

namespace ProtocolRun

variable {team : ℕ} {b : GraphBase} {mem : Memory} {nodeOf : ℕ → ℕ} {coeffOf : ℕ → ℕ → ℕ}

open Prover

/-- The graph of a protocol is that of a first build. -/
theorem builtBy (h : ProtocolRun ctx gates yields w outputs fe)
    (hb : build team fe.heap .fresh outputs = some (b, mem)) :
    ∃ calls, BuiltBy team calls [] outputs fe.heap b := by
  obtain ⟨fe₁, hgates, hyields, -⟩ := h.split
  obtain ⟨calls, hcalls⟩ := exists_calls hgates (exists_calls_of_yields hyields)
  exact ⟨calls, fe, [], .fresh, mem, hcalls, rfl, rfl, hb⟩

/-- The nodes of the inputs can take any values. -/
theorem exists_execution (hf : Faithful heap outputs b nodeOf coeffOf) (hg : b.WellFormed)
    (op : Computation F) (x : ℕ → F) :
    ∃ val ∈ b.executions op, ∀ e ∈ heap.exprsOf outputs, ∀ exp, heap[e]? = some exp →
      exp.op = .input → val (nodeOf e) = x e := by
  classical
  have : Inhabited F := ⟨0⟩
  have hreads : Network.Reads b.Feeds (b.rule op) := GraphBase.reads_rule hg
  obtain ⟨val, hval, hfree⟩ := Network.exists_solves
    (GraphBase.wellFounded_feeds hg hf.acyclic) hreads
    fun i => x (Function.invFunOn nodeOf (heap.exprsOf outputs) i)
  refine ⟨val, (GraphBase.isExecution_iff hg (hf.singleAssignment hg)).2 hval, ?_⟩
  intro e he exp hexp hop
  obtain ⟨n, hn, -⟩ := hf.node e he exp hexp
  have hdeg : b.inDeg (nodeOf e) = 0 := by
    rw [GraphBase.inDeg, hf.input e he exp hexp hop]
    rfl
  rw [hfree _ (GraphBase.rule_eq_none.2 ⟨⟨n, hn⟩, hdeg⟩)]
  exact congrArg x (hf.node_injOn.leftInvOn_invFunOn he)

/-- **From the program to the graph.**  The graph of a protocol's first build
computes the protocol's circuit: its inputs can take any values, and whatever the
random nodes hold, the node of an output has the value of the circuit at the
variable that was yielded. -/
theorem graph_computes (h : ProtocolRun ctx gates yields w outputs fe) (hρ : Reads ρ ctx)
    (hb : build team fe.heap .fresh outputs = some (b, mem)) :
    ∃ nodeOf coeffOf, Faithful fe.heap outputs b nodeOf coeffOf ∧ ∀ x : ℕ → F,
      (∃ val ∈ b.executions (fe.heap.computation ρ outputs nodeOf),
        ∀ e, fe.heap.IsStart outputs e → val (nodeOf e) = x e) ∧
      ∀ val ∈ b.executions (fe.heap.computation ρ outputs nodeOf),
        (∀ e, fe.heap.IsStart outputs e → val (nodeOf e) = x e) →
        ∀ (j q : ℕ), outputs[j]? = some q → ∃ y, yields[j]? = some y ∧ val (nodeOf q) =
          (circuitValues (fe.heap.value { ρ with input := x }) gates).getD y.var 0 := by
  obtain ⟨calls, hbuilt⟩ := h.builtBy hb
  have hpe := h.poliesEvaluated hρ
  obtain ⟨hs, hg, nodeOf, coeffOf, hf, -⟩ := hbuilt.faithful hpe
  refine ⟨nodeOf, coeffOf, hf, fun x => ⟨?_, fun val hval hx j q hq => ?_⟩⟩
  · obtain ⟨val, hval, hx⟩ := exists_execution hf hg (fe.heap.computation ρ outputs nodeOf) x
    refine ⟨val, hval, ?_⟩
    rintro e ⟨he, exp, hexp, hop, -⟩
    exact hx e he exp hexp hop
  · have hread : ∃ ρ', ρ.SameScheme ρ' ∧ fe.heap.ReadsAs ρ' outputs b nodeOf coeffOf val :=
      (hf.isExecution_iff hg hs hpe).1 hval
    obtain ⟨ρ', hsame, hexpr, -⟩ := hread
    have hsame' : ρ.SameScheme { ρ with input := x } := ⟨rfl, rfl, rfl⟩
    obtain ⟨y, hy, hvalue⟩ := (h.output_value (hρ.of_sameScheme hsame')).2 j q hq
    have hagree : ∀ e, fe.heap.IsStart outputs e → ρ'.input e = x e := by
      intro e hst
      obtain ⟨he, exp, hexp, hop, -⟩ := id hst
      obtain ⟨-, exp', hexp', hn⟩ := Heap.mem_exprsOf.1 he
      obtain rfl := Option.some.inj (hexp.symm.trans hexp')
      rw [← hx e hst, hexpr e he, Heap.value_input hs hexp hop hn.1]
    have hmem := List.mem_of_getElem? hq
    obtain ⟨exp, hexp, hshare⟩ := h.output_isShare hmem
    have hn := Expression.hasNode_of_isShare hshare
    have hout := Heap.mem_exprsOf.2 ⟨fe.heap.reached_self hmem, exp, hexp, hn⟩
    refine ⟨y, hy, ?_⟩
    rw [hexpr q hout, h.functional hρ ρ' _ hsame hsame' hagree q hmem, hvalue]

/-- **What a proof of a protocol means.**  Let a protocol of the front end run, and
let the parties have distinct points other than zero.  If, on the start graphs of
its first build, the prover takes regular matches only and `prove()` reports yes,
then no set of at most `T` parties learns more than its inputs and outputs. -/
theorem private_of_program [Finite F] (h : ProtocolRun ctx gates yields w outputs fe)
    (hρ : Reads ρ ctx) (hne : ∀ p ∈ ctx.parties, ρ.point p ≠ 0)
    (hb : build team fe.heap .fresh outputs = some (b, mem)) :
    ∃ nodeOf coeffOf, Faithful fe.heap outputs b nodeOf coeffOf ∧ ∀ env schedule,
      (∀ g ∈ startGraphs b (ctx.parties.map fun p => [p]) ctx.parties ctx.T,
        RegularRun (g.executions (fe.heap.computation ρ outputs nodeOf)) (env g)
          (equivalentRewriters ctx.parties g) g) →
      prove b (ctx.parties.map fun p => [p]) ctx.parties ctx.T env schedule = some true →
      ∀ C ⊆ ctx.parties.toFinset, C.card ≤ ctx.T →
        Simulated (b.toGraph ctx.parties.length ctx.T C)
          (fe.heap.computation ρ outputs nodeOf) := by
  obtain ⟨calls, hbuilt⟩ := h.builtBy hb
  have hpe := h.poliesEvaluated hρ
  obtain ⟨-, -, nodeOf, coeffOf, hf, hty⟩ := hbuilt.faithful hpe
  have hn : ctx.parties.Nodup := hρ.distinct.of_map
  have hT : ctx.T < ctx.parties.length := by
    have henough := hρ.enough
    rw [Context.N] at henough
    omega
  have hposed : ∀ C : Finset PartyDecl, WellPosed (b.toGraph ctx.parties.length ctx.T C)
      (fe.heap.computation ρ outputs nodeOf) ctx.parties := fun C =>
    wellPosed_of_built hbuilt hpe hf hty hn (h.partiesIn hρ) (h.opensAll hρ) hT
      (h.opensSharings hρ hne) (h.functional hρ)
  refine ⟨nodeOf, coeffOf, hf, fun env schedule hrun hyes C hC hcard => ?_⟩
  rcases C.eq_empty_or_nonempty with rfl | hnonempty
  · exact simulated_of_nobody (hposed _) rfl
  · have hmem := mem_startGraphs_singletons b hn hC hnonempty.card_pos hcard
    exact (hposed C).exists_simulator hcard (hrun _ hmem)
      ((tryAllPossibilities_iff schedule).1 hyes _ hmem)

end ProtocolRun

/-! ### A secret that is shared and returned

Party 1 shares its secret with all three parties, and the shares are opened to it. -/

/-- Run a protocol and build the graph of its outputs, with one thread. -/
def programBuild (ctx : Context) (gates : List Gate) (yields : List Yield) :
    Option (Heap × List ℕ × GraphBase) :=
  match runProgram ctx gates yields .initial with
  | .ok ((_, outputs), fe) =>
      (build 1 fe.heap .fresh outputs).map fun x => (fe.heap, outputs, x.1)
  | .error _ => none

theorem exists_of_programBuild {b : GraphBase}
    (h : programBuild ctx gates yields = some (heap, outputs, b)) : ∃ w fe mem,
      runProgram ctx gates yields .initial = .ok ((w, outputs), fe) ∧ fe.heap = heap ∧
        build 1 fe.heap .fresh outputs = some (b, mem) := by
  rw [programBuild] at h
  split at h
  · rename_i w outputs' fe hrun
    obtain ⟨⟨g, mem⟩, hg, hx⟩ := Option.map_eq_some_iff.1 h
    cases hx
    exact ⟨w, fe, mem, hrun, rfl, hg⟩
  · exact absurd h (by simp)

def returnedGates : List Gate := [.call (.newSecret "x" .arithField 1), .share 1]

def returnedYields : List Yield := [⟨0, 1, "y"⟩]

/-- Its expressions. -/
def returnedHeap : Heap :=
  [Frontend.zeroConstant,
    ⟨.secret, "x", .arithField, .input, [], [], 1⟩,
    ⟨.poly 1 1 1, "poly_0", .poly .arithField, .polilize, [1], [], nullParty⟩,
    ⟨.share, "share_0", .arithField, .eval, [2], [1], 1⟩,
    ⟨.share, "share_1", .arithField, .eval, [2], [2], 1⟩,
    ⟨.share, "share_2", .arithField, .transit, [4], [], 2⟩,
    ⟨.share, "share_3", .arithField, .eval, [2], [3], 1⟩,
    ⟨.share, "share_4", .arithField, .transit, [6], [], 3⟩,
    ⟨.share, "share_5", .arithField, .transit, [5], [], 1⟩,
    ⟨.share, "share_6", .arithField, .transit, [7], [], 1⟩,
    ⟨.share, "y", .arithField, .reconstruct, [3, 8, 9], [], 1⟩]

/-- The nodes of its graph. -/
def returnedNodes : List Node :=
  [⟨0, "x", 1, .input⟩, ⟨1, "poly_0_coeff_0", 1, .others⟩, ⟨2, "share_0", 1, .others⟩,
    ⟨3, "share_1", 1, .others⟩, ⟨4, "share_2", 2, .others⟩, ⟨5, "share_5", 1, .others⟩,
    ⟨6, "share_3", 1, .others⟩, ⟨7, "share_4", 3, .others⟩, ⟨8, "share_6", 1, .others⟩,
    ⟨9, "y", 1, .output⟩]

/-- The node at an index. -/
def returnedNode (i : ℕ) : Node := returnedNodes.getD i ⟨0, "x", 1, .input⟩

/-- The operations, in the order in which they are made. -/
def returnedEdges : List Operation :=
  [Operation.make 1 0 .reconstruct [returnedNode 2, returnedNode 5, returnedNode 8]
      (returnedNode 9),
    Operation.make 1 1 .eval [returnedNode 0, returnedNode 1] (returnedNode 2),
    Operation.make 1 2 .transit [returnedNode 4] (returnedNode 5),
    Operation.make 1 3 .transit [returnedNode 3] (returnedNode 4),
    Operation.make 1 4 .eval [returnedNode 0, returnedNode 1] (returnedNode 3),
    Operation.make 1 5 .transit [returnedNode 7] (returnedNode 8),
    Operation.make 1 6 .transit [returnedNode 6] (returnedNode 7),
    Operation.make 1 7 .eval [returnedNode 0, returnedNode 1] (returnedNode 6)]

/-- The start graph when the given parties are corrupted. -/
def returned (C : Finset PartyDecl) : Graph :=
  ((GraphBase.bare returnedNodes).toGraph 3 1 C).addEdges returnedEdges

theorem programBuild_returned : programBuild ⟨[1, 2, 3], 1, 0⟩ returnedGates returnedYields =
    some (returnedHeap, [10], (returned ∅).toGraphBase) := by decide +kernel

theorem startGraphs_returned :
    Prover.startGraphs (returned ∅).toGraphBase ([1, 2, 3].map fun p => [p]) [1, 2, 3] 1 =
      [returned {3}, returned {2}, returned {1}] := by decide +kernel

theorem exists_run_returned : ∃ w fe mem,
    ProtocolRun ⟨[1, 2, 3], 1, 0⟩ returnedGates returnedYields w [10] fe ∧
      fe.heap = returnedHeap ∧
        build 1 fe.heap .fresh [10] = some ((returned ∅).toGraphBase, mem) := by
  obtain ⟨w, fe, mem, hrun, hheap, hb⟩ := exists_of_programBuild programBuild_returned
  refine ⟨w, fe, mem, ⟨hrun, ?_, ?_, by decide⟩, hheap, hb⟩
  · intro g hg
    simp only [returnedGates, List.mem_cons, List.not_mem_nil, or_false] at hg
    rcases hg with rfl | rfl
    · exact List.mem_cons_self ..
    · trivial
  · intro s hs
    simp only [returnedGates, List.mem_cons, List.not_mem_nil, or_false, Gate.share.injEq,
      reduceCtorEq, false_or] at hs
    rw [hs, hheap]
    exact ⟨_, rfl, rfl⟩

theorem sound_returned : returnedHeap.Sound := by
  obtain ⟨w, fe, mem, h, hheap, -⟩ := exists_run_returned
  exact hheap ▸ h.split.choose_spec.2.2.2.2

instance fact_prime_five : Fact (Nat.Prime 5) := ⟨by norm_num⟩

/-- Over the field with five elements, the parties at the points 1, 2 and 3; the
last character of a name tells which Lagrange coefficient it is. -/
def returnedReading : Reading (ZMod 5) where
  parties := [1, 2, 3]
  point := fun p => p
  constant := fun name =>
    match name.toList.getLast? with
    | some '0' => (3 : ℕ)
    | some '1' => (2 : ℕ)
    | _ => (1 : ℕ)
  input := fun _ => 0
  coef := fun _ _ => 0

theorem weight_returned : Sharing.weight returnedReading.pointAt 3 0 = 3 ∧
    Sharing.weight returnedReading.pointAt 3 1 = 2 ∧
      Sharing.weight returnedReading.pointAt 3 2 = 1 := by
  have hpoint : returnedReading.pointAt 0 = 1 ∧ returnedReading.pointAt 1 = 2 ∧
      returnedReading.pointAt 2 = 3 := by
    refine ⟨?_, ?_, ?_⟩ <;> simp [Reading.pointAt, returnedReading]
  have hothers : (Finset.range 3).erase 0 = {1, 2} ∧ (Finset.range 3).erase 1 = {0, 2} ∧
      (Finset.range 3).erase 2 = {0, 1} := by decide
  simp only [Sharing.weight, hothers]
  rw [Finset.prod_pair (by decide), Finset.prod_pair (by decide), Finset.prod_pair (by decide)]
  simp only [hpoint]
  decide +kernel

theorem reads_returned : Reads returnedReading ⟨[1, 2, 3], 1, 0⟩ := by
  refine ⟨rfl, by decide, by decide, fun k i hi => ?_⟩
  have hname : (Variable.lambdaName ⟨[1, 2, 3], 1, k⟩ i).toList.getLast? =
      (toString i).toList.getLast?.or ("mul_" ++ toString k ++ "_lambda_").toList.getLast? := by
    rw [Variable.lambdaName, String.toList_append, List.getLast?_append]
  obtain ⟨h₀, h₁, h₂⟩ := weight_returned
  have hi' : i < 3 := hi
  simp only [returnedReading, hname]
  change _ = Sharing.weight returnedReading.pointAt 3 i
  interval_cases i
  · exact h₀.symm
  · exact h₁.symm
  · exact h₂.symm

section Returned

variable {C : Finset PartyDecl} {nodeOf : ℕ → ℕ} {coeffOf : ℕ → ℕ → ℕ}

open Prover Fitting

/-- Who is corrupted changes the caches only. -/
theorem toGraphBase_returned (C : Finset PartyDecl) :
    (returned C).toGraphBase = (returned ∅).toGraphBase := by
  have hbare : ((GraphBase.bare returnedNodes).toGraph 3 1 C).toGraphBase =
      ((GraphBase.bare returnedNodes).toGraph 3 1 ∅).toGraphBase := rfl
  exact Graph.toGraphBase_addEdges_congr hbare returnedEdges

theorem outEdges_returned (C : Finset PartyDecl) :
    (returned C).outEdges 0 = [returnedEdges[1], returnedEdges[4], returnedEdges[7]] := rfl

theorem type_of_mem_outEdges_returned {f : Operation} (h : f ∈ (returned C).outEdges 0) :
    f.type = .eval := by
  rw [outEdges_returned] at h
  revert f
  decide

theorem wellFormed_returned (C : Finset PartyDecl) : (returned C).WellFormed :=
  Graph.wellFormed_linked rfl (by decide) (by decide) (by decide)

theorem hasEdge_returned {f : Operation} : (returned C).HasEdge f ↔ f ∈ returnedEdges :=
  Graph.hasEdge_linked rfl (by decide) (by decide) (by decide)

/-- Edges lead to higher nodes. -/
theorem le_of_reaches_returned {u v : ℕ} (h : (returned C).Reaches u v) : u ≤ v := by
  have hup : ∀ e ∈ returnedEdges, ∀ n ∈ e.inputs, n.guid < e.output.guid := by decide
  induction h with
  | refl => exact le_rfl
  | tail _ hstep ih =>
      obtain ⟨e, he, ⟨n, hn, rfl⟩, rfl⟩ := hstep
      exact ih.trans (hup e (hasEdge_returned.1 he) n hn).le

/-- The match with party 1 corrupted: the reconstruction, with its own share as the
source. -/
def reopenPlan : Plan :=
  ⟨returnedNode 9, [returnedEdges[0], returnedEdges[2], returnedEdges[5]],
    [⟨.transit, [returnedNode 5], returnedNode 4⟩, ⟨.transit, [returnedNode 8], returnedNode 7⟩],
    .eval, [returnedNode 9, returnedNode 2], [returnedNode 5, returnedNode 8]⟩

theorem regularRun_reopen (S : Set (ℕ → ZMod 5)) :
    RegularRun S .sequential (equivalentRewriters [1, 2, 3] (returned {1})) (returned {1}) := by
  have hfirst : selectMin .sequential 0 (returned {1}) []
      (equivalentRewriters [1, 2, 3] (returned {1})) 0 none =
        some (some (returnedNode 9, reopenPlan.result 1 (returned {1}))) := by decide +kernel
  have hlast : selectMin .sequential 1 (reopenPlan.result 1 (returned {1}))
      [(reopenPlan.result 1 (returned {1})).key 1]
        (equivalentRewriters [1, 2, 3] (returned {1})) 0 none = some none := by decide +kernel
  refine regularRun_of_single hfirst hlast ?_
  obtain ⟨ps, hps, hp⟩ : ∃ ps,
      (Transformer.reconstruction {1}).plans (fun _ => .insertion) (returned {1}) = some ps ∧
        reopenPlan ∈ ps := ⟨_, rfl, by decide +kernel⟩
  have hsources : srcParties [1, 2, 3] (returned {1}) = {1} := by decide +kernel
  refine ⟨.reconstruction {1}, by simp [equivalentRewriters, hsources], 1, fun _ => .insertion,
    ps, hps, reopenPlan, hp, rfl, by decide +kernel, ?_, trivial⟩
  -- what was sent comes after the share that was kept
  have hlt : ∀ d ∈ reopenPlan.dsts, ∀ s ∈ reopenPlan.srcs, s.guid ≠ reopenPlan.node.guid →
      s.guid < ((returned {1}).origin d).guid := by decide +kernel
  exact fun d hd s hs hne hr => absurd (le_of_reaches_returned hr) (hlt d hd s hs hne).not_ge

/-- The coefficients and the shares on one polynomial. -/
def returnedPosition (i : ℕ) : Position (ZMod 5) :=
  if i < 2 then .coeff i else
    .point (returnedReading.point (if i = 2 then 1 else if i < 5 then 2 else 3))

theorem points_returned : Points ({1, 2, 3} : Finset PartyDecl) returnedReading.point where
  inj := by
    intro P hP Q hQ
    simp only [Finset.coe_insert, Finset.coe_singleton, Set.mem_insert_iff,
      Set.mem_singleton_iff] at hP hQ
    rcases hP with rfl | rfl | rfl <;> rcases hQ with rfl | rfl | rfl <;> decide
  ne_zero := by decide

theorem onePolynomial_returned {q : PartyDecl} (hq : q = 2 ∨ q = 3) :
    OnePolynomial (returned {q}) 0 {1, 2, 3} returnedReading.point (returnedNodes.take 2)
      returnedPosition where
  inputs := by
    rw [outEdges_returned]
    decide
  coefficient := by
    intro k n hk
    rcases k with - | - | k
    · cases hk
      rfl
    · cases hk
      rfl
    · exact absurd hk (by simp [returnedNodes])
  party := by
    rcases hq with rfl | rfl <;> decide
  share := by
    intro e he
    rw [outEdges_returned] at he
    simp only [List.mem_cons, List.not_mem_nil, or_false] at he
    rcases hq with rfl | rfl <;> rcases he with rfl | rfl | rfl <;> exact ⟨rfl, rfl⟩

/-- The node of a share is told by its name. -/
theorem share_returned
    (hf : Faithful returnedHeap [10] (returned ∅).toGraphBase nodeOf coeffOf) {f : Operation}
    (hedge : (returned ∅).HasEdge f) (ht : f.type = .eval) :
    ∃ e exp P, e ∈ returnedHeap.exprsOf [10] ∧ returnedHeap[e]? = some exp ∧
      f.type = exp.op ∧ f.output.guid = nodeOf e ∧ exp.oprands = [2] ∧ exp.params = [P] ∧
      (f.output.guid = 2 ∧ P = 1 ∨ f.output.guid = 3 ∧ P = 2 ∨ f.output.guid = 6 ∧ P = 3) := by
  obtain ⟨e, exp, he, hexp, -, -, htype, hout, -⟩ :=
    hf.exists_expression (wellFormed_returned ∅) hedge
  obtain ⟨n, hn, hname, -⟩ := hf.node e he exp hexp
  have hop := htype.symm.trans ht
  have hnames : ∀ i < 10, ∀ n, (returned ∅).node? i = some n → (n.name = "share_0" → i = 2) ∧
      (n.name = "share_1" → i = 3) ∧ (n.name = "share_3" → i = 6) := by
    intro i hi n hn
    interval_cases i <;> obtain rfl := Option.some.inj hn <;> decide
  have hnode := hnames _ (GraphBase.lt_of_node? hn) n hn
  have hlt := lt_of_getElem?_some hexp
  rw [show returnedHeap.length = 11 from rfl] at hlt
  refine ⟨e, exp, if e = 3 then 1 else if e = 4 then 2 else 3, he, hexp, htype, hout, ?_⟩
  interval_cases e <;> obtain rfl := Option.some.inj hexp
  all_goals first | exact absurd hop (by decide) | skip
  · exact ⟨rfl, rfl, .inl ⟨hout.trans (hnode.1 hname), rfl⟩⟩
  · exact ⟨rfl, rfl, .inr (.inl ⟨hout.trans (hnode.2.1 hname), rfl⟩)⟩
  · exact ⟨rfl, rfl, .inr (.inr ⟨hout.trans (hnode.2.2 hname), rfl⟩)⟩

/-- The match with party `q` corrupted: the sharing, with its share as the source. -/
def resharePlan (q : PartyDecl) : Plan :=
  if q = 2 then
    ⟨returnedNode 0,
      [returnedEdges[1], returnedEdges[4], returnedEdges[3], returnedEdges[7]],
      [⟨.transit, [returnedNode 4], returnedNode 3⟩], .eval, [returnedNode 0, returnedNode 3],
      [returnedNode 2, returnedNode 1, returnedNode 6]⟩
  else
    ⟨returnedNode 0,
      [returnedEdges[1], returnedEdges[4], returnedEdges[7], returnedEdges[6]],
      [⟨.transit, [returnedNode 7], returnedNode 6⟩], .eval, [returnedNode 0, returnedNode 6],
      [returnedNode 2, returnedNode 3, returnedNode 1]⟩

theorem regularRun_reshare {q : PartyDecl} (hq : q = 2 ∨ q = 3)
    (hf : Faithful returnedHeap [10] (returned ∅).toGraphBase nodeOf coeffOf) :
    RegularRun
      ((returned {q}).executions (returnedHeap.computation returnedReading [10] nodeOf))
      .sequential (equivalentRewriters [1, 2, 3] (returned {q})) (returned {q}) := by
  have hfirst : selectMin .sequential 0 (returned {q}) []
      (equivalentRewriters [1, 2, 3] (returned {q})) 0 none =
        some (some (returnedNode 0, (resharePlan q).result 1 (returned {q}))) := by
    rcases hq with rfl | rfl <;> decide +kernel
  have hlast : selectMin .sequential 1 ((resharePlan q).result 1 (returned {q}))
      [((resharePlan q).result 1 (returned {q})).key 1]
        (equivalentRewriters [1, 2, 3] (returned {q})) 0 none = some none := by
    rcases hq with rfl | rfl <;> decide +kernel
  refine regularRun_of_single hfirst hlast ?_
  obtain ⟨ps, hps, hp⟩ : ∃ ps,
      (Transformer.sharing {q}).plans (fun _ => .insertion) (returned {q}) = some ps ∧
        resharePlan q ∈ ps := by
    rcases hq with rfl | rfl
    · exact ⟨_, rfl, by decide +kernel⟩
    · exact ⟨_, rfl, by decide +kernel⟩
  have hsources : srcParties [1, 2, 3] (returned {q}) = {q} := by
    rcases hq with rfl | rfl <;> decide +kernel
  have hcoins : ((resharePlan q).result 1 (returned {q})).randomNodeCnt =
      (returned {q}).randomNodeCnt := by
    rcases hq with rfl | rfl <;> decide +kernel
  have hwf := wellFormed_returned {q}
  refine ⟨.sharing {q}, by simp [equivalentRewriters, hsources], 1, fun _ => .insertion, ps, hps,
    resharePlan q, hp, rfl, hcoins, ?_, ?_⟩
  · -- no edge that is kept ends in a source
    have hkept : ∀ s ∈ (resharePlan q).srcs,
        (∀ f ∈ returnedEdges, f ∉ (resharePlan q).edgesToEliminate → f.output.guid ≠ s.guid) ∧
          ∀ d ∈ (resharePlan q).dsts, d.guid ≠ s.guid := by
      rcases hq with rfl | rfl <;> decide
    intro d hd s hs hr
    rcases Relation.ReflTransGen.cases_tail hr with hds | ⟨i, -, f, hedge, hne, -, hfs⟩
    · exact (hkept s hs).2 d hd hds.symm
    · exact (hkept s hs).1 f (hasEdge_returned.1 hedge) hne hfs
  · have hone := onePolynomial_returned hq
    have hnode : (resharePlan q).node.guid = 0 := by rcases hq with rfl | rfl <;> rfl
    refine (planShape_of_mem_plans hwf hps hp).dealtMatch hwf rfl points_returned
      (hnode.symm ▸ hone) (fun val hval f hout => ?_) (fun src hsrc => ?_) fun src hsrc => ?_
    · rw [hnode] at hout
      rw [toGraphBase_returned] at hval
      have hmem := (@hasEdge_returned {q} f).1 (hwf.mem_outEdges.1 hout).1
      have hedge := (@hasEdge_returned ∅ f).2 hmem
      have ht := type_of_mem_outEdges_returned hout
      obtain ⟨e, exp, P, he, hexp, htype, hnode, hx, hpar, hP⟩ := share_returned hf hedge ht
      have hin := hone.inputs f hout
      refine hf.fitted_of_eval sound_returned hval hedge he hexp htype hnode
        (htype.symm.trans ht) hx hpar (by decide) (by rw [hin]; rfl)
        (fun k n hn => hone.coefficient k n (hin ▸ hn)) ?_
      rcases hP with ⟨hout, rfl⟩ | ⟨hout, rfl⟩ | ⟨hout, rfl⟩ <;> rw [hout] <;> rfl
    · cases hsrc
      rcases hq with rfl | rfl <;> decide
    · cases hsrc

end Returned

theorem graph_computes_returned : ∃ nodeOf coeffOf,
    Faithful returnedHeap [10] (returned ∅).toGraphBase nodeOf coeffOf ∧
      ∀ val ∈ (returned ∅).executions (returnedHeap.computation returnedReading [10] nodeOf),
        val (nodeOf 10) = val (nodeOf 1) := by
  obtain ⟨w, fe, mem, h, hheap, hb⟩ := exists_run_returned
  obtain ⟨nodeOf, coeffOf, hf, hall⟩ := ProtocolRun.graph_computes h reads_returned hb
  rw [hheap] at hf hall
  refine ⟨nodeOf, coeffOf, hf, fun val hval => ?_⟩
  obtain ⟨y, hy, hvalue⟩ := (hall fun e => val (nodeOf e)).2 val hval (fun _ _ => rfl) 0 10 rfl
  cases hy
  rw [hvalue]
  exact Heap.value_input sound_returned (show returnedHeap[1]? = some _ from rfl) rfl rfl

theorem private_of_program_returned : ∃ nodeOf coeffOf,
    Faithful returnedHeap [10] (returned ∅).toGraphBase nodeOf coeffOf ∧
      ∀ C ⊆ [1, 2, 3].toFinset, C.card ≤ 1 →
        Prover.Simulated ((returned ∅).toGraphBase.toGraph 3 1 C)
          (returnedHeap.computation returnedReading [10] nodeOf) := by
  obtain ⟨w, fe, mem, h, hheap, hb⟩ := exists_run_returned
  obtain ⟨nodeOf, coeffOf, hf, hall⟩ :=
    ProtocolRun.private_of_program h reads_returned (by decide) hb
  rw [hheap] at hf hall
  refine ⟨nodeOf, coeffOf, hf, hall (fun _ => .sequential) (.serial _) ?_ (by decide +kernel)⟩
  rw [startGraphs_returned]
  intro g hg
  simp only [List.mem_cons, List.not_mem_nil, or_false] at hg
  rcases hg with rfl | rfl | rfl
  · exact regularRun_reshare (.inr rfl) hf
  · exact regularRun_reshare (.inl rfl) hf
  · exact regularRun_reopen _

end Bgw

end Gauv
