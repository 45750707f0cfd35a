import Gauv.Mpcgraph.Evaluation

/-!
# Arithmetic circuits of variables

A program makes variables by sharing expressions and by the operators of the
class, with any other calls in between.  Whatever the program, each variable is
a sharing of the value that the circuit computes there: its `i`-th share is held
by the `i`-th party, the shares lie on one polynomial of degree at most `T`, and
its value at `0` is the one `yield` returns.
-/

namespace Gauv

namespace Bgw

/-! ## Programs -/

/-- A step of a program: a call of the front end, or an operation that makes the
next variable from expressions, given by address, and variables, given by the
order in which they were made. -/
inductive Gate where
  | call (c : Call)
  | share (s : ℕ)
  | add (i j : ℕ)
  | mulConst (i c : ℕ)
  | mul (i j : ℕ)
  deriving DecidableEq, Repr

/-- The context and the variables made so far. -/
structure Wires where
  ctx : Context
  vars : List Variable
  deriving DecidableEq, Repr

namespace Wires

def push (w : Wires) (v : Variable) : Wires := { w with vars := w.vars ++ [v] }

def varAt (w : Wires) (i : ℕ) : FrontM Variable :=
  match w.vars[i]? with
  | some v => return v
  | none => throw .undefined

end Wires

/-- Run one step of the program. -/
def Gate.run (w : Wires) : Gate → FrontM Wires
  | .call c => do
      c.run
      return w
  | .share s => do
      let v ← Variable.share w.ctx s
      return w.push v
  | .add i j => do
      let a ← w.varAt i
      let b ← w.varAt j
      let v ← Variable.add w.ctx a b
      return w.push v
  | .mulConst i c => do
      let a ← w.varAt i
      let v ← Variable.mulConst w.ctx a c
      return w.push v
  | .mul i j => do
      let a ← w.varAt i
      let b ← w.varAt j
      let (v, ctx) ← Variable.mul w.ctx a b
      return { w.push v with ctx := ctx }

/-- Run a program in the context `ctx`. -/
def runGates (ctx : Context) (gates : List Gate) : FrontM Wires :=
  gates.foldlM Gate.run ⟨ctx, []⟩

variable {F : Type*} [Field F]

/-- The value the circuit computes at the variable the step makes, from the values
`val` of expressions and those of the earlier variables. -/
def Gate.value (val : ℕ → F) (xs : List F) : Gate → List F
  | .call _ => xs
  | .share s => xs ++ [val s]
  | .add i j => xs ++ [xs.getD i 0 + xs.getD j 0]
  | .mulConst i c => xs ++ [xs.getD i 0 * val c]
  | .mul i j => xs ++ [xs.getD i 0 * xs.getD j 0]

/-- The values of all variables of a program. -/
def circuitValues (val : ℕ → F) (gates : List Gate) : List F :=
  gates.foldl (Gate.value val) []

end Bgw

/-! ## What a run of calls leaves in the heap -/

section Heap

variable {F : Type*} [Field F] {fe fe' : Frontend} {heap : Heap} {r : ℕ} {e : Expression}

theorem Frontend.Allocs.getElem? (h : fe.Allocs fe' r e) (hpre : fe'.heap <+: heap) :
    heap[r]? = some e := by
  refine Heap.getElem?_of_isPrefix hpre ?_
  rw [h.1, h.2, List.getElem?_concat_length]

/-- What each call of a loop returned, and that nothing later touched it. -/
theorem FrontM.mapM_ok {α β : Type} {f : α → FrontM β} (hf : ∀ a, KeepsSound (f a)) {l : List α}
    {bs : List β} (hs : fe.heap.Sound) (h : l.mapM f fe = .ok (bs, fe')) :
    bs.length = l.length ∧ ∀ (i : ℕ) (b : β), bs[i]? = some b → ∃ a, l[i]? = some a ∧
      ∃ fe₁ fe₂, fe₁.heap.Sound ∧ fe.heap <+: fe₁.heap ∧ f a fe₁ = .ok (b, fe₂) ∧
        fe₂.heap <+: fe'.heap := by
  induction l generalizing fe bs with
  | nil =>
      rw [List.mapM_nil] at h
      cases pure_ok.1 h
      exact ⟨rfl, by simp⟩
  | cons a l ih =>
      simp only [List.mapM_cons, bind_ok] at h
      obtain ⟨b, fe₁, hb, bs', fe₂, hbs, hp⟩ := h
      cases pure_ok.1 hp
      obtain ⟨hs₁, hpre₁⟩ := hf a _ _ _ hb hs
      obtain ⟨hlen, hall⟩ := ih hs₁ hbs
      have hpre₂ := (KeepsSound.mapM hf l _ _ _ hbs hs₁).2
      refine ⟨by rw [List.length_cons, List.length_cons, hlen], fun i b' hb' => ?_⟩
      cases i with
      | zero =>
          rw [List.getElem?_cons_zero, Option.some.injEq] at hb'
          exact ⟨a, rfl, fe, fe₁, hs, List.prefix_refl _, hb' ▸ hb, hpre₂⟩
      | succ i =>
          rw [List.getElem?_cons_succ] at hb'
          obtain ⟨a', ha', fe₃, fe₄, hs₃, hpre₃, hf', hpre₄⟩ := hall i b' hb'
          exact ⟨a', ha', fe₃, fe₄, hs₃, hpre₁.trans hpre₃, hf', hpre₄⟩

end Heap

namespace Bgw

open FrontM Sharing

variable {F : Type*} [Field F]

/-! ## Variables that share a value -/

/-- `a` is a share in `heap` that the party holds. -/
def HeldShare (heap : Heap) (type : Ty) (a : ℕ) (party : PartyDecl) : Prop :=
  ∃ e, heap[a]? = some e ∧ e.isShare = true ∧ e.party = party ∧ e.type = type

/-- The variable is a sharing of `x`, of degree `T`, among the parties. -/
structure Represents (ρ : Reading F) (T : ℕ) (heap : Heap) (v : Variable) (x : F) : Prop where
  length : v.length = ρ.parties.length
  held : ∃ type, ∀ (i a : ℕ), v[i]? = some a →
    ∃ p, ρ.parties[i]? = some p ∧ HeldShare heap type a p
  sharing : IsSharing ρ.pointAt ρ.parties.length T (fun i => heap.value ρ (v.getD i 0)) x

variable {ρ : Reading F} {heap : Heap} {fe fe' : Frontend} {ctx : Context} {v w r : Variable}
  {x y : F} {T : ℕ}

theorem shareAt_ok {i : ℕ} {q : ℕ × Frontend} :
    Variable.shareAt v i fe = .ok q ↔ v[i]? = some q.1 ∧ q.2 = fe := by
  obtain ⟨a, fe'⟩ := q
  rw [Variable.shareAt]
  cases hv : v[i]? with
  | none => simp [throw_ok]
  | some b =>
      refine pure_ok.trans ?_
      rw [Prod.mk.injEq, Option.some.injEq, eq_comm (a := a)]

theorem HeldShare.mono {heap' : Heap} {type : Ty} {a : ℕ} {party : PartyDecl}
    (h : HeldShare heap type a party) (hpre : heap <+: heap') :
    HeldShare heap' type a party := by
  obtain ⟨e, he, hrest⟩ := h
  exact ⟨e, Heap.getElem?_of_isPrefix hpre he, hrest⟩

theorem HeldShare.lt {type : Ty} {a : ℕ} {party : PartyDecl}
    (h : HeldShare heap type a party) : a < heap.length := by
  obtain ⟨e, he, -⟩ := h
  exact lt_of_getElem?_some he

theorem HeldShare.of_isPrefix {heap₁ : Heap} {type : Ty} {a : ℕ} {party : PartyDecl}
    {e : Expression} (h : HeldShare heap type a party) (hpre : heap₁ <+: heap)
    (he : heap₁[a]? = some e) : e.party = party ∧ e.type = type := by
  obtain ⟨e', he', -, hparty, htype⟩ := h
  have hgrown := Heap.getElem?_of_isPrefix hpre he
  obtain rfl : e = e' := Option.some.inj (hgrown.symm.trans he')
  exact ⟨hparty, htype⟩

theorem getD_of_getElem? {i a : ℕ} (h : v[i]? = some a) : v.getD i 0 = a := by
  rw [List.getD_eq_getElem?_getD, h, Option.getD_some]

/-- A heap that grows keeps what the variables in it share. -/
theorem Represents.mono {heap' : Heap} (h : Represents ρ T heap v x) (hpre : heap <+: heap')
    (hs : heap'.Sound) : Represents ρ T heap' v x := by
  obtain ⟨type, hheld⟩ := h.held
  refine ⟨h.length, ⟨type, fun i a ha => ?_⟩, h.sharing.congr fun i hi => ?_⟩
  · obtain ⟨p, hp, hsh⟩ := hheld i a ha
    exact ⟨p, hp, hsh.mono hpre⟩
  · obtain ⟨p, -, hsh⟩ := hheld i _ (List.getElem?_eq_getElem (h.length ▸ hi))
    rw [getD_of_getElem? (List.getElem?_eq_getElem (h.length ▸ hi))]
    exact Heap.value_of_isPrefix hs hpre hsh.lt

/-! ## The calls on shares -/

theorem transfer_held {s q : ℕ} {p p₀ : PartyDecl} {type : Ty}
    (h : Share.transfer s p fe = .ok (q, fe')) (hs : fe.heap.Sound)
    (hpre : fe'.heap <+: heap) (hheap : heap.Sound) (hsh : HeldShare heap type s p₀) :
    HeldShare heap type q p ∧ heap.value ρ q = heap.value ρ s := by
  have hgrow := (Share.keepsSound_transfer s p _ _ _ h hs).2
  obtain ⟨es, hes, -, hcase⟩ := Share.transfer_ok h
  obtain ⟨hparty, htype⟩ := hsh.of_isPrefix (hgrow.trans hpre) hes
  rcases hcase with ⟨hp, rfl, -⟩ | ⟨-, name, hal⟩
  · rw [← hp, hparty]
    exact ⟨hsh, rfl⟩
  · have hq := hal.getElem? hpre
    exact ⟨⟨_, hq, rfl, rfl, htype⟩, Heap.value_eq hheap hq⟩

/-- The share that the dealer of a polynomial sends to a party. -/
theorem deal_held {poly q degree c : ℕ} {p dealer : PartyDecl} {type : Ty} {pe : Expression}
    (h : Variable.deal poly p fe = .ok (q, fe')) (hs : fe.heap.Sound)
    (hpre : fe'.heap <+: heap) (hheap : heap.Sound) (hpe : heap[poly]? = some pe)
    (hcls : pe.cls = .poly degree dealer c) (htype : pe.type = .poly type) :
    HeldShare heap type q p ∧
      heap.value ρ q = evalPoly (heap.value ρ c) degree (ρ.coef poly) (ρ.point p) := by
  obtain ⟨s, fe₁, heval, htransfer⟩ := bind_ok.1 h
  obtain ⟨hs₁, hpre₁⟩ := Poly.keepsSound_eval poly p _ _ _ heval hs
  have hpre₂ := ((Share.keepsSound_transfer s p _ _ _ htransfer hs₁).2).trans hpre
  obtain ⟨ep, degree', dealer', c', type', name, hep, -, htype', hal⟩ := Poly.eval_ok heval
  have hep' := Heap.getElem?_of_isPrefix (hpre₁.trans hpre₂) hep
  obtain rfl : ep = pe := Option.some.inj (hep'.symm.trans hpe)
  obtain rfl : type' = type := by simpa [htype] using htype'.symm
  have hse := hal.getElem? hpre₂
  obtain ⟨hheld, hval⟩ := transfer_held (ρ := ρ) htransfer hs₁ hpre hheap ⟨_, hse, rfl, rfl, rfl⟩
  refine ⟨hheld, ?_⟩
  rw [hval, Heap.value_eq hheap hse]
  simp only [Expression.value, hpe, Option.map_some, hcls]

/-! ## The operators on variables -/

/-- The constructor `Variable(ctx, s)` shares the value of `s`. -/
theorem share_represents {s : ℕ} (h : Variable.share ctx s fe = .ok (r, fe'))
    (hs : fe.heap.Sound) (hpre : fe'.heap <+: heap) (hheap : heap.Sound)
    (hparties : ctx.parties = ρ.parties) :
    Represents ρ ctx.T heap r (heap.value ρ s) := by
  simp only [Variable.share, bind_ok, deref_ok] at h
  obtain ⟨es, _, ⟨hes, rfl⟩, poly, fe₁, hpoly, hloop⟩ := h
  obtain ⟨hs₁, hpre₁⟩ := Poly.keepsSound_genPoly _ _ _ _ _ _ hpoly hs
  have hloop_pre :=
    ((KeepsSound.mapM (Variable.keepsSound_deal poly) _ _ _ _ hloop hs₁).2).trans hpre
  obtain ⟨ec, name, hec, -, hal⟩ := Poly.genPoly_ok hpoly
  have hpe := hal.getElem? hloop_pre
  obtain ⟨hlen, hall⟩ := mapM_ok (Variable.keepsSound_deal poly) hs₁ hloop
  have hdeal : ∀ (i q : ℕ), r[i]? = some q → ∃ p, ρ.parties[i]? = some p ∧
      HeldShare heap ec.type q p ∧ heap.value ρ q =
        evalPoly (heap.value ρ s) ctx.T (ρ.coef poly) (ρ.point p) := by
    intro i q hq
    obtain ⟨p, hp, fe₂, fe₃, hs₂, -, hdeal, hpre₃⟩ := hall i q hq
    exact ⟨p, hparties ▸ hp,
      deal_held hdeal hs₂ (hpre₃.trans hpre) hheap hpe rfl rfl⟩
  rw [hparties] at hlen
  refine ⟨hlen, ⟨ec.type, fun i q hq => ?_⟩,
    (isSharing_evalPoly ρ.pointAt _ _ ctx.T (ρ.coef poly)).congr fun i hi => ?_⟩
  · obtain ⟨p, hp, hheld, -⟩ := hdeal i q hq
    exact ⟨p, hp, hheld⟩
  · have hq := List.getElem?_eq_getElem (hlen ▸ hi)
    obtain ⟨p, hp, -, hval⟩ := hdeal i _ hq
    rw [getD_of_getElem? hq, hval, Reading.pointAt, List.getD_eq_getElem?_getD, hp,
      Option.getD_some]

/-- The members of an operator that makes one share from each of `v`. -/
theorem Represents.of_shares (type : Ty) (hv : Represents ρ T heap v x) {z : F} {s : ℕ → F}
    (hlen : r.length = ρ.parties.length) (hz : IsSharing ρ.pointAt ρ.parties.length T s z)
    (h : ∀ (i q a : ℕ), r[i]? = some q → v[i]? = some a → ∃ p, ρ.parties[i]? = some p ∧
      HeldShare heap type q p ∧ heap.value ρ q = s i) : Represents ρ T heap r z := by
  refine ⟨hlen, ⟨type, fun i q hq => ?_⟩, hz.congr fun i hi => ?_⟩
  · have hi := lt_of_getElem?_some hq
    rw [hlen, ← hv.length] at hi
    obtain ⟨p, hp, hheld, -⟩ := h i q _ hq (List.getElem?_eq_getElem hi)
    exact ⟨p, hp, hheld⟩
  · have hq := List.getElem?_eq_getElem (hlen ▸ hi)
    obtain ⟨p, -, -, hval⟩ := h i _ _ hq (List.getElem?_eq_getElem (hv.length ▸ hi))
    rw [getD_of_getElem? hq, hval]

theorem add_represents (h : Variable.add ctx v w fe = .ok (r, fe')) (hs : fe.heap.Sound)
    (hpre : fe'.heap <+: heap) (hheap : heap.Sound) (hparties : ctx.parties = ρ.parties)
    (hv : Represents ρ T heap v x) (hw : Represents ρ T heap w y) :
    Represents ρ T heap r (x + y) := by
  obtain ⟨hlen, hall⟩ := mapM_ok (Variable.keepsSound_addAt v w) hs h
  rw [List.length_range, Context.N, hparties] at hlen
  obtain ⟨type, hheld⟩ := hv.held
  refine hv.of_shares type hlen (hv.sharing.add hw.sharing) fun i q a hq ha => ?_
  obtain ⟨j, hj, fe₁, fe₂, hs₁, -, hadd, hpre₂⟩ := hall i q hq
  obtain ⟨rfl, -⟩ := of_getElem?_range hj
  simp only [bind_ok, shareAt_ok] at hadd
  obtain ⟨a', _, ⟨ha', rfl⟩, b, _, ⟨hb, rfl⟩, hadd⟩ := hadd
  obtain rfl : a = a' := Option.some.inj (ha.symm.trans ha')
  have hgrow := (Share.keepsSound_binaryOp a b (.inl rfl) _ _ _ hadd hs₁).2
  obtain ⟨ea, eb, name, hea, -, heb, -, -, hal⟩ := Share.binaryOp_ok hadd
  obtain ⟨p, hp, hsh⟩ := hheld j a ha
  obtain ⟨hparty, htype⟩ := hsh.of_isPrefix ((hgrow.trans hpre₂).trans hpre) hea
  have hqe := hal.getElem? (hpre₂.trans hpre)
  refine ⟨p, hp, ⟨_, hqe, rfl, hparty, htype⟩, ?_⟩
  rw [Heap.value_eq hheap hqe, getD_of_getElem? ha, getD_of_getElem? hb]
  rfl

theorem mulConst_represents {c : ℕ} (h : Variable.mulConst ctx v c fe = .ok (r, fe'))
    (hs : fe.heap.Sound) (hpre : fe'.heap <+: heap) (hheap : heap.Sound)
    (hparties : ctx.parties = ρ.parties) (hv : Represents ρ T heap v x) :
    Represents ρ T heap r (x * heap.value ρ c) := by
  simp only [Variable.mulConst, bind_ok] at h
  obtain ⟨scaled, _, hloop, hp⟩ := h
  cases pure_ok.1 hp
  obtain ⟨hlen, hall⟩ := mapM_ok (Variable.keepsSound_mulConstAt v c) hs hloop
  rw [List.length_range, Context.N, hparties] at hlen
  have hdrop : v.drop ctx.N = [] := by
    rw [List.drop_eq_nil_iff, hv.length, Context.N, hparties]
  rw [hdrop, List.append_nil]
  obtain ⟨type, hheld⟩ := hv.held
  refine hv.of_shares type hlen (hv.sharing.mul_const _) fun i q a hq ha => ?_
  obtain ⟨j, hj, fe₁, fe₂, hs₁, -, hmul, hpre₂⟩ := hall i q hq
  obtain ⟨rfl, -⟩ := of_getElem?_range hj
  simp only [bind_ok, shareAt_ok] at hmul
  obtain ⟨a', _, ⟨ha', rfl⟩, hmul⟩ := hmul
  obtain rfl : a = a' := Option.some.inj (ha.symm.trans ha')
  have hgrow := (Share.keepsSound_scalarMul a c _ _ _ hmul hs₁).2
  obtain ⟨ea, ec, name, hea, -, hec, -, hal⟩ := Share.scalarMul_ok hmul
  obtain ⟨p, hp, hsh⟩ := hheld j a ha
  obtain ⟨hparty, htype⟩ := hsh.of_isPrefix ((hgrow.trans hpre₂).trans hpre) hea
  have hqe := hal.getElem? (hpre₂.trans hpre)
  refine ⟨p, hp, ⟨_, hqe, rfl, hparty, htype⟩, ?_⟩
  rw [Heap.value_eq hheap hqe, getD_of_getElem? ha]
  rfl

/-- The product of the `k`-th shares. -/
def productAt (ρ : Reading F) (heap : Heap) (v w : Variable) (k : ℕ) : F :=
  heap.value ρ (v.getD k 0) * heap.value ρ (w.getD k 0)

/-- The weighted sum of the first `n` products of shares. -/
def partialProduct (ρ : Reading F) (heap : Heap) (v w : Variable) (n : ℕ) : F :=
  ∑ k ∈ Finset.range n, weight ρ.pointAt ρ.parties.length k * productAt ρ heap v w k

/-- A round of the loop of `operator*` adds a weighted sharing of the product of
the shares at the party. -/
theorem mulRound_represents {sum : Variable} {i : ℕ}
    (h : Variable.mulRound ctx v w sum i fe = .ok (r, fe')) (hs : fe.heap.Sound)
    (hpre : fe'.heap <+: heap) (hheap : heap.Sound) (hparties : ctx.parties = ρ.parties)
    (hweight : ρ.constant (Variable.lambdaName ctx i) = weight ρ.pointAt ρ.parties.length i)
    (hsum : 0 < i → Represents ρ ctx.T heap sum (partialProduct ρ heap v w i)) :
    Represents ρ ctx.T heap r (partialProduct ρ heap v w (i + 1)) := by
  simp only [Variable.mulRound, bind_ok, shareAt_ok] at h
  obtain ⟨a, _, ⟨ha, rfl⟩, b, _, ⟨hb, rfl⟩, product, fe₁, hproduct, inter, fe₂, hinter,
    lambda, fe₃, hlambda, term, fe₄, hterm, hlast⟩ := h
  obtain ⟨hs₁, -⟩ := Share.keepsSound_binaryOp a b (.inr (.inr (.inl rfl))) _ _ _ hproduct hs
  obtain ⟨hs₂, hpre₂⟩ := Variable.keepsSound_share ctx product _ _ _ hinter hs₁
  obtain ⟨hs₃, hpre₃⟩ := keepsSound_newConstant _ _ _ _ hlambda hs₂
  obtain ⟨hs₄, hpre₄⟩ := Variable.keepsSound_mulConst ctx inter lambda _ _ _ hterm hs₃
  have hgrow₅ : fe₄.heap <+: heap := by
    split at hlast
    · cases pure_ok.1 hlast
      exact hpre
    · exact (Variable.keepsSound_add ctx sum term _ _ _ hlast hs₄).2.trans hpre
  have hgrow₄ := hpre₄.trans hgrow₅
  have hgrow₃ := hpre₃.trans hgrow₄
  -- the product at the party, its sharing, and the weighted sharing
  obtain ⟨ea, eb, name, -, -, -, -, -, hal⟩ := Share.binaryOp_ok hproduct
  have hval : heap.value ρ product = productAt ρ heap v w i := by
    rw [Heap.value_eq hheap (hal.getElem? (hpre₂.trans hgrow₃)), productAt,
      getD_of_getElem? ha, getD_of_getElem? hb]
    rfl
  have hinter' := share_represents (ρ := ρ) hinter hs₁ hgrow₃ hheap hparties
  have hlambdaval : heap.value ρ lambda = weight ρ.pointAt ρ.parties.length i := by
    rw [Heap.value_eq hheap ((newConstant_ok hlambda).getElem? hgrow₄), ← hweight]
    rfl
  have hterm' := mulConst_represents hterm hs₃ hgrow₅ hheap hparties hinter'
  rw [hval, hlambdaval, mul_comm] at hterm'
  rw [partialProduct, Finset.sum_range_succ]
  split at hlast
  · rename_i hi
    cases pure_ok.1 hlast
    subst hi
    simpa using hterm'
  · rename_i hi
    exact add_represents hlast hs₄ hpre hheap hparties (hsum (Nat.pos_of_ne_zero hi)) hterm'

theorem mulLoop_represents {n : ℕ} {sum : Variable}
    (h : (List.range n).foldlM (Variable.mulRound ctx v w) [] fe = .ok (sum, fe'))
    (hs : fe.heap.Sound) (hpre : fe'.heap <+: heap) (hheap : heap.Sound)
    (hparties : ctx.parties = ρ.parties)
    (hweight : ∀ i < n, ρ.constant (Variable.lambdaName ctx i) =
      weight ρ.pointAt ρ.parties.length i) (hn : 0 < n) :
    Represents ρ ctx.T heap sum (partialProduct ρ heap v w n) := by
  induction n generalizing sum fe' with
  | zero => exact absurd hn (lt_irrefl 0)
  | succ n ih =>
      rw [List.range_succ, List.foldlM_append] at h
      obtain ⟨sum₁, fe₁, h₁, h₂⟩ := bind_ok.1 h
      rw [List.foldlM_cons] at h₂
      obtain ⟨sum₂, fe₂, hround, hp⟩ := bind_ok.1 h₂
      cases pure_ok.1 hp
      have hs₁ := (KeepsSound.foldlM (Variable.keepsSound_mulRound ctx v w) [] _ _ _ _ h₁ hs).1
      have hpre₁ := (Variable.keepsSound_mulRound ctx v w sum₁ n _ _ _ hround hs₁).2
      exact mulRound_represents hround hs₁ hpre hheap hparties (hweight n n.lt_succ_self)
        (ih h₁ (hpre₁.trans hpre) fun i hi => hweight i (hi.trans n.lt_succ_self))

/-- What a reading must give: the parties of the context at distinct points, enough
of them for a product, and the Lagrange coefficients as the constants of the
multiplications. -/
structure Reads (ρ : Reading F) (ctx : Context) : Prop where
  parties : ctx.parties = ρ.parties
  enough : 2 * ctx.T + 1 ≤ ctx.N
  distinct : (ctx.parties.map ρ.point).Nodup
  weights : ∀ k i, i < ctx.N → ρ.constant (Variable.lambdaName { ctx with mulCounter := k } i) =
    weight ρ.pointAt ctx.N i

theorem Reads.injOn (h : Reads ρ ctx) :
    Set.InjOn ρ.pointAt (Finset.range ρ.parties.length) := by
  intro i hi j hj hij
  have hd := h.distinct
  rw [h.parties] at hd
  rw [Finset.coe_range, Set.mem_Iio] at hi hj
  rw [Reading.pointAt, Reading.pointAt, List.getD_eq_getElem _ _ hi,
    List.getD_eq_getElem _ _ hj] at hij
  refine (@List.Nodup.getElem_inj_iff _ _ hd i (by simpa using hi) j (by simpa using hj)).1 ?_
  rwa [List.getElem_map, List.getElem_map]

/-- **Multiplication.**  The shares of the products, dealt by their holders and
combined with the Lagrange coefficients, share the product. -/
theorem mul_represents {ctx' : Context} (hρ : Reads ρ ctx)
    (h : Variable.mul ctx v w fe = .ok ((r, ctx'), fe')) (hs : fe.heap.Sound)
    (hpre : fe'.heap <+: heap) (hheap : heap.Sound)
    (hv : Represents ρ ctx.T heap v x) (hw : Represents ρ ctx.T heap w y) :
    Represents ρ ctx.T heap r (x * y) := by
  obtain ⟨sum, fe₁, hloop, hp⟩ := bind_ok.1 h
  cases pure_ok.1 hp
  have hN : ctx.N = ρ.parties.length := congrArg List.length hρ.parties
  have henough := hρ.enough
  have hsum := mulLoop_represents hloop hs hpre hheap hρ.parties
    (fun i hi => (hρ.weights ctx.mulCounter i hi).trans (by rw [hN])) (by omega)
  have hproduct := (hv.sharing.mul hw.sharing).reconstruct (by omega) hρ.injOn
  rw [hN, partialProduct] at hsum
  simp only [productAt, hproduct] at hsum
  exact hsum

/-! ## Reconstruction at a party -/

theorem transfers_return {type : Ty} {v : Variable} (p : PartyDecl) (hs : fe.heap.Sound)
    (h : ∀ a ∈ v, ∃ p₀, HeldShare fe.heap type a p₀) :
    ∃ qs fe', (v.mapM fun s => Share.transfer s p : FrontM (List ℕ)) fe = .ok (qs, fe') := by
  induction v generalizing fe with
  | nil => exact ⟨[], fe, rfl⟩
  | cons a v ih =>
      obtain ⟨⟨p₀, e, he, hshare, -⟩, hv⟩ := List.forall_mem_cons.1 h
      obtain ⟨q, fe₁, hq⟩ := Share.transfer_returns he hshare p
      obtain ⟨hs₁, hpre₁⟩ := Share.keepsSound_transfer a p _ _ _ hq hs
      obtain ⟨qs, fe', hqs⟩ := ih hs₁ fun b hb => by
        obtain ⟨p₁, hb'⟩ := hv b hb
        exact ⟨p₁, hb'.mono hpre₁⟩
      refine ⟨q :: qs, fe', ?_⟩
      rw [List.mapM_cons]
      exact bind_ok.2 ⟨q, fe₁, hq, bind_ok.2 ⟨qs, fe', hqs, pure_ok.2 rfl⟩⟩

/-- The shares that `yield` reconstructs from are at the party, with the values of
the shares of the variable. -/
theorem transfers_held {type : Ty} {qs : List ℕ} {p : PartyDecl}
    (h : (v.mapM fun s => Share.transfer s p : FrontM (List ℕ)) fe = .ok (qs, fe'))
    (hs : fe.heap.Sound) (hpre : fe'.heap <+: heap) (hheap : heap.Sound)
    (hv : ∀ (i a : ℕ), v[i]? = some a → ∃ p₀, HeldShare heap type a p₀) :
    qs.length = v.length ∧ ∀ (i q : ℕ), qs[i]? = some q →
      HeldShare heap type q p ∧ heap.value ρ q = heap.value ρ (v.getD i 0) := by
  obtain ⟨hlen, hall⟩ := mapM_ok (fun s => Share.keepsSound_transfer s p) hs h
  refine ⟨hlen, fun i q hq => ?_⟩
  obtain ⟨a, ha, fe₁, fe₂, hs₁, -, htransfer, hpre₂⟩ := hall i q hq
  obtain ⟨p₀, hheld⟩ := hv i a ha
  rw [getD_of_getElem? ha]
  exact transfer_held htransfer hs₁ (hpre₂.trans hpre) hheap hheld

/-- `yield` does not throw. -/
theorem yield_returns (hs : fe.heap.Sound) (hv : Represents ρ T fe.heap v x)
    (hpos : 0 < ρ.parties.length) (p : PartyDecl) (name : String) :
    ∃ q fe', Variable.yield v p name fe = .ok (q, fe') := by
  obtain ⟨type, hheld⟩ := hv.held
  have hheld' : ∀ (i a : ℕ), v[i]? = some a → ∃ p₀, HeldShare fe.heap type a p₀ :=
    fun i a ha => ⟨_, (hheld i a ha).choose_spec.2⟩
  obtain ⟨qs, fe₁, hqs⟩ := transfers_return p hs fun a ha => by
    obtain ⟨i, hi⟩ := List.getElem?_of_mem ha
    exact hheld' i a hi
  obtain ⟨hs₁, hpre₁⟩ := KeepsSound.mapM (fun s => Share.keepsSound_transfer s p) v _ _ _ hqs hs
  obtain ⟨hlen, hall⟩ := transfers_held (ρ := ρ) hqs hs (List.prefix_refl _) hs₁ fun i a ha =>
    (hheld' i a ha).imp fun p₀ h => h.mono hpre₁
  have hne : qs ≠ [] := by
    rw [← List.length_pos_iff, hlen, hv.length]
    exact hpos
  obtain ⟨q, fe', hq⟩ := Share.reconstruct_returns hne (fun a ha => by
    obtain ⟨i, hi⟩ := List.getElem?_of_mem ha
    exact (hall i a hi).1) p name
  exact ⟨q, fe', bind_ok.2 ⟨qs, fe₁, hqs, hq⟩⟩

/-- **`yield` returns what the variable shares**, at the party that asked. -/
theorem yield_value {q : ℕ} {p : PartyDecl} {name : String}
    (h : Variable.yield v p name fe = .ok (q, fe')) (hs : fe.heap.Sound)
    (hpre : fe'.heap <+: heap) (hheap : heap.Sound) (hv : Represents ρ T heap v x)
    (hT : T < ρ.parties.length) (hinj : Set.InjOn ρ.pointAt (Finset.range ρ.parties.length)) :
    (∃ e, heap[q]? = some e ∧ e.party = p) ∧ heap.value ρ q = x := by
  obtain ⟨qs, fe₁, hqs, hrec⟩ := bind_ok.1 h
  obtain ⟨hs₁, -⟩ := KeepsSound.mapM (fun s => Share.keepsSound_transfer s p) v _ _ _ hqs hs
  have hpre₁ := (Share.keepsSound_reconstruct qs p name _ _ _ hrec hs₁).2
  obtain ⟨type, hheld⟩ := hv.held
  obtain ⟨hlen, hall⟩ := transfers_held (ρ := ρ) hqs hs (hpre₁.trans hpre) hheap
    fun i a ha => ⟨_, (hheld i a ha).choose_spec.2⟩
  obtain ⟨-, -, type', name', -, -, -, hal⟩ := Share.reconstruct_ok hrec
  have hqe := hal.getElem? hpre
  refine ⟨⟨_, hqe, rfl⟩, ?_⟩
  rw [Heap.value_eq hheap hqe, ← hv.sharing.reconstruct hT hinj]
  simp only [Expression.value, hlen, hv.length]
  refine Finset.sum_congr rfl fun i hi => ?_
  have hi' : i < qs.length := by
    rw [hlen, hv.length]
    exact Finset.mem_range.1 hi
  rw [List.getD_eq_getElem _ _ hi', (hall i _ (List.getElem?_eq_getElem hi')).2]

/-! ## Whole programs -/

/-- The variables made so far share the values `xs`. -/
structure Computes (ρ : Reading F) (ctx : Context) (heap : Heap) (w : Wires) (xs : List F) :
    Prop where
  context : ∃ k, w.ctx = { ctx with mulCounter := k }
  length : w.vars.length = xs.length
  represents : ∀ (i : ℕ) (v : Variable), w.vars[i]? = some v →
    Represents ρ ctx.T heap v (xs.getD i 0)

theorem Wires.varAt_ok {w : Wires} {i : ℕ} {q : Variable × Frontend} :
    w.varAt i fe = .ok q ↔ w.vars[i]? = some q.1 ∧ q.2 = fe := by
  obtain ⟨a, fe'⟩ := q
  rw [Wires.varAt]
  cases hv : w.vars[i]? with
  | none => simp [throw_ok]
  | some b =>
      refine pure_ok.trans ?_
      rw [Prod.mk.injEq, Option.some.injEq, eq_comm (a := a)]

theorem Computes.push {w : Wires} {xs : List F} {v : Variable} {x : F}
    (h : Computes ρ ctx heap w xs) (hv : Represents ρ ctx.T heap v x) :
    Computes ρ ctx heap (w.push v) (xs ++ [x]) := by
  refine ⟨h.context, by simp [Wires.push, h.length], fun i u hu => ?_⟩
  rw [Wires.push] at hu
  rcases Nat.lt_or_ge i w.vars.length with hlt | hge
  · rw [List.getElem?_append_left hlt] at hu
    rw [List.getD_append _ _ _ _ (h.length ▸ hlt)]
    exact h.represents i u hu
  · have hlen := lt_of_getElem?_some hu
    rw [List.length_append, List.length_singleton] at hlen
    obtain rfl : i = w.vars.length := by omega
    rw [List.getElem?_concat_length, Option.some.injEq] at hu
    rw [h.length, List.getD_append_right _ _ _ _ le_rfl, Nat.sub_self]
    exact hu ▸ hv

theorem Gate.keepsSound_run (w : Wires) (g : Gate) : KeepsSound (g.run w) := by
  have hvar : ∀ i, KeepsSound (w.varAt i) := fun i => by
    rw [Wires.varAt]
    split
    · exact keepsSound_pure _
    · exact keepsSound_throw _
  cases g with
  | call c => exact c.keepsSound_run.bind fun _ => keepsSound_pure _
  | share s => exact (Variable.keepsSound_share _ s).bind fun _ => keepsSound_pure _
  | add i j =>
      exact (hvar i).bind fun a => (hvar j).bind fun b =>
        (Variable.keepsSound_add _ a b).bind fun _ => keepsSound_pure _
  | mulConst i c =>
      exact (hvar i).bind fun a =>
        (Variable.keepsSound_mulConst _ a c).bind fun _ => keepsSound_pure _
  | mul i j =>
      exact (hvar i).bind fun a => (hvar j).bind fun b =>
        (Variable.keepsSound_mul _ a b).bind fun _ => keepsSound_pure _

/-- One step of a program. -/
theorem Gate.computes {w w' : Wires} {xs : List F} (hρ : Reads ρ ctx) (g : Gate)
    (h : g.run w fe = .ok (w', fe')) (hs : fe.heap.Sound) (hpre : fe'.heap <+: heap)
    (hheap : heap.Sound) (hw : Computes ρ ctx heap w xs) :
    Computes ρ ctx heap w' (g.value (heap.value ρ) xs) := by
  obtain ⟨k, hk⟩ := hw.context
  have hctx : w.ctx.parties = ρ.parties := by rw [hk]; exact hρ.parties
  have hT : w.ctx.T = ctx.T := by rw [hk]
  cases g with
  | call c =>
      obtain ⟨_, fe₁, -, hp⟩ := bind_ok.1 h
      cases pure_ok.1 hp
      exact hw
  | share s =>
      obtain ⟨v, fe₁, hv, hp⟩ := bind_ok.1 h
      cases pure_ok.1 hp
      exact hw.push (hT ▸ share_represents hv hs hpre hheap hctx)
  | add i j =>
      simp only [Gate.run, bind_ok, Wires.varAt_ok] at h
      obtain ⟨a, _, ⟨ha, rfl⟩, b, _, ⟨hb, rfl⟩, v, fe₁, hv, hp⟩ := h
      cases pure_ok.1 hp
      exact hw.push (add_represents hv hs hpre hheap hctx (hw.represents i a ha)
        (hw.represents j b hb))
  | mulConst i c =>
      simp only [Gate.run, bind_ok, Wires.varAt_ok] at h
      obtain ⟨a, _, ⟨ha, rfl⟩, v, fe₁, hv, hp⟩ := h
      cases pure_ok.1 hp
      exact hw.push (mulConst_represents hv hs hpre hheap hctx (hw.represents i a ha))
  | mul i j =>
      simp only [Gate.run, bind_ok, Wires.varAt_ok] at h
      obtain ⟨a, _, ⟨ha, rfl⟩, b, _, ⟨hb, rfl⟩, ⟨v, ctx'⟩, fe₁, hv, hp⟩ := h
      cases pure_ok.1 hp
      have hv' := hv
      obtain ⟨_, _, -, hp'⟩ := bind_ok.1 hv'
      cases pure_ok.1 hp'
      rw [hk] at hv
      have hreads : Reads ρ { ctx with mulCounter := k } :=
        ⟨hρ.parties, hρ.enough, hρ.distinct, hρ.weights⟩
      have hrep := mul_represents hreads hv hs hpre hheap (hw.represents i a ha)
        (hw.represents j b hb)
      obtain ⟨-, hlen, hall⟩ := hw.push hrep
      exact ⟨⟨k + 1, by rw [hk]⟩, hlen, hall⟩

theorem runGates_computes {w w' : Wires} {xs : List F} (hρ : Reads ρ ctx) {gates : List Gate}
    (h : gates.foldlM Gate.run w fe = .ok (w', fe')) (hs : fe.heap.Sound)
    (hpre : fe'.heap <+: heap) (hheap : heap.Sound) (hw : Computes ρ ctx heap w xs) :
    Computes ρ ctx heap w' (gates.foldl (Gate.value (heap.value ρ)) xs) := by
  induction gates generalizing w xs fe with
  | nil =>
      cases pure_ok.1 h
      exact hw
  | cons g gates ih =>
      rw [List.foldlM_cons] at h
      obtain ⟨w₁, fe₁, hg, h⟩ := bind_ok.1 h
      obtain ⟨hs₁, -⟩ := Gate.keepsSound_run w g _ _ _ hg hs
      have hpre₁ := (KeepsSound.foldlM Gate.keepsSound_run w₁ gates _ _ _ h hs₁).2
      exact ih h hs₁ (Gate.computes hρ g hg hs (hpre₁.trans hpre) hheap hw)

/-- **The BGW front end is correct.**  After any program, every variable has one
share at each party, the shares lie on a polynomial of degree at most `T` whose
value at `0` is the value of the circuit, and `yield` for any party returns an
expression of that value at the party. -/
theorem circuit_correct {gates : List Gate} {w : Wires} (hρ : Reads ρ ctx)
    (h : runGates ctx gates .initial = .ok (w, fe)) :
    w.vars.length = (circuitValues (fe.heap.value ρ) gates).length ∧
    ∀ (i : ℕ) (v : Variable) (x : F), w.vars[i]? = some v →
      (circuitValues (fe.heap.value ρ) gates)[i]? = some x →
      v.length = ctx.N ∧
      (∀ (k a : ℕ), v[k]? = some a →
        ∃ e, fe.heap[a]? = some e ∧ ctx.parties[k]? = some e.party) ∧
      IsSharing ρ.pointAt ctx.N ctx.T (fun k => fe.heap.value ρ (v.getD k 0)) x ∧
      ∀ p name, ∃ q fe', Variable.yield v p name fe = .ok (q, fe') ∧
        (∃ e, fe'.heap[q]? = some e ∧ e.party = p) ∧ fe'.heap.value ρ q = x := by
  have hs : fe.heap.Sound :=
    (KeepsSound.foldlM Gate.keepsSound_run _ _ _ _ _ h Heap.sound_initial).1
  have hN : ctx.N = ρ.parties.length := congrArg List.length hρ.parties
  have henough := hρ.enough
  have hinit : Computes ρ ctx fe.heap ⟨ctx, []⟩ [] := ⟨⟨ctx.mulCounter, rfl⟩, rfl, by simp⟩
  obtain ⟨-, hlen, hall⟩ := runGates_computes hρ h Heap.sound_initial (List.prefix_refl _) hs hinit
  refine ⟨hlen, fun i v x hv hx => ?_⟩
  have hrep := hall i v hv
  rw [List.getD_eq_getElem?_getD] at hrep
  rw [circuitValues] at hx
  rw [hx, Option.getD_some] at hrep
  obtain ⟨type, hheld⟩ := hrep.held
  refine ⟨hN ▸ hrep.length, fun k a ha => ?_, hN ▸ hrep.sharing, fun p name => ?_⟩
  · obtain ⟨p, hp, e, he, -, rfl, -⟩ := hheld k a ha
    exact ⟨e, he, hρ.parties ▸ hp⟩
  · obtain ⟨q, fe', hq⟩ := yield_returns hs hrep (by omega) p name
    obtain ⟨hs', hpre⟩ := Variable.keepsSound_yield v p name _ _ _ hq hs
    exact ⟨q, fe', hq, yield_value hq hs (List.prefix_refl _) hs' (hrep.mono hpre hs')
      (by omega) hρ.injOn⟩

/-- Three parties at the points 1, 2 and 3; the last character of a name tells
which Lagrange coefficient it is. -/
def threeParties : Reading ℚ where
  parties := [1, 2, 3]
  point := fun p => p
  constant := fun name =>
    match name.toList.getLast? with
    | some '0' => 3
    | some '1' => -3
    | _ => 1
  input := fun a => a
  coef := fun a k => a + k

theorem weight_threeParties : weight threeParties.pointAt 3 0 = 3 ∧
    weight threeParties.pointAt 3 1 = -3 ∧ weight threeParties.pointAt 3 2 = 1 := by
  have hpoint : threeParties.pointAt 0 = 1 ∧ threeParties.pointAt 1 = 2 ∧
      threeParties.pointAt 2 = 3 := by
    refine ⟨?_, ?_, ?_⟩ <;> simp [Reading.pointAt, threeParties]
  have hothers : (Finset.range 3).erase 0 = {1, 2} ∧ (Finset.range 3).erase 1 = {0, 2} ∧
      (Finset.range 3).erase 2 = {0, 1} := by decide
  simp only [weight, hothers]
  rw [Finset.prod_pair (by decide), Finset.prod_pair (by decide), Finset.prod_pair (by decide)]
  simp only [hpoint]
  norm_num

theorem reads_threeParties : Reads threeParties ⟨[1, 2, 3], 1, 0⟩ := by
  refine ⟨rfl, by decide, by simp [threeParties], fun k i hi => ?_⟩
  have hname : (Variable.lambdaName ⟨[1, 2, 3], 1, k⟩ i).toList.getLast? =
      (toString i).toList.getLast?.or ("mul_" ++ toString k ++ "_lambda_").toList.getLast? := by
    rw [Variable.lambdaName, String.toList_append, List.getLast?_append]
  obtain ⟨h₀, h₁, h₂⟩ := weight_threeParties
  have hi' : i < 3 := hi
  simp only [threeParties, hname]
  change _ = weight threeParties.pointAt 3 i
  interval_cases i
  · exact h₀.symm
  · exact h₁.symm
  · exact h₂.symm

/-- A secret that is shared and squared. -/
def squaring : List Gate := [.call (.newSecret "s" .arithField 1), .share 1, .mul 0 0]

theorem circuit_correct_squaring : ∃ w fe v,
    runGates ⟨[1, 2, 3], 1, 0⟩ squaring .initial = .ok (w, fe) ∧ w.vars[1]? = some v ∧
    ∃ q fe', Variable.yield v 3 "" fe = .ok (q, fe') ∧
      fe'.heap.value threeParties q =
        fe.heap.value threeParties 1 * fe.heap.value threeParties 1 := by
  have hok : (match runGates ⟨[1, 2, 3], 1, 0⟩ squaring .initial with
      | .ok (w, _) => w.vars[1]?.isSome
      | .error _ => false) = true := by decide +kernel
  split at hok
  · rename_i w fe hrun
    obtain ⟨v, hv⟩ := Option.isSome_iff_exists.1 hok
    obtain ⟨-, hall⟩ := circuit_correct reads_threeParties hrun
    obtain ⟨-, -, -, hyield⟩ := hall 1 v _ hv rfl
    obtain ⟨q, fe', hq, -, hval⟩ := hyield 3 ""
    exact ⟨w, fe, v, hrun, hv, q, fe', hq, hval⟩
  · exact absurd hok (by simp)

end Bgw

end Gauv
