import Gauv.Bgwfrontend.Variable
import Gauv.Mpcgraph.Calls

/-!
# Sequences of front-end calls

A program is a sequence of calls, each of which may throw.  Whatever the calls,
every expression of the heap was made by a constructor from expressions that
were there before.
-/

namespace Gauv

open FrontM

/-- A call of the front end, with the addresses of the expressions it is given. -/
inductive Call where
  | newConstant (name : String)
  | newSecret (name : String) (type : Ty) (party : PartyDecl)
  | newRandomness (name : String) (type : Ty) (party : PartyDecl)
  | newTypeCast (name : String) (type : Ty) (expr : ℕ) (party : PartyDecl)
  | genShare (type : Ty) (party : PartyDecl)
  | add (a b : ℕ)
  | sub (a b : ℕ)
  | mul (a b : ℕ)
  | div (a b : ℕ)
  | scalarMul (s c : ℕ)
  | transfer (s : ℕ) (party : PartyDecl)
  | reconstruct (shares : List ℕ) (party : PartyDecl) (name : String)
  | genPoly (party : PartyDecl) (c degree : ℕ)
  | eval (p : ℕ) (party : PartyDecl)
  | varOfInput (ctx : Bgw.Context) (type : Ty)
  | varShare (ctx : Bgw.Context) (s : ℕ)
  | varAssign (ctx : Bgw.Context) (v : Bgw.Variable) (s : ℕ)
  | varYield (v : Bgw.Variable) (party : PartyDecl) (name : String)
  | varAdd (ctx : Bgw.Context) (v w : Bgw.Variable)
  | varMulConst (ctx : Bgw.Context) (v : Bgw.Variable) (c : ℕ)
  | varMul (ctx : Bgw.Context) (v w : Bgw.Variable)
  deriving DecidableEq, Repr

namespace Call

/-- Make the call, and forget what it returns. -/
def run : Call → FrontM Unit
  | newConstant name => discard (Gauv.newConstant name)
  | newSecret name type party => discard (Gauv.newSecret name type party)
  | newRandomness name type party => discard (Gauv.newRandomness name type party)
  | newTypeCast name type expr party => discard (Gauv.newTypeCast name type expr party)
  | genShare type party => discard (Share.genShare type party)
  | add a b => discard (Share.add a b)
  | sub a b => discard (Share.sub a b)
  | mul a b => discard (Share.mul a b)
  | div a b => discard (Share.div a b)
  | scalarMul s c => discard (Share.scalarMul s c)
  | transfer s party => discard (Share.transfer s party)
  | reconstruct shares party name => discard (Share.reconstruct shares party name)
  | genPoly party c degree => discard (Poly.genPoly party c degree)
  | eval p party => discard (Poly.eval p party)
  | varOfInput ctx type => discard (Bgw.Variable.ofInput ctx type)
  | varShare ctx s => discard (Bgw.Variable.share ctx s)
  | varAssign ctx v s => discard (Bgw.Variable.assign ctx v s)
  | varYield v party name => discard (Bgw.Variable.yield v party name)
  | varAdd ctx v w => discard (Bgw.Variable.add ctx v w)
  | varMulConst ctx v c => discard (Bgw.Variable.mulConst ctx v c)
  | varMul ctx v w => discard (Bgw.Variable.mul ctx v w)

/-- Make the calls in order. -/
def runAll : List Call → FrontM Unit
  | [] => return ()
  | c :: cs => do
      c.run
      runAll cs

end Call

/-! ## What is in the heap -/

/-- The expression was made by a constructor from expressions of `heap`, which
passed the checks of the call. -/
inductive Expression.Made (heap : Heap) (e : Expression) : Prop
  | placeholder
      (hcls : e.cls = .constant ∨ e.cls = .secret ∨ e.cls = .randomness ∨ e.cls = .share)
      (hop : e.op = .input) (hx : e.oprands = [])
  | typeCast {x : ℕ} {ex : Expression} (hcls : e.cls = .typeCast) (hop : e.op = .typeCast)
      (hx : e.oprands = [x]) (hex : heap[x]? = some ex)
  | binary {a b : ℕ} {ea eb : Expression} (hcls : e.cls = .share)
      (hop : e.op = .add ∨ e.op = .sub ∨ e.op = .mul ∨ e.op = .div) (hx : e.oprands = [a, b])
      (ha : heap[a]? = some ea) (hb : heap[b]? = some eb)
      (hpa : ea.party = e.party) (hpb : eb.party = e.party)
      (hsa : ea.isShare = true) (hsb : eb.isShare = true)
  | scalarMul {s c : ℕ} {es ec : Expression} (hcls : e.cls = .share) (hop : e.op = .scalarMul)
      (hx : e.oprands = [s, c]) (hs : heap[s]? = some es) (hc : heap[c]? = some ec)
      (hps : es.party = e.party) (hcc : ec.isConstant = true)
  | transit {s : ℕ} {es : Expression} (hcls : e.cls = .share) (hop : e.op = .transit)
      (hx : e.oprands = [s]) (hs : heap[s]? = some es) (hss : es.isShare = true)
  | reconstruct {q : PartyDecl} (hcls : e.cls = .share) (hop : e.op = .reconstruct)
      (hx : ∀ x ∈ e.oprands, ∃ ex, heap[x]? = some ex ∧ ex.isShare = true ∧ ex.party = q)
  | poly {degree c : ℕ} {party : PartyDecl} {ec : Expression}
      (hcls : e.cls = .poly degree party c) (hop : e.op = .polilize) (hx : e.oprands = [c])
      (hc : heap[c]? = some ec)
  | eval {p degree c : ℕ} {ep : Expression} (hcls : e.cls = .share) (hop : e.op = .eval)
      (hx : e.oprands = [p]) (hp : heap[p]? = some ep)
      (hep : ep.cls = .poly degree e.party c)

namespace Expression.Made

variable {heap : Heap} {e : ℕ} {exp : Expression}

/-- What stands among the first expressions stands in the heap. -/
theorem of_getElem?_take {x : ℕ} {ex : Expression} (h : (heap.take e)[x]? = some ex) :
    heap[x]? = some ex ∧ x < e := by
  rw [List.getElem?_take] at h
  split at h
  · exact ⟨h, ‹_›⟩
  · exact absurd h (by simp)

/-- What an expression refers to is in the heap it was made from. -/
theorem exists_of_refs (h : exp.Made heap) {x : ℕ} (hx : x ∈ exp.refs) :
    ∃ ex, heap[x]? = some ex := by
  rw [Expression.refs] at hx
  cases h with
  | placeholder hcls hop ho =>
      rcases hcls with h | h | h | h <;> simp [h, ho] at hx
  | typeCast hcls _ ho hex =>
      simp only [hcls, ho, List.mem_singleton] at hx
      exact ⟨_, hx ▸ hex⟩
  | binary hcls _ ho ha hb _ _ =>
      simp only [hcls, ho, List.mem_cons, List.not_mem_nil, or_false] at hx
      rcases hx with rfl | rfl
      · exact ⟨_, ha⟩
      · exact ⟨_, hb⟩
  | scalarMul hcls _ ho hs hc _ _ =>
      simp only [hcls, ho, List.mem_cons, List.not_mem_nil, or_false] at hx
      rcases hx with rfl | rfl
      · exact ⟨_, hs⟩
      · exact ⟨_, hc⟩
  | transit hcls _ ho hs _ =>
      simp only [hcls, ho, List.mem_singleton] at hx
      exact ⟨_, hx ▸ hs⟩
  | reconstruct hcls _ ho =>
      simp only [hcls] at hx
      obtain ⟨ex, hex, -⟩ := ho x hx
      exact ⟨ex, hex⟩
  | poly hcls _ ho hc =>
      simp only [hcls, ho, List.mem_cons, List.not_mem_nil, or_false, or_self] at hx
      exact ⟨_, hx ▸ hc⟩
  | eval hcls _ ho hp _ =>
      simp only [hcls, ho, List.mem_singleton] at hx
      exact ⟨_, hx ▸ hp⟩

end Expression.Made

/-- Every expression was made from those before it. -/
def Heap.Sound (heap : Heap) : Prop :=
  ∀ (e : ℕ) (exp : Expression), heap[e]? = some exp → exp.Made (heap.take e)

/-- The heap of a new process is sound. -/
theorem Heap.sound_initial : Heap.Sound Frontend.initial.heap := by
  intro e exp he
  have hlt := lt_of_getElem?_some he
  simp only [Frontend.initial, List.length_singleton, Nat.lt_one_iff] at hlt
  subst hlt
  cases he
  exact .placeholder (Or.inl rfl) rfl rfl

/-- An expression made from those of the heap may be added. -/
theorem Heap.sound_append {heap : Heap} (h : heap.Sound) {e : Expression} (he : e.Made heap) :
    Heap.Sound (heap ++ [e]) := by
  intro i exp hi
  rcases Nat.lt_or_ge i heap.length with hlt | hge
  · rw [List.getElem?_append_left hlt] at hi
    rw [List.take_append_of_le_length hlt.le]
    exact h i exp hi
  · have hlen := lt_of_getElem?_some hi
    rw [List.length_append, List.length_singleton] at hlen
    obtain rfl : i = heap.length := by omega
    rw [List.getElem?_concat_length, Option.some.injEq] at hi
    rw [List.take_append_of_le_length le_rfl, List.take_length, ← hi]
    exact he

/-- What an allocation adds is made from what was there. -/
theorem Frontend.Allocs.sound {fe fe' : Frontend} {r : ℕ} {e : Expression}
    (h : fe.Allocs fe' r e) (hs : fe.heap.Sound) (he : e.Made fe.heap) :
    fe'.heap.Sound ∧ fe.heap <+: fe'.heap := by
  rw [h.2]
  exact ⟨Heap.sound_append hs he, List.prefix_append _ _⟩

/-! ## Calls keep the heap sound -/

/-- When the call returns, it has only added to the heap, and kept it sound. -/
def FrontM.KeepsSound {α : Type} (m : FrontM α) : Prop :=
  ∀ (fe fe' : Frontend) (a : α), m fe = .ok (a, fe') → fe.heap.Sound →
    fe'.heap.Sound ∧ fe.heap <+: fe'.heap

namespace FrontM

variable {α β : Type}

theorem keepsSound_pure (a : α) : KeepsSound (pure a) := by
  intro fe fe' a' h hs
  cases pure_ok.1 h
  exact ⟨hs, List.prefix_refl _⟩

/-- A call that throws leaves the heap as it is. -/
theorem keepsSound_throw (x : Exn) : KeepsSound (throw x : FrontM α) := by
  intro fe fe' a h
  exact absurd (throw_ok.1 h) id

/-- Reading an expression allocates nothing. -/
theorem keepsSound_deref (a : ℕ) : KeepsSound (deref a) := by
  intro fe fe' e h hs
  obtain ⟨-, rfl⟩ := deref_ok.1 h
  exact ⟨hs, List.prefix_refl _⟩

/-- Calls that keep the heap sound, one after the other. -/
theorem KeepsSound.bind {m : FrontM α} {f : α → FrontM β} (hm : KeepsSound m)
    (hf : ∀ a, KeepsSound (f a)) : KeepsSound (m >>= f) := by
  intro fe fe' b h hs
  obtain ⟨a, fe₁, h₁, h₂⟩ := bind_ok.1 h
  obtain ⟨hs₁, hpre₁⟩ := hm _ _ _ h₁ hs
  obtain ⟨hs₂, hpre₂⟩ := hf a _ _ _ h₂ hs₁
  exact ⟨hs₂, hpre₁.trans hpre₂⟩

/-- Forgetting what a call returns. -/
theorem KeepsSound.discard {m : FrontM α} (hm : KeepsSound m) :
    KeepsSound (Functor.discard m) := by
  intro fe fe' b h hs
  have h' : (m >>= fun _ => pure PUnit.unit) fe = .ok (b, fe') := h
  exact (hm.bind fun _ => keepsSound_pure _) _ _ _ h' hs

/-- A call for each element of a list. -/
theorem KeepsSound.mapM {f : α → FrontM β} (hf : ∀ a, KeepsSound (f a)) (as : List α) :
    KeepsSound (as.mapM f) := by
  induction as with
  | nil =>
      rw [List.mapM_nil]
      exact keepsSound_pure _
  | cons a as ih =>
      rw [List.mapM_cons]
      exact (hf a).bind fun b => ih.bind fun bs => keepsSound_pure _

/-- A loop of such calls. -/
theorem KeepsSound.foldlM {f : β → α → FrontM β} (hf : ∀ b a, KeepsSound (f b a)) (b : β)
    (as : List α) : KeepsSound (as.foldlM f b) := by
  induction as generalizing b with
  | nil =>
      rw [List.foldlM_nil]
      exact keepsSound_pure _
  | cons a as ih =>
      rw [List.foldlM_cons]
      exact (hf b a).bind fun b' => ih b'

end FrontM

theorem keepsSound_newConstant (name : String) : KeepsSound (newConstant name) :=
  fun _ _ _ h hs => (newConstant_ok h).sound hs (.placeholder (.inl rfl) rfl rfl)

theorem keepsSound_newSecret (name : String) (type : Ty) (party : PartyDecl) :
    KeepsSound (newSecret name type party) :=
  fun _ _ _ h hs => (newSecret_ok h).sound hs (.placeholder (.inr (.inl rfl)) rfl rfl)

theorem keepsSound_newRandomness (name : String) (type : Ty) (party : PartyDecl) :
    KeepsSound (newRandomness name type party) :=
  fun _ _ _ h hs => (newRandomness_ok h).sound hs (.placeholder (.inr (.inr (.inl rfl))) rfl rfl)

/-- A cast is made from an expression of the heap. -/
theorem keepsSound_newTypeCast (name : String) (type : Ty) (x : ℕ) (party : PartyDecl) :
    KeepsSound (newTypeCast name type x party) := by
  intro fe fe' r h hs
  obtain ⟨ex, hx, ha⟩ := newTypeCast_ok h
  exact ha.sound hs (.typeCast rfl rfl rfl hx)

namespace Share

/-- A generated share has no operands. -/
theorem keepsSound_genShare (type : Ty) (party : PartyDecl) :
    KeepsSound (genShare type party) := by
  intro fe fe' r h hs
  obtain ⟨name, ha⟩ := genShare_ok h
  exact ha.sound hs (.placeholder (.inr (.inr (.inr rfl))) rfl rfl)

/-- A share that is computed from two has both as its operands. -/
theorem keepsSound_binaryOp (a b : ℕ) {op : Operator}
    (hop : op = .add ∨ op = .sub ∨ op = .mul ∨ op = .div) : KeepsSound (binaryOp a b op) := by
  intro fe fe' r h hs
  obtain ⟨ea, eb, name, ha, hsa, hb, hsb, hp, hal⟩ := binaryOp_ok h
  exact hal.sound hs (.binary rfl hop rfl ha hb rfl hp.symm hsa hsb)

/-- A scaled share has the share and the constant as its operands. -/
theorem keepsSound_scalarMul (s c : ℕ) : KeepsSound (scalarMul s c) := by
  intro fe fe' r h hs
  obtain ⟨es, ec, name, hes, -, hec, hcc, hal⟩ := scalarMul_ok h
  exact hal.sound hs (.scalarMul rfl rfl rfl hes hec rfl hcc)

/-- A share that is sent has the one it was sent from as its operand. -/
theorem keepsSound_transfer (s : ℕ) (party : PartyDecl) : KeepsSound (transfer s party) := by
  intro fe fe' r h hs
  obtain ⟨es, hes, hss, ⟨-, -, rfl⟩ | ⟨-, name, hal⟩⟩ := transfer_ok h
  · exact ⟨hs, List.prefix_refl _⟩
  · exact hal.sound hs (.transit rfl rfl rfl hes hss)

/-- A reconstruction has all shares it is given as its operands. -/
theorem keepsSound_reconstruct (shares : List ℕ) (party : PartyDecl) (name : String) :
    KeepsSound (reconstruct shares party name) := by
  intro fe fe' r h hs
  obtain ⟨es, holder, type, name', hes, -, hchecked, hal⟩ := reconstruct_ok h
  refine hal.sound hs (.reconstruct (q := holder) rfl rfl fun x hx => ?_)
  obtain ⟨ex, hmem, hex⟩ := exists_of_mem_left hes hx
  exact ⟨ex, hex, (hchecked ex hmem).1, (hchecked ex hmem).2.1⟩

end Share

namespace Poly

/-- A polynomial has its constant term as its operand. -/
theorem keepsSound_genPoly (party : PartyDecl) (c degree : ℕ) :
    KeepsSound (genPoly party c degree) := by
  intro fe fe' r h hs
  obtain ⟨ec, name, hc, -, hal⟩ := genPoly_ok h
  exact hal.sound hs (.poly rfl rfl rfl hc)

/-- An evaluation has its polynomial as its operand. -/
theorem keepsSound_eval (p : ℕ) (party : PartyDecl) : KeepsSound (eval p party) := by
  intro fe fe' r h hs
  obtain ⟨ep, degree, dealer, c, elemType, name, hp, hcls, -, hal⟩ := eval_ok h
  exact hal.sound hs (.eval rfl rfl rfl hp hcls)

end Poly

namespace Bgw.Variable

variable (ctx : Context)

theorem keepsSound_shareAt (v : Variable) (i : ℕ) : KeepsSound (shareAt v i) := by
  rw [shareAt]
  split
  · exact keepsSound_pure _
  · exact keepsSound_throw _

theorem keepsSound_deal (poly : ℕ) (p : PartyDecl) : KeepsSound (deal poly p) :=
  (Poly.keepsSound_eval poly p).bind fun x => Share.keepsSound_transfer x p

/-- Dealing a secret. -/
theorem keepsSound_share (s : ℕ) : KeepsSound (share ctx s) :=
  (keepsSound_deref s).bind fun es => (Poly.keepsSound_genPoly es.party s ctx.T).bind fun poly =>
    .mapM (keepsSound_deal poly) _

/-- One round of `operator+`. -/
theorem keepsSound_addAt (v w : Variable) (i : ℕ) :
    KeepsSound (shareAt v i >>= fun a => shareAt w i >>= fun b => Share.add a b) :=
  (keepsSound_shareAt v i).bind fun a => (keepsSound_shareAt w i).bind fun b =>
    Share.keepsSound_binaryOp a b (.inl rfl)

theorem keepsSound_add (v w : Variable) : KeepsSound (add ctx v w) :=
  .mapM (keepsSound_addAt v w) _

/-- One round of `operator*` with a constant. -/
theorem keepsSound_mulConstAt (v : Variable) (c i : ℕ) :
    KeepsSound (shareAt v i >>= fun a => Share.scalarMul a c) :=
  (keepsSound_shareAt v i).bind fun a => Share.keepsSound_scalarMul a c

theorem keepsSound_mulConst (v : Variable) (c : ℕ) : KeepsSound (mulConst ctx v c) :=
  (KeepsSound.mapM (keepsSound_mulConstAt v c) _).bind fun _ => keepsSound_pure _

theorem keepsSound_yield (v : Variable) (party : PartyDecl) (name : String) :
    KeepsSound (yield v party name) :=
  (KeepsSound.mapM (fun s => Share.keepsSound_transfer s party) _).bind fun xs =>
    Share.keepsSound_reconstruct xs party name

/-- One round of the degree reduction. -/
theorem keepsSound_mulRound (v w sum : Variable) (i : ℕ) :
    KeepsSound (mulRound ctx v w sum i) := by
  refine (keepsSound_shareAt v i).bind fun a => (keepsSound_shareAt w i).bind fun b =>
    (Share.keepsSound_binaryOp a b (.inr (.inr (.inl rfl)))).bind fun product =>
      (keepsSound_share ctx product).bind fun inter =>
        (keepsSound_newConstant _).bind fun lambda =>
          (keepsSound_mulConst ctx inter lambda).bind fun term => ?_
  split
  · exact keepsSound_pure _
  · exact keepsSound_add ctx sum term

/-- A multiplication of variables. -/
theorem keepsSound_mul (v w : Variable) : KeepsSound (mul ctx v w) :=
  (KeepsSound.foldlM (keepsSound_mulRound ctx v w) [] _).bind fun _ => keepsSound_pure _

end Bgw.Variable

/-- **Every call keeps the heap sound.** -/
theorem Call.keepsSound_run (c : Call) : KeepsSound c.run := by
  cases c with
  | newConstant name => exact (keepsSound_newConstant name).discard
  | newSecret name type party => exact (keepsSound_newSecret name type party).discard
  | newRandomness name type party => exact (keepsSound_newRandomness name type party).discard
  | newTypeCast name type expr party =>
      exact (keepsSound_newTypeCast name type expr party).discard
  | genShare type party => exact (Share.keepsSound_genShare type party).discard
  | add a b => exact (Share.keepsSound_binaryOp a b (.inl rfl)).discard
  | sub a b => exact (Share.keepsSound_binaryOp a b (.inr (.inl rfl))).discard
  | mul a b => exact (Share.keepsSound_binaryOp a b (.inr (.inr (.inl rfl)))).discard
  | div a b => exact (Share.keepsSound_binaryOp a b (.inr (.inr (.inr rfl)))).discard
  | scalarMul s c => exact (Share.keepsSound_scalarMul s c).discard
  | transfer s party => exact (Share.keepsSound_transfer s party).discard
  | reconstruct shares party name =>
      exact (Share.keepsSound_reconstruct shares party name).discard
  | genPoly party c degree => exact (Poly.keepsSound_genPoly party c degree).discard
  | eval p party => exact (Poly.keepsSound_eval p party).discard
  | varOfInput ctx type =>
      exact (KeepsSound.mapM (Share.keepsSound_genShare type) ctx.parties).discard
  | varShare ctx s => exact (Bgw.Variable.keepsSound_share ctx s).discard
  | varAssign ctx v s =>
      exact ((Bgw.Variable.keepsSound_share ctx s).bind fun _ => keepsSound_pure _).discard
  | varYield v party name => exact (Bgw.Variable.keepsSound_yield v party name).discard
  | varAdd ctx v w => exact (Bgw.Variable.keepsSound_add ctx v w).discard
  | varMulConst ctx v c => exact (Bgw.Variable.keepsSound_mulConst ctx v c).discard
  | varMul ctx v w => exact (Bgw.Variable.keepsSound_mul ctx v w).discard

/-- **Any program leaves a sound heap.** -/
theorem Call.sound_runAll {cs : List Call} {fe : Frontend}
    (h : Call.runAll cs .initial = .ok ((), fe)) : fe.heap.Sound := by
  suffices hk : KeepsSound (Call.runAll cs) from (hk _ _ _ h Heap.sound_initial).1
  clear h
  induction cs with
  | nil => exact keepsSound_pure _
  | cons c cs ih => exact c.keepsSound_run.bind fun _ => ih

end Gauv
