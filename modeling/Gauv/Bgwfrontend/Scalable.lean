import Gauv.Bgwfrontend.Statements

/-!
# What a program of statements computes

The operators read the first share of each party, so a variable counts as the first
expression that was assigned to it since it was last overwritten; what was assigned
after it is never read, and hides in the variable until it is yielded.  The program
`test_scalable` assigns one secret after the other to one variable: for any number
of secrets it computes with the first one only.
-/

namespace Gauv

namespace Bgw

open FrontM

variable {F : Type*} [Field F]

/-! ## Values -/

/-- The values a program computes: those of its constants, those each variable was
assigned since it was last overwritten, and those it yields, where what it yields is
one sharing. -/
structure Values (F : Type*) where
  consts : List F
  vars : List (List F)
  outputs : List (Option F)

namespace Values

variable {vals : Values F}

/-- The value that the operators read. -/
def head (vals : Values F) (x : ℕ) : F := (vals.vars.getD x []).headD 0

def put (vals : Values F) (x : ℕ) (xs : List F) : Values F :=
  { vals with vars := vals.vars.set x xs }

/-- What a variable yields. -/
def sole : List F → Option F
  | [x] => some x
  | _ => none

end Values

/-- The effect of a statement on the values, where `constant` gives the value of a
name and `secret` that of the `j`-th secret. -/
def Stmt.value (constant : String → F) (secret : ℕ → F) (vals : Values F) : Stmt → Values F
  | .declare => { vals with vars := vals.vars ++ [[]] }
  | .constant name => { vals with consts := vals.consts ++ [constant name] }
  | .secret .. => vals
  | .assign x j => vals.put x (vals.vars.getD x [] ++ [secret j])
  | .copy x y => vals.put x (vals.vars.getD y [])
  | .add x y z => vals.put x [vals.head y + vals.head z]
  | .mulConst x y c =>
      vals.put x (vals.head y * vals.consts.getD c 0 :: (vals.vars.getD y []).tail)
  | .mul x y z => vals.put x [vals.head y * vals.head z]
  | .yield x _ _ =>
      { vals with outputs := vals.outputs ++ [Values.sole (vals.vars.getD x [])] }

/-- The values of a whole program. -/
def stmtValues (constant : String → F) (secret : ℕ → F) (program : List Stmt) : Values F :=
  program.foldl (Stmt.value constant secret) ⟨[], [], []⟩

/-! ## The operators read the first shares -/

variable {fe fe' : Frontend} {heap : Heap} {ctx : Context} {v w r : Variable} {ρ : Reading F}
  {T : ℕ} {x y : F} {xs : List F}

/-- What stands beyond the first shares is not read. -/
theorem shareAt_take {n i : ℕ} (hi : i < n) :
    Variable.shareAt (v.take n) i = Variable.shareAt v i := by
  unfold Variable.shareAt
  rw [List.getElem?_take_of_lt hi]

theorem mapM_congr {α β : Type} {f g : α → FrontM β} {l : List α} (h : ∀ a ∈ l, f a = g a) :
    l.mapM f = l.mapM g := by
  induction l with
  | nil => rfl
  | cons a l ih =>
      obtain ⟨ha, hl⟩ := List.forall_mem_cons.1 h
      rw [List.mapM_cons, List.mapM_cons, ha, ih hl]

theorem foldlM_congr {α β : Type} {f g : β → α → FrontM β} {l : List α}
    (h : ∀ b, ∀ a ∈ l, f b a = g b a) (b : β) : l.foldlM f b = l.foldlM g b := by
  induction l generalizing b with
  | nil => rfl
  | cons a l ih =>
      rw [List.foldlM_cons, List.foldlM_cons, h b a (List.mem_cons_self ..)]
      exact congrArg _ (funext fun b' => ih (fun b a ha => h b a (List.mem_cons_of_mem _ ha)) b')

/-- An addition reads the first shares only. -/
theorem add_take (ctx : Context) (v w : Variable) :
    Variable.add ctx (v.take ctx.N) (w.take ctx.N) = Variable.add ctx v w :=
  mapM_congr fun i hi => by
    rw [shareAt_take (List.mem_range.1 hi), shareAt_take (List.mem_range.1 hi)]

/-- So does a multiplication. -/
theorem mul_take (ctx : Context) (v w : Variable) :
    Variable.mul ctx (v.take ctx.N) (w.take ctx.N) = Variable.mul ctx v w := by
  have hloop : (List.range ctx.N).foldlM
      (Variable.mulRound ctx (v.take ctx.N) (w.take ctx.N)) [] =
        (List.range ctx.N).foldlM (Variable.mulRound ctx v w) [] := by
    refine foldlM_congr (fun sum i hi => ?_) []
    unfold Variable.mulRound
    rw [shareAt_take (List.mem_range.1 hi), shareAt_take (List.mem_range.1 hi)]
  unfold Variable.mul
  rw [hloop]

theorem mulConst_take {c : ℕ} (h : Variable.mulConst ctx v c fe = .ok (r, fe')) :
    ∃ scaled, Variable.mulConst ctx (v.take ctx.N) c fe = .ok (scaled, fe') ∧
      r = scaled ++ v.drop ctx.N := by
  obtain ⟨scaled, fe₁, hloop, hp⟩ := bind_ok.1 h
  cases pure_ok.1 hp
  have hsame := mapM_congr (l := List.range ctx.N) fun i hi =>
    congrArg (· >>= fun a => Share.scalarMul a c) (shareAt_take (v := v) (List.mem_range.1 hi))
  refine ⟨scaled, bind_ok.2 ⟨scaled, fe', ?_, ?_⟩, rfl⟩
  · exact (congrFun hsame fe).trans hloop
  · rw [List.drop_take, Nat.sub_self, List.take_zero, List.append_nil]
    exact pure_ok.2 rfl

/-! ## What a variable is a sharing of -/

/-- The variable holds sharings of the values, one after the other. -/
def SharesOf (ρ : Reading F) (T : ℕ) (heap : Heap) (v : Variable) (xs : List F) : Prop :=
  ∃ bs : List Variable, v = bs.flatten ∧ List.Forall₂ (Represents ρ T heap) bs xs

theorem sharesOf_nil : SharesOf ρ T heap [] [] := ⟨[], rfl, .nil⟩

theorem sharesOf_singleton (h : Represents ρ T heap v x) : SharesOf ρ T heap v [x] :=
  ⟨[v], by simp, .cons h .nil⟩

/-- One more sharing behind the others. -/
theorem SharesOf.append (h : SharesOf ρ T heap v xs) (hr : Represents ρ T heap r x) :
    SharesOf ρ T heap (v ++ r) (xs ++ [x]) := by
  obtain ⟨bs, rfl, hbs⟩ := h
  exact ⟨bs ++ [r], by simp, List.rel_append hbs (.cons hr .nil)⟩

/-- A variable that holds a share begins with a sharing of its first value. -/
theorem SharesOf.head (h : SharesOf ρ T heap v xs) {i a : ℕ} (ha : v[i]? = some a) :
    ∃ xs', xs = xs.headD 0 :: xs' ∧
      Represents ρ T heap (v.take ρ.parties.length) (xs.headD 0) ∧
      SharesOf ρ T heap (v.drop ρ.parties.length) xs' := by
  obtain ⟨bs, rfl, hbs⟩ := h
  cases hbs with
  | nil => exact absurd ha (by simp)
  | @cons b x bs xs hb hbs =>
      refine ⟨xs, rfl, ?_, bs, ?_, hbs⟩
      · rw [List.flatten_cons, ← hb.length, List.take_left]
        exact hb
      · rw [List.flatten_cons, ← hb.length, List.drop_left]

theorem SharesOf.cons (hr : Represents ρ T heap r x) (h : SharesOf ρ T heap v xs) :
    SharesOf ρ T heap (r ++ v) (x :: xs) := by
  obtain ⟨bs, rfl, hbs⟩ := h
  exact ⟨r :: bs, rfl, .cons hr hbs⟩

/-- A variable that holds one sharing represents its value. -/
theorem SharesOf.sole (h : SharesOf ρ T heap v xs) (hx : Values.sole xs = some x) :
    Represents ρ T heap v x := by
  obtain ⟨bs, rfl, hbs⟩ := h
  cases hbs with
  | nil => exact absurd hx (by simp [Values.sole])
  | @cons b y bs ys hb hbs =>
      cases hbs with
      | nil =>
          cases hx
          simpa using hb
      | cons _ _ => exact absurd hx (by simp [Values.sole])

/-! ## What a run computes -/

/-- The objects of the store have the values. -/
structure Evaluates (ρ : Reading F) (ctx : Context) (heap : Heap) (secret : ℕ → F) (s : Store)
    (vals : Values F) : Prop where
  context : ∃ k, s.ctx = { ctx with mulCounter := k }
  consts_length : s.consts.length = vals.consts.length
  consts : ∀ (c a : ℕ), s.consts[c]? = some a → heap.value ρ a = vals.consts.getD c 0
  secrets : ∀ (j a : ℕ), s.secrets[j]? = some a → heap.value ρ a = secret j
  vars_length : s.vars.length = vals.vars.length
  vars : ∀ (x : ℕ) (v : Variable), s.vars[x]? = some v →
    SharesOf ρ ctx.T heap v (vals.vars.getD x [])
  outputs_length : s.outputs.length = vals.outputs.length
  outputs : ∀ (j q : ℕ) (x : F), s.outputs[j]? = some q → vals.outputs[j]? = some (some x) →
    heap.value ρ q = x

theorem Stmt.keepsSound_run (s : Store) (st : Stmt) : KeepsSound (st.run s) := by
  have hobject : ∀ {α : Type} (l : List α) (i : ℕ), KeepsSound (objectAt l i) := fun l i => by
    unfold objectAt
    split
    · exact keepsSound_pure _
    · exact keepsSound_throw _
  have hput : ∀ (s : Store) (x : ℕ) (v : Variable), KeepsSound (s.put x v) := fun s x v =>
    (hobject s.vars x).bind fun _ => keepsSound_pure _
  cases st with
  | declare => exact keepsSound_pure _
  | constant name => exact (keepsSound_newConstant name).bind fun _ => keepsSound_pure _
  | secret name type party =>
      exact (keepsSound_newSecret name type party).bind fun _ => keepsSound_pure _
  | assign x j =>
      exact (hobject s.vars x).bind fun v => (hobject s.secrets j).bind fun a =>
        ((Variable.keepsSound_share s.ctx a).bind fun _ => keepsSound_pure _).bind fun r =>
          hput s x r
  | copy x y => exact (hobject s.vars y).bind fun v => hput s x v
  | add x y z =>
      exact (hobject s.vars y).bind fun v => (hobject s.vars z).bind fun w =>
        (Variable.keepsSound_add s.ctx v w).bind fun r => hput s x r
  | mulConst x y c =>
      exact (hobject s.vars y).bind fun v => (hobject s.consts c).bind fun a =>
        (Variable.keepsSound_mulConst s.ctx v a).bind fun r => hput s x r
  | mul x y z =>
      exact (hobject s.vars y).bind fun v => (hobject s.vars z).bind fun w =>
        (Variable.keepsSound_mul s.ctx v w).bind fun _ => hput _ x _
  | yield x party name =>
      exact (hobject s.vars x).bind fun v =>
        (Variable.keepsSound_yield v party name).bind fun _ => keepsSound_pure _

section Evaluates

variable {secret : ℕ → F} {s s' : Store} {vals : Values F}

/-- A variable is overwritten. -/
theorem Evaluates.put (h : Evaluates ρ ctx heap secret s vals) {i : ℕ}
    (hr : SharesOf ρ ctx.T heap r xs) (hput : s.put i r fe = .ok (s', fe')) :
    Evaluates ρ ctx heap secret s' (vals.put i xs) := by
  obtain ⟨hi, hs'⟩ := Store.put_ok.1 hput
  cases hs'
  refine ⟨h.context, h.consts_length, h.consts, h.secrets, ?_, fun k v hv => ?_,
    h.outputs_length, h.outputs⟩
  · simp [Values.put, h.vars_length]
  · have hlen : i < vals.vars.length := h.vars_length ▸ hi
    rw [List.getElem?_set] at hv
    unfold Values.put
    split at hv
    · rename_i hik
      subst hik
      rw [Option.some.injEq] at hv
      rw [List.getD_eq_getElem?_getD, List.getElem?_set_self hlen, Option.getD_some, ← hv]
      exact hr
    · rename_i hik
      rw [List.getD_eq_getElem?_getD, List.getElem?_set_ne hik, ← List.getD_eq_getElem?_getD]
      exact h.vars k v hv

theorem Evaluates.declare (h : Evaluates ρ ctx heap secret s vals) :
    Evaluates ρ ctx heap secret { s with vars := s.vars ++ [[]] }
      { vals with vars := vals.vars ++ [[]] } := by
  refine ⟨h.context, h.consts_length, h.consts, h.secrets, ?_, fun x v hv => ?_,
    h.outputs_length, h.outputs⟩
  · simp [h.vars_length]
  · rw [getD_concat_default]
    rcases Nat.lt_or_ge x s.vars.length with hlt | hge
    · rw [List.getElem?_append_left hlt] at hv
      exact h.vars x v hv
    · have hlen := lt_of_getElem?_some hv
      rw [List.length_append, List.length_singleton] at hlen
      obtain rfl : x = s.vars.length := by omega
      rw [List.getElem?_concat_length, Option.some.injEq] at hv
      rw [List.getD_eq_default _ _ (by rw [h.vars_length]), ← hv]
      exact sharesOf_nil

theorem Evaluates.constant (h : Evaluates ρ ctx heap secret s vals) {a : ℕ}
    (ha : heap.value ρ a = x) :
    Evaluates ρ ctx heap secret { s with consts := s.consts ++ [a] }
      { vals with consts := vals.consts ++ [x] } := by
  refine ⟨h.context, ?_, fun c b hb => ?_, h.secrets, h.vars_length, h.vars, h.outputs_length,
    h.outputs⟩
  · simp [h.consts_length]
  · rcases Nat.lt_or_ge c s.consts.length with hlt | hge
    · rw [List.getElem?_append_left hlt] at hb
      rw [List.getD_append _ _ _ _ (h.consts_length ▸ hlt)]
      exact h.consts c b hb
    · have hlen := lt_of_getElem?_some hb
      rw [List.length_append, List.length_singleton] at hlen
      obtain rfl : c = s.consts.length := by omega
      rw [List.getElem?_concat_length, Option.some.injEq] at hb
      rw [h.consts_length, List.getD_append_right _ _ _ _ le_rfl, Nat.sub_self, ← hb]
      exact ha

theorem Evaluates.yield (h : Evaluates ρ ctx heap secret s vals) {q : ℕ} {o : Option F}
    (hq : ∀ x, o = some x → heap.value ρ q = x) :
    Evaluates ρ ctx heap secret { s with outputs := s.outputs ++ [q] }
      { vals with outputs := vals.outputs ++ [o] } := by
  refine ⟨h.context, h.consts_length, h.consts, h.secrets, h.vars_length, h.vars, ?_,
    fun j b y hb hy => ?_⟩
  · simp [h.outputs_length]
  · rcases Nat.lt_or_ge j s.outputs.length with hlt | hge
    · rw [List.getElem?_append_left hlt] at hb
      rw [List.getElem?_append_left (h.outputs_length ▸ hlt)] at hy
      exact h.outputs j b y hb hy
    · have hlen := lt_of_getElem?_some hb
      rw [List.length_append, List.length_singleton] at hlen
      obtain rfl : j = s.outputs.length := by omega
      rw [List.getElem?_concat_length, Option.some.injEq] at hb
      rw [h.outputs_length, List.getElem?_concat_length, Option.some.injEq] at hy
      exact hb ▸ hq y hy

/-- The head of what a variable holds. -/
theorem Evaluates.head (h : Evaluates ρ ctx heap secret s vals) (hN : ctx.N = ρ.parties.length)
    {i k a : ℕ} (hv : s.vars[i]? = some v) (ha : v[k]? = some a) :
    Represents ρ ctx.T heap (v.take ctx.N) (vals.head i) := by
  obtain ⟨xs', -, hrep, -⟩ := (h.vars i v hv).head ha
  rw [hN]
  exact hrep

/-- **The step lemma**: a statement has its effect on the values. -/
theorem Evaluates.step (hρ : Reads ρ ctx) (h : Evaluates ρ ctx heap secret s vals) {st : Stmt}
    (hr : st.run s fe = .ok (s', fe')) (hs : fe.heap.Sound) (hpre : fe'.heap <+: heap)
    (hheap : heap.Sound)
    (hsecret : ∀ (j a : ℕ), s'.secrets[j]? = some a → ρ.input a = secret j) :
    Evaluates ρ ctx heap secret s' (st.value ρ.constant secret vals) := by
  have hN : ctx.N = ρ.parties.length := congrArg List.length hρ.parties
  have henough := hρ.enough
  obtain ⟨k, hk⟩ := h.context
  have hctx : s.ctx.parties = ρ.parties := by rw [hk]; exact hρ.parties
  have hsN : s.ctx.N = ctx.N := by rw [hk]; rfl
  have hT : s.ctx.T = ctx.T := by rw [hk]
  cases st with
  | declare =>
      cases pure_ok.1 hr
      exact h.declare
  | constant name =>
      obtain ⟨c, fe₁, hc, hp⟩ := bind_ok.1 hr
      cases pure_ok.1 hp
      refine h.constant ?_
      rw [Heap.value_eq hheap ((newConstant_ok hc).getElem? hpre)]
      rfl
  | secret name type party =>
      obtain ⟨a, fe₁, ha, hp⟩ := bind_ok.1 hr
      cases pure_ok.1 hp
      refine ⟨h.context, h.consts_length, h.consts, fun j b hb => ?_, h.vars_length, h.vars,
        h.outputs_length, h.outputs⟩
      rcases Nat.lt_or_ge j s.secrets.length with hlt | hge
      · rw [List.getElem?_append_left hlt] at hb
        exact h.secrets j b hb
      · have hb' := hb
        have hlen := lt_of_getElem?_some hb
        rw [List.length_append, List.length_singleton] at hlen
        obtain rfl : j = s.secrets.length := by omega
        rw [List.getElem?_concat_length, Option.some.injEq] at hb
        rw [← hsecret _ b hb', ← hb, Heap.value_eq hheap ((newSecret_ok ha).getElem? hpre)]
        rfl
  | assign x j =>
      simp only [Stmt.run, bind_ok, objectAt_ok] at hr
      obtain ⟨v, _, ⟨hv, rfl⟩, a, _, ⟨ha, rfl⟩, r, fe₁, hassign, hput⟩ := hr
      obtain ⟨shares, fe₂, hshare, hp⟩ := bind_ok.1 hassign
      cases pure_ok.1 hp
      obtain ⟨-, hsame⟩ := Store.put_ok.1 hput
      cases hsame
      have hrep := share_represents hshare hs hpre hheap hctx
      rw [hT, h.secrets j a ha] at hrep
      exact h.put ((h.vars x v hv).append hrep) hput
  | copy x y =>
      simp only [Stmt.run, bind_ok, objectAt_ok] at hr
      obtain ⟨v, _, ⟨hv, rfl⟩, hput⟩ := hr
      exact h.put (h.vars y v hv) hput
  | add x y z =>
      simp only [Stmt.run, bind_ok, objectAt_ok] at hr
      obtain ⟨v, _, ⟨hv, rfl⟩, w, _, ⟨hw, rfl⟩, r, fe₁, hadd, hput⟩ := hr
      obtain ⟨⟨a, ha⟩, b, hb⟩ := reads_of_add hs (by omega) hadd
      obtain ⟨-, hsame⟩ := Store.put_ok.1 hput
      cases hsame
      rw [← add_take, hsN] at hadd
      refine h.put (sharesOf_singleton ?_) hput
      rw [← hT]
      exact add_represents hadd hs hpre hheap hctx (hT ▸ h.head hN hv ha) (hT ▸ h.head hN hw hb)
  | mulConst x y c =>
      simp only [Stmt.run, bind_ok, objectAt_ok] at hr
      obtain ⟨v, _, ⟨hv, rfl⟩, a, _, ⟨hc, rfl⟩, r, fe₁, hmul, hput⟩ := hr
      obtain ⟨q, hq⟩ := reads_of_mulConst hs (by omega) hmul
      obtain ⟨-, hsame⟩ := Store.put_ok.1 hput
      cases hsame
      obtain ⟨scaled, hscaled, rfl⟩ := mulConst_take hmul
      rw [hsN] at hscaled
      have hrep := mulConst_represents hscaled hs hpre hheap hctx (hT ▸ h.head hN hv hq)
      obtain ⟨xs', hxs, -, hrest⟩ := (h.vars y v hv).head hq
      rw [h.consts c a hc, hT] at hrep
      have htail : (vals.vars.getD y []).tail = xs' := by rw [hxs]; rfl
      refine h.put (SharesOf.cons hrep ?_) hput
      rw [hsN, hN, htail]
      exact hrest
  | mul x y z =>
      simp only [Stmt.run, bind_ok, objectAt_ok] at hr
      obtain ⟨v, _, ⟨hv, rfl⟩, w, _, ⟨hw, rfl⟩, ⟨r, ctx'⟩, fe₁, hmul, hput⟩ := hr
      obtain ⟨sum, fe₂, hloop, hp⟩ := bind_ok.1 hmul
      cases pure_ok.1 hp
      obtain ⟨-, hsame⟩ := Store.put_ok.1 hput
      cases hsame
      obtain ⟨n, hn⟩ : ∃ n, ctx.N = n + 1 := ⟨ctx.N - 1, by omega⟩
      rw [hsN, hn] at hloop
      obtain ⟨⟨a, ha⟩, b, hb⟩ := reads_of_mulLoop hloop
      rw [← mul_take, hsN, hk] at hmul
      have hreads : Reads ρ { ctx with mulCounter := k } :=
        ⟨hρ.parties, hρ.enough, hρ.distinct, hρ.weights⟩
      have hrep := mul_represents hreads hmul hs hpre hheap (h.head hN hv ha) (h.head hN hw hb)
      have htick : Evaluates ρ ctx heap secret
          { s with ctx := { s.ctx with mulCounter := s.ctx.mulCounter + 1 } } vals :=
        ⟨⟨k + 1, by rw [hk]⟩, h.consts_length, h.consts, h.secrets, h.vars_length, h.vars,
          h.outputs_length, h.outputs⟩
      exact htick.put (sharesOf_singleton hrep) hput
  | yield x party name =>
      simp only [Stmt.run, bind_ok, objectAt_ok] at hr
      obtain ⟨v, _, ⟨hv, rfl⟩, q, fe₁, hq, hp⟩ := hr
      cases pure_ok.1 hp
      refine h.yield fun y hy => ?_
      have hrep := (h.vars x v hv).sole hy
      exact (yield_value hq hs hpre hheap hrep (by omega) hρ.injOn).2

/-- Secrets stay where they are. -/
theorem Stmt.secrets_run {st : Stmt} (h : st.run s fe = .ok (s', fe')) :
    s.secrets <+: s'.secrets := by
  have hput : ∀ {s : Store} {x : ℕ} {v : Variable} {fe : Frontend} {s' : Store} {fe' : Frontend},
      s.put x v fe = .ok (s', fe') → s'.secrets = s.secrets := fun h => by
    cases (Store.put_ok.1 h).2
    rfl
  cases st with
  | declare =>
      cases pure_ok.1 h
      exact List.prefix_refl _
  | constant name =>
      obtain ⟨c, fe₁, -, hp⟩ := bind_ok.1 h
      cases pure_ok.1 hp
      exact List.prefix_refl _
  | secret name type party =>
      obtain ⟨a, fe₁, -, hp⟩ := bind_ok.1 h
      cases pure_ok.1 hp
      exact List.prefix_append _ _
  | assign x j =>
      simp only [Stmt.run, bind_ok] at h
      obtain ⟨_, _, -, _, _, -, _, _, -, h⟩ := h
      rw [hput h]
  | copy x y =>
      simp only [Stmt.run, bind_ok] at h
      obtain ⟨_, _, -, h⟩ := h
      rw [hput h]
  | add x y z =>
      simp only [Stmt.run, bind_ok] at h
      obtain ⟨_, _, -, _, _, -, _, _, -, h⟩ := h
      rw [hput h]
  | mulConst x y c =>
      simp only [Stmt.run, bind_ok] at h
      obtain ⟨_, _, -, _, _, -, _, _, -, h⟩ := h
      rw [hput h]
  | mul x y z =>
      simp only [Stmt.run, bind_ok] at h
      obtain ⟨_, _, -, _, _, -, _, _, -, h⟩ := h
      rw [hput h]
  | yield x party name =>
      simp only [Stmt.run, bind_ok] at h
      obtain ⟨_, _, -, _, _, -, hp⟩ := h
      cases pure_ok.1 hp
      exact List.prefix_refl _

theorem secrets_runs {program : List Stmt} (h : program.foldlM Stmt.run s fe = .ok (s', fe')) :
    s.secrets <+: s'.secrets := by
  induction program generalizing s fe with
  | nil =>
      cases pure_ok.1 h
      exact List.prefix_refl _
  | cons st program ih =>
      rw [List.foldlM_cons] at h
      obtain ⟨s₁, fe₁, hstep, h⟩ := bind_ok.1 h
      exact (Stmt.secrets_run hstep).trans (ih h)

/-- The run lemma. -/
theorem Evaluates.run (hρ : Reads ρ ctx) (h : Evaluates ρ ctx heap secret s vals)
    {program : List Stmt} (hr : program.foldlM Stmt.run s fe = .ok (s', fe'))
    (hs : fe.heap.Sound) (hpre : fe'.heap <+: heap) (hheap : heap.Sound)
    (hsecret : ∀ (j a : ℕ), s'.secrets[j]? = some a → ρ.input a = secret j) :
    Evaluates ρ ctx heap secret s' (program.foldl (Stmt.value ρ.constant secret) vals) := by
  induction program generalizing s fe vals with
  | nil =>
      cases pure_ok.1 hr
      exact h
  | cons st program ih =>
      rw [List.foldlM_cons] at hr
      obtain ⟨s₁, fe₁, hstep, hrest⟩ := bind_ok.1 hr
      have hs₁ := (Stmt.keepsSound_run s st _ _ _ hstep hs).1
      have hpre₁ := (KeepsSound.foldlM Stmt.keepsSound_run s₁ program _ _ _ hrest hs₁).2.trans hpre
      refine ih (h.step hρ hstep hs hpre₁ hheap fun j a ha => ?_) hrest hs₁
      obtain ⟨later, hlater⟩ := secrets_runs hrest
      exact hsecret j a (hlater ▸ getElem?_append_some ha)

/-- The secrets of a program, as the reading has them. -/
def secretOf (ρ : Reading F) (s : Store) (j : ℕ) : F := ρ.input (s.secrets.getD j 0)

/-- **A program evaluates as its text does.** -/
theorem evaluates_runStmts (hρ : Reads ρ ctx) {program : List Stmt}
    (hr : runStmts ctx program .initial = .ok (s, fe)) :
    Evaluates ρ ctx fe.heap (secretOf ρ s) s
      (stmtValues ρ.constant (secretOf ρ s) program) := by
  have hs := (KeepsSound.foldlM Stmt.keepsSound_run _ _ _ _ _ hr Heap.sound_initial).1
  have hinitial : Evaluates ρ ctx fe.heap (secretOf ρ s) ⟨ctx, [], [], [], []⟩ ⟨[], [], []⟩ :=
    ⟨⟨ctx.mulCounter, rfl⟩, rfl, by simp, by simp, rfl, by simp, rfl, by simp⟩
  refine hinitial.run hρ hr Heap.sound_initial (List.prefix_refl _) hs fun j a ha => ?_
  unfold secretOf
  rw [getD_of_getElem? ha]

/-- **A program of variables computes its values.**  A program that the check
accepts runs; each variable begins with a sharing of the first value it was
assigned since it was last overwritten, and whatever is yielded from a variable
that was assigned one value has this value. -/
theorem stmts_correct (hρ : Reads ρ ctx) (program : List Stmt)
    (hcheck : (Shape.check ctx program).isSome = true) :
    ∃ s fe, runStmts ctx program .initial = .ok (s, fe) ∧ ∀ vals : Values F,
      vals = stmtValues ρ.constant (secretOf ρ s) program →
      (∀ (i : ℕ) (v : Variable) (x : F) (xs : List F), s.vars[i]? = some v →
        vals.vars[i]? = some (x :: xs) → Sharing.IsSharing ρ.pointAt ctx.N ctx.T
          (fun k => fe.heap.value ρ (v.getD k 0)) x) ∧
      s.outputs.length = vals.outputs.length ∧
      ∀ (j q : ℕ) (x : F), s.outputs[j]? = some q → vals.outputs[j]? = some (some x) →
        fe.heap.value ρ q = x := by
  have hN : ctx.N = ρ.parties.length := congrArg List.length hρ.parties
  have henough := hρ.enough
  obtain ⟨σ, hσ⟩ := Option.isSome_iff_exists.1 hcheck
  obtain ⟨hruns, -⟩ := (agrees_initial ctx).run_iff (by omega) program
  obtain ⟨s, fe, hrun, -⟩ := hruns σ hσ
  refine ⟨s, fe, hrun, ?_⟩
  rintro vals rfl
  have hfinal := evaluates_runStmts hρ hrun
  refine ⟨fun i v x xs hv hx => ?_, hfinal.outputs_length, hfinal.outputs⟩
  have hshares := hfinal.vars i v hv
  rw [List.getD_eq_getElem?_getD, hx, Option.getD_some] at hshares
  obtain ⟨bs, rfl, hbs⟩ := hshares
  cases hbs with
  | @cons b _ bs _ hb hbs =>
      rw [hN]
      refine hb.sharing.congr fun k hk => ?_
      rw [List.flatten_cons, List.getD_append _ _ _ _ (by rw [hb.length]; exact hk)]

theorem stmts_correct_square : ∃ s fe,
    runStmts ⟨[1, 2, 3], 1, 0⟩ squareStmts .initial = .ok (s, fe) ∧
      ∀ q, s.outputs[0]? = some q → fe.heap.value threeParties q =
        secretOf threeParties s 0 * secretOf threeParties s 0 := by
  obtain ⟨s, fe, hrun, hall⟩ := stmts_correct reads_threeParties squareStmts (by decide +kernel)
  obtain ⟨-, -, houtputs⟩ := hall _ rfl
  exact ⟨s, fe, hrun, fun q hq => houtputs 0 q _ hq rfl⟩

end Evaluates

/-! ## The scalable test -/

/-- `BgwOp`. -/
inductive BgwOp where
  | add
  | mul
  deriving DecidableEq, Repr

/-- `rand_op(*protocol, *var)`, when `rand` draws the operator. -/
def BgwOp.stmt : BgwOp → Stmt
  | .add => .add 0 0 1
  | .mul => .mul 0 0 1

def BgwOp.apply (y x : F) : BgwOp → F
  | .add => y + x
  | .mul => y * x

/-- The protocol of `test_bgw_scalable`: secret `j` belongs to the `j`-th owner that
`rand_party` draws, and secret `i + 1` is combined by the `i`-th operator that
`rand_op` draws.  Variable 0 is `*protocol` and variable 1 is `*var`. -/
def scalable (parties owners : List PartyDecl) (ops : List BgwOp) : List Stmt :=
  .constant "const" ::
    (owners.zipIdx.map fun o => Stmt.secret ("x_" ++ toString o.2) .arithField o.1) ++
      ([.declare, .declare, .assign 1 0, .mulConst 1 1 0, .copy 0 1] ++
        ((ops.zipIdx 1).flatMap (fun o => [.assign 1 o.2, o.1.stmt]) ++
          parties.map fun p => .yield 0 p ""))

/-! ### The check accepts the program -/

section Scalable

variable {σ : Shape} {n k : ℕ}

theorem check_secrets {owners : List PartyDecl}
    (hnames : ∀ name ∈ σ.secretNames, ∃ j < k, name = "x_" ++ toString j)
    (htypes : σ.secretTypes = List.replicate k .arithField) :
    ∃ names, ((owners.zipIdx k).map fun o => Stmt.secret ("x_" ++ toString o.2) .arithField
        o.1).foldlM (Shape.step ctx) σ = some { σ with
      secretNames := names
      secretTypes := List.replicate (k + owners.length) .arithField } := by
  induction owners generalizing σ k with
  | nil => exact ⟨σ.secretNames, by simp [← htypes]⟩
  | cons owner owners ih =>
      have hfresh : "x_" ++ toString k ∉ σ.secretNames := by
        intro hmem
        obtain ⟨j, hj, heq⟩ := hnames _ hmem
        have := Nat.repr_inj.1 ((String.append_right_inj _).1 heq)
        omega
      rw [List.zipIdx_cons, List.map_cons, List.foldlM_cons]
      simp only [Shape.step, if_neg hfresh, Option.bind_eq_bind, Option.bind_some]
      obtain ⟨names, hrest⟩ := @ih { σ with
        secretNames := ("x_" ++ toString k) :: σ.secretNames
        secretTypes := σ.secretTypes ++ [.arithField] } (k + 1)
        (fun name hmem => by
          rcases List.mem_cons.1 hmem with rfl | hmem
          · exact ⟨k, by omega, rfl⟩
          · obtain ⟨j, hj, heq⟩ := hnames name hmem
            exact ⟨j, by omega, heq⟩)
        (by rw [htypes, List.replicate_succ'])
      refine ⟨names, hrest.trans ?_⟩
      rw [List.length_cons, show k + 1 + owners.length = k + (owners.length + 1) by omega]

/-- The loop has run `k - 1` times: one expression is assigned to variable 0 and `k`
are to variable 1, and the Lagrange constants are those of earlier multiplications. -/
structure Looping (ctx : Context) (n k : ℕ) (σ : Shape) : Prop where
  taken : ∀ name ∈ σ.taken, name.toList.head? ≠ some 'm' ∨
    ∃ c < σ.mulCounter, ∃ i, name = Variable.lambdaName { ctx with mulCounter := c } i
  secretTypes : σ.secretTypes = List.replicate n .arithField
  assigned : σ.assigned = [[.arithField], List.replicate k .arithField]

/-- One round of the loop. -/
theorem Looping.step (h : Looping ctx n k σ) (hn : k < n) (op : BgwOp) :
    ∃ σ', [Stmt.assign 1 k, op.stmt].foldlM (Shape.step ctx) σ = some σ' ∧
      Looping ctx n (k + 1) σ' := by
  have hsecret : σ.secretTypes[k]? = some .arithField := by
    rw [h.secretTypes, List.getElem?_replicate, if_pos hn]
  have hassign : σ.step ctx (.assign 1 k) = some { σ with
      assigned := [[.arithField], List.replicate (k + 1) .arithField] } := by
    simp [Shape.step, Shape.put, h.assigned, hsecret, List.replicate_succ']
  have hassigned : Looping ctx n (k + 1) { σ with
      assigned := [[.arithField], List.replicate (k + 1) .arithField] } :=
    ⟨h.taken, h.secretTypes, rfl⟩
  rw [List.foldlM_cons, hassign, Option.bind_eq_bind, Option.bind_some, List.foldlM_cons]
  cases op with
  | add =>
      exact ⟨_, by simp [BgwOp.stmt, Shape.step, Shape.put, Shape.typeOf, List.replicate_succ],
        hassigned⟩
  | mul =>
      have hfree : ¬ ∃ name ∈ lambdaNames { ctx with mulCounter := σ.mulCounter } ctx.N,
          name ∈ σ.taken := by
        rintro ⟨name, hname, htaken⟩
        obtain ⟨i, -, rfl⟩ := mem_lambdaNames.1 hname
        rcases h.taken _ htaken with hm | ⟨c, hc, j, heq⟩
        · exact lambdaName_ne hm rfl
        · have hsame : σ.mulCounter = c := mulCounter_eq_of_lambdaName heq
          omega
      refine ⟨{ σ with
        taken := (lambdaNames { ctx with mulCounter := σ.mulCounter } ctx.N).reverse ++ σ.taken
        mulCounter := σ.mulCounter + 1
        assigned := [[.arithField], List.replicate (k + 1) .arithField] }, ?_, ?_,
        h.secretTypes, rfl⟩
      · simp only [BgwOp.stmt, Shape.step, if_neg hfree]
        simp [Shape.put, Shape.typeOf, List.replicate_succ]
      · intro name hmem
        rcases List.mem_append.1 hmem with hmem | hmem
        · obtain ⟨i, -, rfl⟩ := mem_lambdaNames.1 (List.mem_reverse.1 hmem)
          exact .inr ⟨σ.mulCounter, Nat.lt_succ_self _, i, rfl⟩
        · rcases h.taken name hmem with hm | ⟨c, hc, i, heq⟩
          · exact .inl hm
          · exact .inr ⟨c, Nat.lt_succ_of_lt hc, i, heq⟩

/-- The loop of operators, run. -/
theorem Looping.run (h : Looping ctx n k σ) (ops : List BgwOp) (hn : k + ops.length ≤ n) :
    ∃ σ', ((ops.zipIdx k).flatMap fun o => [Stmt.assign 1 o.2, o.1.stmt]).foldlM
        (Shape.step ctx) σ = some σ' ∧ Looping ctx n (k + ops.length) σ' := by
  induction ops generalizing σ k with
  | nil => exact ⟨σ, rfl, h⟩
  | cons op ops ih =>
      rw [List.length_cons] at hn
      obtain ⟨σ₁, hstep, h₁⟩ := h.step (by omega) op
      obtain ⟨σ', hrest, h'⟩ := ih h₁ (by omega)
      refine ⟨σ', ?_, ?_⟩
      · rw [List.zipIdx_cons, List.flatMap_cons, List.foldlM_append, hstep]
        exact hrest
      · rw [List.length_cons, show k + (ops.length + 1) = k + 1 + ops.length by omega]
        exact h'

/-- The loop of yields, run. -/
theorem Looping.yields (h : Looping ctx n k σ) (parties : List PartyDecl) :
    (parties.map fun p => Stmt.yield 0 p "").foldlM (Shape.step ctx) σ = some σ := by
  induction parties with
  | nil => rfl
  | cons p parties ih =>
      have hstep : σ.step ctx (.yield 0 p "") = some σ := by
        simp [Shape.step, Shape.typeOf, h.assigned]
      rw [List.map_cons, List.foldlM_cons, hstep]
      exact ih

/-- The check accepts the program. -/
theorem check_scalable (ctx : Context) (parties : List PartyDecl) {owners : List PartyDecl}
    {ops : List BgwOp} (hops : owners.length = ops.length + 1) :
    ∃ σ, Shape.check ctx (scalable parties owners ops) = some σ ∧
      σ.secretTypes.length = owners.length := by
  obtain ⟨names, hsecrets⟩ := @check_secrets ctx
    ⟨["const", "_const_zero"], [], 1, [], [], ctx.mulCounter⟩ 0 owners (by simp) rfl
  have hloop : Looping ctx owners.length 1 ⟨["const", "_const_zero"], names, 1,
      List.replicate owners.length .arithField, [[.arithField], [.arithField]],
      ctx.mulCounter⟩ := by
    refine ⟨fun name hmem => .inl ?_, rfl, rfl⟩
    simp only [List.mem_cons, List.not_mem_nil, or_false] at hmem
    rcases hmem with rfl | rfl <;> decide
  obtain ⟨σ', hrun, h'⟩ := hloop.run ops (by omega)
  refine ⟨σ', ?_, by rw [h'.secretTypes, List.length_replicate]⟩
  have hconst : (Shape.initial ctx).step ctx (.constant "const") =
      some ⟨["const", "_const_zero"], [], 1, [], [], ctx.mulCounter⟩ := by
    simp [Shape.step, Shape.initial]
  have hprelude : [Stmt.declare, .declare, .assign 1 0, .mulConst 1 1 0, .copy 0 1].foldlM
      (Shape.step ctx) ⟨["const", "_const_zero"], names, 1,
        List.replicate (0 + owners.length) .arithField, [], ctx.mulCounter⟩ =
      some ⟨["const", "_const_zero"], names, 1, List.replicate owners.length .arithField,
        [[.arithField], [.arithField]], ctx.mulCounter⟩ := by
    have hfirst : 0 < owners.length := by omega
    simp [Shape.step, Shape.put, hfirst]
  unfold Shape.check scalable
  rw [List.cons_append, List.foldlM_cons, hconst, Option.bind_eq_bind, Option.bind_some,
    List.foldlM_append, hsecrets, Option.bind_eq_bind, Option.bind_some, List.foldlM_append,
    hprelude, Option.bind_eq_bind, Option.bind_some, List.foldlM_append, hrun,
    Option.bind_eq_bind, Option.bind_some]
  exact h'.yields parties

/-! ### Its values -/

variable (constant : String → F) (secret : ℕ → F)

/-- What the loop of secrets leaves in the variable. -/
theorem foldl_value_secrets (owners : List PartyDecl) (k : ℕ) (vals : Values F) :
    ((owners.zipIdx k).map fun o => Stmt.secret ("x_" ++ toString o.2) .arithField o.1).foldl
      (Stmt.value constant secret) vals = vals := by
  induction owners generalizing k with
  | nil => rfl
  | cons owner owners ih => exact ih (k + 1)

/-- Whatever is assigned to variable 1 hides behind its first value. -/
theorem foldl_value_loop (ops : List BgwOp) (k : ℕ) (cs : List F) (y z : F) (hidden : List F) :
    ∃ hidden', ((ops.zipIdx k).flatMap fun o => [Stmt.assign 1 o.2, o.1.stmt]).foldl
        (Stmt.value constant secret) ⟨cs, [[y], z :: hidden], []⟩ =
      ⟨cs, [[ops.foldl (fun y op => op.apply y z) y], z :: hidden'], []⟩ := by
  induction ops generalizing k y hidden with
  | nil => exact ⟨hidden, rfl⟩
  | cons op ops ih =>
      obtain ⟨hidden', hrest⟩ := ih (k + 1) (op.apply y z) (hidden ++ [secret k])
      refine ⟨hidden', ?_⟩
      rw [List.zipIdx_cons, List.flatMap_cons, List.foldl_append, List.foldl_cons]
      refine Eq.trans ?_ hrest
      cases op <;> rfl

theorem foldl_value_yields (parties : List PartyDecl) (cs : List F) (y : F) (vars : List (List F))
    (outputs : List (Option F)) :
    (parties.map fun p => Stmt.yield 0 p "").foldl (Stmt.value constant secret)
        ⟨cs, [y] :: vars, outputs⟩ =
      ⟨cs, [y] :: vars, outputs ++ List.replicate parties.length (some y)⟩ := by
  induction parties generalizing outputs with
  | nil => simp
  | cons p parties ih =>
      rw [List.map_cons, List.foldl_cons, List.length_cons, List.replicate_succ,
        List.append_cons]
      exact ih (outputs ++ [some y])

theorem stmtValues_scalable (parties owners : List PartyDecl) (ops : List BgwOp) :
    (stmtValues constant secret (scalable parties owners ops)).outputs =
      List.replicate parties.length (some (ops.foldl
        (fun y op => op.apply y (secret 0 * constant "const")) (secret 0 * constant "const"))) := by
  obtain ⟨hidden, hloop⟩ := foldl_value_loop constant secret ops 1
    [constant "const"] (secret 0 * constant "const") (secret 0 * constant "const") []
  unfold stmtValues scalable
  rw [List.cons_append, List.foldl_cons, List.foldl_append, foldl_value_secrets,
    List.foldl_append, List.foldl_append]
  have hprelude : [Stmt.declare, .declare, .assign 1 0, .mulConst 1 1 0, .copy 0 1].foldl
      (Stmt.value constant secret) ⟨[constant "const"], [], []⟩ =
      ⟨[constant "const"], [[secret 0 * constant "const"], [secret 0 * constant "const"]], []⟩ :=
    rfl
  simp only [Stmt.value, List.nil_append]
  rw [hprelude, hloop, foldl_value_yields, List.nil_append]

/-- **The scalable test computes with its first secret only.**  With at least one
party and one secret the program runs, and every party is sent the same value: the
first secret times the constant, combined with itself by the drawn operators.  The
later secrets are shared, but no operator reads their shares. -/
theorem scalable_reads_first {parties owners : List PartyDecl} {ops : List BgwOp} (T : ℕ)
    (hparties : 0 < parties.length) (hops : owners.length = ops.length + 1) :
    ∃ s fe x₀, runStmts ⟨parties, T, 0⟩ (scalable parties owners ops) .initial = .ok (s, fe) ∧
      s.secrets.length = owners.length ∧ s.secrets[0]? = some x₀ ∧
      ∀ ρ : Reading F, Reads ρ ⟨parties, T, 0⟩ → s.outputs.length = parties.length ∧
        ∀ q ∈ s.outputs, fe.heap.value ρ q = ops.foldl
          (fun y op => op.apply y (ρ.input x₀ * ρ.constant "const"))
          (ρ.input x₀ * ρ.constant "const") := by
  obtain ⟨σ, hσ, hlen⟩ := check_scalable ⟨parties, T, 0⟩ parties hops
  obtain ⟨s, fe, hrun, hagrees⟩ :=
    ((agrees_initial ⟨parties, T, 0⟩).run_iff hparties _).1 σ hσ
  have hsecrets : s.secrets.length = owners.length := hagrees.secrets_length.trans hlen
  have hfirst : 0 < s.secrets.length := by omega
  refine ⟨s, fe, s.secrets[0], hrun, hsecrets, List.getElem?_eq_getElem hfirst, fun ρ hρ => ?_⟩
  have hvalues := evaluates_runStmts hρ hrun
  have houtputs := stmtValues_scalable ρ.constant (secretOf ρ s) parties owners ops
  have hhead : secretOf ρ s 0 = ρ.input s.secrets[0] := by
    unfold secretOf
    rw [List.getD_eq_getElem _ _ hfirst]
  have hlength := hvalues.outputs_length
  rw [houtputs, List.length_replicate] at hlength
  refine ⟨hlength, fun q hq => ?_⟩
  obtain ⟨j, hj⟩ := List.getElem?_of_mem hq
  refine hvalues.outputs j q _ hj ?_
  rw [houtputs, List.getElem?_replicate, if_pos (hlength ▸ lt_of_getElem?_some hj), hhead]

theorem scalable_reads_first_three : ∃ s fe x₀,
    runStmts ⟨[1, 2, 3], 1, 0⟩ (scalable [1, 2, 3] [1, 2] [.mul]) .initial = .ok (s, fe) ∧
      s.secrets[0]? = some x₀ ∧ s.outputs.length = 3 ∧ ∀ q ∈ s.outputs,
        fe.heap.value threeParties q =
          threeParties.input x₀ * threeParties.constant "const" *
            (threeParties.input x₀ * threeParties.constant "const") := by
  obtain ⟨s, fe, x₀, hrun, -, hfirst, hall⟩ :=
    @scalable_reads_first ℚ _ [1, 2, 3] [1, 2] [.mul] 1 (by decide) rfl
  obtain ⟨hlength, hvalues⟩ := hall threeParties reads_threeParties
  exact ⟨s, fe, x₀, hrun, hfirst, hlength, hvalues⟩

end Scalable

end Bgw

end Gauv
