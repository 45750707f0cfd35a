import Gauv.Bgwfrontend.Returns

/-!
# Protocols as sequences of statements

The examples declare constants, secrets and variables, assign to the variables
again and again, and yield some of them.  Such a program neither throws nor reads
beyond a vector exactly when a check of its text passes: the objects it names are
there, the variables it computes with hold something, what it yields has one type,
and no name of a constant or a secret is taken twice, the Lagrange constants of the
multiplications included.
-/

namespace Gauv

open FrontM

namespace Bgw

/-! ## Statements -/

/-- A statement.  Constants, secrets and variables are told by the order in which
they were declared. -/
inductive Stmt where
  | declare
  | constant (name : String)
  | secret (name : String) (type : Ty) (party : PartyDecl)
  | assign (x j : ℕ)
  | copy (x y : ℕ)
  | add (x y z : ℕ)
  | mulConst (x y c : ℕ)
  | mul (x y z : ℕ)
  | yield (x : ℕ) (party : PartyDecl) (name : String)
  deriving DecidableEq, Repr

/-- What a program holds. -/
structure Store where
  ctx : Context
  consts : List ℕ
  secrets : List ℕ
  vars : List Variable
  outputs : List ℕ
  deriving DecidableEq, Repr

/-- The object that was declared as the `i`-th. -/
def objectAt {α : Type} (l : List α) (i : ℕ) : FrontM α :=
  match l[i]? with
  | some a => return a
  | none => throw .undefined

/-- `operator=(Variable)`. -/
def Store.put (s : Store) (x : ℕ) (v : Variable) : FrontM Store := do
  let _ ← objectAt s.vars x
  return { s with vars := s.vars.set x v }

/-- Run one statement. -/
def Stmt.run (s : Store) : Stmt → FrontM Store
  | .declare => return { s with vars := s.vars ++ [[]] }
  | .constant name => do
      let c ← newConstant name
      return { s with consts := s.consts ++ [c] }
  | .secret name type party => do
      let a ← newSecret name type party
      return { s with secrets := s.secrets ++ [a] }
  | .assign x j => do
      let v ← objectAt s.vars x
      let a ← objectAt s.secrets j
      let r ← Variable.assign s.ctx v a
      s.put x r
  | .copy x y => do
      let v ← objectAt s.vars y
      s.put x v
  | .add x y z => do
      let v ← objectAt s.vars y
      let w ← objectAt s.vars z
      let r ← Variable.add s.ctx v w
      s.put x r
  | .mulConst x y c => do
      let v ← objectAt s.vars y
      let a ← objectAt s.consts c
      let r ← Variable.mulConst s.ctx v a
      s.put x r
  | .mul x y z => do
      let v ← objectAt s.vars y
      let w ← objectAt s.vars z
      let (r, ctx) ← Variable.mul s.ctx v w
      Store.put { s with ctx := ctx } x r
  | .yield x party name => do
      let v ← objectAt s.vars x
      let q ← Variable.yield v party name
      return { s with outputs := s.outputs ++ [q] }

/-- Run a program in the context `ctx`. -/
def runStmts (ctx : Context) (program : List Stmt) : FrontM Store :=
  program.foldlM Stmt.run ⟨ctx, [], [], [], []⟩

/-! ## The check -/

/-- What the check knows of a store: the names of constants and of secrets that
are taken, the types of the secrets, and the types of the expressions that were
assigned to each variable since it was last overwritten. -/
structure Shape where
  taken : List String
  secretNames : List String
  consts : ℕ
  secretTypes : List Ty
  assigned : List (List Ty)
  mulCounter : ℕ
  deriving DecidableEq, Repr

/-- What it knows at the start of the process. -/
def Shape.initial (ctx : Context) : Shape := ⟨["_const_zero"], [], 0, [], [], ctx.mulCounter⟩

namespace Shape

def put (σ : Shape) (x : ℕ) (ts : List Ty) : Option Shape :=
  if x < σ.assigned.length then some { σ with assigned := σ.assigned.set x ts } else none

/-- The type of a variable that holds something. -/
def typeOf (σ : Shape) (x : ℕ) : Option Ty := σ.assigned[x]? >>= List.head?

/-- Check one statement. -/
def step (ctx : Context) (σ : Shape) : Stmt → Option Shape
  | .declare => some { σ with assigned := σ.assigned ++ [[]] }
  | .constant name =>
      if name ∈ σ.taken then none
      else some { σ with taken := name :: σ.taken, consts := σ.consts + 1 }
  | .secret name type _ =>
      if name ∈ σ.secretNames then none
      else some { σ with
        secretNames := name :: σ.secretNames, secretTypes := σ.secretTypes ++ [type] }
  | .assign x j => do
      let ts ← σ.assigned[x]?
      let t ← σ.secretTypes[j]?
      σ.put x (ts ++ [t])
  | .copy x y => do
      let ts ← σ.assigned[y]?
      σ.put x ts
  | .add x y z => do
      let t ← σ.typeOf y
      let _ ← σ.typeOf z
      σ.put x [t]
  | .mulConst x y c => do
      let ts ← σ.assigned[y]?
      if ts = [] ∨ σ.consts ≤ c then none else σ.put x ts
  | .mul x y z => do
      let t ← σ.typeOf y
      let _ ← σ.typeOf z
      let names := lambdaNames { ctx with mulCounter := σ.mulCounter } ctx.N
      if ∃ name ∈ names, name ∈ σ.taken then none
      else put { σ with
        taken := names.reverse ++ σ.taken, mulCounter := σ.mulCounter + 1 } x [t]
  | .yield x _ _ => do
      let t ← σ.typeOf x
      let ts ← σ.assigned[x]?
      if ∀ t' ∈ ts, t' = t then some σ else none

/-- Check a program. -/
def check (ctx : Context) (program : List Stmt) : Option Shape :=
  program.foldlM (step ctx) (initial ctx)

end Shape

variable {fe fe' : Frontend} {heap heap' : Heap} {ctx : Context} {v w r : Variable}
  {type type' : Ty} {p : PartyDecl} {a b q : ℕ}

/-! ## What a variable holds -/

/-- The variable holds the shares of expressions of the given types, one after the
other. -/
def Holds (ctx : Context) (heap : Heap) (ts : List Ty) (v : Variable) : Prop :=
  ∃ bs : List Variable, v = bs.flatten ∧
    List.Forall₂ (fun t b => b.length = ctx.N ∧ Starts ctx heap t b) ts bs

section Holds

variable {ts : List Ty} {t : Ty}

theorem holds_nil : Holds ctx heap [] [] := ⟨[], rfl, .nil⟩

theorem Holds.mono (h : Holds ctx heap ts v) (hpre : heap <+: heap') : Holds ctx heap' ts v := by
  obtain ⟨bs, hv, hbs⟩ := h
  exact ⟨bs, hv, hbs.imp fun t b hb => ⟨hb.1, hb.2.mono hpre⟩⟩

theorem holds_singleton (hlen : r.length = ctx.N) (hr : Starts ctx heap t r) :
    Holds ctx heap [t] r := ⟨[r], by simp, .cons ⟨hlen, hr⟩ .nil⟩

theorem Holds.append (h : Holds ctx heap ts v) (hlen : r.length = ctx.N)
    (hr : Starts ctx heap t r) : Holds ctx heap (ts ++ [t]) (v ++ r) := by
  obtain ⟨bs, rfl, hbs⟩ := h
  exact ⟨bs ++ [r], by simp, List.rel_append hbs (.cons ⟨hlen, hr⟩ .nil)⟩

theorem Holds.starts (h : Holds ctx heap (t :: ts) v) : Starts ctx heap t v := by
  obtain ⟨bs, rfl, hbs⟩ := h
  cases hbs with
  | @cons _ b _ bs hb hbs =>
      intro i p hp
      obtain ⟨a, ha, hheld⟩ := hb.2 i p hp
      exact ⟨a, getElem?_append_some ha, hheld⟩

/-- The first shares can be replaced. -/
theorem Holds.replace (h : Holds ctx heap (t :: ts) v) (hlen : r.length = ctx.N)
    (hr : Starts ctx heap t r) : Holds ctx heap (t :: ts) (r ++ v.drop ctx.N) := by
  obtain ⟨bs, rfl, hbs⟩ := h
  cases hbs with
  | @cons _ b _ bs hb hbs =>
      refine ⟨r :: bs, ?_, .cons ⟨hlen, hr⟩ hbs⟩
      rw [List.flatten_cons, List.flatten_cons, ← hb.1, List.drop_left]

theorem Holds.head?_of_getElem? {i : ℕ} (h : Holds ctx heap ts v) (ha : v[i]? = some a) :
    ∃ t, ts.head? = some t := by
  cases ts with
  | nil =>
      obtain ⟨bs, rfl, hbs⟩ := h
      cases hbs
      exact absurd ha (by simp)
  | cons t ts => exact ⟨t, rfl⟩

/-- Every share has the type of an expression that was assigned. -/
theorem Holds.share_type (h : Holds ctx heap ts v) (ha : a ∈ v) :
    ∃ t ∈ ts, ∃ p, HeldShare heap t a p := by
  obtain ⟨bs, rfl, hbs⟩ := h
  induction hbs with
  | nil => exact absurd ha List.not_mem_nil
  | @cons t b ts bs hb hbs ih =>
      rcases List.mem_append.1 ha with ha | ha
      · obtain ⟨i, hi⟩ := List.getElem?_of_mem ha
        have hlt : i < ctx.parties.length := by
          rw [← Context.N, ← hb.1]
          exact lt_of_getElem?_some hi
        obtain ⟨a', ha', hheld⟩ := hb.2 i _ (List.getElem?_eq_getElem hlt)
        obtain rfl := Option.some.inj (hi.symm.trans ha')
        exact ⟨t, List.mem_cons_self .., _, hheld⟩
      · obtain ⟨t', ht', hheld⟩ := ih ha
        exact ⟨t', List.mem_cons_of_mem _ ht', hheld⟩

/-- Every expression that was assigned has a share. -/
theorem Holds.exists_share (h : Holds ctx heap ts v) (hN : 0 < ctx.N) (ht : t ∈ ts) :
    ∃ a ∈ v, ∃ p, HeldShare heap t a p := by
  obtain ⟨bs, rfl, hbs⟩ := h
  induction hbs with
  | nil => exact absurd ht List.not_mem_nil
  | @cons t' b ts bs hb hbs ih =>
      rcases List.mem_cons.1 ht with rfl | ht
      · obtain ⟨a, ha, hheld⟩ := hb.2 0 _ (List.getElem?_eq_getElem hN)
        exact ⟨a, List.mem_append_left _ (List.mem_of_getElem? ha), _, hheld⟩
      · obtain ⟨a, ha, hheld⟩ := ih ht
        exact ⟨a, List.mem_append_right _ ha, hheld⟩

/-- `yield` returns exactly when the variable holds something, all of one type. -/
theorem yield_returns_iff (hs : fe.heap.Sound) (hN : 0 < ctx.N) (h : Holds ctx fe.heap ts v)
    (p : PartyDecl) (name : String) : (∃ x, Variable.yield v p name fe = .ok x) ↔
      ∃ t, ts.head? = some t ∧ ∀ t' ∈ ts, t' = t := by
  -- a transferred share keeps its type
  have hmoved : ∀ {qs : List ℕ} {fe₁ : Frontend},
      (v.mapM fun s => Share.transfer s p : FrontM (List ℕ)) fe = .ok (qs, fe₁) →
        fe₁.heap.Sound ∧ fe.heap <+: fe₁.heap ∧ qs.length = v.length ∧
        ∀ (i a : ℕ) (t : Ty) (p₀ : PartyDecl), v[i]? = some a → HeldShare fe.heap t a p₀ →
          ∃ q, qs[i]? = some q ∧ HeldShare fe₁.heap t q p := by
    intro qs fe₁ hqs
    obtain ⟨hs₁, hpre⟩ := KeepsSound.mapM (fun s => Share.keepsSound_transfer s p) v _ _ _ hqs hs
    obtain ⟨hlen, hall⟩ := mapM_ok (fun s => Share.keepsSound_transfer s p) hs hqs
    refine ⟨hs₁, hpre, hlen, fun i a t p₀ hi hheld => ?_⟩
    have hlt : i < qs.length := by
      rw [hlen]
      exact lt_of_getElem?_some hi
    have hget := List.getElem?_eq_getElem hlt
    obtain ⟨a', ha', fe₂, fe₃, hs₂, -, htransfer, hpre₃⟩ := hall i _ hget
    obtain rfl := Option.some.inj (hi.symm.trans ha')
    exact ⟨_, hget, (transfer_held (ρ := noValues) htransfer hs₂ hpre₃ hs₁ (hheld.mono hpre)).1⟩
  constructor
  · rintro ⟨⟨q, fe'⟩, hq⟩
    obtain ⟨qs, fe₁, hqs, hrec⟩ := bind_ok.1 hq
    obtain ⟨-, -, hlen, hheld⟩ := hmoved hqs
    obtain ⟨es, holder, type, _, hes, hne, hchecked, -⟩ := Share.reconstruct_ok hrec
    have htype : ∀ t ∈ ts, t = type := by
      intro t ht
      obtain ⟨a, ha, p₀, hsh⟩ := h.exists_share hN ht
      obtain ⟨i, hi⟩ := List.getElem?_of_mem ha
      obtain ⟨q, hq, e, he, -, -, rfl⟩ := hheld i a t p₀ hi hsh
      obtain ⟨e', hmem, he'⟩ := exists_of_mem_left hes (List.mem_of_getElem? hq)
      obtain rfl := Option.some.inj (he.symm.trans he')
      exact (hchecked e hmem).2.2
    have hpos : 0 < v.length := by
      rw [← hlen]
      exact List.length_pos_iff.2 hne
    obtain ⟨t, ht⟩ := h.head?_of_getElem? (List.getElem?_eq_getElem hpos)
    refine ⟨t, ht, fun t' ht' => ?_⟩
    rw [htype t' ht', htype t (List.mem_of_mem_head? ht)]
  · rintro ⟨t, hhead, hall⟩
    have hshares : ∀ a ∈ v, ∃ p₀, HeldShare fe.heap t a p₀ := fun a ha => by
      obtain ⟨t', ht', hheld⟩ := h.share_type ha
      rwa [hall t' ht'] at hheld
    obtain ⟨qs, fe₁, hqs⟩ := transfers_return p hs hshares
    obtain ⟨-, -, hlen, hheld⟩ := hmoved hqs
    have hne : qs ≠ [] := by
      obtain ⟨a, ha, -⟩ := h.exists_share hN (List.mem_of_mem_head? hhead)
      rw [← List.length_pos_iff, hlen]
      exact List.length_pos_of_mem ha
    obtain ⟨q, fe', hq⟩ := Share.reconstruct_returns hne (fun q hq => by
      obtain ⟨i, hi⟩ := List.getElem?_of_mem hq
      have hlt : i < v.length := by
        rw [← hlen]
        exact lt_of_getElem?_some hi
      have hget := List.getElem?_eq_getElem hlt
      obtain ⟨p₀, hsh⟩ := hshares _ (List.getElem_mem hlt)
      obtain ⟨q', hq', hh⟩ := hheld i _ t p₀ hget hsh
      obtain rfl := Option.some.inj (hi.symm.trans hq')
      exact hh) p name
    exact ⟨(q, fe'), bind_ok.2 ⟨qs, fe₁, hqs, hq⟩⟩

end Holds

/-! ## The check agrees with the run -/

/-- What the check knows is true of the store. -/
structure Agrees (ctx : Context) (σ : Shape) (s : Store) (fe : Frontend) : Prop where
  sound : fe.heap.Sound
  context : s.ctx = { ctx with mulCounter := σ.mulCounter }
  constants : fe.constants = σ.taken
  secretNames : fe.secrets = σ.secretNames
  consts_length : s.consts.length = σ.consts
  consts : ∀ c ∈ s.consts, ∃ e, fe.heap[c]? = some e ∧ e.isConstant = true
  secrets_length : s.secrets.length = σ.secretTypes.length
  secrets : ∀ (j a : ℕ), s.secrets[j]? = some a →
    ∃ e, fe.heap[a]? = some e ∧ σ.secretTypes[j]? = some e.type
  vars_length : s.vars.length = σ.assigned.length
  vars : ∀ (x : ℕ) (v : Variable), s.vars[x]? = some v →
    ∃ ts, σ.assigned[x]? = some ts ∧ Holds ctx fe.heap ts v

theorem objectAt_ok {α : Type} {l : List α} {i : ℕ} {y : α × Frontend} :
    objectAt l i fe = .ok y ↔ l[i]? = some y.1 ∧ y.2 = fe := by
  obtain ⟨a, fe'⟩ := y
  unfold objectAt
  cases hl : l[i]? with
  | none => simp [throw_ok]
  | some b =>
      refine pure_ok.trans ?_
      rw [Prod.mk.injEq, Option.some.injEq, eq_comm (a := a)]

theorem Store.put_ok {s : Store} {x : ℕ} {y : Store × Frontend} :
    s.put x v fe = .ok y ↔
      x < s.vars.length ∧ y = ({ s with vars := s.vars.set x v }, fe) := by
  unfold Store.put
  simp only [bind_ok, objectAt_ok]
  constructor
  · rintro ⟨u, _, ⟨hu, rfl⟩, hp⟩
    exact ⟨lt_of_getElem?_some hu, pure_ok.1 hp⟩
  · rintro ⟨hx, rfl⟩
    exact ⟨_, fe, ⟨List.getElem?_eq_getElem hx, rfl⟩, pure_ok.2 rfl⟩

theorem Shape.put_eq_some {σ σ' : Shape} {x : ℕ} {ts : List Ty} : σ.put x ts = some σ' ↔
    x < σ.assigned.length ∧ σ' = { σ with assigned := σ.assigned.set x ts } := by
  unfold Shape.put
  split
  · rename_i hx
    simp [hx, eq_comm]
  · rename_i hx
    simp [hx]

section Agrees

variable {σ σ' : Shape} {s : Store} {ts : List Ty} {t : Ty} {x y : ℕ}

/-- The heap grows, and names are taken. -/
theorem Agrees.grow (h : Agrees ctx σ s fe) (hs : fe'.heap.Sound) (hpre : fe.heap <+: fe'.heap) :
    Agrees ctx { σ with taken := fe'.constants, secretNames := fe'.secrets } s fe' where
  sound := hs
  context := h.context
  constants := rfl
  secretNames := rfl
  consts_length := h.consts_length
  consts := by
    intro c hmem
    obtain ⟨e, he, hec⟩ := h.consts c hmem
    exact ⟨e, Heap.getElem?_of_isPrefix hpre he, hec⟩
  secrets_length := h.secrets_length
  secrets := by
    intro j a ha
    obtain ⟨e, he, ht⟩ := h.secrets j a ha
    exact ⟨e, Heap.getElem?_of_isPrefix hpre he, ht⟩
  vars_length := h.vars_length
  vars := by
    intro x v hv
    obtain ⟨ts, hts, hholds⟩ := h.vars x v hv
    exact ⟨ts, hts, hholds.mono hpre⟩

/-- A call that takes no name. -/
theorem Agrees.call {α : Type} {m : FrontM α} {a : α} (h : Agrees ctx σ s fe)
    (hm : KeepsSound m) (hn : KeepsNames m) (hr : m fe = .ok (a, fe')) : Agrees ctx σ s fe' := by
  obtain ⟨hs, hpre⟩ := hm _ _ _ hr h.sound
  obtain ⟨hc, hsec, -⟩ := hn _ _ _ hr
  have hgrow := h.grow hs hpre
  rwa [hc, hsec, h.constants, h.secretNames] at hgrow

theorem Agrees.pushVar (h : Agrees ctx σ s fe) :
    Agrees ctx { σ with assigned := σ.assigned ++ [[]] } { s with vars := s.vars ++ [[]] } fe := by
  refine ⟨h.sound, h.context, h.constants, h.secretNames, h.consts_length, h.consts,
    h.secrets_length, h.secrets, ?_, fun x v hv => ?_⟩
  · simp [h.vars_length]
  · rcases Nat.lt_or_ge x s.vars.length with hlt | hge
    · rw [List.getElem?_append_left hlt] at hv
      rw [List.getElem?_append_left (h.vars_length ▸ hlt)]
      exact h.vars x v hv
    · have hlen := lt_of_getElem?_some hv
      rw [List.length_append, List.length_singleton] at hlen
      obtain rfl : x = s.vars.length := by omega
      rw [List.getElem?_concat_length, Option.some.injEq] at hv
      subst hv
      rw [h.vars_length, List.getElem?_concat_length]
      exact ⟨[], rfl, holds_nil⟩

theorem Agrees.pushConst (h : Agrees ctx σ s fe) {c : ℕ} {e : Expression}
    (hc : fe.heap[c]? = some e) (hec : e.isConstant = true) :
    Agrees ctx { σ with consts := σ.consts + 1 } { s with consts := s.consts ++ [c] } fe := by
  refine ⟨h.sound, h.context, h.constants, h.secretNames, ?_, fun b hb => ?_,
    h.secrets_length, h.secrets, h.vars_length, h.vars⟩
  · simp [h.consts_length]
  · rcases List.mem_append.1 hb with hb | hb
    · exact h.consts b hb
    · rw [List.mem_singleton.1 hb]
      exact ⟨e, hc, hec⟩

theorem Agrees.pushSecret (h : Agrees ctx σ s fe) {e : Expression} (he : fe.heap[a]? = some e) :
    Agrees ctx { σ with secretTypes := σ.secretTypes ++ [e.type] }
      { s with secrets := s.secrets ++ [a] } fe := by
  refine ⟨h.sound, h.context, h.constants, h.secretNames, h.consts_length, h.consts, ?_,
    fun j b hb => ?_, h.vars_length, h.vars⟩
  · simp [h.secrets_length]
  · rcases Nat.lt_or_ge j s.secrets.length with hlt | hge
    · rw [List.getElem?_append_left hlt] at hb
      rw [List.getElem?_append_left (h.secrets_length ▸ hlt)]
      exact h.secrets j b hb
    · have hlen := lt_of_getElem?_some hb
      rw [List.length_append, List.length_singleton] at hlen
      obtain rfl : j = s.secrets.length := by omega
      rw [List.getElem?_concat_length, Option.some.injEq] at hb
      subst hb
      rw [h.secrets_length, List.getElem?_concat_length]
      exact ⟨e, he, rfl⟩

/-- One more multiplication. -/
theorem Agrees.tick (h : Agrees ctx σ s fe) :
    Agrees ctx { σ with mulCounter := σ.mulCounter + 1 }
      { s with ctx := { s.ctx with mulCounter := s.ctx.mulCounter + 1 } } fe := by
  refine ⟨h.sound, ?_, h.constants, h.secretNames, h.consts_length, h.consts,
    h.secrets_length, h.secrets, h.vars_length, h.vars⟩
  show { s.ctx with mulCounter := s.ctx.mulCounter + 1 } = _
  rw [h.context]

/-- A variable is overwritten. -/
theorem Agrees.put (h : Agrees ctx σ s fe) (hr : Holds ctx fe.heap ts r)
    (hσ : σ.put x ts = some σ') :
    ∃ s', s.put x r fe = .ok (s', fe) ∧ Agrees ctx σ' s' fe := by
  obtain ⟨hx, rfl⟩ := Shape.put_eq_some.1 hσ
  refine ⟨_, Store.put_ok.2 ⟨by rw [h.vars_length]; exact hx, rfl⟩, ?_⟩
  refine ⟨h.sound, h.context, h.constants, h.secretNames, h.consts_length, h.consts,
    h.secrets_length, h.secrets, ?_, fun y w hw => ?_⟩
  · rw [List.length_set, List.length_set, h.vars_length]
  · rw [List.getElem?_set] at hw ⊢
    split at hw
    · rename_i hxy
      split at hw
      · rw [Option.some.injEq] at hw
        rw [if_pos hxy, if_pos hx, ← hw]
        exact ⟨ts, rfl, hr⟩
      · exact absurd hw (by simp)
    · rename_i hxy
      rw [if_neg hxy]
      exact h.vars y w hw

/-- What the check knows of a variable. -/
theorem Agrees.exists_var (h : Agrees ctx σ s fe) (hx : σ.assigned[x]? = some ts) :
    ∃ v, s.vars[x]? = some v ∧ Holds ctx fe.heap ts v := by
  have hlt : x < s.vars.length := by
    rw [h.vars_length]
    exact lt_of_getElem?_some hx
  have hget := List.getElem?_eq_getElem hlt
  obtain ⟨ts', hts', hholds⟩ := h.vars x _ hget
  obtain rfl := Option.some.inj (hx.symm.trans hts')
  exact ⟨_, hget, hholds⟩

theorem Shape.typeOf_eq_some : σ.typeOf x = some t ↔ ∃ ts, σ.assigned[x]? = some (t :: ts) := by
  unfold Shape.typeOf
  rw [Option.bind_eq_bind, Option.bind_eq_some_iff]
  constructor
  · rintro ⟨ts, hts, ht⟩
    cases ts with
    | nil => exact absurd ht (by simp)
    | cons t' ts =>
        cases ht
        exact ⟨ts, hts⟩
  · rintro ⟨ts, hts⟩
    exact ⟨_, hts, rfl⟩

/-- A variable that holds something. -/
theorem Agrees.exists_starts (h : Agrees ctx σ s fe) (hx : σ.typeOf x = some t) :
    ∃ v, s.vars[x]? = some v ∧ Starts ctx fe.heap t v := by
  obtain ⟨ts, hts⟩ := Shape.typeOf_eq_some.1 hx
  obtain ⟨v, hv, hholds⟩ := h.exists_var hts
  exact ⟨v, hv, hholds.starts⟩

/-- A variable whose first share was read holds something. -/
theorem Agrees.typeOf_of_shareAt (h : Agrees ctx σ s fe) {i a : ℕ} (hv : s.vars[x]? = some v)
    (ha : v[i]? = some a) : ∃ t, σ.typeOf x = some t := by
  obtain ⟨ts, hts, hholds⟩ := h.vars x v hv
  obtain ⟨t, ht⟩ := hholds.head?_of_getElem? ha
  refine ⟨t, ?_⟩
  unfold Shape.typeOf
  rw [hts]
  exact ht

/-! ### When the check passes -/

theorem Agrees.runs_constant (h : Agrees ctx σ s fe) {name : String}
    (hσ : σ.step ctx (.constant name) = some σ') :
    ∃ s' fe', (Stmt.constant name).run s fe = .ok (s', fe') ∧ Agrees ctx σ' s' fe' := by
  simp only [Shape.step] at hσ
  split at hσ
  · exact absurd hσ (by simp)
  · rename_i hname
    cases hσ
    obtain ⟨c, fe', hc⟩ : ∃ c fe', newConstant name fe = .ok (c, fe') :=
      ⟨_, _, newConstant_iff.2 ⟨by rwa [h.constants], rfl, rfl⟩⟩
    obtain ⟨hs, hpre⟩ := keepsSound_newConstant name _ _ _ hc h.sound
    obtain ⟨-, -, hfe⟩ := newConstant_iff.1 hc
    have hpush :=
      (h.grow hs hpre).pushConst ((newConstant_ok hc).getElem? (List.prefix_refl _)) rfl
    refine ⟨_, fe', bind_ok.2 ⟨c, fe', hc, pure_ok.2 rfl⟩, ?_⟩
    rwa [show fe'.constants = name :: σ.taken by rw [hfe, h.constants],
      show fe'.secrets = σ.secretNames by rw [hfe, h.secretNames]] at hpush

theorem Agrees.runs_secret (h : Agrees ctx σ s fe) {name : String}
    (hσ : σ.step ctx (.secret name type p) = some σ') :
    ∃ s' fe', (Stmt.secret name type p).run s fe = .ok (s', fe') ∧ Agrees ctx σ' s' fe' := by
  simp only [Shape.step] at hσ
  split at hσ
  · exact absurd hσ (by simp)
  · rename_i hname
    cases hσ
    obtain ⟨a, fe', ha⟩ : ∃ a fe', newSecret name type p fe = .ok (a, fe') :=
      ⟨_, _, newSecret_iff.2 ⟨by rwa [h.secretNames], rfl, rfl⟩⟩
    obtain ⟨hs, hpre⟩ := keepsSound_newSecret name type p _ _ _ ha h.sound
    obtain ⟨-, -, hfe⟩ := newSecret_iff.1 ha
    have hpush := (h.grow hs hpre).pushSecret ((newSecret_ok ha).getElem? (List.prefix_refl _))
    refine ⟨_, fe', bind_ok.2 ⟨a, fe', ha, pure_ok.2 rfl⟩, ?_⟩
    rwa [show fe'.constants = σ.taken by rw [hfe, h.constants],
      show fe'.secrets = name :: σ.secretNames by rw [hfe, h.secretNames]] at hpush

theorem Agrees.runs_assign (h : Agrees ctx σ s fe) {j : ℕ}
    (hσ : σ.step ctx (.assign x j) = some σ') :
    ∃ s' fe', (Stmt.assign x j).run s fe = .ok (s', fe') ∧ Agrees ctx σ' s' fe' := by
  simp only [Shape.step, Option.bind_eq_bind, Option.bind_eq_some_iff] at hσ
  obtain ⟨ts, hts, t, ht, hput⟩ := hσ
  obtain ⟨v, hv, hholds⟩ := h.exists_var hts
  have hj : j < s.secrets.length := by
    rw [h.secrets_length]
    exact lt_of_getElem?_some ht
  have hget := List.getElem?_eq_getElem hj
  obtain ⟨e, he, htype⟩ := h.secrets j _ hget
  obtain rfl := Option.some.inj (ht.symm.trans htype)
  obtain ⟨r, fe', hr, hlen, hstarts⟩ :
      ∃ r fe', Variable.share s.ctx s.secrets[j] fe = .ok (r, fe') ∧ r.length = s.ctx.N ∧
        Starts s.ctx fe'.heap e.type r := share_starts h.sound he
  have h' := h.call (Variable.keepsSound_share _ _) (Variable.keepsNames_share _) hr
  have hpre := (Variable.keepsSound_share _ _ _ _ _ hr h.sound).2
  rw [h.context] at hlen hstarts
  obtain ⟨s', hs', hagrees⟩ := h'.put ((hholds.mono hpre).append hlen hstarts) hput
  refine ⟨s', fe', bind_ok.2 ⟨v, fe, objectAt_ok.2 ⟨hv, rfl⟩, ?_⟩, hagrees⟩
  exact bind_ok.2 ⟨_, fe, objectAt_ok.2 ⟨hget, rfl⟩,
    bind_ok.2 ⟨v ++ r, fe', bind_ok.2 ⟨r, fe', hr, pure_ok.2 rfl⟩, hs'⟩⟩

theorem Agrees.runs_copy (h : Agrees ctx σ s fe) (hσ : σ.step ctx (.copy x y) = some σ') :
    ∃ s' fe', (Stmt.copy x y).run s fe = .ok (s', fe') ∧ Agrees ctx σ' s' fe' := by
  simp only [Shape.step, Option.bind_eq_bind, Option.bind_eq_some_iff] at hσ
  obtain ⟨ts, hts, hput⟩ := hσ
  obtain ⟨v, hv, hholds⟩ := h.exists_var hts
  obtain ⟨s', hs', hagrees⟩ := h.put hholds hput
  exact ⟨s', fe, bind_ok.2 ⟨v, fe, objectAt_ok.2 ⟨hv, rfl⟩, hs'⟩, hagrees⟩

theorem Agrees.runs_add (h : Agrees ctx σ s fe) {z : ℕ}
    (hσ : σ.step ctx (.add x y z) = some σ') :
    ∃ s' fe', (Stmt.add x y z).run s fe = .ok (s', fe') ∧ Agrees ctx σ' s' fe' := by
  simp only [Shape.step, Option.bind_eq_bind, Option.bind_eq_some_iff] at hσ
  obtain ⟨t, ht, t', ht', hput⟩ := hσ
  obtain ⟨v, hv, hstarts⟩ := h.exists_starts ht
  obtain ⟨w, hw, hstarts'⟩ := h.exists_starts ht'
  obtain ⟨r, fe', hr, hlen, hsum⟩ :
      ∃ r fe', Variable.add ctx v w fe = .ok (r, fe') ∧ r.length = ctx.N ∧
        Starts ctx fe'.heap t r := add_returns h.sound hstarts hstarts'
  have h' := h.call (Variable.keepsSound_add ctx v w) (Variable.keepsNames_add v w) hr
  obtain ⟨s', hs', hagrees⟩ := h'.put (holds_singleton hlen hsum) hput
  have hr' : Variable.add s.ctx v w fe = .ok (r, fe') := h.context ▸ hr
  refine ⟨s', fe', bind_ok.2 ⟨v, fe, objectAt_ok.2 ⟨hv, rfl⟩, ?_⟩, hagrees⟩
  exact bind_ok.2 ⟨w, fe, objectAt_ok.2 ⟨hw, rfl⟩, bind_ok.2 ⟨r, fe', hr', hs'⟩⟩

theorem Agrees.runs_mulConst (h : Agrees ctx σ s fe) {c : ℕ}
    (hσ : σ.step ctx (.mulConst x y c) = some σ') :
    ∃ s' fe', (Stmt.mulConst x y c).run s fe = .ok (s', fe') ∧ Agrees ctx σ' s' fe' := by
  simp only [Shape.step, Option.bind_eq_bind, Option.bind_eq_some_iff] at hσ
  obtain ⟨ts, hts, hput⟩ := hσ
  split at hput
  · exact absurd hput (by simp)
  · rename_i hcond
    obtain ⟨hne, hc⟩ := not_or.1 hcond
    obtain ⟨t, ts', rfl⟩ := List.exists_cons_of_ne_nil hne
    obtain ⟨v, hv, hholds⟩ := h.exists_var hts
    have hc' : c < s.consts.length := by
      rw [h.consts_length]
      omega
    obtain ⟨e, he, hec⟩ := h.consts _ (List.getElem_mem hc')
    obtain ⟨r, fe', hr, hlen, hscaled⟩ := mulConst_returns h.sound hholds.starts he hec
    have h' := h.call (Variable.keepsSound_mulConst ctx v s.consts[c])
      (Variable.keepsNames_mulConst v _) hr
    have hpre := (Variable.keepsSound_mulConst ctx v s.consts[c] _ _ _ hr h.sound).2
    obtain ⟨s', hs', hagrees⟩ := h'.put ((hholds.mono hpre).replace hlen hscaled) hput
    have hr' : Variable.mulConst s.ctx v s.consts[c] fe = .ok (r ++ v.drop ctx.N, fe') :=
      h.context ▸ hr
    refine ⟨s', fe', bind_ok.2 ⟨v, fe, objectAt_ok.2 ⟨hv, rfl⟩, ?_⟩, hagrees⟩
    exact bind_ok.2 ⟨_, fe, objectAt_ok.2 ⟨List.getElem?_eq_getElem hc', rfl⟩,
      bind_ok.2 ⟨_, fe', hr', hs'⟩⟩

theorem Agrees.runs_mul (h : Agrees ctx σ s fe) (hN : 0 < ctx.N) {z : ℕ}
    (hσ : σ.step ctx (.mul x y z) = some σ') :
    ∃ s' fe', (Stmt.mul x y z).run s fe = .ok (s', fe') ∧ Agrees ctx σ' s' fe' := by
  simp only [Shape.step, Option.bind_eq_bind, Option.bind_eq_some_iff] at hσ
  obtain ⟨t, ht, t', ht', hput⟩ := hσ
  split at hput
  · exact absurd hput (by simp)
  · rename_i hfree
    obtain ⟨v, hv, hstarts⟩ := h.exists_starts ht
    obtain ⟨w, hw, hstarts'⟩ := h.exists_starts ht'
    obtain ⟨r, fe', hr, hlen, hproduct, hconstants, hsecrets⟩ :=
      @mul_returns fe { ctx with mulCounter := σ.mulCounter } v w t t' h.sound hstarts hstarts'
        hN fun name hmem => by
          rw [h.constants]
          exact fun htaken => hfree ⟨name, hmem, htaken⟩
    rw [← h.context] at hr
    obtain ⟨hs', hpre⟩ := Variable.keepsSound_mul s.ctx v w _ _ _ hr h.sound
    have hgrow := h.grow hs' hpre
    rw [hconstants, hsecrets, h.constants, h.secretNames] at hgrow
    obtain ⟨s', hs'', hagrees⟩ := hgrow.tick.put (holds_singleton hlen hproduct) hput
    refine ⟨s', fe', bind_ok.2 ⟨v, fe, objectAt_ok.2 ⟨hv, rfl⟩, ?_⟩, hagrees⟩
    exact bind_ok.2 ⟨w, fe, objectAt_ok.2 ⟨hw, rfl⟩, bind_ok.2 ⟨_, fe', hr, hs''⟩⟩

theorem Agrees.runs_yield (h : Agrees ctx σ s fe) (hN : 0 < ctx.N) {name : String}
    (hσ : σ.step ctx (.yield x p name) = some σ') :
    ∃ s' fe', (Stmt.yield x p name).run s fe = .ok (s', fe') ∧ Agrees ctx σ' s' fe' := by
  simp only [Shape.step, Option.bind_eq_bind, Option.bind_eq_some_iff] at hσ
  obtain ⟨t, ht, ts, hts, hput⟩ := hσ
  split at hput
  · rename_i hall
    cases hput
    obtain ⟨ts', hts'⟩ := Shape.typeOf_eq_some.1 ht
    obtain rfl := Option.some.inj (hts.symm.trans hts')
    obtain ⟨v, hv, hholds⟩ := h.exists_var hts
    obtain ⟨⟨q, fe'⟩, hq⟩ := (yield_returns_iff h.sound hN hholds p name).2 ⟨t, rfl, hall⟩
    have h' := h.call (Variable.keepsSound_yield v p name) (Variable.keepsNames_yield v p name) hq
    refine ⟨_, fe', bind_ok.2 ⟨v, fe, objectAt_ok.2 ⟨hv, rfl⟩, bind_ok.2 ⟨q, fe', hq,
      pure_ok.2 rfl⟩⟩, ?_⟩
    exact ⟨h'.sound, h'.context, h'.constants, h'.secretNames, h'.consts_length, h'.consts,
      h'.secrets_length, h'.secrets, h'.vars_length, h'.vars⟩
  · exact absurd hput (by simp)

/-- **The step lemma**: a statement that passes the check runs, and the store is as
the check says. -/
theorem Agrees.runs (h : Agrees ctx σ s fe) (hN : 0 < ctx.N) {st : Stmt}
    (hσ : σ.step ctx st = some σ') :
    ∃ s' fe', st.run s fe = .ok (s', fe') ∧ Agrees ctx σ' s' fe' := by
  cases st with
  | declare =>
      cases hσ
      exact ⟨_, fe, pure_ok.2 rfl, h.pushVar⟩
  | constant name => exact h.runs_constant hσ
  | secret name type party => exact h.runs_secret hσ
  | assign x j => exact h.runs_assign hσ
  | copy x y => exact h.runs_copy hσ
  | add x y z => exact h.runs_add hσ
  | mulConst x y c => exact h.runs_mulConst hσ
  | mul x y z => exact h.runs_mul hN hσ
  | yield x party name => exact h.runs_yield hN hσ

/-! ### When the statement runs -/

theorem Agrees.put_isSome (h : Agrees ctx σ s fe) {y : Store × Frontend}
    (hr : s.put x r fe' = .ok y) (ts : List Ty) : (σ.put x ts).isSome = true := by
  have hx := (Store.put_ok.1 hr).1
  rw [h.vars_length] at hx
  unfold Shape.put
  rw [if_pos hx]
  rfl

/-- The first shares that an operator reads. -/
theorem reads_of_add (hs : fe.heap.Sound) (hN : 0 < ctx.N) {y : Variable × Frontend}
    (h : Variable.add ctx v w fe = .ok y) : (∃ a, v[0]? = some a) ∧ ∃ b, w[0]? = some b := by
  obtain ⟨hlen, hall⟩ := mapM_ok (Variable.keepsSound_addAt v w) hs h
  rw [List.length_range] at hlen
  obtain ⟨i, hi, fe₁, fe₂, -, -, hstep, -⟩ := hall 0 _ (List.getElem?_eq_getElem (hlen.symm ▸ hN))
  obtain ⟨rfl, -⟩ := of_getElem?_range hi
  obtain ⟨a, _, ha, hstep⟩ := bind_ok.1 hstep
  obtain ⟨b, _, hb, -⟩ := bind_ok.1 hstep
  exact ⟨⟨a, (shareAt_ok.1 ha).1⟩, b, (shareAt_ok.1 hb).1⟩

theorem reads_of_mulConst (hs : fe.heap.Sound) (hN : 0 < ctx.N) {c : ℕ} {y : Variable × Frontend}
    (h : Variable.mulConst ctx v c fe = .ok y) : ∃ a, v[0]? = some a := by
  obtain ⟨scaled, fe₁, hloop, -⟩ := bind_ok.1 h
  obtain ⟨hlen, hall⟩ := mapM_ok (Variable.keepsSound_mulConstAt v c) hs hloop
  rw [List.length_range] at hlen
  obtain ⟨i, hi, fe₁, fe₂, -, -, hstep, -⟩ := hall 0 _ (List.getElem?_eq_getElem (hlen.symm ▸ hN))
  obtain ⟨rfl, -⟩ := of_getElem?_range hi
  obtain ⟨a, _, ha, -⟩ := bind_ok.1 hstep
  exact ⟨a, (shareAt_ok.1 ha).1⟩

theorem reads_of_mulLoop {n : ℕ} {y : Variable × Frontend}
    (h : (List.range (n + 1)).foldlM (Variable.mulRound ctx v w) [] fe = .ok y) :
    (∃ a, v[n]? = some a) ∧ ∃ b, w[n]? = some b := by
  rw [List.range_succ, List.foldlM_append] at h
  obtain ⟨sum, fe₁, -, h⟩ := bind_ok.1 h
  rw [List.foldlM_cons] at h
  obtain ⟨r, fe₂, hround, -⟩ := bind_ok.1 h
  obtain ⟨a, _, ha, hround⟩ := bind_ok.1 hround
  obtain ⟨b, _, hb, -⟩ := bind_ok.1 hround
  exact ⟨⟨a, (shareAt_ok.1 ha).1⟩, b, (shareAt_ok.1 hb).1⟩

theorem Agrees.checked_add (h : Agrees ctx σ s fe) (hN : 0 < ctx.N) {z : ℕ}
    {u : Store × Frontend} (hr : (Stmt.add x y z).run s fe = .ok u) :
    (σ.step ctx (.add x y z)).isSome = true := by
  simp only [Stmt.run, bind_ok, objectAt_ok] at hr
  obtain ⟨v, _, ⟨hv, rfl⟩, w, _, ⟨hw, rfl⟩, r, fe₁, hadd, hput⟩ := hr
  rw [h.context] at hadd
  obtain ⟨⟨a, ha⟩, b, hb⟩ := reads_of_add h.sound hN hadd
  obtain ⟨t, ht⟩ := h.typeOf_of_shareAt hv ha
  obtain ⟨t', ht'⟩ := h.typeOf_of_shareAt hw hb
  simp only [Shape.step, ht, ht', Option.bind_eq_bind, Option.bind_some]
  exact h.put_isSome hput _

theorem Agrees.checked_mulConst (h : Agrees ctx σ s fe) (hN : 0 < ctx.N) {c : ℕ}
    {u : Store × Frontend} (hr : (Stmt.mulConst x y c).run s fe = .ok u) :
    (σ.step ctx (.mulConst x y c)).isSome = true := by
  simp only [Stmt.run, bind_ok, objectAt_ok] at hr
  obtain ⟨v, _, ⟨hv, rfl⟩, a, _, ⟨hc, rfl⟩, r, fe₁, hmul, hput⟩ := hr
  rw [h.context] at hmul
  obtain ⟨q, hq⟩ := reads_of_mulConst h.sound hN hmul
  obtain ⟨t, ht⟩ := h.typeOf_of_shareAt hv hq
  obtain ⟨ts, hts⟩ := Shape.typeOf_eq_some.1 ht
  have hlt := lt_of_getElem?_some hc
  rw [h.consts_length] at hlt
  have hcond : ¬ (t :: ts = [] ∨ σ.consts ≤ c) := by
    rw [not_or]
    exact ⟨by simp, by omega⟩
  simp only [Shape.step, hts, Option.bind_eq_bind, Option.bind_some, if_neg hcond]
  exact h.put_isSome hput _

theorem Agrees.checked_mul (h : Agrees ctx σ s fe) (hN : 0 < ctx.N) {z : ℕ}
    {u : Store × Frontend} (hr : (Stmt.mul x y z).run s fe = .ok u) :
    (σ.step ctx (.mul x y z)).isSome = true := by
  simp only [Stmt.run, bind_ok, objectAt_ok] at hr
  obtain ⟨v, _, ⟨hv, rfl⟩, w, _, ⟨hw, rfl⟩, ⟨r, ctx'⟩, fe₁, hmul, hput⟩ := hr
  rw [h.context] at hmul
  obtain ⟨sum, fe₂, hloop, -⟩ := bind_ok.1 hmul
  have hfree := (free_of_mulLoop hloop).1
  obtain ⟨n, hn⟩ : ∃ n, ctx.N = n + 1 := ⟨ctx.N - 1, by omega⟩
  have hN' : Context.N { ctx with mulCounter := σ.mulCounter } = n + 1 := hn
  rw [hN'] at hloop hfree
  obtain ⟨⟨a, ha⟩, b, hb⟩ := reads_of_mulLoop hloop
  obtain ⟨t, ht⟩ := h.typeOf_of_shareAt hv ha
  obtain ⟨t', ht'⟩ := h.typeOf_of_shareAt hw hb
  have hcond : ¬ ∃ name ∈ lambdaNames { ctx with mulCounter := σ.mulCounter } ctx.N,
      name ∈ σ.taken := by
    rintro ⟨name, hname, htaken⟩
    rw [hn] at hname
    rw [← h.constants] at htaken
    exact hfree name hname htaken
  simp only [Shape.step, ht, ht', Option.bind_eq_bind, Option.bind_some, if_neg hcond]
  have hx := (Store.put_ok.1 hput).1
  unfold Shape.put
  rw [if_pos (show x < σ.assigned.length from h.vars_length ▸ hx)]
  rfl

theorem Agrees.checked_yield (h : Agrees ctx σ s fe) (hN : 0 < ctx.N) {name : String}
    {u : Store × Frontend} (hr : (Stmt.yield x p name).run s fe = .ok u) :
    (σ.step ctx (.yield x p name)).isSome = true := by
  simp only [Stmt.run, bind_ok, objectAt_ok] at hr
  obtain ⟨v, _, ⟨hv, rfl⟩, q, fe₁, hq, -⟩ := hr
  obtain ⟨ts, hts, hholds⟩ := h.vars x v hv
  obtain ⟨t, hhead, hall⟩ := (yield_returns_iff h.sound hN hholds p name).1 ⟨(q, fe₁), hq⟩
  have ht : σ.typeOf x = some t := by
    unfold Shape.typeOf
    rw [hts]
    exact hhead
  simp only [Shape.step, ht, hts, Option.bind_eq_bind, Option.bind_some, if_pos hall]
  rfl

/-- A statement that runs passes the check. -/
theorem Agrees.checked (h : Agrees ctx σ s fe) (hN : 0 < ctx.N) {st : Stmt}
    {u : Store × Frontend} (hr : st.run s fe = .ok u) : (σ.step ctx st).isSome = true := by
  cases st with
  | declare => rfl
  | constant name =>
      obtain ⟨c, fe', hc, -⟩ := bind_ok.1 hr
      have hname := (newConstant_iff.1 hc).1
      rw [h.constants] at hname
      simp only [Shape.step, if_neg hname]
      rfl
  | secret name type party =>
      obtain ⟨a, fe', ha, -⟩ := bind_ok.1 hr
      have hname := (newSecret_iff.1 ha).1
      rw [h.secretNames] at hname
      simp only [Shape.step, if_neg hname]
      rfl
  | assign x j =>
      simp only [Stmt.run, bind_ok, objectAt_ok] at hr
      obtain ⟨v, _, ⟨hv, rfl⟩, a, _, ⟨ha, rfl⟩, r, fe₁, -, hput⟩ := hr
      obtain ⟨ts, hts, -⟩ := h.vars x v hv
      obtain ⟨e, -, htype⟩ := h.secrets j a ha
      simp only [Shape.step, hts, htype, Option.bind_eq_bind, Option.bind_some]
      exact h.put_isSome hput _
  | copy x y =>
      simp only [Stmt.run, bind_ok, objectAt_ok] at hr
      obtain ⟨v, _, ⟨hv, rfl⟩, hput⟩ := hr
      obtain ⟨ts, hts, -⟩ := h.vars y v hv
      simp only [Shape.step, hts, Option.bind_eq_bind, Option.bind_some]
      exact h.put_isSome hput _
  | add x y z => exact h.checked_add hN hr
  | mulConst x y c => exact h.checked_mulConst hN hr
  | mul x y z => exact h.checked_mul hN hr
  | yield x party name => exact h.checked_yield hN hr

/-! ### Whole programs -/

theorem agrees_initial (ctx : Context) :
    Agrees ctx (.initial ctx) ⟨ctx, [], [], [], []⟩ .initial where
  sound := Heap.sound_initial
  context := rfl
  constants := rfl
  secretNames := rfl
  consts_length := rfl
  consts := by simp
  secrets_length := rfl
  secrets := by simp
  vars_length := rfl
  vars := by simp

/-- **The run lemma.** -/
theorem Agrees.run_iff (h : Agrees ctx σ s fe) (hN : 0 < ctx.N) (program : List Stmt) :
    (∀ σ', program.foldlM (Shape.step ctx) σ = some σ' →
      ∃ s' fe', program.foldlM Stmt.run s fe = .ok (s', fe') ∧ Agrees ctx σ' s' fe') ∧
    ∀ u, program.foldlM Stmt.run s fe = .ok u →
      (program.foldlM (Shape.step ctx) σ).isSome = true := by
  induction program generalizing σ s fe with
  | nil =>
      refine ⟨fun σ' hσ => ?_, fun _ _ => rfl⟩
      cases hσ
      exact ⟨s, fe, rfl, h⟩
  | cons st program ih =>
      constructor
      · intro σ' hσ
        rw [List.foldlM_cons] at hσ ⊢
        obtain ⟨σ₁, hstep, hσ⟩ := Option.bind_eq_some_iff.1 hσ
        obtain ⟨s₁, fe₁, hrun, h₁⟩ := h.runs hN hstep
        obtain ⟨s', fe', hrest, h'⟩ := (ih h₁).1 σ' hσ
        exact ⟨s', fe', bind_ok.2 ⟨s₁, fe₁, hrun, hrest⟩, h'⟩
      · intro u hu
        rw [List.foldlM_cons] at hu ⊢
        obtain ⟨s₁, fe₁, hrun, hrest⟩ := bind_ok.1 hu
        obtain ⟨σ₁, hstep⟩ := Option.isSome_iff_exists.1 (h.checked hN hrun)
        obtain ⟨s₂, fe₂, hrun', h₁⟩ := h.runs hN hstep
        rw [hrun, Except.ok.injEq, Prod.mk.injEq] at hrun'
        obtain ⟨rfl, rfl⟩ := hrun'
        rw [hstep]
        exact (ih h₁).2 u hrest

/-- **A program of variables runs exactly when the check passes.**  From the start
of the process, with at least one party, it neither throws nor reads beyond a vector
exactly when `Shape.check` accepts its text, and then the store is as the check
says. -/
theorem runStmts_returns_iff (hN : 0 < ctx.N) (program : List Stmt) :
    ((∃ u, runStmts ctx program .initial = .ok u) ↔ (Shape.check ctx program).isSome = true) ∧
    ∀ σ, Shape.check ctx program = some σ → ∃ s fe,
      runStmts ctx program .initial = .ok (s, fe) ∧ Agrees ctx σ s fe := by
  obtain ⟨hruns, hchecked⟩ := (agrees_initial ctx).run_iff hN program
  refine ⟨⟨fun h => ?_, fun h => ?_⟩, hruns⟩
  · obtain ⟨u, hu⟩ := h
    exact hchecked u hu
  · obtain ⟨σ, hσ⟩ := Option.isSome_iff_exists.1 h
    obtain ⟨s, fe, hrun, -⟩ := hruns σ hσ
    exact ⟨(s, fe), hrun⟩

end Agrees

/-- Square a secret and yield the square. -/
def squareStmts : List Stmt :=
  [.declare, .secret "x" .arithField 1, .assign 0 0, .mul 0 0 0, .yield 0 2 ""]

/-- The program runs, unless the name of a Lagrange constant is taken before. -/
theorem runStmts_returns_iff_square :
    (∃ u, runStmts ⟨[1, 2, 3], 1, 0⟩ squareStmts .initial = .ok u) ∧
      ¬ ∃ u, runStmts ⟨[1, 2, 3], 1, 0⟩ (.constant "mul_0_lambda_2" :: squareStmts) .initial =
        .ok u :=
  ⟨(runStmts_returns_iff (by decide) squareStmts).1.2 (by decide +kernel), fun h =>
    absurd ((runStmts_returns_iff (by decide) (.constant "mul_0_lambda_2" :: squareStmts)).1.1 h)
      (by decide +kernel)⟩

end Bgw

end Gauv
