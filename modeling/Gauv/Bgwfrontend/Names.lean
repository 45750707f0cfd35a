import Gauv.Registry
import Gauv.Tables
import Gauv.Bgwfrontend.Variable
import Gauv.Mpcgraph.Calls

/-!
# Names in a context

The context names a share after the number of registered shares, unless the
caller chooses the name, and the constructors ignore a name that is taken.  A
call that creates a share is one request to a registry of names; polynomials are
a registry of their own that only gets generated names.
-/

namespace Gauv

open FrontM

/-! ## The registered objects -/

namespace Heap

/-- The names of the objects of a kind, in the order of their creation. -/
def names (kind : Expression → Bool) (heap : Heap) : List String :=
  (heap.filter kind).map Expression.name

/-- The map of a kind from names to addresses: every constructor registers its
object, and a name that is taken keeps its object. -/
def registered (kind : Expression → Bool) (heap : Heap) : Table String ℕ :=
  heap.zipIdx.foldl (fun t x => if kind x.1 then t.insert x.1.name x.2 else t) .empty

/-- The objects of a kind have distinct names, and each is the one registered
under its name. -/
def NamesUnique (kind : Expression → Bool) (heap : Heap) : Prop :=
  (names kind heap).Nodup ∧ ∀ (a : ℕ) (e : Expression), heap[a]? = some e → kind e = true →
    registered kind heap e.name = some a

variable {kind : Expression → Bool}

/-- The names after one more expression. -/
theorem names_concat (heap : Heap) (e : Expression) :
    names kind (heap ++ [e]) = names kind heap ++ if kind e then [e.name] else [] := by
  rw [names, List.filter_append, List.map_append, ← names]
  cases h : kind e <;> simp [h]

/-- The map of names after one more expression. -/
theorem registered_concat (heap : Heap) (e : Expression) :
    registered kind (heap ++ [e]) = if kind e then (registered kind heap).insert e.name heap.length
      else registered kind heap := by
  rw [registered, List.zipIdx_append, List.foldl_append]
  simp [registered]

/-- The keys of the map are the names of the objects. -/
theorem registered_eq_none_iff (heap : Heap) (name : String) :
    registered kind heap name = none ↔ name ∉ names kind heap := by
  induction heap using List.reverseRecOn with
  | nil => exact iff_of_true rfl List.not_mem_nil
  | append_singleton heap e ih =>
      rw [registered_concat, names_concat]
      cases hk : kind e with
      | false => simpa using ih
      | true =>
          rw [if_pos rfl, if_pos rfl, List.mem_append, List.mem_singleton, not_or, ← ih]
          by_cases hn : name = e.name
          · subst hn
            refine iff_of_false (fun h => ?_) fun h => h.2 rfl
            cases ht : registered kind heap e.name with
            | none =>
                rw [Table.insert_self ht] at h
                exact absurd h (by simp)
            | some a =>
                rw [Table.insert_mono ht] at h
                exact absurd h (by simp)
          · rw [Table.insert_of_ne hn]
            exact (and_iff_left hn).symm

/-- With distinct names each object is the one registered under its name. -/
theorem namesUnique_iff (heap : Heap) : NamesUnique kind heap ↔ (names kind heap).Nodup := by
  refine and_iff_left_of_imp fun hn => ?_
  induction heap using List.reverseRecOn with
  | nil => intro a e ha; exact absurd ha (by simp)
  | append_singleton heap e ih =>
      intro a x hx hkx
      rw [names_concat] at hn
      have ih := ih (List.Nodup.of_append_left hn)
      rw [registered_concat]
      rcases Nat.lt_or_ge a heap.length with hlt | hge
      · rw [List.getElem?_append_left hlt] at hx
        split
        · exact Table.insert_mono (ih a x hx hkx)
        · exact ih a x hx hkx
      · obtain ⟨hlen, hx⟩ := List.getElem?_eq_some_iff.1 hx
        rw [List.length_append, List.length_singleton] at hlen
        obtain rfl : a = heap.length := by omega
        rw [List.getElem_concat_length rfl] at hx
        subst hx
        rw [if_pos hkx]
        rw [if_pos hkx] at hn
        refine Table.insert_self ((registered_eq_none_iff heap _).2 fun hmem => ?_)
        exact (List.disjoint_of_nodup_append hn) hmem (List.mem_singleton_self _)

end Heap

/-! ## Calls as requests -/

/-- The generated names of shares. -/
def shareGen (n : ℕ) : String := "share_" ++ toString n

/-- The generated names of polynomials. -/
def polyGen (n : ℕ) : String := "poly_" ++ toString n

/-- Different numbers give different names. -/
theorem shareGen_injective : Function.Injective shareGen := fun _ _ h =>
  Nat.repr_inj.1 ((String.append_right_inj _).1 h)

theorem polyGen_injective : Function.Injective polyGen := fun _ _ h =>
  Nat.repr_inj.1 ((String.append_right_inj _).1 h)

namespace Frontend

/-- The shares as a registry of names. -/
def shareRegistry (fe : Frontend) : Registry.State String :=
  ⟨Heap.names Expression.isShare fe.heap, fe.shares⟩

/-- The polynomials as a registry of names. -/
def polyRegistry (fe : Frontend) : Registry.State String :=
  ⟨Heap.names Expression.isPoly fe.heap, fe.polies⟩

theorem registerShare_heap (fe : Frontend) (name : String) :
    (fe.registerShare name).heap = fe.heap := by
  rw [registerShare]
  split <;> rfl

theorem registerShare_polies (fe : Frontend) (name : String) :
    (fe.registerShare name).polies = fe.polies := by
  rw [registerShare]
  split <;> rfl

theorem registerShare_shares (fe : Frontend) (name : String) : (fe.registerShare name).shares =
    if name ∈ fe.shares then fe.shares else name :: fe.shares := by
  rw [registerShare]
  split <;> rfl

theorem registerPoly_heap (fe : Frontend) (name : String) :
    (fe.registerPoly name).heap = fe.heap := by
  rw [registerPoly]
  split <;> rfl

theorem registerPoly_shares (fe : Frontend) (name : String) :
    (fe.registerPoly name).shares = fe.shares := by
  rw [registerPoly]
  split <;> rfl

theorem registerPoly_polies (fe : Frontend) (name : String) : (fe.registerPoly name).polies =
    if name ∈ fe.polies then fe.polies else name :: fe.polies := by
  rw [registerPoly]
  split <;> rfl

/-- What a call does to the registries: nothing, one request for a share, which
asks for the name `r`, or one for a polynomial. -/
inductive Emission (r : Option String) (fe fe' : Frontend) : Prop
  | idle (hs : fe'.shareRegistry = fe.shareRegistry) (hp : fe'.polyRegistry = fe.polyRegistry)
  | share (hs : fe'.shareRegistry = fe.shareRegistry.request shareGen r)
      (hp : fe'.polyRegistry = fe.polyRegistry)
  | poly (hs : fe'.shareRegistry = fe.shareRegistry)
      (hp : fe'.polyRegistry = fe.polyRegistry.request polyGen none)

end Frontend

namespace FrontM

variable {α β : Type} {r : Option String} {fe : Frontend}

/-- The call reads the state and leaves it alone. -/
def Reads (m : FrontM α) : Prop := ∀ fe a fe', m fe = .ok (a, fe') → fe' = fe

/-- If the call returns from the state `fe`, it made at most one request, for the
name `r` if it is for a share. -/
def EmitsAt (r : Option String) (fe : Frontend) (m : FrontM α) : Prop :=
  ∀ a fe', m fe = .ok (a, fe') → fe.Emission r fe'

namespace Reads

theorem deref (x : ℕ) : Reads (FrontM.deref x) := fun _ _ _ h => (deref_ok.1 h).2

theorem derefShare (x : ℕ) : Reads (FrontM.derefShare x) := fun _ _ _ h => (derefShare_ok.1 h).2.2

theorem pure (a : α) : Reads (Pure.pure a : FrontM α) := fun _ _ _ h =>
  (Prod.mk.inj (pure_ok.1 h)).2

theorem throw (x : Exn) : Reads (MonadExcept.throw x : FrontM α) := fun _ _ _ h =>
  (throw_ok.1 h).elim

/-- Reading twice is reading. -/
theorem bind {m : FrontM α} {f : α → FrontM β} (hm : Reads m) (hf : ∀ a, Reads (f a)) :
    Reads (m >>= f) := by
  intro fe b fe' h
  obtain ⟨a, fe₁, h₁, h₂⟩ := bind_ok.1 h
  rw [hf a fe₁ b fe' h₂, hm fe a fe₁ h₁]

theorem ite {c : Prop} [Decidable c] {m n : FrontM α} (hm : Reads m) (hn : Reads n) :
    Reads (if c then m else n) := by
  split
  · exact hm
  · exact hn

theorem mapM {f : α → FrontM β} (hf : ∀ a, Reads (f a)) (l : List α) : Reads (l.mapM f) := by
  induction l with
  | nil => exact pure []
  | cons a l ih =>
      rw [List.mapM_cons]
      exact (hf a).bind fun _ => ih.bind fun _ => pure _

end Reads

namespace EmitsAt

/-- A call that only reads registers nothing. -/
theorem of_reads {m : FrontM α} (hm : Reads m) : EmitsAt r fe m := by
  intro a fe' h
  rw [hm fe a fe' h]
  exact .idle rfl rfl

theorem bind {m : FrontM α} {f : α → FrontM β} (hm : Reads m) (hf : ∀ a, EmitsAt r fe (f a)) :
    EmitsAt r fe (m >>= f) := by
  intro b fe' h
  obtain ⟨a, fe₁, h₁, h₂⟩ := bind_ok.1 h
  rw [hm fe a fe₁ h₁] at h₂
  exact hf a b fe' h₂

theorem get_bind {f : Frontend → FrontM α} (hf : EmitsAt r fe (f fe)) :
    EmitsAt r fe (get >>= f) := by
  intro b fe' h
  obtain ⟨a, fe₁, h₁, h₂⟩ := bind_ok.1 h
  cases get_ok.1 h₁
  exact hf b fe' h₂

theorem ite {c : Prop} [Decidable c] {m n : FrontM α} (hm : EmitsAt r fe m)
    (hn : EmitsAt r fe n) : EmitsAt r fe (if c then m else n) := by
  split
  · exact hm
  · exact hn

/-- A check that throws. -/
theorem throw_bind {x : Exn} {f : α → FrontM β} :
    EmitsAt r fe ((MonadExcept.throw x : FrontM α) >>= f) := by
  intro b fe' h
  obtain ⟨_, _, h₁, -⟩ := bind_ok.1 h
  exact (throw_ok.1 h₁).elim

theorem set_bind {fe₁ : Frontend} {f : PUnit → FrontM α}
    (hf : ∀ a fe', f ⟨⟩ fe₁ = .ok (a, fe') → fe.Emission r fe') :
    EmitsAt r fe (set fe₁ >>= f) := by
  intro b fe' h
  obtain ⟨_, _, h₁, h₂⟩ := bind_ok.1 h
  cases set_ok.1 h₁
  exact hf b fe' h₂

/-- Putting an object on the heap that is neither a share nor a polynomial. -/
theorem alloc {e : Expression} (hs : e.isShare = false) (hp : e.isPoly = false) :
    EmitsAt r fe (FrontM.alloc e) := by
  intro a fe' h
  cases alloc_ok.1 h
  refine .idle ?_ ?_
  · rw [Frontend.shareRegistry, Heap.names_concat, hs, if_neg (by simp), List.append_nil]
    rfl
  · rw [Frontend.polyRegistry, Heap.names_concat, hp, if_neg (by simp), List.append_nil]
    rfl

/-- The constructor of a share is a request for its name. -/
theorem new {type : Ty} {op : Operator} {oprands : List ℕ} {params : List PartyDecl}
    {party : PartyDecl} :
    EmitsAt r fe (Share.new (r.getD fe.shareName) type op oprands params party) := by
  intro a fe' h
  simp only [Share.new, bind_ok, modify_ok, alloc_ok] at h
  obtain ⟨_, _, hm, ha⟩ := h
  cases hm
  cases ha
  refine .share ?_ ?_
  · rw [Frontend.shareRegistry, Heap.names_concat, Frontend.registerShare_heap,
      Frontend.registerShare_shares]
    rfl
  · rw [Frontend.polyRegistry, Heap.names_concat, Frontend.registerShare_heap,
      Frontend.registerShare_polies]
    exact congrArg (Registry.State.mk · fe.polies) (List.append_nil _)

end EmitsAt

end FrontM

/-! ## The calls -/

open FrontM

variable {fe : Frontend} {r : Option String}

/-- A placeholder is registered by its own kind, and put on the heap. -/
theorem emits_placeholder {fe₁ : Frontend} {e : Expression} {c : Prop} [Decidable c] {x : Exn}
    (hheap : fe₁.heap = fe.heap) (hshares : fe₁.shares = fe.shares)
    (hpolies : fe₁.polies = fe.polies) (hs : e.isShare = false) (hp : e.isPoly = false) :
    EmitsAt r fe (if c then throw x >>= fun _ : PUnit => set fe₁ >>= fun _ => alloc e
      else set fe₁ >>= fun _ => alloc e) := by
  refine .ite .throw_bind (.set_bind fun a fe' h => ?_)
  cases alloc_ok.1 h
  refine .idle ?_ ?_
  · rw [Frontend.shareRegistry, Heap.names_concat, hs, hheap, hshares, if_neg (by simp),
      List.append_nil, Frontend.shareRegistry]
  · rw [Frontend.polyRegistry, Heap.names_concat, hp, hheap, hpolies, if_neg (by simp),
      List.append_nil, Frontend.polyRegistry]

/-- A constant is no share and requests no name. -/
theorem emits_newConstant (name : String) : EmitsAt none fe (newConstant name) :=
  .get_bind (emits_placeholder rfl rfl rfl rfl rfl)

theorem emits_newSecret (name : String) (type : Ty) (party : PartyDecl) :
    EmitsAt none fe (newSecret name type party) :=
  .get_bind (emits_placeholder rfl rfl rfl rfl rfl)

theorem emits_newRandomness (name : String) (type : Ty) (party : PartyDecl) :
    EmitsAt none fe (newRandomness name type party) :=
  .get_bind (emits_placeholder rfl rfl rfl rfl rfl)

theorem emits_newTypeCast (name : String) (type : Ty) (expr : ℕ) (party : PartyDecl) :
    EmitsAt none fe (newTypeCast name type expr party) :=
  .bind (.deref expr) fun _ => .alloc rfl rfl

/-- A generated share chooses no name. -/
theorem Share.emits_genShare (type : Ty) (party : PartyDecl) :
    EmitsAt none fe (Share.genShare type party) := .get_bind .new

theorem Share.emits_binaryOp (a b : ℕ) (op : Operator) :
    EmitsAt none fe (Share.binaryOp a b op) :=
  .bind (.derefShare a) fun _ => .bind (.derefShare b) fun _ =>
    .ite .throw_bind (.get_bind .new)

theorem Share.emits_scalarMul (s c : ℕ) : EmitsAt none fe (Share.scalarMul s c) :=
  .bind (.derefShare s) fun _ => .bind (.deref c) fun _ => .ite .throw_bind (.get_bind .new)

theorem Share.emits_transfer (s : ℕ) (party : PartyDecl) :
    EmitsAt none fe (Share.transfer s party) :=
  .bind (.derefShare s) fun _ => .ite (.of_reads (.pure s)) (.get_bind .new)

theorem Share.reads_checkTypes (type : Ty) (es : List Expression) :
    Reads (Share.checkTypes type es) := by
  induction es with
  | nil => exact .pure _
  | cons e es ih =>
      rw [Share.checkTypes]
      exact .ite ((Reads.throw _).bind fun _ => ih) ih

theorem Share.reads_checkParties (party : PartyDecl) (es : List Expression) :
    Reads (Share.checkParties party es) := by
  induction es with
  | nil => exact .pure _
  | cons e es ih =>
      rw [Share.checkParties]
      exact .ite ((Reads.throw _).bind fun _ => .ite ((Reads.throw _).bind fun _ => ih) ih)
        (.ite ((Reads.throw _).bind fun _ => ih) ih)

/-- The name a caller asks for; the empty string asks for a generated one. -/
def chosenName (name : String) : Option String := if name = "" then none else some name

/-- A reconstruction requests the name it is given, if it is given one. -/
theorem Share.emits_reconstruct (shares : List ℕ) (party : PartyDecl) (name : String) :
    EmitsAt (chosenName name) fe (Share.reconstruct shares party name) := by
  refine .bind (.mapM .deref shares) fun es => ?_
  cases es with
  | nil => exact .of_reads (.throw _)
  | cons e₀ rest =>
      refine .bind (Share.reads_checkTypes _ _) fun _ =>
        .bind (Share.reads_checkParties _ _) fun _ => .get_bind ?_
      have hname : (if name = "" then fe.shareName else name) =
          (chosenName name).getD fe.shareName := by
        rw [chosenName]
        split <;> rfl
      rw [hname]
      exact .new

theorem Poly.emits_genPoly (party : PartyDecl) (c degree : ℕ) :
    EmitsAt none fe (Poly.genPoly party c degree) := by
  refine .bind (.deref c) fun ec => .ite .throw_bind (.get_bind (.set_bind fun a fe' h => ?_))
  cases alloc_ok.1 h
  refine .poly ?_ ?_
  · rw [Frontend.shareRegistry, Heap.names_concat, Frontend.registerPoly_heap,
      Frontend.registerPoly_shares]
    exact congrArg (Registry.State.mk · fe.shares) (List.append_nil _)
  · rw [Frontend.polyRegistry, Heap.names_concat, Frontend.registerPoly_heap,
      Frontend.registerPoly_polies]
    rfl

theorem Poly.emits_eval (p : ℕ) (party : PartyDecl) : EmitsAt none fe (Poly.eval p party) := by
  refine .bind (.deref p) fun ep => ?_
  split
  · exact .get_bind .new
  · exact .of_reads (.throw _)

/-! ## Sequences of calls -/

/-- The calls that create objects with a name, in the context of the process. -/
inductive FrontCall where
  | newConstant (name : String)
  | newSecret (name : String) (type : Ty) (party : PartyDecl)
  | newRandomness (name : String) (type : Ty) (party : PartyDecl)
  | newTypeCast (name : String) (type : Ty) (expr : ℕ) (party : PartyDecl)
  | genShare (type : Ty) (party : PartyDecl)
  | binaryOp (a b : ℕ) (op : Operator)
  | scalarMul (s c : ℕ)
  | transfer (s : ℕ) (party : PartyDecl)
  | reconstruct (shares : List ℕ) (party : PartyDecl) (name : String)
  | genPoly (party : PartyDecl) (c degree : ℕ)
  | eval (p : ℕ) (party : PartyDecl)
  | yield (v : Bgw.Variable) (party : PartyDecl) (name : String)
  deriving DecidableEq, Repr

/-- The state after some calls, with the names asked for by the shares created so
far, in order; `none` asks for a generated name. -/
structure History where
  fe : Frontend
  requests : List (Option String)

namespace History

/-- A call that throws before it changes anything; the caller may go on. -/
def attempt (h : History) (m : FrontM ℕ) (r : Option String) : Option ℕ × History :=
  match m h.fe with
  | .error _ => (none, h)
  | .ok (a, fe') => (some a,
      ⟨fe', if (Heap.names Expression.isShare fe'.heap).length =
        (Heap.names Expression.isShare h.fe.heap).length then h.requests else h.requests ++ [r]⟩)

/-- The loop of `yield`. -/
def transferAll (party : PartyDecl) : List ℕ → History → Option (List ℕ) × History
  | [], h => (some [], h)
  | s :: v, h =>
      match h.attempt (Share.transfer s party) none with
      | (none, h) => (none, h)
      | (some t, h) =>
          match transferAll party v h with
          | (none, h) => (none, h)
          | (some ts, h) => (some (t :: ts), h)

/-- `yield`.  When `reconstruct` throws, the transferred shares stay. -/
def yield (h : History) (v : Bgw.Variable) (party : PartyDecl) (name : String) : History :=
  match h.transferAll party v with
  | (none, h) => h
  | (some ts, h) => (h.attempt (Share.reconstruct ts party name) (chosenName name)).2

/-- One more call. -/
def next (h : History) : FrontCall → History
  | .newConstant name => (h.attempt (newConstant name) none).2
  | .newSecret name type party => (h.attempt (newSecret name type party) none).2
  | .newRandomness name type party => (h.attempt (newRandomness name type party) none).2
  | .newTypeCast name type expr party => (h.attempt (newTypeCast name type expr party) none).2
  | .genShare type party => (h.attempt (Share.genShare type party) none).2
  | .binaryOp a b op => (h.attempt (Share.binaryOp a b op) none).2
  | .scalarMul s c => (h.attempt (Share.scalarMul s c) none).2
  | .transfer s party => (h.attempt (Share.transfer s party) none).2
  | .reconstruct shares party name =>
      (h.attempt (Share.reconstruct shares party name) (chosenName name)).2
  | .genPoly party c degree => (h.attempt (Poly.genPoly party c degree) none).2
  | .eval p party => (h.attempt (Poly.eval p party) none).2
  | .yield v party name => h.yield v party name

/-- The calls from the start of the process. -/
def run (calls : List FrontCall) : History := calls.foldl next ⟨.initial, []⟩

/-- The registries hold what the requests made. -/
structure Sound (h : History) : Prop where
  shares : h.fe.shareRegistry = Registry.run shareGen h.requests
  polies : ∃ n, h.fe.polyRegistry = Registry.run polyGen (List.replicate n none)

variable {h : History} {m : FrontM ℕ} {r : Option String}

/-- A call that throws leaves the state. -/
theorem attempt_error {x : Exn} (hm : m h.fe = .error x) : h.attempt m r = (none, h) := by
  rw [attempt, hm]

/-- A call that returns leaves its state. -/
theorem attempt_ok {a : ℕ} {fe' : Frontend} (hm : m h.fe = .ok (a, fe')) :
    h.attempt m r = (some a,
      ⟨fe', if (Heap.names Expression.isShare fe'.heap).length =
        (Heap.names Expression.isShare h.fe.heap).length then h.requests
        else h.requests ++ [r]⟩) := by
  rw [attempt, hm]

/-- **The step lemma**: an attempt that returns made the request that is noted. -/
theorem Sound.attempt (hs : h.Sound) (hm : EmitsAt r h.fe m) : (h.attempt m r).2.Sound := by
  cases hcall : m h.fe with
  | error _ =>
      rw [attempt_error hcall]
      exact hs
  | ok res =>
      obtain ⟨a, fe'⟩ := res
      obtain ⟨n, hpoly⟩ := hs.polies
      have hsame : fe'.shareRegistry = h.fe.shareRegistry →
          (Heap.names Expression.isShare fe'.heap).length =
            (Heap.names Expression.isShare h.fe.heap).length :=
        fun heq => congrArg (fun s => (Registry.State.created s).length) heq
      rw [attempt_ok hcall]
      cases hm a fe' hcall with
      | idle hshare hp =>
          rw [if_pos (hsame hshare)]
          exact ⟨hshare.trans hs.shares, n, hp.trans hpoly⟩
      | share hshare hp =>
          have hne : (Heap.names Expression.isShare fe'.heap).length ≠
              (Heap.names Expression.isShare h.fe.heap).length := by
            change fe'.shareRegistry.created.length ≠ h.fe.shareRegistry.created.length
            rw [hshare, Registry.State.request, List.length_append]
            exact Nat.succ_ne_self _
          rw [if_neg hne]
          refine ⟨?_, n, hp.trans hpoly⟩
          rw [Registry.run_concat, ← hs.shares]
          exact hshare
      | poly hshare hp =>
          rw [if_pos (hsame hshare)]
          refine ⟨hshare.trans hs.shares, n + 1, ?_⟩
          rw [List.replicate_succ', Registry.run_concat, ← hpoly]
          exact hp

/-- Requests are only appended. -/
theorem requests_attempt : h.requests <+: (h.attempt m r).2.requests := by
  cases hcall : m h.fe with
  | error _ => rw [attempt_error hcall]
  | ok res =>
      obtain ⟨a, fe'⟩ := res
      rw [attempt_ok hcall]
      change h.requests <+: ite _ _ _
      split
      · exact List.prefix_rfl
      · exact List.prefix_append _ _

theorem transferAll_of_ok {party : PartyDecl} {v ts : List ℕ} {fe' : Frontend}
    (hv : v.mapM (fun s => Share.transfer s party) h.fe = .ok (ts, fe')) :
    ∃ h', h.transferAll party v = (some ts, h') ∧ h'.fe = fe' := by
  induction v generalizing h ts fe' with
  | nil =>
      cases pure_ok.1 hv
      exact ⟨h, rfl, rfl⟩
  | cons s v ih =>
      rw [List.mapM_cons] at hv
      obtain ⟨t, fe₁, ht, hrest⟩ := bind_ok.1 hv
      obtain ⟨ts', fe₂, hts, hret⟩ := bind_ok.1 hrest
      cases pure_ok.1 hret
      obtain ⟨h₁, hstep, rfl⟩ : ∃ h₁, h.attempt (Share.transfer s party) none = (some t, h₁) ∧
          h₁.fe = fe₁ := ⟨_, attempt_ok ht, rfl⟩
      obtain ⟨h', hall, hfe⟩ := ih hts
      refine ⟨h', ?_, hfe⟩
      rw [History.transferAll, hstep]
      simp only [hall]

/-- A `yield` that returns leaves the state of the call. -/
theorem yield_of_ok {v : Bgw.Variable} {party : PartyDecl} {name : String} {a : ℕ}
    {fe' : Frontend} (hv : Bgw.Variable.yield v party name h.fe = .ok (a, fe')) :
    (h.yield v party name).fe = fe' := by
  obtain ⟨ts, fe₁, hts, hret⟩ := bind_ok.1 hv
  obtain ⟨h', hall, rfl⟩ := transferAll_of_ok hts
  rw [History.yield, hall]
  simp only [attempt_ok hret]

/-- What every attempt preserves, the calls preserve. -/
def Kept (P : History → Prop) : Prop := ∀ (h : History) (m : FrontM ℕ) (r : Option String),
  EmitsAt r h.fe m → P h → P (h.attempt m r).2

section Kept

variable {P : History → Prop}

/-- What every attempt preserves, a loop of transfers preserves. -/
theorem Kept.transferAll (hP : Kept P) (party : PartyDecl) (v : List ℕ) (hh : P h) :
    P (h.transferAll party v).2 := by
  induction v generalizing h with
  | nil => exact hh
  | cons s v ih =>
      have hstep := hP h _ none (Share.emits_transfer s party) hh
      rw [History.transferAll]
      cases hres : h.attempt (Share.transfer s party) none with
      | mk t h₁ =>
          rw [hres] at hstep
          cases t with
          | none => exact hstep
          | some t =>
              have hrest := ih hstep
              dsimp only
              cases hts : h₁.transferAll party v with
              | mk ts h₂ =>
                  rw [hts] at hrest
                  cases ts with
                  | none => exact hrest
                  | some ts => exact hrest

/-- A yield preserves it. -/
theorem Kept.yield (hP : Kept P) (v : Bgw.Variable) (party : PartyDecl) (name : String)
    (hh : P h) : P (h.yield v party name) := by
  have hloop := hP.transferAll party v hh
  rw [History.yield]
  cases hts : h.transferAll party v with
  | mk ts h₁ =>
      rw [hts] at hloop
      cases ts with
      | none => exact hloop
      | some ts => exact hP h₁ _ _ (Share.emits_reconstruct ts party name) hloop

/-- One case for each call. -/
theorem Kept.next (hP : Kept P) (c : FrontCall) (hh : P h) : P (h.next c) := by
  cases c with
  | newConstant name => exact hP h _ _ (emits_newConstant name) hh
  | newSecret name type party => exact hP h _ _ (emits_newSecret name type party) hh
  | newRandomness name type party => exact hP h _ _ (emits_newRandomness name type party) hh
  | newTypeCast name type expr party =>
      exact hP h _ _ (emits_newTypeCast name type expr party) hh
  | genShare type party => exact hP h _ _ (Share.emits_genShare type party) hh
  | binaryOp a b op => exact hP h _ _ (Share.emits_binaryOp a b op) hh
  | scalarMul s c => exact hP h _ _ (Share.emits_scalarMul s c) hh
  | transfer s party => exact hP h _ _ (Share.emits_transfer s party) hh
  | reconstruct shares party name =>
      exact hP h _ _ (Share.emits_reconstruct shares party name) hh
  | genPoly party c degree => exact hP h _ _ (Poly.emits_genPoly party c degree) hh
  | eval p party => exact hP h _ _ (Poly.emits_eval p party) hh
  | yield v party name => exact hP.yield v party name hh

/-- And so does any sequence of calls. -/
theorem Kept.foldl (hP : Kept P) (calls : List FrontCall) (hh : P h) :
    P (calls.foldl History.next h) := by
  induction calls generalizing h with
  | nil => exact hh
  | cons c calls ih => exact ih (hP.next c hh)

end Kept

/-- **The run lemma**: the registries hold what the requests made. -/
theorem sound_run (calls : List FrontCall) : (run calls).Sound :=
  Kept.foldl (fun _ _ _ hm hs => Sound.attempt hs hm) calls ⟨rfl, 0, rfl⟩

/-- Earlier requests come first. -/
theorem requests_run_take (calls : List FrontCall) (n : ℕ) :
    (run (calls.take n)).requests <+: (run calls).requests := by
  conv_rhs => rw [← List.take_append_drop n calls, run, List.foldl_append]
  exact Kept.foldl (P := fun h => (run (calls.take n)).requests <+: h.requests)
    (fun _ _ _ _ hp => hp.trans requests_attempt) _ List.prefix_rfl

/-- What is registered are the names of the map. -/
theorem mem_shares_run (calls : List FrontCall) (name : String) :
    name ∈ (run calls).fe.shares ↔
      Heap.registered Expression.isShare (run calls).fe.heap name ≠ none := by
  have hs := (sound_run calls).shares
  have hmem := (Registry.registered_run shareGen (run calls).requests).2 name
  rw [← hs] at hmem
  rw [ne_eq, Heap.registered_eq_none_iff, not_not]
  exact hmem

/-- The shares have distinct names when the intended names are distinct. -/
theorem shares_unique_iff (calls : List FrontCall) :
    (run calls).fe.heap.NamesUnique Expression.isShare ↔
      Registry.Apart shareGen (run calls).requests := by
  rw [Heap.namesUnique_iff, ← Registry.nodup_intended_iff shareGen_injective,
    ← (Registry.created_run_nodup_iff _).1, ← (sound_run calls).shares]
  rfl

/-- A polynomial never gets a name that is taken. -/
theorem polies_unique (calls : List FrontCall) :
    (run calls).fe.heap.NamesUnique Expression.isPoly := by
  obtain ⟨n, hn⟩ := (sound_run calls).polies
  have hnodup : (Registry.run polyGen (List.replicate n none)).created.Nodup :=
    (Registry.created_run_nodup_iff _).1.2
      ((Registry.nodup_intended_iff polyGen_injective _).2 (Registry.apart_replicate n))
  rw [← hn] at hnodup
  exact (Heap.namesUnique_iff _).2 hnodup

/-- **Names in a context.**  After each call of a sequence all shares have distinct
names and are registered under them, if and only if the names the callers chose are
distinct and none is the name generated for another share.  The polynomials always
have distinct names and are registered under them. -/
theorem names_unique_iff (calls : List FrontCall) :
    ((∀ n, (run (calls.take n)).fe.heap.NamesUnique Expression.isShare) ↔
      Registry.Apart shareGen (run calls).requests) ∧
    ∀ n, (run (calls.take n)).fe.heap.NamesUnique Expression.isPoly := by
  refine ⟨⟨fun h => ?_, fun hapart n => ?_⟩, fun n => polies_unique _⟩
  · have hall := h calls.length
    rw [List.take_length] at hall
    exact (shares_unique_iff calls).1 hall
  · exact (shares_unique_iff _).2 (hapart.of_isPrefix (requests_run_take calls n))

/-- A share is given the name that the third share gets anyway.  The third share is
not registered, and every later one is named after it as well. -/
theorem chosen_name_taken :
    let calls : List FrontCall :=
      [.genShare .arithField 1, .reconstruct [1] 1 "share_2", .genShare .arithField 1,
        .genShare .arithField 1]
    (run calls).fe.heap.names Expression.isShare = ["share_0", "share_2", "share_2", "share_2"] ∧
      Heap.registered Expression.isShare (run calls).fe.heap "share_2" = some 2 ∧
      ¬ (run calls).fe.heap.NamesUnique Expression.isShare := by
  intro calls
  have hnames : (run calls).fe.heap.names Expression.isShare =
      ["share_0", "share_2", "share_2", "share_2"] := by decide +kernel
  refine ⟨hnames, by decide +kernel, fun h => ?_⟩
  have hnodup := (Heap.namesUnique_iff _).1 h
  rw [hnames] at hnodup
  exact absurd hnodup (by decide)

end History

end Gauv
