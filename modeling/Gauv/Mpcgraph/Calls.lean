import Gauv.Mpcgraph.Share
import Gauv.Lists

/-!
# What the calls of the front end do

A call that returns puts at most one expression at the end of the heap, and
leaves the others alone.  The specifications below say which expression, and
what the call has checked of its arguments.
-/

namespace Gauv

namespace FrontM

variable {α β : Type} {fe fe' : Frontend}

/-- Two calls return when both do. -/
theorem bind_ok {m : FrontM α} {f : α → FrontM β} {r : β × Frontend} :
    (m >>= f) fe = .ok r ↔ ∃ a fe₁, m fe = .ok (a, fe₁) ∧ f a fe₁ = .ok r := by
  change (m fe >>= fun p => f p.1 p.2) = _ ↔ _
  cases m fe with
  | error x => simp [bind, Except.bind]
  | ok p =>
      obtain ⟨a, fe₁⟩ := p
      simp [bind, Except.bind]

theorem pure_ok {a : α} {r : α × Frontend} : (pure a : FrontM α) fe = .ok r ↔ r = (a, fe) := by
  change Except.ok (a, fe) = _ ↔ _
  rw [Except.ok.injEq, eq_comm]

theorem throw_ok {x : Exn} {r : α × Frontend} : (throw x : FrontM α) fe = .ok r ↔ False := by
  change Except.error x = _ ↔ _
  simp

theorem get_ok {r : Frontend × Frontend} : (get : FrontM Frontend) fe = .ok r ↔ r = (fe, fe) := by
  change Except.ok (fe, fe) = _ ↔ _
  rw [Except.ok.injEq, eq_comm]

theorem set_ok {x : Frontend} {r : PUnit × Frontend} :
    (set x : FrontM PUnit) fe = .ok r ↔ r = (⟨⟩, x) := by
  change Except.ok (PUnit.unit, x) = _ ↔ _
  rw [Except.ok.injEq, eq_comm]

theorem modify_ok {f : Frontend → Frontend} {r : PUnit × Frontend} :
    (modify f : FrontM PUnit) fe = .ok r ↔ r = (⟨⟩, f fe) := by
  change Except.ok (PUnit.unit, f fe) = _ ↔ _
  rw [Except.ok.injEq, eq_comm]

/-- A check that throws unless it passes. -/
theorem guard_ok {c : Prop} [Decidable c] {x : Exn} {k : PUnit → FrontM α} {m : FrontM α}
    {r : α × Frontend} :
    (if c then (throw x >>= k : FrontM α) else m) fe = .ok r ↔ ¬ c ∧ m fe = .ok r := by
  by_cases h : c
  · rw [if_pos h, bind_ok]
    simp [h, throw_ok]
  · rw [if_neg h]
    simp [h]

/-- Reading an address returns what stands there. -/
theorem deref_ok {a : ℕ} {r : Expression × Frontend} :
    deref a fe = .ok r ↔ fe.heap[a]? = some r.1 ∧ r.2 = fe := by
  obtain ⟨e, fe'⟩ := r
  rw [deref]
  cases fe.heap[a]? <;> simp [eq_comm]

/-- Reading a share returns what stands there if it is one. -/
theorem derefShare_ok {a : ℕ} {r : Expression × Frontend} :
    derefShare a fe = .ok r ↔ fe.heap[a]? = some r.1 ∧ r.1.isShare = true ∧ r.2 = fe := by
  obtain ⟨e, fe'⟩ := r
  simp only [derefShare, bind_ok, deref_ok]
  constructor
  · rintro ⟨e', _, ⟨he, rfl⟩, h⟩
    split at h
    · rename_i hs
      cases pure_ok.1 h
      exact ⟨he, hs, rfl⟩
    · exact absurd (throw_ok.1 h) id
  · rintro ⟨he, hs, rfl⟩
    exact ⟨e, _, ⟨he, rfl⟩, by rw [if_pos hs]; exact pure_ok.2 rfl⟩

/-- An allocation returns the next address. -/
theorem alloc_ok {e : Expression} {r : ℕ × Frontend} :
    alloc e fe = .ok r ↔ r = (fe.heap.length, { fe with heap := fe.heap ++ [e] }) := by
  rw [alloc, Except.ok.injEq, eq_comm]

theorem alloc_returns (e : Expression) (fe : Frontend) : ∃ r fe', alloc e fe = .ok (r, fe') :=
  ⟨_, _, rfl⟩

end FrontM

open FrontM

/-! ## Specifications -/

/-- The call has put `e` at the end of the heap and returns its address. -/
def Frontend.Allocs (fe fe' : Frontend) (r : ℕ) (e : Expression) : Prop :=
  r = fe.heap.length ∧ fe'.heap = fe.heap ++ [e]

variable {fe fe' : Frontend} {r : ℕ}

/-- A placeholder whose name was free. -/
theorem placeholder_ok {fe₁ : Frontend} {e : Expression} {c : Prop} [Decidable c] {x : Exn}
    (h : (if c then throw x >>= fun _ : PUnit => set fe₁ >>= fun _ => alloc e
      else set fe₁ >>= fun _ => alloc e : FrontM ℕ) fe = .ok (r, fe'))
    (hheap : fe₁.heap = fe.heap) : fe.Allocs fe' r e := by
  simp only [guard_ok, bind_ok, set_ok, alloc_ok] at h
  obtain ⟨-, _, _, hs, ha⟩ := h
  cases hs
  cases ha
  exact ⟨congrArg List.length hheap, congrArg (· ++ [e]) hheap⟩

/-- What a new constant is. -/
theorem newConstant_ok {name : String} (h : newConstant name fe = .ok (r, fe')) :
    fe.Allocs fe' r ⟨.constant, name, .arithField, .input, [], [], nullParty⟩ := by
  obtain ⟨_, _, hg, h⟩ := bind_ok.1 h
  cases get_ok.1 hg
  exact placeholder_ok h rfl

/-- What a new secret is. -/
theorem newSecret_ok {name : String} {type : Ty} {party : PartyDecl}
    (h : newSecret name type party fe = .ok (r, fe')) :
    fe.Allocs fe' r ⟨.secret, name, type, .input, [], [], party⟩ := by
  obtain ⟨_, _, hg, h⟩ := bind_ok.1 h
  cases get_ok.1 hg
  exact placeholder_ok h rfl

/-- What new randomness is. -/
theorem newRandomness_ok {name : String} {type : Ty} {party : PartyDecl}
    (h : newRandomness name type party fe = .ok (r, fe')) :
    fe.Allocs fe' r ⟨.randomness, name, type, .input, [], [], party⟩ := by
  obtain ⟨_, _, hg, h⟩ := bind_ok.1 h
  cases get_ok.1 hg
  exact placeholder_ok h rfl

/-- What a cast is, and that its operand exists. -/
theorem newTypeCast_ok {name : String} {type : Ty} {x : ℕ} {party : PartyDecl}
    (h : newTypeCast name type x party fe = .ok (r, fe')) :
    ∃ ex, fe.heap[x]? = some ex ∧
      fe.Allocs fe' r ⟨.typeCast, name, type, .typeCast, [x], [], party⟩ := by
  simp only [newTypeCast, bind_ok, deref_ok, alloc_ok] at h
  obtain ⟨ex, _, ⟨hx, rfl⟩, ha⟩ := h
  cases ha
  exact ⟨ex, hx, rfl, rfl⟩

namespace Share

/-- What a new share is. -/
theorem new_ok {name : String} {type : Ty} {op : Operator} {oprands : List ℕ}
    {params : List PartyDecl} {party : PartyDecl}
    (h : new name type op oprands params party fe = .ok (r, fe')) :
    fe.Allocs fe' r ⟨.share, name, type, op, oprands, params, party⟩ := by
  simp only [new, bind_ok, modify_ok, alloc_ok] at h
  obtain ⟨_, _, hm, ha⟩ := h
  cases hm
  cases ha
  refine ⟨?_, ?_⟩ <;> rw [Frontend.registerShare] <;> split <;> rfl

/-- What a generated share is. -/
theorem genShare_ok {type : Ty} {party : PartyDecl}
    (h : genShare type party fe = .ok (r, fe')) :
    ∃ name, fe.Allocs fe' r ⟨.share, name, type, .input, [], [], party⟩ := by
  simp only [genShare, bind_ok, get_ok] at h
  obtain ⟨_, _, hg, h⟩ := h
  cases hg
  exact ⟨_, new_ok h⟩

/-- What a binary operator checks of its operands, and what it makes of them. -/
theorem binaryOp_ok {a b : ℕ} {op : Operator} (h : binaryOp a b op fe = .ok (r, fe')) :
    ∃ ea eb name, fe.heap[a]? = some ea ∧ ea.isShare = true ∧ fe.heap[b]? = some eb ∧
      eb.isShare = true ∧ ea.party = eb.party ∧
      fe.Allocs fe' r ⟨.share, name, ea.type, op, [a, b], [], ea.party⟩ := by
  simp only [binaryOp, bind_ok, derefShare_ok] at h
  obtain ⟨ea, _, ⟨ha, hsa, rfl⟩, eb, _, ⟨hb, hsb, rfl⟩, h⟩ := h
  simp only [guard_ok, bind_ok, get_ok] at h
  obtain ⟨hp, _, _, hg, h⟩ := h
  cases hg
  exact ⟨ea, eb, _, ha, hsa, hb, hsb, not_not.1 hp, new_ok h⟩

/-- What a scaling checks of its operands, and what it makes of them. -/
theorem scalarMul_ok {s c : ℕ} (h : scalarMul s c fe = .ok (r, fe')) :
    ∃ es ec name, fe.heap[s]? = some es ∧ es.isShare = true ∧ fe.heap[c]? = some ec ∧
      ec.isConstant = true ∧
      fe.Allocs fe' r ⟨.share, name, es.type, .scalarMul, [s, c], [], es.party⟩ := by
  simp only [scalarMul, bind_ok, derefShare_ok, deref_ok] at h
  obtain ⟨es, _, ⟨hs, hss, rfl⟩, ec, _, ⟨hc, rfl⟩, h⟩ := h
  simp only [guard_ok, bind_ok, get_ok] at h
  obtain ⟨hcc, _, _, hg, h⟩ := h
  cases hg
  exact ⟨es, ec, _, hs, hss, hc, by simpa using hcc, new_ok h⟩

/-- A transfer to the holder makes nothing new. -/
theorem transfer_ok {s : ℕ} {party : PartyDecl} (h : transfer s party fe = .ok (r, fe')) :
    ∃ es, fe.heap[s]? = some es ∧ es.isShare = true ∧
      ((es.party = party ∧ r = s ∧ fe' = fe) ∨ (es.party ≠ party ∧ ∃ name,
        fe.Allocs fe' r ⟨.share, name, es.type, .transit, [s], [], party⟩)) := by
  simp only [transfer, bind_ok, derefShare_ok] at h
  obtain ⟨es, _, ⟨hs, hss, rfl⟩, h⟩ := h
  refine ⟨es, hs, hss, ?_⟩
  split at h
  · rename_i hp
    cases pure_ok.1 h
    exact Or.inl ⟨hp, rfl, rfl⟩
  · rename_i hp
    simp only [bind_ok, get_ok] at h
    obtain ⟨_, _, hg, h⟩ := h
    cases hg
    exact Or.inr ⟨hp, _, new_ok h⟩

/-- The loop over the types passes when all are the same. -/
theorem checkTypes_ok {type : Ty} {es : List Expression}
    (h : checkTypes type es fe = .ok ((), fe')) : fe' = fe ∧ ∀ e ∈ es, e.type = type := by
  induction es with
  | nil =>
      cases pure_ok.1 h
      exact ⟨rfl, by simp⟩
  | cons e es ih =>
      simp only [checkTypes, guard_ok] at h
      obtain ⟨ht, h⟩ := h
      obtain ⟨rfl, hes⟩ := ih h
      exact ⟨rfl, List.forall_mem_cons.2 ⟨not_not.1 ht, hes⟩⟩

/-- The loop over the parties passes when all shares stand at the one. -/
theorem checkParties_ok {party : PartyDecl} {es : List Expression}
    (h : checkParties party es fe = .ok ((), fe')) :
    fe' = fe ∧ ∀ e ∈ es, e.isShare = true ∧ e.party = party := by
  induction es with
  | nil =>
      cases pure_ok.1 h
      exact ⟨rfl, by simp⟩
  | cons e es ih =>
      simp only [checkParties, guard_ok] at h
      obtain ⟨hs, hp, h⟩ := h
      obtain ⟨rfl, hes⟩ := ih h
      exact ⟨rfl, List.forall_mem_cons.2 ⟨⟨by simpa using hs, (not_not.1 hp).symm⟩, hes⟩⟩

end Share

/-- Following several pointers changes nothing. -/
theorem mapM_deref_ok {as : List ℕ} {es : List Expression}
    (h : (as.mapM deref : FrontM (List Expression)) fe = .ok (es, fe')) :
    fe' = fe ∧ List.Forall₂ (fun a e => fe.heap[a]? = some e) as es := by
  induction as generalizing es with
  | nil =>
      rw [List.mapM_nil] at h
      cases pure_ok.1 h
      exact ⟨rfl, .nil⟩
  | cons a as ih =>
      simp only [List.mapM_cons, bind_ok, deref_ok] at h
      obtain ⟨e, _, ⟨ha, rfl⟩, es', _, h, hp⟩ := h
      cases pure_ok.1 hp
      obtain ⟨rfl, hes⟩ := ih h
      exact ⟨rfl, .cons ha hes⟩

namespace Share

/-- The operands are shares of one type at one party; the party of the result
is whatever was asked for. -/
theorem reconstruct_ok {shares : List ℕ} {party : PartyDecl} {name : String}
    (h : reconstruct shares party name fe = .ok (r, fe')) :
    ∃ es holder type name', List.Forall₂ (fun a e => fe.heap[a]? = some e) shares es ∧
      shares ≠ [] ∧ (∀ e ∈ es, e.isShare = true ∧ e.party = holder ∧ e.type = type) ∧
      fe.Allocs fe' r ⟨.share, name', type, .reconstruct, shares, [], party⟩ := by
  simp only [reconstruct, bind_ok] at h
  obtain ⟨es, _, hes, h⟩ := h
  obtain ⟨rfl, hes⟩ := mapM_deref_ok hes
  cases hes with
  | nil => exact absurd (throw_ok.1 h) id
  | @cons a e₀ as rest ha hrest =>
      simp only [bind_ok, get_ok] at h
      obtain ⟨_, _, htypes, _, _, hparties, _, _, hg, h⟩ := h
      obtain ⟨rfl, htypes'⟩ := checkTypes_ok htypes
      obtain ⟨rfl, hparties'⟩ := checkParties_ok hparties
      cases hg
      refine ⟨e₀ :: rest, e₀.party, e₀.type, _, .cons ha hrest, by simp, fun e he => ?_, new_ok h⟩
      refine ⟨(hparties' e he).1, (hparties' e he).2, ?_⟩
      rcases List.mem_cons.1 he with rfl | he
      · rfl
      · exact htypes' e he

/-! ### Calls that pass their checks -/

theorem new_returns (name : String) (type : Ty) (op : Operator) (oprands : List ℕ)
    (params : List PartyDecl) (party : PartyDecl) (fe : Frontend) :
    ∃ r fe', new name type op oprands params party fe = .ok (r, fe') := ⟨_, _, rfl⟩

/-- A share can be sent to any party. -/
theorem transfer_returns {s : ℕ} {es : Expression} (hs : fe.heap[s]? = some es)
    (hshare : es.isShare = true) (party : PartyDecl) :
    ∃ r fe', transfer s party fe = .ok (r, fe') := by
  have hd : derefShare s fe = .ok (es, fe) := derefShare_ok.2 ⟨hs, hshare, rfl⟩
  by_cases hp : es.party = party
  · exact ⟨s, fe, bind_ok.2 ⟨es, fe, hd, by rw [if_pos hp]; exact pure_ok.2 rfl⟩⟩
  · obtain ⟨r, fe', hnew⟩ := new_returns fe.shareName es.type .transit [s] [] party fe
    refine ⟨r, fe', bind_ok.2 ⟨es, fe, hd, ?_⟩⟩
    rw [if_neg hp]
    exact bind_ok.2 ⟨fe, fe, get_ok.2 rfl, hnew⟩

theorem checkTypes_returns {type : Ty} {es : List Expression} (h : ∀ e ∈ es, e.type = type) :
    checkTypes type es fe = .ok ((), fe) := by
  induction es with
  | nil => rfl
  | cons e es ih =>
      obtain ⟨he, hes⟩ := List.forall_mem_cons.1 h
      exact guard_ok.2 ⟨not_not.2 he, ih hes⟩

theorem checkParties_returns {party : PartyDecl} {es : List Expression}
    (h : ∀ e ∈ es, e.isShare = true ∧ e.party = party) :
    checkParties party es fe = .ok ((), fe) := by
  induction es with
  | nil => rfl
  | cons e es ih =>
      obtain ⟨⟨hs, hp⟩, hes⟩ := List.forall_mem_cons.1 h
      exact guard_ok.2 ⟨by simp [hs], guard_ok.2 ⟨not_not.2 hp.symm, ih hes⟩⟩

theorem mapM_deref_returns {as : List ℕ} {P : Expression → Prop}
    (h : ∀ a ∈ as, ∃ e, fe.heap[a]? = some e ∧ P e) :
    ∃ es, (as.mapM deref : FrontM (List Expression)) fe = .ok (es, fe) ∧
      es.length = as.length ∧ ∀ e ∈ es, P e := by
  induction as with
  | nil => exact ⟨[], rfl, rfl, by simp⟩
  | cons a as ih =>
      obtain ⟨⟨e, he, hP⟩, has⟩ := List.forall_mem_cons.1 h
      obtain ⟨es, hes, hlen, hall⟩ := ih has
      refine ⟨e :: es, ?_, by rw [List.length_cons, List.length_cons, hlen],
        List.forall_mem_cons.2 ⟨hP, hall⟩⟩
      rw [List.mapM_cons]
      exact bind_ok.2 ⟨e, fe, deref_ok.2 ⟨he, rfl⟩, bind_ok.2 ⟨es, fe, hes, pure_ok.2 rfl⟩⟩

/-- Shares of one type at one party can be reconstructed from. -/
theorem reconstruct_returns {shares : List ℕ} {holder : PartyDecl} {type : Ty}
    (hne : shares ≠ []) (h : ∀ a ∈ shares, ∃ e, fe.heap[a]? = some e ∧
      e.isShare = true ∧ e.party = holder ∧ e.type = type) (party : PartyDecl) (name : String) :
    ∃ r fe', reconstruct shares party name fe = .ok (r, fe') := by
  obtain ⟨es, hes, hlen, hall⟩ := mapM_deref_returns h
  cases es with
  | nil => exact absurd (List.length_eq_zero_iff.1 hlen.symm) hne
  | cons e₀ rest =>
      obtain ⟨⟨hs₀, hp₀, ht₀⟩, hrest⟩ := List.forall_mem_cons.1 hall
      have htypes : checkTypes e₀.type rest fe = .ok ((), fe) :=
        checkTypes_returns fun e he => (hrest e he).2.2.trans ht₀.symm
      have hparties : checkParties e₀.party (e₀ :: rest) fe = .ok ((), fe) :=
        checkParties_returns fun e he => ⟨(hall e he).1, (hall e he).2.1.trans hp₀.symm⟩
      obtain ⟨r, fe', hnew⟩ := new_returns (if name = "" then fe.shareName else name) e₀.type
        .reconstruct shares [] party fe
      exact ⟨r, fe', bind_ok.2 ⟨e₀ :: rest, fe, hes, bind_ok.2 ⟨(), fe, htypes,
        bind_ok.2 ⟨(), fe, hparties, bind_ok.2 ⟨fe, fe, get_ok.2 rfl, hnew⟩⟩⟩⟩⟩

end Share

namespace Poly

/-- What `gen_poly` checks of the constant term, and what it makes of it. -/
theorem genPoly_ok {party : PartyDecl} {c degree : ℕ}
    (h : genPoly party c degree fe = .ok (r, fe')) :
    ∃ ec name, fe.heap[c]? = some ec ∧ (ec.cls = .secret → ec.party = party) ∧
      fe.Allocs fe' r
        ⟨.poly degree party c, name, .poly ec.type, .polilize, [c], [], nullParty⟩ := by
  simp only [genPoly, bind_ok, deref_ok] at h
  obtain ⟨ec, fe₁, ⟨hc, rfl⟩, h⟩ := h
  simp only [guard_ok, bind_ok, get_ok, set_ok, alloc_ok] at h
  obtain ⟨hp, _, _, hg, _, _, hs, ha⟩ := h
  cases hg
  cases hs
  cases ha
  refine ⟨ec, fe₁.polyName, hc, fun hcls => ?_, ?_, ?_⟩
  · by_contra hne
    exact hp ⟨hcls, hne⟩
  · rw [Frontend.registerPoly]
    split <;> rfl
  · simp only [Frontend.registerPoly]
    split <;> rfl

/-- It returns for a constant term at the dealer. -/
theorem genPoly_returns {party : PartyDecl} {c : ℕ} {ec : Expression}
    (hc : fe.heap[c]? = some ec) (hp : ec.cls = .secret → ec.party = party) (degree : ℕ) :
    ∃ r fe', genPoly party c degree fe = .ok (r, fe') := by
  have hguard : ¬ (ec.cls = .secret ∧ ec.party ≠ party) := fun h => h.2 (hp h.1)
  obtain ⟨r, fe', hal⟩ := alloc_returns
    ⟨.poly degree party c, fe.polyName, .poly ec.type, .polilize, [c], [], nullParty⟩
    (fe.registerPoly fe.polyName)
  exact ⟨r, fe', bind_ok.2 ⟨ec, fe, deref_ok.2 ⟨hc, rfl⟩, guard_ok.2 ⟨hguard,
    bind_ok.2 ⟨fe, fe, get_ok.2 rfl, bind_ok.2 ⟨⟨⟩, _, set_ok.2 rfl, hal⟩⟩⟩⟩⟩

/-- A polynomial can be evaluated for any party. -/
theorem eval_returns {p degree c : ℕ} {dealer : PartyDecl} {ep : Expression} {type : Ty}
    (hp : fe.heap[p]? = some ep) (hcls : ep.cls = .poly degree dealer c)
    (htype : ep.type = .poly type) (party : PartyDecl) :
    ∃ r fe', eval p party fe = .ok (r, fe') := by
  obtain ⟨r, fe', hnew⟩ := Share.new_returns fe.shareName type .eval [p] [party] dealer fe
  refine ⟨r, fe', bind_ok.2 ⟨ep, fe, deref_ok.2 ⟨hp, rfl⟩, ?_⟩⟩
  simp only [hcls, htype]
  exact bind_ok.2 ⟨fe, fe, get_ok.2 rfl, hnew⟩

/-- What an evaluation checks of the polynomial, and what it makes of it. -/
theorem eval_ok {p : ℕ} {party : PartyDecl} (h : eval p party fe = .ok (r, fe')) :
    ∃ ep degree dealer c elemType name, fe.heap[p]? = some ep ∧
      ep.cls = .poly degree dealer c ∧ ep.type = .poly elemType ∧
      fe.Allocs fe' r ⟨.share, name, elemType, .eval, [p], [party], dealer⟩ := by
  simp only [eval, bind_ok, deref_ok] at h
  obtain ⟨ep, _, ⟨hp, rfl⟩, h⟩ := h
  generalize hcls : ep.cls = cls at h
  generalize htype : ep.type = type at h
  cases cls with
  | poly degree dealer c =>
      cases type with
      | poly elemType =>
          simp only [bind_ok, get_ok] at h
          obtain ⟨_, _, hg, h⟩ := h
          cases hg
          exact ⟨ep, degree, dealer, c, elemType, _, hp, hcls, htype, Share.new_ok h⟩
      | arithField => exact absurd (throw_ok.1 h) id
      | binField => exact absurd (throw_ok.1 h) id
  | _ => exact absurd (throw_ok.1 h) id

end Poly

end Gauv
