import Gauv.Bgwfrontend.Circuit

/-!
# Assigning an expression to a variable

`operator=(mpc::Expression&)` appends the shares of a fresh sharing to those the
variable holds.  The variable then holds what the constructor `Variable(ctx, s)`
would, exactly when it held nothing.
-/

namespace Gauv

namespace Bgw

open FrontM

/-- `a` is the evaluation of `poly` for the party `p`, or a transfer of it to `p`. -/
def EvaluatedFor (heap : Heap) (poly : ℕ) (p : PartyDecl) (a : ℕ) : Prop :=
  ∃ e, heap[a]? = some e ∧ e.isShare = true ∧ e.party = p ∧
    ((e.op = .eval ∧ e.oprands = [poly] ∧ e.params = [p]) ∨
      ∃ b eb, e.op = .transit ∧ e.oprands = [b] ∧ heap[b]? = some eb ∧
        eb.op = .eval ∧ eb.oprands = [poly] ∧ eb.params = [p])

/-- The variable holds one share for each party, the evaluations of the polynomial
of degree `T` at address `poly`, whose constant term is `s`. -/
structure Dealt (heap : Heap) (ctx : Context) (s poly : ℕ) (v : Variable) : Prop where
  length : v.length = ctx.N
  dealer : ∃ e, heap[poly]? = some e ∧ ∃ dealer, e.cls = .poly ctx.T dealer s
  share : ∀ (i a : ℕ), v[i]? = some a →
    ∃ p, ctx.parties[i]? = some p ∧ EvaluatedFor heap poly p a

variable {fe fe' : Frontend} {heap : Heap} {ctx : Context} {v r : Variable} {s : ℕ}

/-! ## The constructor -/

theorem deal_returns {poly degree c : ℕ} {dealer : PartyDecl} {pe : Expression} {type : Ty}
    (hpe : fe.heap[poly]? = some pe) (hcls : pe.cls = .poly degree dealer c)
    (htype : pe.type = .poly type) (p : PartyDecl) :
    ∃ q fe', Variable.deal poly p fe = .ok (q, fe') := by
  obtain ⟨b, fe₁, heval⟩ := Poly.eval_returns hpe hcls htype p
  obtain ⟨ep, _, dealer', _, type', name, _, _, _, hal⟩ := Poly.eval_ok heval
  obtain ⟨q, fe', hq⟩ := Share.transfer_returns (hal.getElem? (List.prefix_refl _)) rfl p
  exact ⟨q, fe', bind_ok.2 ⟨b, fe₁, heval, hq⟩⟩

theorem deals_return {poly degree c : ℕ} {dealer : PartyDecl} {pe : Expression} {type : Ty}
    (hs : fe.heap.Sound) (hpe : fe.heap[poly]? = some pe)
    (hcls : pe.cls = .poly degree dealer c) (htype : pe.type = .poly type)
    (ps : List PartyDecl) :
    ∃ qs fe', (ps.mapM (Variable.deal poly) : FrontM (List ℕ)) fe = .ok (qs, fe') := by
  induction ps generalizing fe with
  | nil => exact ⟨[], fe, rfl⟩
  | cons p ps ih =>
      obtain ⟨q, fe₁, hq⟩ := deal_returns hpe hcls htype p
      obtain ⟨hs₁, hpre⟩ := Variable.keepsSound_deal poly p _ _ _ hq hs
      have hpe' := Heap.getElem?_of_isPrefix hpre hpe
      obtain ⟨qs, fe', hqs⟩ := ih hs₁ hpe'
      refine ⟨q :: qs, fe', ?_⟩
      rw [List.mapM_cons]
      exact bind_ok.2 ⟨q, fe₁, hq, bind_ok.2 ⟨qs, fe', hqs, pure_ok.2 rfl⟩⟩

theorem share_returns {es : Expression} (hs : fe.heap.Sound) (hes : fe.heap[s]? = some es) :
    ∃ r fe', Variable.share ctx s fe = .ok (r, fe') := by
  obtain ⟨poly, fe₁, hpoly⟩ := Poly.genPoly_returns hes (fun _ => rfl) ctx.T
  obtain ⟨hs₁, -⟩ := Poly.keepsSound_genPoly es.party s ctx.T _ _ _ hpoly hs
  obtain ⟨ec, name, _, _, hal⟩ := Poly.genPoly_ok hpoly
  obtain ⟨r, fe', hr⟩ := deals_return hs₁ (hal.getElem? (List.prefix_refl _)) rfl rfl ctx.parties
  exact ⟨r, fe', bind_ok.2 ⟨es, fe, deref_ok.2 ⟨hes, rfl⟩, bind_ok.2 ⟨poly, fe₁, hpoly, hr⟩⟩⟩

theorem deal_evaluatedFor {poly q : ℕ} {p : PartyDecl}
    (h : Variable.deal poly p fe = .ok (q, fe')) (hs : fe.heap.Sound) (hpre : fe'.heap <+: heap) :
    EvaluatedFor heap poly p q := by
  obtain ⟨b, fe₁, heval, htransfer⟩ := bind_ok.1 h
  obtain ⟨hs₁, -⟩ := Poly.keepsSound_eval poly p _ _ _ heval hs
  have hpre₁ := ((Share.keepsSound_transfer b p _ _ _ htransfer hs₁).2).trans hpre
  obtain ⟨ep, _, dealer', _, type', name, _, _, _, hal⟩ := Poly.eval_ok heval
  have hbe := hal.getElem? hpre₁
  obtain ⟨es, hes, -, ⟨hp, rfl, -⟩ | ⟨-, name, hal'⟩⟩ := Share.transfer_ok htransfer
  · obtain rfl := Option.some.inj ((hal.getElem? (List.prefix_refl _)).symm.trans hes)
    exact ⟨_, hbe, rfl, hp, .inl ⟨rfl, rfl, rfl⟩⟩
  · exact ⟨_, hal'.getElem? hpre, rfl, rfl, .inr ⟨b, _, rfl, rfl, hbe, rfl, rfl, rfl⟩⟩

/-- The constructor deals the shares of one fresh polynomial. -/
theorem share_dealt (h : Variable.share ctx s fe = .ok (r, fe')) (hs : fe.heap.Sound) :
    Dealt fe'.heap ctx s fe.heap.length r := by
  simp only [Variable.share, bind_ok, deref_ok] at h
  obtain ⟨es, _, ⟨-, rfl⟩, poly, fe₁, hpoly, hloop⟩ := h
  obtain ⟨hs₁, -⟩ := Poly.keepsSound_genPoly _ _ _ _ _ _ hpoly hs
  have hpre := (KeepsSound.mapM (Variable.keepsSound_deal poly) _ _ _ _ hloop hs₁).2
  obtain ⟨ec, name, _, _, hal⟩ := Poly.genPoly_ok hpoly
  obtain ⟨hlen, hall⟩ := mapM_ok (Variable.keepsSound_deal poly) hs₁ hloop
  rw [← hal.1]
  refine ⟨hlen, ⟨_, hal.getElem? hpre, _, rfl⟩, fun i a ha => ?_⟩
  obtain ⟨p, hp, fe₂, fe₃, hs₂, -, hdeal, hpre₃⟩ := hall i a ha
  exact ⟨p, hp, deal_evaluatedFor hdeal hs₂ hpre₃⟩

/-! ## The assignment -/

/-- **Assigning an expression.**  The assignment returns; the variable then holds
the sharing that the constructor deals, and nothing else, exactly when it held
nothing before. -/
theorem assign_dealt_iff {calls : List Call} {es : Expression}
    (hrun : Call.runAll calls .initial = .ok ((), fe)) (hes : fe.heap[s]? = some es)
    (ctx : Context) (v : Variable) :
    ∃ r fe', Variable.assign ctx v s fe = .ok (r, fe') ∧
      ((Variable.share ctx s fe = .ok (r, fe') ∧ Dealt fe'.heap ctx s fe.heap.length r) ↔
        v = []) := by
  have hs := Call.sound_runAll hrun
  obtain ⟨r, fe', hr⟩ : ∃ r fe', Variable.share ctx s fe = .ok (r, fe') := share_returns hs hes
  refine ⟨v ++ r, fe', bind_ok.2 ⟨r, fe', hr, pure_ok.2 rfl⟩, fun h => ?_, ?_⟩
  · have hlen := h.2.length
    rw [List.length_append, (share_dealt hr hs).length] at hlen
    exact List.length_eq_zero_iff.1 (by omega)
  · rintro rfl
    exact ⟨hr, share_dealt hr hs⟩

/-- Two secrets, the first of which a variable has been assigned. -/
def reuseCalls : List Call :=
  [.newSecret "x_0" .arithField 1, .newSecret "x_1" .arithField 2,
    .varAssign ⟨[1, 2, 3], 1, 0⟩ [] 1]

theorem ok_of_toOption {ε α : Type} {x : Except ε α} {a : α} (h : x.toOption = some a) :
    x = .ok a := by
  cases x with
  | ok b => exact congrArg Except.ok (Option.some.inj h)
  | error e => exact absurd h (by simp [Except.toOption])

/-- The variable that held the sharing of the first secret holds six shares after
the second is assigned to it. -/
theorem assign_twice : ∃ fe r fe', Call.runAll reuseCalls .initial = .ok ((), fe) ∧
    Variable.assign ⟨[1, 2, 3], 1, 0⟩ [4, 6, 8] 2 fe = .ok (r, fe') ∧ r.length = 6 ∧
    ∀ poly, ¬ Dealt fe'.heap ⟨[1, 2, 3], 1, 0⟩ 2 poly r := by
  have hany : ((Call.runAll reuseCalls .initial).toOption.any fun q =>
      (Variable.assign ⟨[1, 2, 3], 1, 0⟩ [4, 6, 8] 2 q.2).toOption.any fun q =>
        decide (q.1.length = 6)) = true := by decide +kernel
  obtain ⟨⟨_, fe⟩, hrun, hany⟩ := (Option.any_eq_true _ _).1 hany
  obtain ⟨⟨r, fe'⟩, hassign, hlen⟩ := (Option.any_eq_true _ _).1 hany
  have hsix : r.length = 6 := of_decide_eq_true hlen
  exact ⟨fe, r, fe', ok_of_toOption hrun, ok_of_toOption hassign, hsix,
    fun poly h => absurd (hsix ▸ h.length) (by decide)⟩

theorem assign_dealt_iff_reuse : ∃ fe r fe', Call.runAll reuseCalls .initial = .ok ((), fe) ∧
    Variable.assign ⟨[1, 2, 3], 1, 0⟩ [] 2 fe = .ok (r, fe') ∧
    Dealt fe'.heap ⟨[1, 2, 3], 1, 0⟩ 2 fe.heap.length r := by
  have hany : ((Call.runAll reuseCalls .initial).toOption.any fun q => q.2.heap[2]?.isSome) =
      true := by decide +kernel
  obtain ⟨⟨_, fe⟩, hrun, hsome⟩ := (Option.any_eq_true _ _).1 hany
  obtain ⟨es, hes⟩ := Option.isSome_iff_exists.1 hsome
  have hrun := ok_of_toOption hrun
  obtain ⟨r, fe', hr, hiff⟩ := assign_dealt_iff hrun hes ⟨[1, 2, 3], 1, 0⟩ []
  exact ⟨fe, r, fe', hrun, hr, (hiff.2 rfl).2⟩

end Bgw

end Gauv
