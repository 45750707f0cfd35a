import Gauv.Backend.Memory
import Gauv.Backend.Parties
import Gauv.Bgwfrontend.Calls

/-!
# Data changes hands only by TRANSIT

The front end compares the parties of operands in some calls and not in others.
An edge of the graph stays at one party exactly when the expression behind it is
well placed: the three calls that do not compare parties, `reconstruct`,
`gen_poly` for anything but a `Secret`, and `TypeCast`, got matching ones.
-/

namespace Gauv

open Relation

/-! ## Sound heaps -/

namespace Expression.Made

variable {heap : Heap} {e : ℕ} {exp : Expression}

theorem shaped (h : exp.Made (heap.take e)) : exp.Shaped heap := by
  cases h with
  | placeholder hcls hop ho => exact .placeholder hcls hop ho
  | typeCast hcls hop ho hex =>
      refine .simple (.inr hcls) (by simp [Expression.isSimple, hop]) fun x hx => ?_
      rw [ho, List.mem_singleton] at hx
      exact ⟨_, hx ▸ (of_getElem?_take hex).1⟩
  | binary hcls hop ho ha hb _ _ =>
      refine .simple (.inl hcls) ?_ fun x hx => ?_
      · rcases hop with h | h | h | h <;> simp [Expression.isSimple, h]
      · rw [ho, List.mem_cons, List.mem_singleton] at hx
        rcases hx with rfl | rfl
        · exact ⟨_, (of_getElem?_take ha).1⟩
        · exact ⟨_, (of_getElem?_take hb).1⟩
  | scalarMul hcls hop ho hs hc _ _ =>
      refine .simple (.inl hcls) (by simp [Expression.isSimple, hop]) fun x hx => ?_
      rw [ho, List.mem_cons, List.mem_singleton] at hx
      rcases hx with rfl | rfl
      · exact ⟨_, (of_getElem?_take hs).1⟩
      · exact ⟨_, (of_getElem?_take hc).1⟩
  | transit hcls hop ho hs _ =>
      refine .simple (.inl hcls) (by simp [Expression.isSimple, hop]) fun x hx => ?_
      rw [ho, List.mem_singleton] at hx
      exact ⟨_, hx ▸ (of_getElem?_take hs).1⟩
  | reconstruct hcls hop ho =>
      refine .simple (.inl hcls) (by simp [Expression.isSimple, hop]) fun x hx => ?_
      obtain ⟨ex, hex, -⟩ := ho x hx
      exact ⟨ex, (of_getElem?_take hex).1⟩
  | poly hcls hop ho hc => exact .poly hcls hop ho (of_getElem?_take hc).1
  | eval hcls hop ho hp hep =>
      exact .eval hcls hop ho (of_getElem?_take hp).1 (by simp [Expression.isPoly, hep])

end Expression.Made

theorem Heap.Sound.acyclic {heap : Heap} (h : heap.Sound) : heap.Acyclic :=
  acyclic_of_backward fun e exp he x hx => by
    obtain ⟨ex, hex⟩ := (h e exp he).exists_of_refs hx
    exact (Expression.Made.of_getElem?_take hex).2

theorem Heap.Sound.shaped {heap : Heap} (h : heap.Sound) (outputs : List ℕ) :
    heap.Shaped outputs := fun e exp _ he => (h e exp he).shaped

/-! ## Well-placed expressions -/

/-- The parties that no call compares match. -/
def Expression.WellPlaced (heap : Heap) (e : Expression) : Prop :=
  match e.op with
  | .reconstruct | .typeCast =>
      ∀ x ∈ heap.operands e.oprands, ∀ ex, heap[x]? = some ex → ex.party = e.party
  | .eval =>
      ∀ p ∈ e.oprands, ∀ x ∈ heap.operands (heap.constTerm p), ∀ ex, heap[x]? = some ex →
        ex.party = e.party
  | _ => True

namespace Builder

variable {heap : Heap} {mem : Memory} {prev outputs outs pend : List ℕ}
  {new : List (ℕ × Option NodePtr)} {s : Builder} {e : ℕ} {exp : Expression}

/-- The party of a node object that some build made. -/
theorem nodeAt_party {b g : ℕ} {party : PartyDecl}
    (h : partyAt s.leave.earlier b g = some party) : (s.nodeAt (.node b g)).party = party := by
  have hb := lt_of_partyAt h
  rw [partyAt, leave, List.getD_eq_getElem?_getD] at h
  simp only [leave, List.length_append, List.length_singleton] at hb
  rw [nodeAt]
  by_cases hcur : b = s.current
  · subst hcur
    rw [current, List.getElem?_concat_length, Option.getD_some] at h
    rw [if_pos rfl, List.getD_eq_getElem?_getD]
    cases hn : s.nodes[g]? with
    | none =>
        rw [hn] at h
        exact absurd h (by simp)
    | some n =>
        rw [hn] at h
        exact Option.some.inj h
  · have hlt : b < s.earlier.length := by
      rw [current] at hcur
      omega
    rw [List.getElem?_append_left hlt, ← List.getD_eq_getElem?_getD] at h
    rw [if_neg hcur, List.getD_eq_getElem?_getD]
    cases hn : (s.earlier.getD b [])[g]? with
    | none =>
        rw [hn] at h
        exact absurd h (by simp)
    | some n =>
        rw [hn] at h
        exact Option.some.inj h

/-- A pointer the tables hold leads to a node at the party of its expression. -/
theorem Remembers.party (hm : Remembers heap prev s.leave) {x : ℕ} {p : NodePtr}
    (hx : s.frontBackMap.lookup x = some (some p)) (hidx : p.guid?.isSome) :
    ∃ ex, heap[x]? = some ex ∧ (s.nodeAt p).party = ex.party := by
  obtain ⟨ex, hex, hrec⟩ := hm.holds x _ hx
  cases hrec with
  | node _ hp => exact ⟨ex, hex, nodeAt_party hp⟩
  | poly _ _ _ _ _ => simp [NodePtr.guid?] at hidx

/-- The operands of an edge other than an evaluation. -/
theorem Remembers.forall_party_iff (hm : Remembers heap prev s.leave) {xs : List ℕ}
    {inputs : List NodePtr} {party : PartyDecl}
    (hin : List.Forall₂ (fun x p => s.frontBackMap.lookup x = some (some p)) xs inputs)
    (hidx : ∀ p ∈ inputs, p.guid?.isSome) :
    (∀ p ∈ inputs, (s.nodeAt p).party = party) ↔
      ∀ x ∈ xs, ∀ ex, heap[x]? = some ex → ex.party = party := by
  constructor
  · intro h x hx ex hex
    obtain ⟨p, hp, hxp⟩ := exists_of_mem_left hin hx
    obtain ⟨ex', hex', hparty⟩ := hm.party hxp (hidx p hp)
    rw [hex, Option.some.injEq] at hex'
    rw [hex', ← hparty]
    exact h p hp
  · intro h p hp
    obtain ⟨x, hx, hxp⟩ := exists_of_mem_right hin hp
    obtain ⟨ex, hex, hparty⟩ := hm.party hxp (hidx p hp)
    rw [hparty]
    exact h x hx ex hex

/-- The inputs of an evaluation: the coefficients are at the dealer, so what
matters is where the constant term is. -/
theorem Remembers.forall_party_eval_iff (hm : Remembers heap prev s.leave) {x degree c : ℕ}
    {ex : Expression} {party : PartyDecl} {q : NodePtr} {old : OpObject}
    (hex : heap[x]? = some ex) (hcls : ex.cls = .poly degree party c)
    (hq : s.frontBackMap.lookup x = some (some q)) (hp : s.polyMap.lookup q = some old)
    (hidx : ∀ p ∈ old.inputs, p.guid?.isSome) :
    (∀ p ∈ old.inputs, (s.nodeAt p).party = party) ↔
      ∀ y ∈ heap.operands (heap.constTerm x), ∀ ey, heap[y]? = some ey → ey.party = party := by
  rw [(Heap.degree_eq hex hcls).2]
  obtain ⟨ex', hex', hrec⟩ := hm.holds x _ hq
  rw [hex, Option.some.injEq] at hex'
  subst hex'
  cases hrec with
  | node hn _ => simp [Expression.HasNode, Expression.isPoly, hcls] at hn
  | @poly degree' c' party' rc coeffs hcls' hc hp' hlen hco =>
      rw [hcls, ExprClass.poly.injEq] at hcls'
      obtain ⟨-, rfl, rfl⟩ := hcls'
      have hold : old = ⟨.polilize, rc.toList ++ coeffs, some (.aux x)⟩ :=
        Option.some.inj (hp.symm.trans hp')
      subst hold
      have hcoeffs : ∀ p ∈ coeffs, (s.nodeAt p).party = party := by
        intro p hpm
        obtain ⟨b, g, rfl, hbg⟩ := hco p hpm
        exact nodeAt_party hbg
      simp only [List.forall_mem_append, and_iff_left hcoeffs]
      obtain ⟨ec, hec, hrec⟩ := hm.holds c rc hc
      cases hrec with
      | null hcc =>
          rw [Heap.operands, List.filter_cons_of_neg (by simp [hec, hcc])]
          simp
      | node hn hpc =>
          rw [Heap.operands, List.filter_cons_of_pos (by simp [hec, hn.1])]
          simp [hec, nodeAt_party hpc]
      | poly _ _ _ _ _ =>
          have := hidx (.aux c) (List.mem_append_left _ (by simp))
          simp [NodePtr.guid?] at this

theorem EdgeOf.isConstant_eq {o : ℕ} {inputs : List NodePtr} (hsh : exp.Shaped heap)
    (hedge : EdgeOf heap outs new s e exp o inputs) : exp.isConstant = false := by
  by_contra hc
  rw [Bool.not_eq_false] at hc
  have hop := (hsh.op_of_isConstant hc).1
  cases hedge.inputsOf with
  | simple h _ => simp [Expression.isSimple, hop] at h
  | eval h _ _ _ _ _ _ => simp [hop] at h

/-- An edge is local exactly when its expression is well placed. -/
theorem EdgeOf.isLocal_iff {team o : ℕ} {inputs : List NodePtr} (hs : heap.Sound)
    (hm : Remembers heap prev s.leave) (hedge : EdgeOf heap outs new s e exp o inputs)
    (htr : exp.op ≠ .transit) : (s.opAt team o).IsLocal ↔ exp.WellPlaced heap := by
  obtain ⟨-, hin, hout⟩ := hedge.opAt team
  have hmade := hs e exp hedge.exp_eq
  have hlocal : (s.opAt team o).IsLocal ↔ ∀ p ∈ inputs, (s.nodeAt p).party = exp.party := by
    rw [Operation.IsLocal, hin, hout]
    simp
  rw [hlocal]
  cases hedge.inputsOf with
  | simple hop hin =>
      rw [hm.forall_party_iff hin hedge.idx]
      cases hmade with
      | placeholder _ h _ => simp [Expression.isSimple, h] at hop
      | typeCast _ h _ _ => simp [Expression.WellPlaced, h]
      | @binary a b ea eb _ h hx ha hb hpa hpb =>
          have hplaced : exp.WellPlaced heap := by
            rcases h with h | h | h | h <;> simp [Expression.WellPlaced, h]
          refine iff_of_true (fun x hx' ex hex => ?_) hplaced
          rw [Heap.operands, List.mem_filter, hx, List.mem_cons, List.mem_singleton] at hx'
          rcases hx'.1 with rfl | rfl
          · rw [(Expression.Made.of_getElem?_take ha).1, Option.some.injEq] at hex
            rw [← hex, hpa]
          · rw [(Expression.Made.of_getElem?_take hb).1, Option.some.injEq] at hex
            rw [← hex, hpb]
      | scalarMul _ h hx hes hec hps hcc =>
          have hplaced : exp.WellPlaced heap := by simp [Expression.WellPlaced, h]
          refine iff_of_true (fun x hx' ex hex => ?_) hplaced
          rw [Heap.operands, List.mem_filter, hx, List.mem_cons, List.mem_singleton] at hx'
          rcases hx' with ⟨rfl | rfl, hnc⟩
          · rw [(Expression.Made.of_getElem?_take hes).1, Option.some.injEq] at hex
            rw [← hex, hps]
          · rw [(Expression.Made.of_getElem?_take hec).1] at hnc
            simp [hcc] at hnc
      | transit _ h _ _ _ => exact absurd h htr
      | reconstruct _ h _ => simp [Expression.WellPlaced, h]
      | poly _ h _ _ => simp [Expression.isSimple, h] at hop
      | eval _ h _ _ _ => simp [Expression.isSimple, h] at hop
  | @eval x q old hop hshare hx hq hp ht hold =>
      subst hold
      cases hmade with
      | placeholder _ h _ => simp [h] at hop
      | typeCast _ h _ _ => simp [h] at hop
      | binary _ h _ _ _ _ _ => rcases h with h | h | h | h <;> simp [h] at hop
      | scalarMul _ h _ _ _ _ _ => simp [h] at hop
      | transit _ h _ _ _ => simp [h] at hop
      | reconstruct _ h _ => simp [h] at hop
      | poly _ h _ _ => simp [h] at hop
      | @eval x' degree c ep hcls _ hx' hep hcls' =>
          rw [hx, List.singleton_inj] at hx'
          subst hx'
          rw [hm.forall_party_eval_iff (Expression.Made.of_getElem?_take hep).1 hcls' hq hp
            hedge.idx]
          simp [Expression.WellPlaced, hop, hx]

/-- A transfer makes an edge with one input. -/
theorem EdgeOf.transit_unary {o : ℕ} {inputs : List NodePtr} (hs : heap.Sound)
    (hedge : EdgeOf heap outs new s e exp o inputs) (htr : exp.op = .transit) :
    inputs.length = 1 := by
  cases hedge.inputsOf with
  | simple _ hin =>
      rw [← hin.length_eq]
      cases hs e exp hedge.exp_eq with
      | placeholder _ h _ => simp [h] at htr
      | typeCast _ h _ _ => simp [h] at htr
      | binary _ h _ _ _ _ _ => rcases h with h | h | h | h <;> simp [h] at htr
      | scalarMul _ h _ _ _ _ _ => simp [h] at htr
      | transit _ _ hx hx' hss =>
          have hc : Expression.isConstant _ = false := Expression.isConstant_of_isShare hss
          rw [Heap.operands, hx, List.filter_cons_of_pos
            (by simp [(Expression.Made.of_getElem?_take hx').1, hc])]
          rfl
      | reconstruct _ h _ => simp [h] at htr
      | poly _ h _ _ => simp [h] at htr
      | eval _ h _ _ _ => simp [h] at htr
  | eval hop _ _ _ _ _ _ => simp [hop] at htr

end Builder

/-! ## The graph of a build -/

/-- **Data changes hands only by TRANSIT**, for any program and any builds
before: every other edge is local if and only if every expression that the build
imports is well placed. -/
theorem isLocal_iff_wellPlaced {team : ℕ} {calls : List Call} {fe : Frontend}
    (hrun : Call.runAll calls .initial = .ok ((), fe)) {history : List (List ℕ)}
    {outputs : List ℕ} {gs : List GraphBase} {mem mem' : Memory} {g : GraphBase}
    (hb : builds team fe.heap .fresh history = some (gs, mem))
    (hg : build team fe.heap mem outputs = some (g, mem')) :
    g.LocalEdges ↔
      ∀ (e : ℕ) (exp : Expression), fe.heap[e]? = some exp → fe.heap.Reached outputs e →
        ¬ fe.heap.Reached history.flatten e → exp.WellPlaced fe.heap := by
  have hs := Call.sound_runAll hrun
  have hm := remembers_builds hs.acyclic Builder.remembers_fresh (hs.shaped _) hb
  rw [List.nil_append] at hm
  obtain ⟨s, new, rfl, -, hall⟩ := importedAll_of_build hs.acyclic hm.valid hg
  have hm' := hall.remembers (hs.shaped _) hm
  have hi : Builder.Inv fe.heap mem outputs.reverse [] new s := by simpa using hall.inv
  constructor
  · intro hlocal e exp he hre hnew
    have hsh := (hs e exp he).shaped
    by_cases htr : exp.op = .transit
    · simp [Expression.WellPlaced, htr]
    by_cases hc : exp.isConstant = true
    · simp [Expression.WellPlaced, (hsh.op_of_isConstant hc).1]
    by_cases hp : exp.isPoly = true
    · simp [Expression.WellPlaced, hsh.op_of_isPoly hp]
    have hn : exp.HasNode := ⟨by simpa using hc, by simpa using hp⟩
    obtain ⟨r, hr⟩ := hm'.known (hs.shaped _) (Heap.reached_append.2 (Or.inr hre)) he hn.1
    rcases hi.lookup_cases hr with hmem | hold
    · rcases hi.node_or_edge hsh hmem he hn with ⟨hop, -⟩ | ⟨-, o, inputs, hedge⟩
      · simp [Expression.WellPlaced, hop]
      · refine (hedge.isLocal_iff hs hm' htr).1 (hlocal _ (hedge.hasEdge team) ?_)
        rwa [(hedge.opAt team).1]
    · exact absurd (hm.reached e r hold) hnew
  · intro hplaced f hf htr
    obtain ⟨o, e, exp, inputs, rfl, hedge⟩ := hi.exists_of_listed (Or.inl ⟨_, hf⟩)
    rw [(hedge.opAt team).1] at htr
    have hkey : e ∈ new.map Prod.fst := List.mem_map_of_mem hedge.mem
    refine (hedge.isLocal_iff hs hm' htr).2 (hplaced e exp hedge.exp_eq (hall.reach _ hedge.mem)
      fun hprev => ?_)
    have hnc := hedge.isConstant_eq (hs e exp hedge.exp_eq).shaped
    obtain ⟨r, hr⟩ := hm.known (hs.shaped _) hprev hedge.exp_eq hnc
    rw [hi.lookup_mem_of_new hkey] at hr
    exact absurd hr (by simp)

/-- A share at one party, reconstructed by another. -/
def misplacedCalls : List Call :=
  [.genShare .arithField 1, .reconstruct [1] 2 ""]

theorem misplaced_runs : ∃ fe, Call.runAll misplacedCalls .initial = .ok ((), fe) ∧
    ((build 0 fe.heap .fresh [2]).any fun x => (x.1.inEdges 1).any fun f =>
      decide (f.output.guid = 1 ∧ f.type ≠ .transit ∧ ∃ n ∈ f.inputs, n.party ≠ f.output.party)) =
        true := by
  refine ⟨_, rfl, ?_⟩
  decide +kernel

/-- The reconstruction reads a share of party 1 and gives its result to party 2. -/
theorem reconstruct_not_local : ∃ fe g mem, Call.runAll misplacedCalls .initial = .ok ((), fe) ∧
    build 0 fe.heap .fresh [2] = some (g, mem) ∧
      ¬ g.LocalEdges := by
  obtain ⟨fe, hrun, hany⟩ := misplaced_runs
  rw [Option.any_eq_true] at hany
  obtain ⟨⟨g, mem⟩, hg, hany⟩ := hany
  rw [List.any_eq_true] at hany
  obtain ⟨f, hf, hbad⟩ := hany
  obtain ⟨hout, htr, n, hn, hne⟩ := of_decide_eq_true hbad
  refine ⟨fe, g, mem, hrun, hg, fun hlocal => hne (hlocal f ?_ htr n hn)⟩
  rw [GraphBase.HasEdge, hout]
  exact hf

theorem isLocal_iff_wellPlaced_misplaced : ∃ fe g mem,
    Call.runAll misplacedCalls .initial = .ok ((), fe) ∧
      build 0 fe.heap .fresh [2] = some (g, mem) ∧
        (g.LocalEdges ↔
          ∀ (e : ℕ) (exp : Expression), fe.heap[e]? = some exp → fe.heap.Reached [2] e →
            ¬ fe.heap.Reached [] e → exp.WellPlaced fe.heap) := by
  obtain ⟨fe, hrun, hany⟩ := misplaced_runs
  rw [Option.any_eq_true] at hany
  obtain ⟨⟨g, mem⟩, hg, -⟩ := hany
  exact ⟨fe, g, mem, hrun, hg,
    @isLocal_iff_wellPlaced 0 misplacedCalls fe hrun [] [2] [] .fresh mem g rfl hg⟩

end Gauv
