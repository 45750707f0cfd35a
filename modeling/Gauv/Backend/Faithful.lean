import Gauv.Backend.Build

/-!
# The builder is faithful

On a well-shaped heap a first build succeeds, and its graph is the expression
graph: a node for each reachable expression that is no constant and no
polynomial, a node for each coefficient of a reachable polynomial, and for each
operation one edge with the nodes of its operands in order.
-/

namespace Gauv

open Relation

/-! ## Well-shaped heaps -/

/-- The expression looks the way its constructor makes it. -/
inductive Expression.Shaped (heap : Heap) (e : Expression) : Prop
  | placeholder
      (hcls : e.cls = .constant ∨ e.cls = .secret ∨ e.cls = .randomness ∨ e.cls = .share)
      (hop : e.op = .input) (hx : e.oprands = [])
  | simple (hcls : e.cls = .share ∨ e.cls = .typeCast) (hop : e.isSimple = true)
      (hx : ∀ x ∈ e.oprands, ∃ ex, heap[x]? = some ex)
  | eval {x : ℕ} {ex : Expression} (hcls : e.cls = .share) (hop : e.op = .eval)
      (hx : e.oprands = [x]) (hex : heap[x]? = some ex) (hp : ex.isPoly = true)
  | poly {degree c : ℕ} {party : PartyDecl} {ec : Expression}
      (hcls : e.cls = .poly degree party c) (hop : e.op = .polilize) (hx : e.oprands = [c])
      (hec : heap[c]? = some ec)

/-- The expression is an output, or the outputs refer to it. -/
def Heap.Reached (heap : Heap) (outputs : List ℕ) (e : ℕ) : Prop :=
  ∃ out ∈ outputs, heap.Reach out e

/-- Every expression the outputs refer to is well shaped. -/
def Heap.Shaped (heap : Heap) (outputs : List ℕ) : Prop :=
  ∀ (e : ℕ) (exp : Expression), heap.Reached outputs e → heap[e]? = some exp → exp.Shaped heap

/-- A polynomial stands only where its shares are computed. -/
def Heap.PoliesEvaluated (heap : Heap) (outputs : List ℕ) : Prop :=
  ∀ (e : ℕ) (exp : Expression), heap.Reached outputs e → heap[e]? = some exp →
    exp.op ≠ .eval → ∀ x ∈ exp.refs, ∀ ex, heap[x]? = some ex → ex.isPoly = false

/-- The expression gets a node of its own: it is no constant and no polynomial. -/
def Expression.HasNode (e : Expression) : Prop := e.isConstant = false ∧ e.isPoly = false

theorem Expression.isConstant_of_isPoly (e : Expression) (h : e.isPoly = true) :
    e.isConstant = false := by
  rw [isPoly] at h
  rw [isConstant]
  split at h
  · rename_i hcls
    simp [hcls]
  · exact absurd h (by simp)

theorem Expression.isConstant_of_isShare {e : Expression} (h : e.isShare = true) :
    e.isConstant = false := by
  rw [isShare, decide_eq_true_eq] at h
  simp [isConstant, h]

/-- The front end knows no outputs: the builder marks them. -/
theorem Expression.genre_ne_output (e : Expression) : e.genre ≠ .output := by
  rw [genre]
  split <;> simp

/-- The outputs exist and are no constants: `build` asserts that each has a node. -/
def Heap.Outputs (heap : Heap) (outputs : List ℕ) : Prop :=
  ∀ out ∈ outputs, ∃ exp, heap[out]? = some exp ∧ exp.isConstant = false

theorem Heap.reached_self (heap : Heap) {outputs : List ℕ} {out : ℕ} (h : out ∈ outputs) :
    heap.Reached outputs out := ⟨out, h, .refl⟩

/-- What a reached expression refers to is reached. -/
theorem Heap.Reached.follow {heap : Heap} {outputs : List ℕ} {e x : ℕ} {exp : Expression}
    (h : heap.Reached outputs e) (he : heap[e]? = some exp) (hx : x ∈ exp.refs) :
    heap.Reached outputs x := by
  obtain ⟨out, hout, hr⟩ := h
  exact ⟨out, hout, hr.tail ⟨exp, he, hx⟩⟩

namespace Expression.Shaped

variable {heap : Heap} {exp : Expression}

/-- Inputs refer to nothing. -/
theorem refs_eq_nil (h : exp.Shaped heap) (hop : exp.op = .input) : exp.refs = [] := by
  cases h with
  | placeholder hcls _ hx =>
      rw [Expression.refs]
      rcases hcls with h | h | h | h <;> rw [h] <;> exact hx
  | simple _ hs _ => simp [Expression.isSimple, hop] at hs
  | eval _ hop' _ _ _ => simp [hop] at hop'
  | poly _ hop' _ _ => simp [hop] at hop'

/-- An expression without an operator and without a node is a Constant. -/
theorem isConstant_of_null (h : exp.Shaped heap)
    (hop : exp.op = .none ∨ exp.op = .input ∧ exp.isPlaceholder = false) :
    exp.isConstant = true := by
  cases h with
  | placeholder hcls hop' hx =>
      have hp : exp.isPlaceholder = false := (hop.resolve_left (by simp [hop'])).2
      rw [Expression.isPlaceholder, hop'] at hp
      rw [Expression.isConstant]
      rcases hcls with h | h | h | h <;> simp_all
  | simple _ hs _ =>
      rcases hop with h | ⟨h, -⟩ <;> simp [Expression.isSimple, h] at hs
  | eval _ hop' _ _ _ => simp [hop'] at hop
  | poly _ hop' _ _ => simp [hop'] at hop

theorem op_of_isConstant (h : exp.Shaped heap) (hc : exp.isConstant = true) :
    exp.op = .input ∧ exp.isPlaceholder = false := by
  have hcls : exp.cls = .constant := by simpa [Expression.isConstant] using hc
  cases h with
  | placeholder _ hop _ => exact ⟨hop, by simp [Expression.isPlaceholder, hcls]⟩
  | simple h _ _ => simp [hcls] at h
  | eval h _ _ _ _ => simp [hcls] at h
  | poly h _ _ _ => simp [hcls] at h

/-- What refers to something is no constant. -/
theorem isConstant_of_refs (h : exp.Shaped heap) {x : ℕ} (hx : x ∈ exp.refs) :
    exp.isConstant = false := by
  by_contra hc
  rw [Bool.not_eq_false] at hc
  rw [h.refs_eq_nil (h.op_of_isConstant hc).1] at hx
  exact List.not_mem_nil hx

/-- Only a Poly polilizes. -/
theorem op_of_isPoly (h : exp.Shaped heap) (hp : exp.isPoly = true) : exp.op = .polilize := by
  rw [Expression.isPoly] at hp
  cases h with
  | placeholder hcls _ _ => rcases hcls with h | h | h | h <;> simp [h] at hp
  | simple hcls _ _ => rcases hcls with h | h <;> simp [h] at hp
  | eval hcls _ _ _ _ => simp [hcls] at hp
  | poly _ hop _ _ => exact hop

theorem isPoly_of_op (h : exp.Shaped heap) (hop : exp.op = .polilize) : exp.isPoly = true := by
  cases h with
  | placeholder _ h _ => simp [h] at hop
  | simple _ h _ => simp [Expression.isSimple, hop] at h
  | eval _ h _ _ _ => simp [h] at hop
  | poly hcls _ _ _ => simp [Expression.isPoly, hcls]

end Expression.Shaped

/-! ## What the memo table holds on a well-shaped heap -/

namespace Builder

variable {heap : Heap} {outputs outs pend : List ℕ} {new : List (ℕ × Option NodePtr)}
  {s s' : Builder} {e : ℕ} {exp : Expression} {r : Option NodePtr}

section Entries

variable {i : ℕ} (hsh : exp.Shaped heap) (hent : Entry heap s outs i e exp r)

include hsh hent

theorem Entry.eq_none (hc : exp.isConstant = true) : r = none := by
  obtain ⟨hop, hp⟩ := hsh.op_of_isConstant hc
  cases hent with
  | null _ => rfl
  | input hin _ => simp [hp] at hin
  | simple hs _ _ _ _ _ => simp [Expression.isSimple, hop] at hs
  | eval hop' _ _ _ _ _ _ _ _ _ => simp [hop] at hop'
  | poly hop' _ _ _ _ => simp [hop] at hop'

theorem Entry.eq_node (hn : exp.HasNode) : r = some (.node s.current i) := by
  cases hent with
  | null hop => exact absurd (hsh.isConstant_of_null hop) (by simp [hn.1])
  | input _ _ => rfl
  | simple _ _ _ _ _ _ => rfl
  | eval _ _ _ _ _ _ _ _ _ _ => rfl
  | poly hop _ _ _ _ => exact absurd (hsh.isPoly_of_op hop) (by simp [hn.2])

theorem Entry.eq_aux (hp : exp.isPoly = true) :
    r = some (.aux e) ∧ ∃ degree party c rc, exp.cls = .poly degree party c ∧
      s.frontBackMap.lookup c = some rc ∧
      s.polyMap.lookup (.aux e) = some ⟨.polilize, rc.toList ++ (List.range degree).map
        (fun k => .node s.current (i + k)), some (.aux e)⟩ ∧
      ∀ k < degree, s.nodes[i + k]? = some ⟨i + k, coeffName exp.name k, party, .others⟩ := by
  have hop := hsh.op_of_isPoly hp
  cases hent with
  | null h => simp [hop] at h
  | input hin _ => simp [Expression.isPlaceholder, hop] at hin
  | simple hs _ _ _ _ _ => simp [Expression.isSimple, hop] at hs
  | eval hop' _ _ _ _ _ _ _ _ _ => simp [hop] at hop'
  | poly _ hcls hc hp' hn => exact ⟨rfl, _, _, _, _, hcls, hc, hp', fun k hk => (hn k hk).1⟩

/-- Imports are complete: what a known expression refers to is known, constants
aside. -/
theorem Entry.known_of_refs {x : ℕ} {ex : Expression} (hx : x ∈ exp.refs)
    (hex : heap[x]? = some ex) (hc : ex.isConstant = false) :
    ∃ r', s.frontBackMap.lookup x = some r' := by
  cases hent with
  | null hop =>
      have hcc := hsh.isConstant_of_null hop
      rw [hsh.refs_eq_nil (hsh.op_of_isConstant hcc).1] at hx
      exact absurd hx List.not_mem_nil
  | input hin _ =>
      rw [Expression.isPlaceholder, Bool.and_eq_true, decide_eq_true_eq] at hin
      rw [hsh.refs_eq_nil hin.1] at hx
      exact absurd hx List.not_mem_nil
  | simple hs _ _ hin _ _ =>
      have hxo : x ∈ heap.operands exp.oprands := by
        rw [Heap.operands, List.mem_filter, hex]
        refine ⟨?_, by simp [hc]⟩
        cases hsh with
        | placeholder _ h _ => simp [Expression.isSimple, h] at hs
        | simple hcls _ _ => rcases hcls with h | h <;> simpa [Expression.refs, h] using hx
        | eval _ h _ _ _ => simp [Expression.isSimple, h] at hs
        | poly _ h _ _ => simp [Expression.isSimple, h] at hs
      obtain ⟨p, -, hp⟩ := exists_of_mem_left hin hxo
      exact ⟨_, hp⟩
  | eval hop hs hxs _ hq _ _ _ _ _ =>
      have hcls : exp.cls = .share := by simpa [Expression.isShare] using hs
      rw [Expression.refs, hcls, hxs] at hx
      rw [List.mem_singleton.1 hx]
      exact ⟨_, hq⟩
  | poly hop hcls hc' _ _ =>
      cases hsh with
      | placeholder _ h _ => simp [h] at hop
      | simple _ h _ => simp [Expression.isSimple, hop] at h
      | eval _ h _ _ _ => simp [h] at hop
      | poly h _ hox _ =>
          rw [h, ExprClass.poly.injEq] at hcls
          obtain ⟨-, -, rfl⟩ := hcls
          rw [Expression.refs, h, hox] at hx
          simp only [List.mem_cons, List.not_mem_nil, or_false, or_self] at hx
          rw [hx]
          exact ⟨_, hc'⟩

end Entries

theorem Inv.entry_fresh (hi : Inv heap .fresh outs pend new s)
    (hr : s.frontBackMap.lookup e = some r) (he : heap[e]? = some exp) :
    Entry heap s outs (startOf heap new e) e exp r := by
  obtain ⟨exp', he', hent⟩ := hi.entry (hi.mem_new_fresh hr)
  rw [he] at he'
  cases he'
  exact hent

/-- The node of a new expression, and its edge unless it is an input. -/
theorem Inv.node_or_edge {mem : Memory} (hsh : exp.Shaped heap)
    (hi : Inv heap mem outs pend new s) (hmem : (e, r) ∈ new) (he : heap[e]? = some exp)
    (hn : exp.HasNode) :
    (exp.op = .input ∧ NodeFor s outs e exp (startOf heap new e) []) ∨
      (exp.op ≠ .input ∧ ∃ o inputs, EdgeOf heap outs new s e exp o inputs) := by
  obtain ⟨exp', he', hent⟩ := hi.entry hmem
  rw [he, Option.some.injEq] at he'
  subst he'
  cases hent with
  | null hop => exact absurd (hsh.isConstant_of_null hop) (by simp [hn.1])
  | input hin hnode =>
      rw [Expression.isPlaceholder, Bool.and_eq_true, decide_eq_true_eq] at hin
      exact Or.inl ⟨hin.1, hnode⟩
  | simple hs hnode ho hin hidx hlt =>
      refine Or.inr ⟨fun hop => ?_, _, _, hmem, he, hnode, ho, .simple hs hin, hidx, hlt⟩
      simp [Expression.isSimple, hop] at hs
  | eval hop hs hx hnode hq hp ht ho hidx hlt =>
      refine Or.inr ⟨by simp [hop], _, _, hmem, he, hnode, ?_, .eval hop hs hx hq hp ht rfl,
        hidx, hlt⟩
      rw [hop]
      exact ho
  | poly hop _ _ _ _ => exact absurd (hsh.isPoly_of_op hop) (by simp [hn.2])

/-! ## A first build succeeds -/

/-- The number of expressions an expression depends on. -/
noncomputable def depth (heap : Heap) (e : ℕ) : ℕ := by
  classical
  exact ((Finset.range heap.length).filter fun x => TransGen heap.Follows e x).card

/-- No path is longer than the heap. -/
theorem depth_le (heap : Heap) (e : ℕ) : depth heap e ≤ heap.length := by
  classical
  refine (Finset.card_filter_le _ _).trans ?_
  rw [Finset.card_range]

/-- Operands are less deep. -/
theorem depth_lt (hac : heap.Acyclic) {x : ℕ} (h : heap.Follows e x) (hx : x < heap.length) :
    depth heap x < depth heap e := by
  classical
  refine Finset.card_lt_card (Finset.ssubset_iff_subset_ne.2 ⟨fun y hy => ?_, fun heq => ?_⟩)
  · rw [Finset.mem_filter] at hy ⊢
    exact ⟨hy.1, .head h hy.2⟩
  · have hmem : x ∈ (Finset.range heap.length).filter fun y => TransGen heap.Follows x y := by
      rw [heq, Finset.mem_filter, Finset.mem_range]
      exact ⟨hx, .single h⟩
    exact hac x (Finset.mem_filter.1 hmem).2

/-- A pointer to a node of the current build can be linked. -/
theorem pushOut_total (s : Builder) {g : ℕ} (hg : g < s.outEdgesOf.length) (o : ℕ) :
    ∃ s', s.pushOut (.node s.current g) o = some s' :=
  ⟨_, pushOut_eq_some.2 ⟨g, rfl, hg, rfl⟩⟩

/-- Nodes of the graph can be given an out-edge. -/
theorem pushOuts_total (o : ℕ) {ps : List NodePtr}
    (h : ∀ p ∈ ps, ∃ b g, p = .node b g ∧ g < s.outEdgesOf.length) :
    ∃ s', pushOuts o ps s = some s' := by
  induction ps generalizing s with
  | nil => exact ⟨s, rfl⟩
  | cons p ps ih =>
      obtain ⟨b, g, rfl, hg⟩ := h p (List.mem_cons_self ..)
      have hs₁ := pushOut_eq_some (s := s) (o := o) (p := .node b g) |>.2 ⟨g, rfl, hg, rfl⟩
      obtain ⟨s', hs'⟩ := ih (s := { s with outEdgesOf := s.outEdgesOf.modify g (· ++ [o]) })
        fun p hp => by
          obtain ⟨b', g', rfl, hg'⟩ := h p (List.mem_cons_of_mem _ hp)
          exact ⟨b', g', rfl, by simpa using hg'⟩
      refine ⟨s', ?_⟩
      rw [pushOuts, hs₁]
      exact hs'

/-- An import that describes itself correctly and always returns on what the
outputs reach below `bound`. -/
structure Total (heap : Heap) (outputs outs : List ℕ) (imp : ℕ → Import) (bound : ℕ) :
    Prop where
  imports : Imports heap .fresh outs imp
  returns : ∀ {x : ℕ} {ex : Expression} {s : Builder} {pend : List ℕ}
    {new : List (ℕ × Option NodePtr)}, Inv heap .fresh outs pend new s →
    heap.Reached outputs x → heap[x]? = some ex → depth heap x < bound →
    ∃ res, imp x s = some res

/-- The operands are imported when each import is. -/
theorem importOprands_total (hsh : heap.Shaped outputs) {imp : ℕ → Import} {bound : ℕ}
    (himp : Total heap outputs outs imp bound) {o : ℕ} (ho : o ∈ pend) {t : Operator} {xs : List ℕ}
    {ins : List NodePtr} (hi : Inv heap .fresh outs pend new s)
    (hop : s.ops[o]? = some ⟨t, ins, none⟩)
    (hxs : ∀ x ∈ xs, heap.Reached outputs x ∧
      ∃ ex, heap[x]? = some ex ∧ ex.isPoly = false ∧ depth heap x < bound) :
    ∃ s', importOprands heap imp o xs s = some s' := by
  induction xs generalizing s new ins with
  | nil => exact ⟨s, rfl⟩
  | cons x xs ih =>
      obtain ⟨hre, ex, hex, hpoly, hd⟩ := hxs x (List.mem_cons_self ..)
      have hrest := fun y hy => hxs y (List.mem_cons_of_mem _ hy)
      rw [importOprands, hex]
      simp only [Option.bind_eq_bind, Option.bind_some]
      split
      · exact ih hi hop hrest
      · rename_i hc
        obtain ⟨⟨s₁, r⟩, h₁⟩ := himp.returns hi hre hex hd
        obtain ⟨added, hi₁, hg₁, hf₁, -⟩ := himp.imports hi h₁
        have hr := (hi₁.entry_fresh hf₁ hex).eq_node (hsh x ex hre hex) ⟨by simpa using hc, hpoly⟩
        subst hr
        have hlt : startOf heap (added ++ new) x < s₁.outEdgesOf.length := by
          rw [hi₁.outLength]
          exact hi₁.ptr_lt x _ hf₁
        obtain ⟨s₂, h₂⟩ := pushOut_total
          (s₁.addInput o (.node s₁.current (startOf heap (added ++ new) x))) hlt o
        have hop₁ := (hg₁.ops o (lt_of_getElem?_some hop)).trans hop
        obtain ⟨hi₂, -, hop₂, -, -⟩ := hi₁.link ho hop₁ h₂
        obtain ⟨s', hs'⟩ := ih hi₂ hop₂ hrest
        refine ⟨s', ?_⟩
        rw [h₁]
        simp only [Option.bind_some]
        have h₂' : (s₁.addInput o (.node s₁.current (startOf heap (added ++ new) x))).pushOut
            (.node s₁.current (startOf heap (added ++ new) x)) o = some s₂ := h₂
        rw [h₂']
        exact hs'

/-- One import succeeds when those of less deep expressions do. -/
theorem importCases_total (hac : heap.Acyclic) (hsh : heap.Shaped outputs)
    (hpe : heap.PoliesEvaluated outputs) {imp : ℕ → Import}
    {bound : ℕ} (himp : Total heap outputs outs imp bound)
    (hi : Inv heap .fresh outs pend new s) (hre : heap.Reached outputs e)
    (he : heap[e]? = some exp) (hd : depth heap e ≤ bound) :
    ∃ res, importCases heap imp e exp s = some res := by
  have hbelow : ∀ {x : ℕ} {ex : Expression}, x ∈ exp.refs → heap[x]? = some ex →
      depth heap x < bound := fun hx hex =>
    (depth_lt hac ⟨exp, he, hx⟩ (lt_of_getElem?_some hex)).trans_le hd
  cases hsh e exp hre he with
  | placeholder hcls hop hx =>
      rw [importCases, hop]
      rcases hcls with h | h | h | h <;> rw [h] <;> exact ⟨_, rfl⟩
  | simple hcls hs hx =>
      have hrefs : exp.refs = exp.oprands := by
        rw [Expression.refs]
        rcases hcls with h | h <;> rw [h]
      rw [importCases_simple hs]
      obtain ⟨s', hs'⟩ := importOprands_total hsh himp (List.mem_cons_self ..)
        (hi.newOp exp.op) List.getElem?_concat_length fun x hxm => by
          obtain ⟨ex, hex⟩ := hx x hxm
          have hp := hpe e exp hre he (fun h => by simp [Expression.isSimple, h] at hs) x
            (hrefs ▸ hxm) ex hex
          exact ⟨hre.follow he (hrefs ▸ hxm), ex, hex, hp, hbelow (hrefs ▸ hxm) hex⟩
      simp only [Option.bind_eq_bind, Option.pure_def, newOp_snd]
      rw [hs']
      exact ⟨_, rfl⟩
  | @eval x ex hcls hop hx hex hp =>
      have hxr : x ∈ exp.refs := by
        rw [Expression.refs, hcls, hx]
        exact List.mem_singleton_self x
      have hrx := hre.follow he hxr
      have hex' := hsh x ex hrx hex
      obtain ⟨⟨s₁, r⟩, h₁⟩ := himp.returns hi hrx hex (hbelow hxr hex)
      obtain ⟨added, hi₁, -, hf₁, -⟩ := himp.imports hi h₁
      obtain ⟨rfl, degree, party, c, rc, hcls', hc, hpm, -⟩ :=
        (hi₁.entry_fresh hf₁ hex).eq_aux hex' hp
      have hshare : exp.isShare = true := by simp [Expression.isShare, hcls]
      -- the inputs of the side entry are nodes of this build
      have hins : ∀ p ∈ rc.toList ++ (List.range degree).map (fun k =>
          NodePtr.node s₁.current (startOf heap (added ++ new) x + k)),
          ∃ b g, p = .node b g ∧ g < (s₁.outEdgesOf ++ [[]]).length := by
        intro p hpm'
        have hlen : (s₁.outEdgesOf ++ [[]]).length = s₁.nodes.length + 1 := by
          rw [List.length_append, hi₁.outLength]
          rfl
        rw [hlen]
        cases hex' with
        | placeholder h _ _ => rcases h with h | h | h | h <;> simp [h] at hcls'
        | simple h _ _ => rcases h with h | h <;> simp [h] at hcls'
        | eval h _ _ _ _ => simp [h] at hcls'
        | @poly _ c' _ ec h hop' _ hec =>
            have hcr : c' ∈ ex.refs := by simp [Expression.refs, h]
            have hrc : heap.Reached outputs c' := hrx.follow hex hcr
            have hpc := hpe x ex hrx hex (by simp [hop']) c' hcr ec hec
            rw [h, ExprClass.poly.injEq] at hcls'
            obtain ⟨-, -, rfl⟩ := hcls'
            cases p with
            | node b g =>
                refine ⟨b, g, rfl, ?_⟩
                have hb := hi₁.poly_fresh hpm hpm'
                subst hb
                exact (hi₁.poly_lt _ _ g hpm hpm').trans (Nat.lt_succ_self _)
            | aux q =>
                rcases List.mem_append.1 hpm' with hq | hq
                · rw [Option.mem_toList] at hq
                  subst hq
                  by_cases hcc : ec.isConstant = true
                  · exact absurd ((hi₁.entry_fresh hc hec).eq_none (hsh c' ec hrc hec) hcc)
                      (by simp)
                  · exact absurd ((hi₁.entry_fresh hc hec).eq_node (hsh c' ec hrc hec)
                        ⟨by simpa using hcc, hpc⟩) (by simp)
                · obtain ⟨k, -, hk⟩ := List.mem_map.1 hq
                  exact absurd hk (by simp)
      rw [importCases, hop, hx]
      simp only [hshare, if_true]
      rw [h₁]
      simp only [Option.bind_eq_bind, Option.bind_some, Option.pure_def]
      rw [hpm]
      simp only [Option.bind_some, if_true]
      simp only [newOp_snd, newNode_snd, newOp_nodes, newOp_current]
      obtain ⟨s', hs'⟩ := pushOuts_total (s := ((((s₁.newOp ⟨.eval, rc.toList ++
        (List.range degree).map (fun k => NodePtr.node s₁.current
          (startOf heap (added ++ new) x + k)), some (.aux x)⟩).1.newNode exp.name exp.party
            .others).1.setOutput s₁.ops.length (.node s₁.current s₁.nodes.length)).pushIn
              s₁.nodes.length s₁.ops.length)) s₁.ops.length hins
      rw [hs']
      exact ⟨_, rfl⟩
  | @poly degree c party ec hcls hop hx hec =>
      have hcr : c ∈ exp.refs := by
        rw [Expression.refs, hcls]
        exact List.mem_cons_self ..
      obtain ⟨⟨s₁, r⟩, h₁⟩ := himp.returns hi (hre.follow he hcr) hec (hbelow hcr hec)
      rw [importCases, hop, hcls]
      simp only [Option.bind_eq_bind, Option.pure_def]
      rw [h₁]
      exact ⟨_, rfl⟩

/-- **Every import of the first build succeeds.** -/
theorem total_importFrontend (hac : heap.Acyclic) (hsh : heap.Shaped outputs)
    (hpe : heap.PoliesEvaluated outputs) (fuel : ℕ) :
    Total heap outputs outs (importFrontend heap fuel) fuel := by
  refine ⟨imports_importFrontend hac fuel, ?_⟩
  induction fuel with
  | zero => exact fun _ _ _ hd => absurd hd (Nat.not_lt_zero _)
  | succ fuel ih =>
      intro x ex s pend new hi hre hex hd
      rw [importFrontend]
      simp only
      split
      · exact ⟨_, rfl⟩
      · obtain ⟨⟨s₁, r⟩, h₁⟩ := importCases_total hac hsh hpe
          ⟨imports_importFrontend hac fuel, ih⟩ hi hre hex (Nat.lt_succ_iff.1 hd)
        rw [hex]
        simp only [Option.bind_eq_bind, Option.bind_some, Option.pure_def]
        rw [h₁]
        exact ⟨_, rfl⟩

/-- So do those of all outputs. -/
theorem importOutputs_total (hac : heap.Acyclic) (hsh : heap.Shaped outputs)
    (hpe : heap.PoliesEvaluated outputs)
    (hout : heap.Outputs outputs) {todo : List ℕ} (htodo : todo ⊆ outputs)
    (hi : Inv heap .fresh outs [] new s) : ∃ s', importOutputs heap todo s = some s' := by
  induction todo generalizing s outs new with
  | nil => exact ⟨s, rfl⟩
  | cons out todo ih =>
      have hmem := htodo (List.mem_cons_self ..)
      obtain ⟨exp, he, hc⟩ := hout out hmem
      have hre := heap.reached_self hmem
      obtain ⟨⟨s₁, r⟩, h₁⟩ := (total_importFrontend hac hsh hpe (heap.length + 1)).returns hi hre
        he (Nat.lt_succ_of_le (depth_le heap out))
      obtain ⟨added, hi₁, -, hf₁, -⟩ := imports_importFrontend hac _ hi h₁
      obtain ⟨p, rfl⟩ : ∃ p, r = some p := by
        by_cases hp : exp.isPoly = true
        · exact ⟨_, ((hi₁.entry_fresh hf₁ he).eq_aux (hsh out exp hre he) hp).1⟩
        · exact ⟨_, (hi₁.entry_fresh hf₁ he).eq_node (hsh out exp hre he) ⟨hc, by simpa using hp⟩⟩
      obtain ⟨s', hs'⟩ := ih (fun o ho => htodo (List.mem_cons_of_mem _ ho))
        (hi₁.mark memoryValid_fresh hf₁)
      refine ⟨s', ?_⟩
      rw [importOutputs, h₁]
      exact hs'

end Builder

/-- **The first build succeeds.** -/
theorem build_total (team : ℕ) {heap : Heap} {outputs : List ℕ} (hac : heap.Acyclic)
    (hsh : heap.Shaped outputs) (hpe : heap.PoliesEvaluated outputs)
    (hout : heap.Outputs outputs) :
    ∃ g mem, build team heap .fresh outputs = some (g, mem) := by
  obtain ⟨s, hs⟩ := Builder.importOutputs_total hac hsh hpe hout (List.Subset.refl _)
    (Builder.inv_start Builder.memoryValid_fresh)
  rw [build, hs]
  exact ⟨_, _, rfl⟩

/-! ## The graph of the expressions -/

namespace Heap

open Classical in
/-- The reachable expressions that get a node. -/
noncomputable def exprsOf (heap : Heap) (outputs : List ℕ) : Finset ℕ :=
  (Finset.range heap.length).filter fun e =>
    heap.Reached outputs e ∧ ∃ exp, heap[e]? = some exp ∧ exp.HasNode

open Classical in
/-- The reachable polynomials. -/
noncomputable def poliesOf (heap : Heap) (outputs : List ℕ) : Finset ℕ :=
  (Finset.range heap.length).filter fun p =>
    heap.Reached outputs p ∧ ∃ exp, heap[p]? = some exp ∧ exp.isPoly = true

/-- The degree of the polynomial at an address. -/
def degree (heap : Heap) (p : ℕ) : ℕ :=
  match (heap[p]?).map Expression.cls with
  | some (.poly degree _ _) => degree
  | _ => 0

/-- The constant term of the polynomial at an address. -/
def constTerm (heap : Heap) (p : ℕ) : List ℕ :=
  match (heap[p]?).map Expression.cls with
  | some (.poly _ _ c) => [c]
  | _ => []

/-- The nodes that the edge of an expression reads, in order: those of the
operands, or for an evaluation those of the polynomial. -/
def sources (heap : Heap) (nodeOf : ℕ → ℕ) (coeffOf : ℕ → ℕ → ℕ) (exp : Expression) : List ℕ :=
  if exp.op = .eval then
    exp.oprands.flatMap fun p =>
      (heap.operands (heap.constTerm p)).map nodeOf ++
        (List.range (heap.degree p)).map (coeffOf p)
  else (heap.operands exp.oprands).map nodeOf

variable {heap : Heap} {outputs : List ℕ}

/-- The expressions that have nodes are the reached ones of a kind that has. -/
theorem mem_exprsOf {e : ℕ} : e ∈ heap.exprsOf outputs ↔
    heap.Reached outputs e ∧ ∃ exp, heap[e]? = some exp ∧ exp.HasNode := by
  simp only [exprsOf, Finset.mem_filter, Finset.mem_range, and_iff_right_iff_imp]
  rintro ⟨-, exp, he, -⟩
  exact lt_of_getElem?_some he

/-- The polynomials that have coefficients are the reached ones. -/
theorem mem_poliesOf {p : ℕ} : p ∈ heap.poliesOf outputs ↔
    heap.Reached outputs p ∧ ∃ exp, heap[p]? = some exp ∧ exp.isPoly = true := by
  simp only [poliesOf, Finset.mem_filter, Finset.mem_range, and_iff_right_iff_imp]
  rintro ⟨-, exp, hp, -⟩
  exact lt_of_getElem?_some hp

theorem disjoint_exprsOf_poliesOf (heap : Heap) :
    Disjoint (heap.exprsOf outputs) (heap.poliesOf outputs) := by
  refine Finset.disjoint_left.2 fun e he hp => ?_
  obtain ⟨-, exp, hexp, hn⟩ := mem_exprsOf.1 he
  obtain ⟨-, exp', hexp', hp⟩ := mem_poliesOf.1 hp
  rw [hexp, Option.some.injEq] at hexp'
  rw [← hexp', hn.2] at hp
  exact absurd hp (by simp)

end Heap

/-- The graph is that of the expressions the outputs reach: `nodeOf` gives the
node of an expression, `coeffOf` those of the coefficients of a polynomial. -/
structure Faithful (heap : Heap) (outputs : List ℕ) (g : GraphBase) (nodeOf : ℕ → ℕ)
    (coeffOf : ℕ → ℕ → ℕ) : Prop where
  size : g.nodeSize =
    (heap.exprsOf outputs).card + ∑ p ∈ heap.poliesOf outputs, heap.degree p
  /-- Every node is there, with its index as guid. -/
  guid_eq : ∀ i < g.nodeSize, ∃ n, g.node? i = some n ∧ n.guid = i
  node : ∀ e ∈ heap.exprsOf outputs, ∀ exp, heap[e]? = some exp → ∃ n,
    g.node? (nodeOf e) = some n ∧ n.name = exp.name ∧ n.party = exp.party
  coeff : ∀ p ∈ heap.poliesOf outputs, ∀ k < heap.degree p, ∃ n,
    g.node? (coeffOf p k) = some n ∧ g.inEdges (coeffOf p k) = []
  node_injOn : Set.InjOn nodeOf (heap.exprsOf outputs)
  coeff_inj : ∀ p ∈ heap.poliesOf outputs, ∀ k < heap.degree p,
    ∀ p' ∈ heap.poliesOf outputs, ∀ k' < heap.degree p',
      coeffOf p k = coeffOf p' k' → p = p' ∧ k = k'
  node_ne_coeff : ∀ e ∈ heap.exprsOf outputs, ∀ p ∈ heap.poliesOf outputs,
    ∀ k < heap.degree p, nodeOf e ≠ coeffOf p k
  /-- No other nodes. -/
  cover : ∀ i < g.nodeSize, (∃ e ∈ heap.exprsOf outputs, nodeOf e = i) ∨
    ∃ p ∈ heap.poliesOf outputs, ∃ k < heap.degree p, coeffOf p k = i
  input : ∀ e ∈ heap.exprsOf outputs, ∀ exp, heap[e]? = some exp → exp.op = .input →
    g.inEdges (nodeOf e) = []
  edge : ∀ e ∈ heap.exprsOf outputs, ∀ exp, heap[e]? = some exp → exp.op ≠ .input →
    ∃ f, g.inEdges (nodeOf e) = [f] ∧ f.type = exp.op ∧ f.output.guid = nodeOf e ∧
      f.inputs.map Node.guid = heap.sources nodeOf coeffOf exp
  out_count : ∀ u f, (g.outEdges u).count f = if g.HasEdge f then f.inputCount u else 0
  order : ∀ f, g.HasEdge f → ∀ n ∈ f.inputs, n.guid < f.output.guid
  output_iff : ∀ i n, g.node? i = some n →
    (n.type = .output ↔ ∃ e ∈ outputs, e ∈ heap.exprsOf outputs ∧ nodeOf e = i)

/-! ## A first build is faithful -/

/-- Degree and constant term of a Poly. -/
theorem Heap.degree_eq {heap : Heap} {e d c : ℕ} {party : PartyDecl} {exp : Expression}
    (he : heap[e]? = some exp) (hcls : exp.cls = .poly d party c) :
    heap.degree e = d ∧ heap.constTerm e = [c] := by
  rw [degree, constTerm, he, Option.map_some, hcls]
  exact ⟨rfl, rfl⟩

/-- The number of nodes an expression owns, by its kind. -/
theorem Expression.Shaped.weightAt_eq {heap : Heap} {e : ℕ} {exp : Expression}
    (h : exp.Shaped heap) (he : heap[e]? = some exp) :
    Builder.weightAt heap e =
      if exp.isPoly then heap.degree e else if exp.isConstant then 0 else 1 := by
  rw [Builder.weightAt, he, Option.elim_some]
  cases h with
  | placeholder hcls hop _ =>
      rw [Expression.weight, hop, Expression.isPoly, Expression.isConstant]
      rcases hcls with h | h | h | h <;> simp [h]
  | simple hcls hs _ =>
      rw [Builder.weight_simple hs, Expression.isPoly, Expression.isConstant]
      rcases hcls with h | h <;> simp [h]
  | eval hcls hop _ _ _ =>
      rw [Builder.weight_eval hop, Expression.isPoly, Expression.isConstant]
      simp [hcls]
  | poly hcls hop _ _ =>
      rw [Expression.weight, hop, (Heap.degree_eq he hcls).1, Expression.isPoly, hcls]
      simp

namespace Builder

variable {heap : Heap} {outputs : List ℕ} {new : List (ℕ × Option NodePtr)} {s : Builder}
  {e x : ℕ} {exp ex : Expression}

section Final

variable (hsh : heap.Shaped outputs) (hpe : heap.PoliesEvaluated outputs)
  (hall : ImportedAll heap .fresh [] [] (.start .fresh) s outputs new)

include hall

theorem ImportedAll.inv_fresh : Inv heap .fresh outputs.reverse [] new s := by
  simpa using hall.inv

/-- What the memo table knows was reached. -/
theorem ImportedAll.reached (he : e ∈ new.map Prod.fst) : heap.Reached outputs e := by
  obtain ⟨y, hy, rfl⟩ := List.mem_map.1 he
  exact hall.reach y hy

include hsh

/-- What was reached is known, constants aside. -/
theorem ImportedAll.known (hre : heap.Reached outputs e) (he : heap[e]? = some exp)
    (hc : exp.isConstant = false) : e ∈ new.map Prod.fst := by
  obtain ⟨out, ho, hr⟩ := hre
  induction hr generalizing exp with
  | refl =>
      obtain ⟨p, hp⟩ := hall.found out ho
      exact List.mem_map_of_mem (hall.inv_fresh.mem_new_fresh hp)
  | @tail y z hr hstep ih =>
      obtain ⟨ey, hey, hz⟩ := hstep
      have hshy := hsh y ey ⟨out, ho, hr⟩ hey
      have hcy := hshy.isConstant_of_refs hz
      obtain ⟨⟨y, ry⟩, hy, rfl⟩ := List.mem_map.1 (ih hey hcy)
      have hent := hall.inv_fresh.entry_fresh (hall.inv_fresh.lookup_new hy) hey
      obtain ⟨r', hr'⟩ := hent.known_of_refs hshy hz he hc
      exact List.mem_map_of_mem (hall.inv_fresh.mem_new_fresh hr')

/-- What is reached and no Constant has been imported. -/
theorem ImportedAll.lookup_known (hre : heap.Reached outputs e) (he : heap[e]? = some exp)
    (hc : exp.isConstant = false) : ∃ r, s.frontBackMap.lookup e = some r := by
  obtain ⟨⟨e, r⟩, hr, rfl⟩ := List.mem_map.1 (hall.known hsh hre he hc)
  exact ⟨r, hall.inv_fresh.lookup_new hr⟩

/-- An input got its node, any other expression its node and its edge. -/
theorem ImportedAll.node_or_edge (hre : heap.Reached outputs e) (he : heap[e]? = some exp)
    (hn : exp.HasNode) :
    (exp.op = .input ∧ NodeFor s outputs.reverse e exp (startOf heap new e) []) ∨
      (exp.op ≠ .input ∧ ∃ o inputs, EdgeOf heap outputs.reverse new s e exp o inputs) := by
  obtain ⟨r, hr⟩ := hall.lookup_known hsh hre he hn.1
  exact hall.inv_fresh.node_or_edge (hsh e exp hre he) (hall.inv_fresh.mem_new_fresh hr) he hn

theorem ImportedAll.nodeFor (hre : heap.Reached outputs e) (he : heap[e]? = some exp)
    (hn : exp.HasNode) : ∃ l, NodeFor s outputs.reverse e exp (startOf heap new e) l := by
  rcases hall.node_or_edge hsh hre he hn with ⟨-, h⟩ | ⟨-, o, inputs, h⟩
  · exact ⟨_, h⟩
  · exact ⟨_, h.nodeFor⟩

/-- The nodes of the coefficients of a polynomial. -/
theorem ImportedAll.coeff (hre : heap.Reached outputs e) (he : heap[e]? = some exp)
    (hp : exp.isPoly = true) {k : ℕ} (hk : k < heap.degree e) : ∃ party,
    s.nodes[startOf heap new e + k]? =
        some ⟨startOf heap new e + k, coeffName exp.name k, party, .others⟩ ∧
      s.inEdgesOf[startOf heap new e + k]? = some [] := by
  have hshe := hsh e exp hre he
  have hop := hshe.op_of_isPoly hp
  obtain ⟨r, hr⟩ := hall.lookup_known hsh hre he (exp.isConstant_of_isPoly hp)
  have hent := hall.inv_fresh.entry_fresh hr he
  cases hent with
  | null h => simp [hop] at h
  | input hin _ => simp [Expression.isPlaceholder, hop] at hin
  | simple hs _ _ _ _ _ => simp [Expression.isSimple, hop] at hs
  | eval hop' _ _ _ _ _ _ _ _ _ => simp [hop] at hop'
  | poly _ hcls _ _ hn =>
      rw [(Heap.degree_eq he hcls).1] at hk
      exact ⟨_, hn k hk⟩

/-- An expression takes one number. -/
theorem ImportedAll.block_of_expr (he : e ∈ heap.exprsOf outputs) :
    e ∈ new.map Prod.fst ∧ weightAt heap e = 1 := by
  obtain ⟨hre, exp, hexp, hn⟩ := Heap.mem_exprsOf.1 he
  rw [(hsh e exp hre hexp).weightAt_eq hexp]
  exact ⟨hall.known hsh hre hexp hn.1, by simp [hn.1, hn.2]⟩

/-- A polynomial takes as many as it has coefficients. -/
theorem ImportedAll.block_of_poly (hp : e ∈ heap.poliesOf outputs) :
    e ∈ new.map Prod.fst ∧ weightAt heap e = heap.degree e := by
  obtain ⟨hre, exp, hexp, hp⟩ := Heap.mem_poliesOf.1 hp
  rw [(hsh e exp hre hexp).weightAt_eq hexp]
  exact ⟨hall.known hsh hre hexp (exp.isConstant_of_isPoly hp), by simp [hp]⟩

/-- Different expressions got different nodes. -/
theorem ImportedAll.injOn : Set.InjOn (startOf heap new) (heap.exprsOf outputs) := by
  intro e he e' he' heq
  by_contra hne
  obtain ⟨hk, hw⟩ := hall.block_of_expr hsh he
  obtain ⟨hk', hw'⟩ := hall.block_of_expr hsh he'
  have := startOf_disjoint heap hne hk hk'
  omega

/-- No expression got the node of a coefficient. -/
theorem ImportedAll.node_ne_coeff (he : e ∈ heap.exprsOf outputs)
    (hp : x ∈ heap.poliesOf outputs) {k : ℕ} (hk : k < heap.degree x) :
    startOf heap new e ≠ startOf heap new x + k := by
  intro heq
  obtain ⟨hkey, hw⟩ := hall.block_of_expr hsh he
  obtain ⟨hkey', hw'⟩ := hall.block_of_poly hsh hp
  have hne : e ≠ x := by
    rintro rfl
    exact Finset.disjoint_left.1 heap.disjoint_exprsOf_poliesOf he hp
  have := startOf_disjoint heap hne hkey hkey'
  omega

/-- **The graph has as many nodes as expressions and coefficients.** -/
theorem ImportedAll.size : s.nodes.length =
    (heap.exprsOf outputs).card + ∑ p ∈ heap.poliesOf outputs, heap.degree p := by
  classical
  have hsum : total heap new = ∑ e ∈ (new.map Prod.fst).toFinset, weightAt heap e := by
    rw [List.sum_toFinset _ hall.inv_fresh.keys_new, List.map_map]
    rfl
  rw [hall.inv_fresh.length, hsum, ← Finset.sum_subset
    (Finset.union_subset
      (fun e he => List.mem_toFinset.2 (hall.block_of_expr hsh he).1)
      fun e he => List.mem_toFinset.2 (hall.block_of_poly hsh he).1),
    Finset.sum_union heap.disjoint_exprsOf_poliesOf, Finset.card_eq_sum_ones]
  · exact congrArg₂ _ (Finset.sum_congr rfl fun e he => (hall.block_of_expr hsh he).2)
      (Finset.sum_congr rfl fun e he => (hall.block_of_poly hsh he).2)
  · -- what is known beyond these are constants
    intro e he hnot
    rw [List.mem_toFinset] at he
    rw [Finset.mem_union, not_or, Heap.mem_exprsOf, Heap.mem_poliesOf] at hnot
    have hre := hall.reached he
    obtain ⟨⟨e, r⟩, hr, rfl⟩ := List.mem_map.1 he
    obtain ⟨exp, hexp, -⟩ := hall.inv_fresh.entry hr
    have hp : exp.isPoly = false := by
      by_contra hcon
      exact hnot.2 ⟨hre, exp, hexp, by simpa using hcon⟩
    have hc : exp.isConstant = true := by
      by_contra hcon
      exact hnot.1 ⟨hre, exp, hexp, by simpa using hcon, hp⟩
    rw [(hsh _ exp hre hexp).weightAt_eq hexp]
    simp [hp, hc]

/-- Every node is that of an expression or of a coefficient. -/
theorem ImportedAll.exists_poly_block {i : ℕ} (hi : i < s.nodes.length) :
    (∃ e ∈ heap.exprsOf outputs, startOf heap new e = i) ∨
      ∃ p ∈ heap.poliesOf outputs, ∃ k < heap.degree p, startOf heap new p + k = i := by
  rw [hall.inv_fresh.length] at hi
  obtain ⟨e, he, hle, hlt⟩ := exists_block hall.inv_fresh.keys_new hi
  have hre := hall.reached he
  obtain ⟨⟨e, r⟩, hr, rfl⟩ := List.mem_map.1 he
  obtain ⟨exp, hexp, -⟩ := hall.inv_fresh.entry hr
  rw [(hsh _ exp hre hexp).weightAt_eq hexp] at hlt
  simp only at hle hlt
  by_cases hp : exp.isPoly = true
  · rw [if_pos hp] at hlt
    exact Or.inr ⟨e, Heap.mem_poliesOf.2 ⟨hre, exp, hexp, hp⟩, i - startOf heap new e,
      by omega, by omega⟩
  · rw [if_neg hp] at hlt
    split at hlt
    · omega
    · rename_i hc
      exact Or.inl ⟨e, Heap.mem_exprsOf.2 ⟨hre, exp, hexp, by simpa using hc, by simpa using hp⟩,
        by omega⟩

include hpe

/-- The guids of the inputs of an edge. -/
theorem ImportedAll.inputs_eq {o : ℕ} {inputs : List NodePtr}
    (hre : heap.Reached outputs e) (hedge : EdgeOf heap outputs.reverse new s e exp o inputs) :
    (inputs.map s.nodeAt).map Node.guid =
      heap.sources (startOf heap new) (fun p k => startOf heap new p + k) exp := by
  have hi := hall.inv_fresh
  have hguid : ∀ {g : ℕ}, .node s.current g ∈ inputs → (s.nodeAt (.node s.current g)).guid = g := by
    intro g hg
    have hlt := (hedge.lt g hg).trans (lt_of_getElem?_some hedge.nodeFor.node)
    have hn := List.getElem?_eq_getElem hlt
    rw [nodeAt_current hn, hi.guid_eq hn]
  -- an input is the node of what the memo table holds it for
  have hnode : ∀ x, ∀ p ∈ inputs, s.frontBackMap.lookup x = some (some p) →
      (s.nodeAt p).guid = startOf heap new x := by
    intro x p hp hx
    obtain ⟨g, rfl, -⟩ := hedge.inputs_fresh hi hp
    rw [hguid hp, (hi.ptr_fresh hx).2]
  have hshe := hsh e exp hre hedge.exp_eq
  rw [List.map_map]
  cases hedge.inputsOf with
  | simple hs hin =>
      rw [Heap.sources, if_neg fun hop => by simp [Expression.isSimple, hop] at hs]
      exact map_eq_map_of_forall₂ hin hnode
  | @eval x q old hop hs hx hq hp ht hold =>
      cases hshe with
      | placeholder _ h _ => simp [h] at hop
      | simple _ h _ => simp [Expression.isSimple, hop] at h
      | poly _ h _ _ => simp [h] at hop
      | @eval x' ex hcls _ hx' hex hpoly =>
          rw [hx', List.singleton_inj] at hx
          subst hx
          have hxr : heap.Reached outputs x' :=
            hre.follow hedge.exp_eq (by simp [Expression.refs, hcls, hx'])
          obtain ⟨hqx, degree, party, c, rc, hcls', hc, hpm, -⟩ :=
            (hi.entry_fresh hq hex).eq_aux (hsh x' ex hxr hex) hpoly
          cases hqx
          rw [hp, Option.some.injEq] at hpm
          rw [hpm] at hold
          subst hold
          rw [Heap.sources, if_pos hop, hx', List.flatMap_singleton, List.map_append,
            (Heap.degree_eq hex hcls').1, (Heap.degree_eq hex hcls').2, List.map_map]
          congr 1
          · -- the constant term has a node unless it is a constant
            cases hsh x' ex hxr hex with
            | placeholder h _ _ => rcases h with h | h | h | h <;> simp [h] at hcls'
            | simple h _ _ => rcases h with h | h <;> simp [h] at hcls'
            | eval h _ _ _ _ => simp [h] at hcls'
            | @poly _ c' _ ec h hop' _ hec =>
                have hcm : c' ∈ ex.refs := by simp [Expression.refs, h]
                have hcr : heap.Reached outputs c' := hxr.follow hex hcm
                have hpc := hpe x' ex hxr hex (by simp [hop']) c' hcm ec hec
                rw [h, ExprClass.poly.injEq] at hcls'
                obtain ⟨-, -, rfl⟩ := hcls'
                by_cases hcc : ec.isConstant = true
                · rw [(hi.entry_fresh hc hec).eq_none (hsh c' ec hcr hec) hcc, Heap.operands,
                    List.filter_cons_of_neg (by simp [hec, hcc])]
                  rfl
                · have hr := (hi.entry_fresh hc hec).eq_node (hsh c' ec hcr hec)
                    ⟨by simpa using hcc, hpc⟩
                  subst hr
                  rw [Heap.operands, List.filter_cons_of_pos (by simpa [hec] using hcc)]
                  exact congrArg (fun g => [g])
                    (hguid (List.mem_append_left _ (List.mem_singleton_self _)))
          · refine List.map_congr_left fun k hk => hguid ?_
            exact List.mem_append_right _ (List.mem_map_of_mem hk)

/-- The graph read off is that of the expressions. -/
theorem ImportedAll.faithful (team : ℕ) :
    Faithful heap outputs (s.toGraphBase team) (startOf heap new)
      (fun p k => startOf heap new p + k) where
  size := by
    rw [GraphBase.nodeSize, toGraphBase, List.length_map]
    exact hall.size hsh
  guid_eq := by
    intro i hi
    have hlt : i < s.nodes.length := by simpa [GraphBase.nodeSize, toGraphBase] using hi
    have hn := List.getElem?_eq_getElem hlt
    exact ⟨_, by rw [node?_toGraphBase, hn], hall.inv_fresh.guid_eq hn⟩
  node := by
    intro e he exp hexp
    obtain ⟨hre, exp', hexp', hn⟩ := Heap.mem_exprsOf.1 he
    obtain ⟨l, hnode⟩ := hall.nodeFor hsh hre hexp' hn
    rw [hexp, Option.some.injEq] at hexp'
    subst hexp'
    exact ⟨_, by rw [node?_toGraphBase, hnode.node], rfl, rfl⟩
  coeff := by
    intro p hp k hk
    obtain ⟨hre, exp, hexp, hpoly⟩ := Heap.mem_poliesOf.1 hp
    obtain ⟨party, hnode, hin⟩ := hall.coeff hsh hre hexp hpoly hk
    refine ⟨_, by rw [node?_toGraphBase, hnode], ?_⟩
    rw [inEdges_toGraphBase, List.getD_eq_getElem?_getD, hin]
    rfl
  node_injOn := hall.injOn hsh
  coeff_inj := by
    intro p hp k hk p' hp' k' hk' heq
    obtain ⟨hkey, hw⟩ := hall.block_of_poly hsh hp
    obtain ⟨hkey', hw'⟩ := hall.block_of_poly hsh hp'
    by_cases hpp : p = p'
    · subst hpp
      exact ⟨rfl, by simpa using heq⟩
    · have := startOf_disjoint heap hpp hkey hkey'
      omega
  node_ne_coeff := fun _ he _ hp _ hk => hall.node_ne_coeff hsh he hp hk
  cover := by
    intro i hi
    exact hall.exists_poly_block hsh (by simpa [GraphBase.nodeSize, toGraphBase] using hi)
  input := by
    intro e he exp hexp hop
    obtain ⟨hre, exp', hexp', hn⟩ := Heap.mem_exprsOf.1 he
    rw [hexp, Option.some.injEq] at hexp'
    subst hexp'
    rcases hall.node_or_edge hsh hre hexp hn with ⟨-, h⟩ | ⟨h, -⟩
    · rw [inEdges_toGraphBase, List.getD_eq_getElem?_getD, h.inEdges]
      rfl
    · exact absurd hop h
  edge := by
    intro e he exp hexp hop
    obtain ⟨hre, exp', hexp', hn⟩ := Heap.mem_exprsOf.1 he
    rw [hexp, Option.some.injEq] at hexp'
    subst hexp'
    rcases hall.node_or_edge hsh hre hexp hn with ⟨h, -⟩ | ⟨-, o, inputs, hedge⟩
    · exact absurd h hop
    · obtain ⟨htype, hin, houtp⟩ := hedge.opAt team
      refine ⟨s.opAt team o, ?_, htype, by rw [houtp], ?_⟩
      · rw [inEdges_toGraphBase, List.getD_eq_getElem?_getD, hedge.nodeFor.inEdges]
        rfl
      · rw [hin]
        exact hall.inputs_eq hsh hpe hre hedge
  out_count := (hall.inv_fresh.wellFormed hall.inv_fresh.inputsHere_fresh team).out_count
  order := by
    intro f hf n hn
    obtain ⟨o, e, exp, inputs, rfl, hedge⟩ := hall.inv_fresh.exists_of_listed (Or.inl ⟨_, hf⟩)
    obtain ⟨-, hin, houtp⟩ := hedge.opAt team
    rw [hin, List.mem_map] at hn
    obtain ⟨p, hp, rfl⟩ := hn
    obtain ⟨g, rfl, hg⟩ := hedge.inputs_fresh hall.inv_fresh hp
    have hgn := List.getElem?_eq_getElem (hg.trans (lt_of_getElem?_some hedge.nodeFor.node))
    rw [nodeAt_current hgn, hall.inv_fresh.guid_eq hgn, houtp]
    exact hg
  output_iff := by
    intro i n hn
    rw [node?_toGraphBase] at hn
    rcases hall.exists_poly_block hsh (lt_of_getElem?_some hn) with
      ⟨e, he, rfl⟩ | ⟨p, hp, k, hk, rfl⟩
    · obtain ⟨hre, exp, hexp, hhas⟩ := Heap.mem_exprsOf.1 he
      obtain ⟨l, hnode⟩ := hall.nodeFor hsh hre hexp hhas
      rw [hnode.node, Option.some.injEq] at hn
      have htype : n.type = .output ↔ e ∈ outputs := by
        rw [← hn, genreOf]
        simp only [List.mem_reverse]
        by_cases ho : e ∈ outputs
        · simp [ho]
        · simpa [ho] using exp.genre_ne_output
      rw [htype]
      refine ⟨fun ho => ⟨e, ho, he, rfl⟩, ?_⟩
      rintro ⟨e', ho, he', heq⟩
      rwa [← hall.injOn hsh he' he heq]
    · obtain ⟨hre, exp, hexp, hpoly⟩ := Heap.mem_poliesOf.1 hp
      obtain ⟨party, hnode, -⟩ := hall.coeff hsh hre hexp hpoly hk
      rw [hnode, Option.some.injEq] at hn
      refine ⟨fun h => ?_, ?_⟩
      · rw [← hn] at h
        exact absurd h (by simp)
      · rintro ⟨e, -, he, heq⟩
        exact absurd heq (hall.node_ne_coeff hsh he hp hk)

end Final

end Builder

/-- **The builder is faithful**: for outputs that form a directed acyclic graph,
a first build succeeds, and its graph is that of the expressions. -/
theorem build_faithful {team : ℕ} {heap : Heap} {outputs : List ℕ} (hac : heap.Acyclic)
    (hsh : heap.Shaped outputs) (hpe : heap.PoliesEvaluated outputs)
    (hout : heap.Outputs outputs) :
    ∃ g mem, build team heap .fresh outputs = some (g, mem) ∧
      ∃ nodeOf coeffOf, Faithful heap outputs g nodeOf coeffOf := by
  obtain ⟨g, mem, hb⟩ := build_total team hac hsh hpe hout
  obtain ⟨s, new, rfl, -, hall⟩ := importedAll_of_build hac Builder.memoryValid_fresh hb
  exact ⟨_, mem, hb, _, _, hall.faithful hsh hpe team⟩

/-- A secret dealt with a line, and the share that is sent on. -/
def dealtHeap : Heap :=
  [⟨.constant, "_const_zero", .arithField, .input, [], [], nullParty⟩,
    ⟨.secret, "x", .arithField, .input, [], [], 1⟩,
    ⟨.poly 1 1 1, "poly_0", .poly .arithField, .polilize, [1], [], nullParty⟩,
    ⟨.share, "share_0", .arithField, .eval, [2], [2], 1⟩,
    ⟨.share, "share_1", .arithField, .transit, [3], [], 2⟩]

theorem dealtHeap_refs : ∀ (e : ℕ) (exp : Expression), dealtHeap[e]? = some exp →
    exp.Shaped dealtHeap ∧ ∀ x ∈ exp.refs, x < e := by
  intro e exp he
  have hlt := lt_of_getElem?_some he
  rw [dealtHeap] at hlt
  simp only [List.length_cons, List.length_nil] at hlt
  interval_cases e <;> obtain rfl := Option.some.inj he
  · exact ⟨.placeholder (.inl rfl) rfl rfl, by decide⟩
  · exact ⟨.placeholder (.inr (.inl rfl)) rfl rfl, by decide⟩
  · exact ⟨.poly rfl rfl rfl rfl, by decide⟩
  · exact ⟨.eval rfl rfl rfl rfl rfl, by decide⟩
  · refine ⟨.simple (.inl rfl) rfl fun x hx => ?_, by decide⟩
    rw [List.mem_singleton.1 hx]
    exact ⟨_, rfl⟩

theorem dealtHeap_shaped (outputs : List ℕ) : dealtHeap.Shaped outputs :=
  fun e exp _ he => (dealtHeap_refs e exp he).1

theorem dealtHeap_acyclic : dealtHeap.Acyclic :=
  Heap.acyclic_of_backward fun e exp he => (dealtHeap_refs e exp he).2

theorem dealtHeap_outputs : dealtHeap.Outputs [4] := by
  intro out hout
  rw [List.mem_singleton.1 hout]
  exact ⟨_, rfl, rfl⟩

theorem dealtHeap_poliesEvaluated (outputs : List ℕ) : dealtHeap.PoliesEvaluated outputs := by
  intro e exp _ he hop x hx ex hex
  have hlt := lt_of_getElem?_some he
  rw [dealtHeap] at hlt
  simp only [List.length_cons, List.length_nil] at hlt
  interval_cases e <;> obtain rfl := Option.some.inj he <;>
    simp_all [Expression.refs, dealtHeap, Expression.isPoly]
  all_goals subst hx; cases hex; rfl

theorem build_faithful_dealt :
    ∃ g mem, build 0 dealtHeap .fresh [4] = some (g, mem) ∧
      ∃ nodeOf coeffOf, Faithful dealtHeap [4] g nodeOf coeffOf :=
  build_faithful dealtHeap_acyclic (dealtHeap_shaped _) (dealtHeap_poliesEvaluated _)
    dealtHeap_outputs

/-- The secret and its polynomial, and the polynomial cast to a field element. -/
def castHeap : Heap :=
  dealtHeap.take 3 ++ [⟨.typeCast, "y", .arithField, .typeCast, [2], [], 1⟩]

theorem castHeap_refs : ∀ (e : ℕ) (exp : Expression), castHeap[e]? = some exp →
    exp.Shaped castHeap ∧ ∀ x ∈ exp.refs, x < e := by
  intro e exp he
  have hlt := lt_of_getElem?_some he
  rw [castHeap, dealtHeap] at hlt
  simp only [List.take_succ_cons, List.take_zero, List.length_append, List.length_cons,
    List.length_nil] at hlt
  interval_cases e <;> obtain rfl := Option.some.inj he
  · exact ⟨.placeholder (.inl rfl) rfl rfl, by decide⟩
  · exact ⟨.placeholder (.inr (.inl rfl)) rfl rfl, by decide⟩
  · exact ⟨.poly rfl rfl rfl rfl, by decide⟩
  · refine ⟨.simple (.inr rfl) rfl fun x hx => ?_, by decide⟩
    rw [List.mem_singleton.1 hx]
    exact ⟨_, rfl⟩

/-- Acyclic outputs alone do not make a build succeed: on a constant the assertion on
the node of an output fails, and the node of a polynomial is no operand of a cast. -/
theorem build_aborts :
    (dealtHeap.Acyclic ∧ dealtHeap.Shaped [0] ∧
      ¬ ∃ g mem, build 0 dealtHeap .fresh [0] = some (g, mem)) ∧
    (castHeap.Acyclic ∧ castHeap.Shaped [3] ∧ castHeap.Outputs [3] ∧
      ¬ ∃ g mem, build 0 castHeap .fresh [3] = some (g, mem)) := by
  have hconst : build 0 dealtHeap .fresh [0] = none := by decide +kernel
  have hcast : build 0 castHeap .fresh [3] = none := by decide +kernel
  refine ⟨⟨dealtHeap_acyclic, dealtHeap_shaped _, ?_⟩,
    Heap.acyclic_of_backward fun e exp he => (castHeap_refs e exp he).2,
    fun e exp _ he => (castHeap_refs e exp he).1, ?_, ?_⟩
  · rw [hconst]
    simp
  · intro out hout
    rw [List.mem_singleton.1 hout]
    exact ⟨_, rfl, rfl⟩
  · rw [hcast]
    simp

end Gauv
