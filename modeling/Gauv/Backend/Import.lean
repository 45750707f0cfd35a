import Gauv.Backend.GraphBuilder
import Gauv.Digraph
import Gauv.Lists

/-!
# What an import does

The invariant of a build.  The memo table grows by entries that own consecutive
blocks of nodes: one node for an input or an operation, the coefficients for a
polynomial, nothing for a constant.  Operations whose operands are still being
imported are pending.  An import keeps the invariant, touches nothing that was
there before except the out-lists, and adds only what the expression refers to.
-/

namespace Gauv

open Relation

/-! ## References between expressions -/

/-- Expression `e` refers to expression `x`. -/
def Heap.Follows (heap : Heap) (e x : ℕ) : Prop := ∃ exp, heap[e]? = some exp ∧ x ∈ exp.refs

/-- `x` is reachable from `e` through operands and constant terms. -/
abbrev Heap.Reach (heap : Heap) : ℕ → ℕ → Prop := ReflTransGen heap.Follows

/-- The expressions form a directed acyclic graph. -/
def Heap.Acyclic (heap : Heap) : Prop := Digraph.Acyclic heap.Follows

/-- Expressions that refer to earlier ones only form a directed acyclic graph. -/
theorem Heap.acyclic_of_backward {heap : Heap}
    (h : ∀ (e : ℕ) (exp : Expression), heap[e]? = some exp → ∀ x ∈ exp.refs, x < e) :
    heap.Acyclic := by
  refine Digraph.acyclic_of_lt OrderDual.toDual fun e x hx => ?_
  obtain ⟨exp, he, hx⟩ := hx
  exact OrderDual.toDual_lt_toDual.2 (h e exp he x hx)

namespace Expression

/-- The operators that become an edge as they are. -/
def isSimple (e : Expression) : Bool :=
  match e.op with
  | .transit | .add | .sub | .mul | .div | .typeCast | .scalarMul | .reconstruct => true
  | _ => false

/-- An input that gets a node. -/
def isPlaceholder (e : Expression) : Bool :=
  e.op = .input && (e.cls = .secret || e.cls = .share || e.cls = .randomness)

/-- The genre of the node of an expression that is no output. -/
def genre (e : Expression) : NodeGenre :=
  if e.op = .input ∧ e.cls ≠ .randomness then .input else .others

/-- The number of nodes the import of an expression creates for itself. -/
def weight (e : Expression) : ℕ :=
  match e.op, e.cls with
  | .polilize, .poly degree _ _ => degree
  | .polilize, _ => 0
  | .none, _ => 0
  | .input, .secret => 1
  | .input, .share => 1
  | .input, .randomness => 1
  | .input, _ => 0
  | _, _ => 1

end Expression

/-- The operands an edge keeps. -/
def Heap.operands (heap : Heap) (xs : List ℕ) : List ℕ :=
  xs.filter fun x => !(heap[x]?).any Expression.isConstant

/-- The name of coefficient `k` of a polynomial. -/
def coeffName (name : String) (k : ℕ) : String := name ++ "_coeff_" ++ toString k

/-! ## Memo entries -/

namespace Builder

/-- The genre of the node of expression `e`, once the outputs `outs` are marked. -/
def genreOf (outs : List ℕ) (e : ℕ) (exp : Expression) : NodeGenre :=
  if e ∈ outs then .output else exp.genre

/-- The node with index `i` is the one of expression `e`, computed by the
operations `l`. -/
structure NodeFor (s : Builder) (outs : List ℕ) (e : ℕ) (exp : Expression) (i : ℕ)
    (l : List ℕ) : Prop where
  node : s.nodes[i]? = some ⟨i, exp.name, exp.party, genreOf outs e exp⟩
  inEdges : s.inEdgesOf[i]? = some l

/-- What the memo table holds for an expression whose block of nodes starts at
`i`. -/
inductive Entry (heap : Heap) (s : Builder) (outs : List ℕ) (i e : ℕ) (exp : Expression) :
    Option NodePtr → Prop
  /-- No node: a constant. -/
  | null (hop : exp.op = .none ∨ exp.op = .input ∧ exp.isPlaceholder = false) :
      Entry heap s outs i e exp none
  | input (hin : exp.isPlaceholder = true) (hn : NodeFor s outs e exp i []) :
      Entry heap s outs i e exp (some (.node s.current i))
  | simple {o : ℕ} {inputs : List NodePtr} (hop : exp.isSimple = true)
      (hn : NodeFor s outs e exp i [o])
      (ho : s.ops[o]? = some ⟨exp.op, inputs, some (.node s.current i)⟩)
      (hin : List.Forall₂ (fun x p => s.frontBackMap.lookup x = some (some p))
        (heap.operands exp.oprands) inputs)
      (hidx : ∀ p ∈ inputs, p.guid?.isSome)
      (hlt : ∀ g, .node s.current g ∈ inputs → g < i) :
      Entry heap s outs i e exp (some (.node s.current i))
  | eval {o x : ℕ} {q : NodePtr} {old : OpObject} (hop : exp.op = .eval)
      (hs : exp.isShare = true) (hx : exp.oprands = [x])
      (hn : NodeFor s outs e exp i [o]) (hq : s.frontBackMap.lookup x = some (some q))
      (hp : s.polyMap.lookup q = some old) (ht : old.type = .polilize)
      (ho : s.ops[o]? = some ⟨.eval, old.inputs, some (.node s.current i)⟩)
      (hidx : ∀ p ∈ old.inputs, p.guid?.isSome)
      (hlt : ∀ g, .node s.current g ∈ old.inputs → g < i) :
      Entry heap s outs i e exp (some (.node s.current i))
  | poly {degree c : ℕ} {party : PartyDecl} {r : Option NodePtr} (hop : exp.op = .polilize)
      (hcls : exp.cls = .poly degree party c) (hc : s.frontBackMap.lookup c = some r)
      (hp : s.polyMap.lookup (.aux e) = some ⟨.polilize,
        r.toList ++ (List.range degree).map (fun k => .node s.current (i + k)), some (.aux e)⟩)
      (hn : ∀ k < degree,
        s.nodes[i + k]? = some ⟨i + k, coeffName exp.name k, party, .others⟩ ∧
        s.inEdgesOf[i + k]? = some []) :
      Entry heap s outs i e exp (some (.aux e))

/-- The number of nodes that memo entries own. -/
def total (heap : Heap) (new : List (ℕ × Option NodePtr)) : ℕ :=
  (new.map fun x => (heap[x.1]?).elim 0 Expression.weight).sum

/-- The newest entry comes first; each owns the block of nodes above those of
the entries after it. -/
def Laid (heap : Heap) (s : Builder) (outs : List ℕ) : List (ℕ × Option NodePtr) → Prop
  | [] => True
  | (e, r) :: rest => Laid heap s outs rest ∧
      ∃ exp, heap[e]? = some exp ∧ Entry heap s outs (total heap rest) e exp r

/-- How often the node with guid `u` is an input of the operation at `o`. -/
def usesOf (s : Builder) (o u : ℕ) : ℕ :=
  (s.ops[o]?).elim 0 fun op => op.inputs.countP fun p => p.guid? = some u

/-- The invariant of a build that started with `mem`, has marked the outputs
`outs`, is importing the operands of the operations `pend`, and has added the
memo entries `new`. -/
structure Inv (heap : Heap) (mem : Memory) (outs pend : List ℕ)
    (new : List (ℕ × Option NodePtr)) (s : Builder) : Prop where
  memo : s.frontBackMap = new ++ mem.frontBackMap
  keys : (s.frontBackMap.map Prod.fst).Nodup
  earlier : s.earlier.length = mem.earlier.length
  length : s.nodes.length = total heap new
  inLength : s.inEdgesOf.length = s.nodes.length
  outLength : s.outEdgesOf.length = s.nodes.length
  laid : Laid heap s outs new
  done : ∀ o op, o ∉ pend → s.ops[o]? = some op →
    ∃ i, op.output = some (.node s.current i) ∧ s.inEdgesOf[i]? = some [o]
  pending : ∀ o ∈ pend, ∃ op, s.ops[o]? = some op ∧ op.output = none
  uses : ∀ u o, (s.outEdgesOf.getD u []).count o = s.usesOf o u
  outs_keys : ∀ e ∈ outs, e ∈ s.frontBackMap.map Prod.fst
  ptr_lt : ∀ e g, s.frontBackMap.lookup e = some (some (.node s.current g)) → g < s.nodes.length
  poly_lt : ∀ q op g, s.polyMap.lookup q = some op → .node s.current g ∈ op.inputs →
    g < s.nodes.length
  poly_key : ∀ q op, s.polyMap.lookup q = some op →
    ∃ e, q = .aux e ∧ s.frontBackMap.lookup e = some (some q)

/-- What later steps of a build leave alone: everything but the out-lists and
the operations from address `keep` on. -/
structure Grows (keep : ℕ) (s s' : Builder) : Prop where
  earlier : s'.earlier = s.earlier
  nodes : ∀ (i : ℕ) (n : Node), s.nodes[i]? = some n → s'.nodes[i]? = some n
  ops : ∀ o < keep, s'.ops[o]? = s.ops[o]?
  opsLength : s.ops.length ≤ s'.ops.length
  inEdges : ∀ (i : ℕ) (l : List ℕ), s.inEdgesOf[i]? = some l → s'.inEdgesOf[i]? = some l
  memo : ∀ e r, s.frontBackMap.lookup e = some r → s'.frontBackMap.lookup e = some r
  poly : ∀ q op, s.polyMap.lookup q = some op → s'.polyMap.lookup q = some op
  nodesLength : s.nodes.length ≤ s'.nodes.length

theorem Grows.refl (keep : ℕ) (s : Builder) : Grows keep s s :=
  ⟨rfl, fun _ _ h => h, fun _ _ => rfl, le_rfl, fun _ _ h => h, fun _ _ h => h,
    fun _ _ h => h, le_rfl⟩

theorem Grows.trans {k k' : ℕ} {s s' s'' : Builder} (h : Grows k s s') (h' : Grows k' s' s'')
    (hk : k ≤ k') : Grows k s s'' where
  earlier := h'.earlier.trans h.earlier
  nodes := fun i n hi => h'.nodes i n (h.nodes i n hi)
  ops := fun o ho => (h'.ops o (ho.trans_le hk)).trans (h.ops o ho)
  opsLength := h.opsLength.trans h'.opsLength
  inEdges := fun i l hi => h'.inEdges i l (h.inEdges i l hi)
  memo := fun e r he => h'.memo e r (h.memo e r he)
  poly := fun q op hq => h'.poly q op (h.poly q op hq)
  nodesLength := h.nodesLength.trans h'.nodesLength

theorem Grows.mono {k k' : ℕ} {s s' : Builder} (h : Grows k' s s') (hk : k ≤ k') :
    Grows k s s' :=
  { h with ops := fun o ho => h.ops o (ho.trans_le hk) }

theorem Grows.current {keep : ℕ} {s s' : Builder} (h : Grows keep s s') :
    s'.current = s.current := by
  rw [Builder.current, Builder.current, h.earlier]

theorem Grows.nodeFor {keep : ℕ} {s s' : Builder} (h : Grows keep s s') {outs : List ℕ} {e i : ℕ}
    {exp : Expression} {l : List ℕ} (hn : NodeFor s outs e exp i l) :
    NodeFor s' outs e exp i l :=
  ⟨h.nodes _ _ hn.node, h.inEdges _ _ hn.inEdges⟩

/-- A memo entry stays what it is as long as its operation is left alone. -/
theorem Entry.grows {heap : Heap} {outs : List ℕ} {keep : ℕ} {s s' : Builder} (h : Grows keep s s')
    (hops : ∀ (o : ℕ) (op : OpObject), s.ops[o]? = some op → op.output ≠ none →
      s'.ops[o]? = some op)
    {i e : ℕ} {exp : Expression} {r : Option NodePtr} (he : Entry heap s outs i e exp r) :
    Entry heap s' outs i e exp r := by
  have hcur := h.current
  cases he with
  | null hop => exact .null hop
  | input hin hn =>
      rw [← hcur]
      exact .input hin (h.nodeFor hn)
  | simple hop hn ho hin hidx hlt =>
      rw [← hcur] at ho hlt ⊢
      exact .simple hop (h.nodeFor hn) (hops _ _ (hcur ▸ ho) (by simp))
        (hin.imp fun x p hx => h.memo x _ hx) hidx hlt
  | eval hop hs hx hn hq hp ht ho hidx hlt =>
      rw [← hcur] at ho hlt ⊢
      exact .eval hop hs hx (h.nodeFor hn) (h.memo _ _ hq) (h.poly _ _ hp) ht
        (hops _ _ (hcur ▸ ho) (by simp)) hidx hlt
  | poly hop hcls hc hp hn =>
      rw [← hcur] at hp
      exact .poly hop hcls (h.memo _ _ hc) (h.poly _ _ hp)
        fun k hk => ⟨h.nodes _ _ (hn k hk).1, h.inEdges _ _ (hn k hk).2⟩

theorem Laid.grows {heap : Heap} {outs : List ℕ} {keep : ℕ} {s s' : Builder} (h : Grows keep s s')
    (hops : ∀ (o : ℕ) (op : OpObject), s.ops[o]? = some op → op.output ≠ none →
      s'.ops[o]? = some op)
    {new : List (ℕ × Option NodePtr)} (hl : Laid heap s outs new) : Laid heap s' outs new := by
  induction new with
  | nil => trivial
  | cons x new ih =>
      obtain ⟨hl, exp, hexp, hent⟩ := hl
      exact ⟨ih hl, exp, hexp, hent.grows h hops⟩

/-! ## Adding an entry -/

section Steps

variable {heap : Heap} {mem : Memory} {outs pend : List ℕ} {new : List (ℕ × Option NodePtr)}
  {s s' : Builder} {e : ℕ} {exp : Expression}

theorem usesOf_eq_zero {o u : ℕ} (ho : s.ops.length ≤ o) : s.usesOf o u = 0 := by
  rw [usesOf, List.getElem?_eq_none ho]
  rfl

/-- Operations that are complete differ from those that are pending. -/
theorem Inv.complete_ne (hi : Inv heap mem outs pend new s) {o o' : ℕ} (ho : o ∈ pend)
    {op : OpObject} (hop : s.ops[o']? = some op) (hout : op.output ≠ none) : o' ≠ o := by
  rintro rfl
  obtain ⟨op', hop', hnone⟩ := hi.pending o' ho
  rw [hop'] at hop
  exact hout (by rw [← Option.some.inj hop, hnone])

/-- The general step: one memo entry is added, with its block of nodes. -/
theorem Inv.add (hi : Inv heap mem outs pend new s) {pend' : List ℕ} {keep : ℕ}
    {r : Option NodePtr} (he : heap[e]? = some exp)
    (hkey : e ∉ s.frontBackMap.map Prod.fst) (hg : Grows keep s s')
    (hops : ∀ (o : ℕ) (op : OpObject), s.ops[o]? = some op → op.output ≠ none →
      s'.ops[o]? = some op)
    (hmemo : s'.frontBackMap = (e, r) :: s.frontBackMap)
    (hlen : s'.nodes.length = s.nodes.length + exp.weight)
    (hin : s'.inEdgesOf.length = s'.nodes.length)
    (hout : s'.outEdgesOf.length = s'.nodes.length)
    (hent : Entry heap s' outs s.nodes.length e exp r)
    (hdone : ∀ (o : ℕ) (op : OpObject), o ∉ pend' → s'.ops[o]? = some op →
      (o ∉ pend ∧ s.ops[o]? = some op) ∨
        ∃ i, op.output = some (.node s'.current i) ∧ s'.inEdgesOf[i]? = some [o])
    (hpend : ∀ o ∈ pend', ∃ op, s'.ops[o]? = some op ∧ op.output = none)
    (huses : ∀ u o, (s'.outEdgesOf.getD u []).count o = s'.usesOf o u)
    (hptr : ∀ g, r = some (.node s'.current g) → g < s'.nodes.length)
    (hpoly : ∀ q op g, s'.polyMap.lookup q = some op → .node s'.current g ∈ op.inputs →
      g < s'.nodes.length)
    (hpkey : ∀ q op, s'.polyMap.lookup q = some op →
      ∃ e, q = .aux e ∧ s'.frontBackMap.lookup e = some (some q)) :
    Inv heap mem outs pend' ((e, r) :: new) s' where
  memo := by rw [hmemo, hi.memo, List.cons_append]
  keys := by
    rw [hmemo, List.map_cons, List.nodup_cons]
    exact ⟨hkey, hi.keys⟩
  earlier := by rw [hg.earlier, hi.earlier]
  length := by
    rw [hlen, hi.length, total, total, List.map_cons, List.sum_cons, he, add_comm]
    rfl
  inLength := hin
  outLength := hout
  laid := by
    refine ⟨hi.laid.grows hg hops, exp, he, ?_⟩
    rw [← hi.length]
    exact hent
  done := by
    intro o op ho hop
    rcases hdone o op ho hop with ⟨ho', hop'⟩ | h
    · obtain ⟨i, h₁, h₂⟩ := hi.done o op ho' hop'
      exact ⟨i, by rw [hg.current]; exact h₁, hg.inEdges i _ h₂⟩
    · exact h
  pending := hpend
  uses := huses
  outs_keys := by
    intro e' he'
    rw [hmemo, List.map_cons]
    exact List.mem_cons_of_mem _ (hi.outs_keys e' he')
  ptr_lt := by
    intro e' g h
    rw [hmemo, hg.current] at h
    by_cases hee : e' = e
    · subst hee
      rw [List.lookup_cons_self, Option.some.injEq] at h
      exact hptr g (by rw [hg.current]; exact h)
    · rw [lookup_cons_ne hee] at h
      exact (hi.ptr_lt e' g h).trans_le hg.nodesLength
  poly_lt := hpoly
  poly_key := hpkey

/-- A new operation is pending. -/
theorem Inv.newOp (hi : Inv heap mem outs pend new s) (t : Operator) :
    Inv heap mem outs (s.ops.length :: pend) new (s.newOp ⟨t, [], none⟩).1 where
  memo := hi.memo
  keys := hi.keys
  earlier := hi.earlier
  length := hi.length
  inLength := hi.inLength
  outLength := hi.outLength
  laid := by
    have hg : Grows s.ops.length s (s.newOp ⟨t, [], none⟩).1 :=
      ⟨rfl, fun _ _ h => h, fun o ho => List.getElem?_append_left ho, by simp [Builder.newOp],
        fun _ _ h => h, fun _ _ h => h, fun _ _ h => h, le_rfl⟩
    exact hi.laid.grows hg fun o op hop _ => getElem?_append_some hop
  done := by
    intro o op ho hop
    rw [List.mem_cons, not_or] at ho
    refine hi.done o op ho.2 ?_
    have hlt : o < s.ops.length := by
      have := lt_of_getElem?_some hop
      simp only [Builder.newOp, List.length_append, List.length_singleton] at this
      omega
    rwa [Builder.newOp, List.getElem?_append_left hlt] at hop
  pending := by
    intro o ho
    rcases List.mem_cons.1 ho with rfl | ho
    · exact ⟨⟨t, [], none⟩, by simp [Builder.newOp], rfl⟩
    · obtain ⟨op, hop, hnone⟩ := hi.pending o ho
      exact ⟨op, getElem?_append_some hop, hnone⟩
  outs_keys := hi.outs_keys
  uses := by
    intro u o
    rw [show (s.newOp ⟨t, [], none⟩).1.outEdgesOf = s.outEdgesOf from rfl, hi.uses u o]
    by_cases ho : o < s.ops.length
    · rw [usesOf, usesOf, Builder.newOp, List.getElem?_append_left ho]
    · rw [usesOf_eq_zero (not_lt.1 ho), usesOf, Builder.newOp]
      rcases (not_lt.1 ho).eq_or_lt with rfl | ho
      · simp
      · rw [List.getElem?_eq_none (by simpa using ho)]
        rfl
  ptr_lt := hi.ptr_lt
  poly_lt := hi.poly_lt
  poly_key := hi.poly_key

theorem pushOut_eq_some {p : NodePtr} {o : ℕ} :
    s.pushOut p o = some s' ↔ ∃ g, p.guid? = some g ∧ g < s.outEdgesOf.length ∧
      s' = { s with outEdgesOf := s.outEdgesOf.modify g (· ++ [o]) } := by
  rw [pushOut]
  cases hp : p.guid? with
  | none => simp
  | some g =>
      by_cases hg : g < s.outEdgesOf.length
      · simp [hg, eq_comm]
      · simp [hg]

/-- An operand is linked to a pending operation, in both directions. -/
theorem Inv.link (hi : Inv heap mem outs pend new s) {o : ℕ} (ho : o ∈ pend) {t : Operator}
    {ins : List NodePtr} (hop : s.ops[o]? = some ⟨t, ins, none⟩) {p : NodePtr}
    (hs : (s.addInput o p).pushOut p o = some s') :
    Inv heap mem outs pend new s' ∧ Grows o s s' ∧
      s'.ops[o]? = some ⟨t, ins ++ [p], none⟩ ∧ s'.frontBackMap = s.frontBackMap ∧
      p.guid?.isSome := by
  obtain ⟨g, hg, hlt, rfl⟩ := pushOut_eq_some.1 hs
  have hmod : ∀ o' : ℕ, o' ≠ o → (s.ops.modify o fun op =>
      { op with inputs := op.inputs ++ [p] })[o']? = s.ops[o']? := fun o' hne =>
    List.getElem?_modify_ne _ _ (Ne.symm hne)
  have hself : (s.ops.modify o fun op =>
      { op with inputs := op.inputs ++ [p] })[o]? = some ⟨t, ins ++ [p], none⟩ := by
    rw [List.getElem?_modify_eq, hop]
    rfl
  have hgrows : Grows o s { s.addInput o p with
      outEdgesOf := (s.addInput o p).outEdgesOf.modify g (· ++ [o]) } :=
    ⟨rfl, fun _ _ h => h, fun o' ho' => hmod o' ho'.ne, by simp [addInput], fun _ _ h => h,
      fun _ _ h => h, fun _ _ h => h, le_rfl⟩
  refine ⟨?_, hgrows, hself, rfl, by simp [hg]⟩
  exact {
    memo := hi.memo
    keys := hi.keys
    earlier := hi.earlier
    length := hi.length
    inLength := hi.inLength
    outLength := by
      simp only [addInput, List.length_modify]
      exact hi.outLength
    laid := hi.laid.grows hgrows fun o' op hop' hout => by
      have hne := hi.complete_ne ho hop' hout
      exact (hmod o' hne).trans hop'
    done := by
      intro o' op ho' hop'
      have hne : o' ≠ o := fun h => ho' (h ▸ ho)
      exact hi.done o' op ho' ((hmod o' hne).symm.trans hop')
    pending := by
      intro o' ho'
      by_cases hne : o' = o
      · subst hne
        exact ⟨_, hself, rfl⟩
      · obtain ⟨op, hop', hnone⟩ := hi.pending o' ho'
        exact ⟨op, (hmod o' hne).trans hop', hnone⟩
    outs_keys := hi.outs_keys
    uses := by
      intro u o'
      have hold := hi.uses u o'
      have hlt' : g < s.outEdgesOf.length := hlt
      change ((s.outEdgesOf.modify g (· ++ [o])).getD u []).count o' = _
      rw [getD_modify]
      by_cases hne : o' = o
      · subst hne
        simp only [usesOf, addInput] at hold ⊢
        rw [hself]
        rw [hop] at hold
        simp only [Option.elim_some] at hold ⊢
        rw [List.countP_append, ← hold]
        by_cases hgu : g = u
        · subst hgu
          simp [hlt', hg]
        · have hne' : ¬ p.guid? = some u := by simpa [hg] using hgu
          simp [hgu, hne']
      · have huse : ∀ s₁ : Builder, s₁.ops[o']? = s.ops[o']? → s₁.usesOf o' u = s.usesOf o' u :=
          fun s₁ h => by rw [usesOf, usesOf, h]
        rw [huse _ (hmod o' hne), ← hold]
        split
        · rw [List.count_append, List.count_singleton]
          simp [Ne.symm hne]
        · rfl
    ptr_lt := hi.ptr_lt
    poly_lt := hi.poly_lt
    poly_key := hi.poly_key }

/-! ### Entries without an operation -/

theorem grows_newNode (keep : ℕ) (s : Builder) (name : String) (party : PartyDecl)
    (type : NodeGenre) : Grows keep s (s.newNode name party type).1 :=
  ⟨rfl, fun _ _ h => getElem?_append_some h, fun _ _ => rfl, le_rfl,
    fun _ _ h => getElem?_append_some h, fun _ _ h => h, fun _ _ h => h, by simp [newNode]⟩

theorem grows_memoize (keep : ℕ) {r : Option NodePtr}
    (hkey : e ∉ s.frontBackMap.map Prod.fst) : Grows keep s (s.memoize e r) :=
  ⟨rfl, fun _ _ h => h, fun _ _ => rfl, le_rfl, fun _ _ h => h,
    fun _ _ h => lookup_cons_of_lookup hkey h, fun _ _ h => h, le_rfl⟩

/-- Marked outputs have entries. -/
theorem Inv.genreOf_eq (hi : Inv heap mem outs pend new s)
    (hkey : e ∉ s.frontBackMap.map Prod.fst) : genreOf outs e exp = exp.genre :=
  if_neg fun h => hkey (hi.outs_keys e h)

theorem weight_null (hop : exp.op = .none ∨ exp.op = .input ∧ exp.isPlaceholder = false) :
    exp.weight = 0 := by
  rcases hop with hop | ⟨hop, hp⟩
  · simp [Expression.weight, hop]
  · rw [Expression.isPlaceholder, hop] at hp
    rw [Expression.weight, hop]
    cases hc : exp.cls <;> simp_all

theorem weight_placeholder (hin : exp.isPlaceholder = true) : exp.weight = 1 := by
  simp only [Expression.isPlaceholder, Bool.and_eq_true, Bool.or_eq_true, decide_eq_true_eq] at hin
  rcases hin with ⟨hop, (hc | hc) | hc⟩ <;> simp [Expression.weight, hop, hc]

theorem weight_simple (hs : exp.isSimple = true) : exp.weight = 1 := by
  rw [Expression.isSimple] at hs
  rw [Expression.weight]
  split at hs <;> simp_all

theorem weight_eval (hop : exp.op = .eval) : exp.weight = 1 := by
  rw [Expression.weight, hop]

/-- An entry that points to a node points to the start of its block, which has
one node. -/
theorem Entry.of_node {i b g : ℕ} (h : Entry heap s outs i e exp (some (.node b g))) :
    exp.weight = 1 ∧ b = s.current ∧ g = i := by
  cases h with
  | input hin _ => exact ⟨weight_placeholder hin, rfl, rfl⟩
  | simple hop _ _ _ _ _ => exact ⟨weight_simple hop, rfl, rfl⟩
  | eval hop _ _ _ _ _ _ _ _ _ => exact ⟨weight_eval hop, rfl, rfl⟩

/-- A constant gets an entry and no node. -/
theorem Inv.null (hi : Inv heap mem outs pend new s) (he : heap[e]? = some exp)
    (hkey : e ∉ s.frontBackMap.map Prod.fst)
    (hop : exp.op = .none ∨ exp.op = .input ∧ exp.isPlaceholder = false) :
    Inv heap mem outs pend ((e, none) :: new) (s.memoize e none) := by
  have hg := grows_memoize (r := none) s.ops.length hkey
  refine hi.add he hkey hg (fun _ _ h _ => h) rfl ?_ hi.inLength hi.outLength (.null hop)
    (fun o op ho h => Or.inl ⟨ho, h⟩) hi.pending hi.uses (by simp) hi.poly_lt ?_
  · rw [weight_null hop]
    rfl
  · intro q op hq
    obtain ⟨e', hq', hr'⟩ := hi.poly_key q op hq
    exact ⟨e', hq', hg.memo _ _ hr'⟩

/-- An input gets a node without in-edges. -/
theorem Inv.input (hi : Inv heap mem outs pend new s) (he : heap[e]? = some exp)
    (hkey : e ∉ s.frontBackMap.map Prod.fst) (hin : exp.isPlaceholder = true) :
    Inv heap mem outs pend ((e, some (.node s.current s.nodes.length)) :: new)
      ((s.newNode exp.name exp.party exp.genre).1.memoize e
        (some (.node s.current s.nodes.length))) := by
  have hg := (grows_newNode s.ops.length s exp.name exp.party exp.genre).trans
    (grows_memoize (r := some (.node s.current s.nodes.length)) s.ops.length
      (s := (s.newNode exp.name exp.party exp.genre).1) hkey) le_rfl
  refine hi.add he hkey hg (fun _ _ h _ => h) rfl ?_ ?_ ?_ ?_
    (fun o op ho h => Or.inl ⟨ho, h⟩) hi.pending ?_ ?_ ?_ ?_
  · simp [newNode, memoize, weight_placeholder hin]
  · simp [newNode, memoize, hi.inLength]
  · simp [newNode, memoize, hi.outLength]
  · refine .input hin ⟨?_, ?_⟩
    · rw [hi.genreOf_eq hkey]
      exact List.getElem?_concat_length
    · rw [← hi.inLength]
      exact List.getElem?_concat_length
  · intro u o
    refine Eq.trans ?_ (hi.uses u o)
    change ((s.outEdgesOf ++ [[]]).getD u []).count o = _
    rw [getD_concat_default]
  · intro g hg'
    simp only [Option.some.injEq, NodePtr.node.injEq] at hg'
    simp [newNode, memoize, ← hg'.2]
  · intro q op g hq hg'
    exact (hi.poly_lt q op g hq hg').trans_le (by simp [newNode, memoize])
  · intro q op hq
    obtain ⟨e', hq', hr'⟩ := hi.poly_key q op hq
    exact ⟨e', hq', hg.memo _ _ hr'⟩

/-! ### Entries with an operation -/

/-- An operation that has all its inputs gets an output node. -/
theorem Inv.edge {pend₀ : List ℕ} {o : ℕ} {t : Operator} {inputs : List NodePtr}
    (hi : Inv heap mem outs pend₀ new s) (he : heap[e]? = some exp)
    (hkey : e ∉ s.frontBackMap.map Prod.fst) (hw : exp.weight = 1) (hgenre : exp.genre = .others)
    (hpend : ∀ o' ∈ pend, o' ≠ o ∧ o' ∈ pend₀) (hpend₀ : ∀ o' ∈ pend₀, o' ≠ o → o' ∈ pend)
    (hopen : ∀ op, s.ops[o]? = some op → op.output = none)
    (hearlier : s'.earlier = s.earlier) (hpoly : s'.polyMap = s.polyMap)
    (hnodes : s'.nodes = s.nodes ++ [⟨s.nodes.length, exp.name, exp.party, .others⟩])
    (hins : s'.inEdgesOf = s.inEdgesOf ++ [[o]])
    (houtlen : s'.outEdgesOf.length = s.outEdgesOf.length + 1)
    (hmemo : s'.frontBackMap = (e, some (.node s.current s.nodes.length)) :: s.frontBackMap)
    (hother : ∀ o' : ℕ, o' ≠ o → s'.ops[o']? = s.ops[o']?)
    (hlen : s.ops.length ≤ s'.ops.length)
    (hop : s'.ops[o]? = some ⟨t, inputs, some (.node s.current s.nodes.length)⟩)
    (huses : ∀ u o, (s'.outEdgesOf.getD u []).count o = s'.usesOf o u)
    (hent : NodeFor s' outs e exp s.nodes.length [o] → Grows o s s' →
      Entry heap s' outs s.nodes.length e exp (some (.node s.current s.nodes.length))) :
    Inv heap mem outs pend ((e, some (.node s.current s.nodes.length)) :: new) s' ∧
      Grows o s s' := by
  have hlast : s'.inEdgesOf[s.nodes.length]? = some [o] := by
    rw [hins, ← hi.inLength]
    exact List.getElem?_concat_length
  have hg : Grows o s s' := by
    refine ⟨hearlier, fun i n h => ?_, fun o' ho' => hother o' ho'.ne, hlen, fun i l h => ?_,
      fun e' r h => ?_, fun q op h => hpoly ▸ h, by simp [hnodes]⟩
    · rw [hnodes]
      exact getElem?_append_some h
    · rw [hins]
      exact getElem?_append_some h
    · rw [hmemo]
      exact lookup_cons_of_lookup hkey h
  have hcur : s'.current = s.current := hg.current
  have hnode : NodeFor s' outs e exp s.nodes.length [o] := by
    refine ⟨?_, hlast⟩
    rw [hi.genreOf_eq hkey, hgenre, hnodes]
    exact List.getElem?_concat_length
  refine ⟨hi.add he hkey hg (fun o' op h hne => ?_) hmemo ?_ ?_ ?_ (hent hnode hg)
    (fun o' op ho' h => ?_) (fun o' ho' => ?_) huses (fun g h => ?_) (fun q op g h h' => ?_)
    (fun q op h => ?_), hg⟩
  · rw [hother o' fun hoo => hne (hopen op (hoo ▸ h))]
    exact h
  · rw [hnodes, hw]
    simp
  · rw [hins, hnodes]
    simp [hi.inLength]
  · rw [houtlen, hnodes]
    simp [hi.outLength]
  · by_cases hoo : o' = o
    · subst hoo
      rw [hop, Option.some.injEq] at h
      exact Or.inr ⟨s.nodes.length, by rw [← h, hcur], hlast⟩
    · refine Or.inl ⟨fun hp => ho' (hpend₀ o' hp hoo), ?_⟩
      rw [← hother o' hoo]
      exact h
  · obtain ⟨hoo, hp⟩ := hpend o' ho'
    rw [hother o' hoo]
    exact hi.pending o' hp
  · rw [hcur, Option.some.injEq, NodePtr.node.injEq] at h
    simp [hnodes, ← h.2]
  · rw [hpoly] at h
    rw [hcur] at h'
    exact (hi.poly_lt q op g h h').trans_le hg.nodesLength
  · rw [hpoly] at h
    obtain ⟨e', hq, hr⟩ := hi.poly_key q op h
    exact ⟨e', hq, hg.memo _ _ hr⟩

/-- The output of a simple operation, once its operands are linked. -/
theorem Inv.simple {o : ℕ} {inputs : List NodePtr} (hi : Inv heap mem outs (o :: pend) new s)
    (ho : o ∉ pend) (he : heap[e]? = some exp) (hkey : e ∉ s.frontBackMap.map Prod.fst)
    (hs : exp.isSimple = true) (hop : s.ops[o]? = some ⟨exp.op, inputs, none⟩)
    (hin : List.Forall₂ (fun x p => s.frontBackMap.lookup x = some (some p))
      (heap.operands exp.oprands) inputs) (hidx : ∀ p ∈ inputs, p.guid?.isSome)
    (hs' : s' = (((s.newNode exp.name exp.party .others).1.pushIn s.nodes.length o).setOutput o
      (.node s.current s.nodes.length)).memoize e (some (.node s.current s.nodes.length))) :
    Inv heap mem outs pend ((e, some (.node s.current s.nodes.length)) :: new) s' ∧
      Grows o s s' := by
  have hopt : exp.op ≠ .input := by
    intro h
    simp [Expression.isSimple, h] at hs
  have hself : s'.ops[o]? =
      some ⟨exp.op, inputs, some (.node s.current s.nodes.length)⟩ := by
    rw [hs']
    change (s.ops.modify o _)[o]? = _
    rw [List.getElem?_modify_eq, hop]
    rfl
  have hother : ∀ o' : ℕ, o' ≠ o → s'.ops[o']? = s.ops[o']? := fun o' hne => by
    rw [hs']
    exact List.getElem?_modify_ne _ _ (Ne.symm hne)
  refine hi.edge he hkey ?_ (by simp [Expression.genre, hopt]) (fun o' ho' => ?_)
    (fun o' ho' hne => ?_) ?_ (by rw [hs']; rfl) (by rw [hs']; rfl) (by rw [hs']; rfl) ?_ ?_
    (by rw [hs']; rfl) hother ?_ hself ?_ fun hn hg => ?_
  · exact weight_simple hs
  · exact ⟨fun h => ho (h ▸ ho'), List.mem_cons_of_mem _ ho'⟩
  · exact (List.mem_cons.1 ho').resolve_left hne
  · intro op h
    rw [hop, Option.some.injEq] at h
    rw [← h]
  · rw [hs', ← hi.inLength]
    exact modify_append_last _ _ _
  · rw [hs']
    simp [newNode, pushIn, setOutput, memoize]
  · rw [hs']
    simp [newNode, pushIn, setOutput, memoize]
  · intro u o'
    have huse : s'.usesOf o' u = s.usesOf o' u := by
      by_cases hne : o' = o
      · rw [hne, usesOf, usesOf, hself, hop]
        rfl
      · rw [usesOf, usesOf, hother o' hne]
    rw [huse, ← hi.uses u o', hs']
    change ((s.outEdgesOf ++ [[]]).getD u []).count o' = _
    rw [getD_concat_default]
  · refine hg.current ▸ Entry.simple hs hn (hg.current ▸ hself)
      (hin.imp fun x p h => hg.memo _ _ h) hidx fun g hmem => ?_
    -- an operand's node is older than the output
    obtain ⟨x, -, hx⟩ := exists_of_mem_right hin hmem
    exact hi.ptr_lt x g (hg.current ▸ hx)

theorem pushOuts_eq_some {o : ℕ} {ps : List NodePtr} (h : pushOuts o ps s = some s') :
    (∃ out, s' = { s with outEdgesOf := out }) ∧
      s'.outEdgesOf.length = s.outEdgesOf.length ∧
      (∀ u o', (s'.outEdgesOf.getD u []).count o' = (s.outEdgesOf.getD u []).count o' +
        if o' = o then ps.countP (fun p => p.guid? = some u) else 0) ∧
      ∀ p ∈ ps, p.guid?.isSome := by
  induction ps generalizing s with
  | nil =>
      cases h
      exact ⟨⟨_, rfl⟩, rfl, by simp, by simp⟩
  | cons p ps ih =>
      rw [pushOuts] at h
      simp only [Option.bind_eq_bind, Option.bind_eq_some_iff] at h
      obtain ⟨s₁, hs₁, h⟩ := h
      obtain ⟨g, hg, hlt, rfl⟩ := pushOut_eq_some.1 hs₁
      obtain ⟨⟨out, rfl⟩, hlen, hcount, hidx⟩ := ih h
      refine ⟨⟨out, rfl⟩, hlen.trans (List.length_modify ..), fun u o' => ?_,
        List.forall_mem_cons.2 ⟨by simp [hg], hidx⟩⟩
      rw [hcount, getD_modify, List.countP_cons]
      by_cases hgu : g = u
      · subst hgu
        by_cases hoo : o' = o
        · simp [hlt, hg, hoo]
          ring
        · simp [hlt, hoo, Ne.symm hoo]
      · have hne : ¬ p.guid? = some u := by simpa [hg] using hgu
        simp [hgu, hne]

/-- The edge of an evaluation, copied from that of the polynomial. -/
theorem Inv.eval {x : ℕ} {q : NodePtr} {old : OpObject} (hi : Inv heap mem outs pend new s)
    (he : heap[e]? = some exp) (hkey : e ∉ s.frontBackMap.map Prod.fst)
    (hop : exp.op = .eval) (hshare : exp.isShare = true) (hx : exp.oprands = [x])
    (hq : s.frontBackMap.lookup x = some (some q)) (hp : s.polyMap.lookup q = some old)
    (ht : old.type = .polilize) {s₁ : Builder}
    (hs : pushOuts s.ops.length old.inputs
      ((((s.newOp { old with type := .eval }).1.newNode exp.name exp.party .others).1.setOutput
        s.ops.length (.node s.current s.nodes.length)).pushIn s.nodes.length s.ops.length)
        = some s₁)
    (hs' : s' = s₁.memoize e (some (.node s.current s.nodes.length))) :
    Inv heap mem outs pend ((e, some (.node s.current s.nodes.length)) :: new) s' ∧
      Grows s.ops.length s s' := by
  obtain ⟨⟨out, rfl⟩, hlen, hcount, hidx⟩ := pushOuts_eq_some hs
  have hopsEq : s'.ops = s.ops ++
      [⟨.eval, old.inputs, some (.node s.current s.nodes.length)⟩] := by
    rw [hs']
    exact modify_append_last _ _ _
  have hother : ∀ o' : ℕ, o' ≠ s.ops.length → s'.ops[o']? = s.ops[o']? := by
    intro o' hne
    rw [hopsEq]
    rcases lt_or_gt_of_ne hne with hlt | hgt
    · exact List.getElem?_append_left hlt
    · rw [List.getElem?_eq_none (by simpa using hgt), List.getElem?_eq_none hgt.le]
  have hself : s'.ops[s.ops.length]? =
      some ⟨.eval, old.inputs, some (.node s.current s.nodes.length)⟩ := by
    rw [hopsEq]
    exact List.getElem?_concat_length
  have hnone : s.ops[s.ops.length]? = none := List.getElem?_eq_none le_rfl
  refine hi.edge he hkey (weight_eval hop) (by simp [Expression.genre, hop])
    (fun o' ho' => ?_) (fun o' ho' _ => ho') (fun op h => ?_) (by rw [hs']; rfl)
    (by rw [hs']; rfl) (by rw [hs']; rfl) ?_ ?_ (by rw [hs']; rfl) hother ?_ hself ?_
    fun hn hg => ?_
  · obtain ⟨op, h, -⟩ := hi.pending o' ho'
    exact ⟨(lt_of_getElem?_some h).ne, ho'⟩
  · rw [hnone] at h
    exact absurd h (by simp)
  · rw [hs', ← hi.inLength]
    exact modify_append_last _ _ _
  · rw [hs']
    exact hlen.trans List.length_append
  · rw [hopsEq]
    simp
  · intro u o'
    have hcnt := hcount u o'
    rw [hs']
    refine hcnt.trans ?_
    change ((s.outEdgesOf ++ [[]]).getD u []).count o' + _ = _
    rw [getD_concat_default, hi.uses]
    by_cases hoo : o' = s.ops.length
    · have huse : s'.usesOf o' u = old.inputs.countP fun p => p.guid? = some u := by
        rw [usesOf, hoo, hself]
        rfl
      rw [← hs', huse, if_pos hoo, hoo, usesOf_eq_zero le_rfl, zero_add]
    · rw [if_neg hoo, add_zero, ← hs', usesOf, usesOf, hother o' hoo]
  · refine hg.current ▸ Entry.eval hop hshare hx hn (hg.memo _ _ hq) (hg.poly _ _ hp) ht
      (hg.current ▸ hself) hidx fun g hmem => ?_
    exact hi.poly_lt q old g hp (hg.current ▸ hmem)

/-! ### Polynomials -/

theorem newCoeffs_spec (name : String) (party : PartyDecl) (i k : ℕ) (s : Builder) :
    newCoeffs name party i k s =
      ({ s with
          nodes := s.nodes ++ (List.range k).map fun j =>
            ⟨s.nodes.length + j, coeffName name (i + j), party, .others⟩
          inEdgesOf := s.inEdgesOf ++ List.replicate k []
          outEdgesOf := s.outEdgesOf ++ List.replicate k [] },
        (List.range k).map fun j => .node s.current (s.nodes.length + j)) := by
  induction k generalizing i s with
  | zero => simp [newCoeffs]
  | succ k ih =>
      simp only [newCoeffs, newNode, ih, List.range_succ_eq_map, List.map_cons, List.map_map,
        List.replicate_succ, List.append_assoc, List.singleton_append, Nat.add_zero]
      simp [Function.comp_def, coeffName, Nat.add_assoc, Nat.add_comm 1, current]

theorem getD_append_replicate (l : List (List ℕ)) (k u : ℕ) :
    (l ++ List.replicate k []).getD u [] = l.getD u [] := by
  induction k generalizing l with
  | zero => simp
  | succ k ih =>
      rw [List.replicate_succ, ← List.singleton_append, ← List.append_assoc, ih,
        getD_concat_default]

/-- A polynomial gets nodes for its coefficients, and its edge a side entry. -/
theorem Inv.poly {degree c : ℕ} {party : PartyDecl} {r : Option NodePtr}
    (hi : Inv heap mem outs pend new s) (he : heap[e]? = some exp)
    (hkey : e ∉ s.frontBackMap.map Prod.fst) (hop : exp.op = .polilize)
    (hcls : exp.cls = .poly degree party c) (hc : s.frontBackMap.lookup c = some r)
    {coeffs : List NodePtr} {s₁ : Builder}
    (hs₁ : newCoeffs exp.name party 0 degree s = (s₁, coeffs))
    (hs' : s' = { s₁ with polyMap := (.aux e, ⟨.polilize, r.toList ++ coeffs, some (.aux e)⟩) ::
      s₁.polyMap }.memoize e (some (.aux e))) :
    Inv heap mem outs pend ((e, some (.aux e)) :: new) s' ∧ Grows s.ops.length s s' := by
  rw [newCoeffs_spec] at hs₁
  simp only [zero_add, Prod.mk.injEq] at hs₁
  obtain ⟨rfl, rfl⟩ := hs₁
  have hpk : ∀ op, s.polyMap.lookup (.aux e) ≠ some op := by
    intro op h
    obtain ⟨e', hq, hr⟩ := hi.poly_key _ _ h
    cases hq
    exact hkey (mem_keys_of_lookup hr)
  have hpn : (NodePtr.aux e) ∉ s.polyMap.map Prod.fst := fun hmem => by
    obtain ⟨op, h⟩ := exists_lookup_of_mem_keys hmem
    exact hpk op h
  have hg : Grows s.ops.length s s' := by
    rw [hs']
    exact ⟨rfl, fun _ _ h => getElem?_append_some h, fun _ _ => rfl, le_rfl,
      fun _ _ h => getElem?_append_some h, fun _ _ h => lookup_cons_of_lookup hkey h,
      fun _ _ h => lookup_cons_of_lookup hpn h, by simp [memoize]⟩
  have hlen : s'.nodes.length = s.nodes.length + degree := by
    rw [hs']
    simp [memoize]
  refine ⟨hi.add he hkey hg (fun o op h _ => ?_) (by rw [hs']; rfl) ?_ ?_ ?_ ?_
    (fun o op ho h => Or.inl ⟨ho, ?_⟩) ?_ ?_ (by simp) ?_ ?_, hg⟩
  · rw [hs']
    exact h
  · rw [hlen, Expression.weight, hop, hcls]
  · rw [hs']
    simp [memoize, hi.inLength]
  · rw [hs']
    simp [memoize, hi.outLength]
  · refine .poly hop hcls (hg.memo _ _ hc) ?_ fun k hk => ?_
    · rw [hs']
      exact List.lookup_cons_self
    · rw [hs']
      constructor
      · change (s.nodes ++ _)[_]? = _
        rw [List.getElem?_append_right (Nat.le_add_right _ _), Nat.add_sub_cancel_left]
        simp [hk]
      · change (s.inEdgesOf ++ _)[_]? = _
        rw [← hi.inLength, List.getElem?_append_right (Nat.le_add_right _ _),
          Nat.add_sub_cancel_left]
        simp [hk]
  · rw [hs'] at h
    exact h
  · rw [hs']
    exact hi.pending
  · intro u o
    rw [hs']
    change ((s.outEdgesOf ++ List.replicate degree []).getD u []).count o = _
    rw [getD_append_replicate]
    exact hi.uses u o
  · intro q op g hq hmem
    have hcur : s'.current = s.current := hg.current
    rw [hs'] at hq
    change ((.aux e, _) :: s.polyMap).lookup q = _ at hq
    rw [hcur] at hmem
    by_cases hqe : q = .aux e
    · subst hqe
      rw [List.lookup_cons_self, Option.some.injEq] at hq
      subst hq
      rcases List.mem_append.1 hmem with hmem | hmem
      · rw [Option.mem_toList] at hmem
        exact (hi.ptr_lt c g (by rw [hc, hmem])).trans_le hg.nodesLength
      · obtain ⟨k, hk, hkg⟩ := List.mem_map.1 hmem
        rw [NodePtr.node.injEq] at hkg
        rw [List.mem_range] at hk
        omega
    · rw [lookup_cons_ne hqe] at hq
      exact (hi.poly_lt q op g hq hmem).trans_le hg.nodesLength
  · intro q op hq
    have hmemo : s'.frontBackMap = (e, some (.aux e)) :: s.frontBackMap := by
      rw [hs']
      rfl
    rw [hs'] at hq
    change ((.aux e, _) :: s.polyMap).lookup q = _ at hq
    by_cases hqe : q = .aux e
    · exact ⟨e, hqe, by rw [hmemo, hqe]; exact List.lookup_cons_self⟩
    · rw [lookup_cons_ne hqe] at hq
      obtain ⟨e', hq', hr'⟩ := hi.poly_key q op hq
      exact ⟨e', hq', hg.memo _ _ hr'⟩

end Steps

/-! ## Imports -/

/-- What an import does to the state of a build. -/
structure Imported (heap : Heap) (mem : Memory) (outs pend : List ℕ)
    (new : List (ℕ × Option NodePtr)) (s s' : Builder) (e : ℕ) (r : Option NodePtr)
    (added : List (ℕ × Option NodePtr)) : Prop where
  inv : Inv heap mem outs pend (added ++ new) s'
  grows : Grows s.ops.length s s'
  found : s'.frontBackMap.lookup e = some r
  reach : ∀ y ∈ added, heap.Reach e y.1

/-- The function imports as described, from any state of the build. -/
def Imports (heap : Heap) (mem : Memory) (outs : List ℕ) (imp : ℕ → Import) : Prop :=
  ∀ {x : ℕ} {s s' : Builder} {r : Option NodePtr} {pend : List ℕ}
    {new : List (ℕ × Option NodePtr)}, Inv heap mem outs pend new s →
    imp x s = some (s', r) → ∃ added, Imported heap mem outs pend new s s' x r added

variable {heap : Heap} {mem : Memory} {outs pend : List ℕ} {new : List (ℕ × Option NodePtr)}
  {s s' : Builder} {e : ℕ} {exp : Expression} {imp : ℕ → Import}

/-- The loop over the operands of a pending operation. -/
theorem importOprands_spec (himp : Imports heap mem outs imp) {o : ℕ} (ho : o ∈ pend)
    {t : Operator} {xs : List ℕ} {ins : List NodePtr} (hi : Inv heap mem outs pend new s)
    (hop : s.ops[o]? = some ⟨t, ins, none⟩) (h : importOprands heap imp o xs s = some s') :
    ∃ added ps, Inv heap mem outs pend (added ++ new) s' ∧ Grows o s s' ∧
      s'.ops[o]? = some ⟨t, ins ++ ps, none⟩ ∧
      List.Forall₂ (fun x p => s'.frontBackMap.lookup x = some (some p)) (heap.operands xs) ps ∧
      (∀ p ∈ ps, p.guid?.isSome) ∧ ∀ y ∈ added, ∃ x ∈ xs, heap.Reach x y.1 := by
  induction xs generalizing s new ins with
  | nil =>
      cases h
      exact ⟨[], [], hi, .refl o _, by simpa using hop, .nil, by simp, by simp⟩
  | cons x xs ih =>
      rw [importOprands] at h
      simp only [Option.bind_eq_bind, Option.bind_eq_some_iff] at h
      obtain ⟨ex, hex, h⟩ := h
      split at h
      · rename_i hc
        obtain ⟨added, ps, hi', hg, hop', hin, hidx, hr⟩ := ih hi hop h
        refine ⟨added, ps, hi', hg, hop', ?_, hidx, fun y hy => ?_⟩
        · rwa [Heap.operands, List.filter_cons_of_neg (by simp [hex, hc])]
        · obtain ⟨z, hz, hzy⟩ := hr y hy
          exact ⟨z, List.mem_cons_of_mem _ hz, hzy⟩
      · rename_i hc
        simp only [Option.bind_eq_some_iff] at h
        obtain ⟨⟨s₁, r⟩, h₁, p, hp, s₂, h₂, h⟩ := h
        simp only at hp h₂
        subst hp
        obtain ⟨added₁, hi₁, hg₁, hf₁, hr₁⟩ := himp hi h₁
        have hlt := lt_of_getElem?_some hop
        have hop₁ : s₁.ops[o]? = some ⟨t, ins, none⟩ := (hg₁.ops o hlt).trans hop
        obtain ⟨hi₂, hg₂, hop₂, hmemo, hidx₁⟩ := hi₁.link ho hop₁ h₂
        obtain ⟨added, ps, hi', hg, hop', hin, hidx, hr⟩ := ih hi₂ hop₂ h
        refine ⟨added ++ added₁, p :: ps, by rw [List.append_assoc]; exact hi',
          ((hg₁.mono hlt.le).trans hg₂ le_rfl).trans hg le_rfl, by simpa using hop', ?_,
          List.forall_mem_cons.2 ⟨hidx₁, hidx⟩, fun y hy => ?_⟩
        · rw [Heap.operands, List.filter_cons_of_pos (by simpa [hex] using hc)]
          exact .cons (hg.memo _ _ (hmemo ▸ hf₁)) hin
        · rcases List.mem_append.1 hy with hy | hy
          · obtain ⟨z, hz, hzy⟩ := hr y hy
            exact ⟨z, List.mem_cons_of_mem _ hz, hzy⟩
          · exact ⟨x, List.mem_cons_self .., hr₁ y hy⟩

theorem importCases_simple (hs : exp.isSimple = true) :
    importCases heap imp e exp s = (do
      let (s, o) := s.newOp ⟨exp.op, [], none⟩
      let s ← importOprands heap imp o exp.oprands s
      let g := s.nodes.length
      let (s, p) := s.newNode exp.name exp.party .others
      return ((s.pushIn g o).setOutput o p, some p)) := by
  rw [Expression.isSimple] at hs
  rw [importCases]
  split at hs <;> simp_all

/-- An expression does not become known while what it refers to is imported. -/
theorem not_mem_keys_of_follows {added : List (ℕ × Option NodePtr)} (hac : heap.Acyclic)
    (hi : Inv heap mem outs pend new s) (hi' : Inv heap mem outs pend (added ++ new) s')
    (hr : ∀ y ∈ added, ∃ x, heap.Follows e x ∧ heap.Reach x y.1)
    (hkey : e ∉ s.frontBackMap.map Prod.fst) : e ∉ s'.frontBackMap.map Prod.fst := by
  rw [hi'.memo, List.append_assoc, ← hi.memo, List.map_append, List.mem_append, not_or]
  refine ⟨fun h => ?_, hkey⟩
  obtain ⟨y, hy, rfl⟩ := List.mem_map.1 h
  obtain ⟨x, hex, hxe⟩ := hr y hy
  exact hac.not_reach hex hxe

/-- The cases of the switch, followed by the memo update. -/
theorem importCases_spec (hac : heap.Acyclic) (himp : Imports heap mem outs imp)
    (hi : Inv heap mem outs pend new s) (he : heap[e]? = some exp)
    (hkey : e ∉ s.frontBackMap.map Prod.fst) {r : Option NodePtr}
    (h : importCases heap imp e exp s = some (s', r)) :
    ∃ added, Imported heap mem outs pend new s (s'.memoize e r) e r ((e, r) :: added) := by
  have hfound : ∀ s₁ : Builder, (s₁.memoize e r).frontBackMap.lookup e = some r :=
    fun s₁ => List.lookup_cons_self
  by_cases hs : exp.isSimple = true
  · rw [importCases_simple hs] at h
    simp only [Option.bind_eq_bind, Option.bind_eq_some_iff, Option.pure_def,
      Option.some.injEq, Prod.mk.injEq] at h
    obtain ⟨s₁, h₁, rfl, rfl⟩ := h
    have hnew := hi.newOp exp.op
    obtain ⟨added, ps, hi₁, hg₁, hop₁, hin₁, hidx₁, hr₁⟩ := importOprands_spec himp
      (List.mem_cons_self ..) hnew List.getElem?_concat_length h₁
    have hfollow : ∀ y ∈ added, ∃ x, heap.Follows e x ∧ heap.Reach x y.1 := by
      intro y hy
      obtain ⟨x, hx, hxy⟩ := hr₁ y hy
      refine ⟨x, ⟨exp, he, ?_⟩, hxy⟩
      rw [Expression.refs]
      split
      · exact List.mem_cons_of_mem _ hx
      · exact hx
    have hkey₁ := not_mem_keys_of_follows hac hnew hi₁ hfollow hkey
    have hpend : s.ops.length ∉ pend := fun hmem => by
      obtain ⟨op, hop, -⟩ := hi.pending _ hmem
      exact absurd (lt_of_getElem?_some hop) (lt_irrefl _)
    obtain ⟨hi₂, hg₂⟩ := hi₁.simple hpend he hkey₁ hs hop₁ hin₁ hidx₁ rfl
    refine ⟨added, hi₂, ?_, hfound _, fun y hy => ?_⟩
    · have hg₀ : Grows s.ops.length s (s.newOp ⟨exp.op, [], none⟩).1 :=
        ⟨rfl, fun _ _ h => h, fun o ho => List.getElem?_append_left ho, by simp [Builder.newOp],
          fun _ _ h => h, fun _ _ h => h, fun _ _ h => h, le_rfl⟩
      exact (hg₀.trans hg₁ le_rfl).trans hg₂ le_rfl
    · rcases List.mem_cons.1 hy with rfl | hy
      · exact .refl
      · obtain ⟨x, hx, hxy⟩ := hfollow y hy
        exact .head hx hxy
  · have hself : ∀ y ∈ [(e, r)], heap.Reach e y.1 := fun y hy => by
      cases List.mem_singleton.1 hy
      exact .refl
    rw [importCases] at h
    split at h
    all_goals first
      | (rename_i hop; simp [Expression.isSimple, hop] at hs; done)
      | skip
    · -- NONE
      rename_i hop
      cases h
      exact ⟨[], hi.null he hkey (Or.inl hop), grows_memoize _ hkey, hfound _, hself⟩
    · -- INPUT
      rename_i hop
      have hin : ∀ (t : NodeGenre), exp.isPlaceholder = true → exp.genre = t →
          ((s.newNode exp.name exp.party t).1, some (NodePtr.node s.current s.nodes.length)) =
            (s', r) → ∃ added, Imported heap mem outs pend new s (s'.memoize e r) e r
              ((e, r) :: added) := by
        rintro t hp rfl h
        cases h
        exact ⟨[], hi.input he hkey hp, (grows_newNode _ s _ _ _).trans
          (grows_memoize s.ops.length hkey) le_rfl, hfound _, hself⟩
      split at h
      · rename_i hc
        exact hin .input (by simp [Expression.isPlaceholder, hop, hc])
          (by simp [Expression.genre, hop, hc]) (Option.some.inj h)
      · rename_i hc
        exact hin .input (by simp [Expression.isPlaceholder, hop, hc])
          (by simp [Expression.genre, hop, hc]) (Option.some.inj h)
      · rename_i hc
        exact hin .others (by simp [Expression.isPlaceholder, hop, hc])
          (by simp [Expression.genre, hop, hc]) (Option.some.inj h)
      · rename_i h₁ h₂ h₃
        cases h
        refine ⟨[], hi.null he hkey (Or.inr ⟨hop, ?_⟩), grows_memoize _ hkey, hfound _, hself⟩
        rw [Expression.isPlaceholder, Bool.and_eq_false_iff]
        exact Or.inr (by simpa using ⟨⟨h₁, h₂⟩, h₃⟩)
    · -- EVAL
      rename_i hop
      split at h
      · rename_i x hx
        split at h
        · rename_i hshare
          simp only [Option.bind_eq_bind, Option.bind_eq_some_iff] at h
          obtain ⟨⟨s₁, r₁⟩, h₁, q, hq, old, hold, h⟩ := h
          simp only at hq hold h
          subst hq
          split at h
          · rename_i ht
            simp only [Option.bind_eq_some_iff, Option.pure_def, Option.some.injEq,
              Prod.mk.injEq] at h
            obtain ⟨s₂, h₂, rfl, rfl⟩ := h
            obtain ⟨added, hi₁, hg₁, hf₁, hr₁⟩ := himp hi h₁
            have hex : heap.Follows e x := by
              refine ⟨exp, he, ?_⟩
              rw [Expression.refs, hx]
              split <;> simp
            have hkey₁ := not_mem_keys_of_follows hac hi hi₁
              (fun y hy => ⟨x, hex, hr₁ y hy⟩) hkey
            obtain ⟨hi₂, hg₂⟩ := hi₁.eval he hkey₁ hop hshare hx hf₁ hold ht h₂ rfl
            refine ⟨added, hi₂, hg₁.trans hg₂ hg₁.opsLength, hfound _, fun y hy => ?_⟩
            rcases List.mem_cons.1 hy with rfl | hy
            · exact .refl
            · exact .head hex (hr₁ y hy)
          · exact absurd h (by simp)
        · exact absurd h (by simp)
      · exact absurd h (by simp)
    · -- POLILIZE
      rename_i hop
      split at h
      · rename_i degree party c hcls
        simp only [Option.bind_eq_bind, Option.bind_eq_some_iff] at h
        obtain ⟨⟨s₁, r₁⟩, h₁, h⟩ := h
        simp only [Option.pure_def, Option.some.injEq, Prod.mk.injEq] at h
        obtain ⟨rfl, rfl⟩ := h
        obtain ⟨added, hi₁, hg₁, hf₁, hr₁⟩ := himp hi h₁
        have hec : heap.Follows e c := ⟨exp, he, by simp [Expression.refs, hcls]⟩
        have hkey₁ := not_mem_keys_of_follows hac hi hi₁ (fun y hy => ⟨c, hec, hr₁ y hy⟩) hkey
        obtain ⟨hi₂, hg₂⟩ := hi₁.poly he hkey₁ hop hcls hf₁ rfl rfl
        refine ⟨added, hi₂, hg₁.trans hg₂ hg₁.opsLength, hfound _, fun y hy => ?_⟩
        rcases List.mem_cons.1 hy with rfl | hy
        · exact .refl
        · exact .head hec (hr₁ y hy)
      · exact absurd h (by simp)

/-- **An import keeps the invariant**, and adds only what the expression reaches. -/
theorem imports_importFrontend (hac : heap.Acyclic) (fuel : ℕ) :
    Imports heap mem outs (importFrontend heap fuel) := by
  induction fuel with
  | zero => exact fun _ h => absurd h (by simp [importFrontend])
  | succ fuel ih =>
      intro x s s' r pend new hi h
      rw [importFrontend] at h
      simp only at h
      split at h
      · rename_i p hp
        cases h
        exact ⟨[], hi, .refl _ _, hp, by simp⟩
      · rename_i hnone
        simp only [Option.bind_eq_bind, Option.bind_eq_some_iff] at h
        obtain ⟨ex, hex, ⟨s₁, r₁⟩, h₁, h⟩ := h
        cases h
        obtain ⟨added, h⟩ := importCases_spec hac ih hi hex
          (lookup_eq_none_iff_keys.1 hnone) h₁
        exact ⟨_, h⟩

end Builder

end Gauv
