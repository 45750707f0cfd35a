import Gauv.Backend.Import
import Gauv.Backend.Adjacency

/-!
# What a build leaves

The blocks of the memo entries are disjoint and cover the nodes, so an entry can
be looked up by its expression.  Marking an output changes the genre of one node
and nothing else.  Over the loop of `build` this gives the invariant of the
finished builder, from which its graph is read off.
-/

namespace Gauv

open Relation

namespace Builder

/-! ## Blocks -/

/-- The number of nodes an expression owns. -/
def weightAt (heap : Heap) (e : ℕ) : ℕ := (heap[e]?).elim 0 Expression.weight

/-- The first node of the block of an expression. -/
def startOf (heap : Heap) : List (ℕ × Option NodePtr) → ℕ → ℕ
  | [], _ => 0
  | (k, _) :: rest, e => if k = e then total heap rest else startOf heap rest e

variable {heap : Heap} {new : List (ℕ × Option NodePtr)} {s s' : Builder} {outs : List ℕ}

theorem total_cons (x : ℕ × Option NodePtr) :
    total heap (x :: new) = weightAt heap x.1 + total heap new := rfl

theorem startOf_add_le {e : ℕ} (he : e ∈ new.map Prod.fst) :
    startOf heap new e + weightAt heap e ≤ total heap new := by
  induction new with
  | nil => exact absurd he List.not_mem_nil
  | cons x new ih =>
      obtain ⟨k, r⟩ := x
      rw [total_cons, startOf]
      by_cases hk : k = e
      · rw [if_pos hk, hk, add_comm]
      · rw [if_neg hk]
        have := ih ((List.mem_cons.1 he).resolve_left (Ne.symm hk))
        omega

/-- Different expressions own disjoint blocks. -/
theorem startOf_disjoint (heap : Heap) {new : List (ℕ × Option NodePtr)} {e e' : ℕ}
    (hne : e ≠ e') (he : e ∈ new.map Prod.fst) (he' : e' ∈ new.map Prod.fst) :
    startOf heap new e + weightAt heap e ≤ startOf heap new e' ∨
      startOf heap new e' + weightAt heap e' ≤ startOf heap new e := by
  induction new with
  | nil => exact absurd he List.not_mem_nil
  | cons x new ih =>
      obtain ⟨k, r⟩ := x
      rw [startOf, startOf]
      rw [List.map_cons, List.mem_cons] at he he'
      by_cases hk : k = e
      · have hk' : k ≠ e' := fun h => hne (hk.symm.trans h)
        rw [if_pos hk, if_neg hk']
        exact Or.inr (startOf_add_le (he'.resolve_left (Ne.symm hk')))
      · rw [if_neg hk]
        by_cases hk' : k = e'
        · rw [if_pos hk']
          exact Or.inl (startOf_add_le (he.resolve_left (Ne.symm hk)))
        · rw [if_neg hk']
          exact ih (he.resolve_left (Ne.symm hk)) (he'.resolve_left (Ne.symm hk'))

/-- Every node lies in a block. -/
theorem exists_block {i : ℕ} (hn : (new.map Prod.fst).Nodup) (hi : i < total heap new) :
    ∃ e ∈ new.map Prod.fst,
      startOf heap new e ≤ i ∧ i < startOf heap new e + weightAt heap e := by
  induction new with
  | nil => exact absurd hi (Nat.not_lt_zero _)
  | cons x new ih =>
      obtain ⟨k, r⟩ := x
      rw [List.map_cons, List.nodup_cons] at hn
      rw [total_cons] at hi
      by_cases hlt : i < total heap new
      · obtain ⟨e, he, h⟩ := ih hn.2 hlt
        refine ⟨e, List.mem_cons_of_mem _ he, ?_⟩
        rwa [startOf, if_neg fun hk : k = e => hn.1 (hk ▸ he)]
      · refine ⟨k, List.mem_cons_self .., ?_⟩
        rw [startOf, if_pos rfl]
        exact ⟨not_lt.1 hlt, by simpa [add_comm] using hi⟩

/-- The entries, one by one. -/
theorem laid_iff (hn : (new.map Prod.fst).Nodup) :
    Laid heap s outs new ↔ ∀ x ∈ new, ∃ exp, heap[x.1]? = some exp ∧
      Entry heap s outs (startOf heap new x.1) x.1 exp x.2 := by
  induction new with
  | nil => simp [Laid]
  | cons x new ih =>
      obtain ⟨k, r⟩ := x
      rw [List.map_cons, List.nodup_cons] at hn
      have hne : ∀ x ∈ new, k ≠ x.1 := fun x hx hk =>
        hn.1 (List.mem_map.2 ⟨x, hx, hk.symm⟩)
      rw [Laid, ih hn.2, List.forall_mem_cons, startOf, if_pos rfl, and_comm]
      refine and_congr Iff.rfl (forall₂_congr fun x hx => ?_)
      rw [startOf, if_neg (hne x hx)]

theorem Inv.keys_new {mem : Memory} {pend : List ℕ} (hi : Inv heap mem outs pend new s) :
    (new.map Prod.fst).Nodup := by
  have := hi.keys
  rw [hi.memo, List.map_append] at this
  exact (List.nodup_append.1 this).1

/-- The entry of an expression that this build has imported. -/
theorem Inv.entry {mem : Memory} {pend : List ℕ} (hi : Inv heap mem outs pend new s) {e : ℕ}
    {r : Option NodePtr} (he : (e, r) ∈ new) :
    ∃ exp, heap[e]? = some exp ∧ Entry heap s outs (startOf heap new e) e exp r :=
  (laid_iff hi.keys_new).1 hi.laid (e, r) he

/-- The entry that owns the node at an index. -/
theorem Inv.owner {mem : Memory} {pend : List ℕ} (hi : Inv heap mem outs pend new s) {i : ℕ}
    (hlt : i < total heap new) : ∃ e r exp, (e, r) ∈ new ∧ heap[e]? = some exp ∧
      Entry heap s outs (startOf heap new e) e exp r ∧ startOf heap new e ≤ i ∧
        i < startOf heap new e + exp.weight := by
  obtain ⟨e, he, hle, hlt⟩ := exists_block hi.keys_new hlt
  obtain ⟨⟨e, r⟩, hr, rfl⟩ := List.mem_map.1 he
  obtain ⟨exp, hexp, hent⟩ := hi.entry hr
  rw [weightAt, hexp, Option.elim_some] at hlt
  exact ⟨e, r, exp, hr, hexp, hent, hle, hlt⟩

/-- A node is that of an expression, or a coefficient of a polynomial. -/
theorem Inv.node_cases {mem : Memory} {pend : List ℕ} (hi : Inv heap mem outs pend new s) {i : ℕ}
    {n : Node} (h : s.nodes[i]? = some n) : ∃ e r exp, (e, r) ∈ new ∧ heap[e]? = some exp ∧
      ((r = some (.node s.current i) ∧ n = ⟨i, exp.name, exp.party, genreOf outs e exp⟩) ∨
        ∃ degree party c k, exp.cls = .poly degree party c ∧
          n = ⟨i, coeffName exp.name k, party, .others⟩) := by
  have hlt : i < total heap new := by
    rw [← hi.length]
    exact lt_of_getElem?_some h
  obtain ⟨e, r, exp, hr, hexp, hent, hle, hlt⟩ := hi.owner hlt
  refine ⟨e, r, exp, hr, hexp, ?_⟩
  -- in a block of one node the node is the first
  have hone : exp.weight = 1 → ∀ l, NodeFor s outs e exp (startOf heap new e) l →
      some (.node s.current (startOf heap new e)) = some (NodePtr.node s.current i) ∧
        n = ⟨i, exp.name, exp.party, genreOf outs e exp⟩ := by
    intro hw l hn
    obtain rfl : i = startOf heap new e := by omega
    rw [hn.node, Option.some.injEq] at h
    exact ⟨rfl, h.symm⟩
  cases hent with
  | null hop =>
      rw [weight_null hop] at hlt
      exact absurd hlt (by omega)
  | input hin hn => exact Or.inl (hone (weight_placeholder hin) _ hn)
  | simple hop hn ho hin hidx hlt' => exact Or.inl (hone (weight_simple hop) _ hn)
  | eval hop hs hx hn hq hp ht ho hidx hlt' => exact Or.inl (hone (weight_eval hop) _ hn)
  | @poly degree c party r hop hcls hc hp hn =>
      rw [Expression.weight, hop, hcls] at hlt
      obtain ⟨k, rfl⟩ := Nat.exists_eq_add_of_le hle
      rw [(hn k (by simpa using hlt)).1, Option.some.injEq] at h
      exact Or.inr ⟨degree, party, c, k, hcls, h.symm⟩

theorem Inv.mem_new {mem : Memory} {pend : List ℕ} (hi : Inv heap mem outs pend new s) {e : ℕ}
    {r : Option NodePtr} (h : s.frontBackMap.lookup e = some r)
    (hold : e ∉ mem.frontBackMap.map Prod.fst) : (e, r) ∈ new := by
  have := mem_of_lookup h
  rw [hi.memo, List.mem_append] at this
  exact this.resolve_right fun hmem => hold (List.mem_map_of_mem hmem)

/-! ## Marking outputs -/

/-- The party of node object `g` of build `b`, among the nodes of earlier builds. -/
def partyAt (earlier : List (List Node)) (b g : ℕ) : Option PartyDecl :=
  ((earlier.getD b [])[g]?).map Node.party

/-- What the memory holds before a build: distinct keys, and pointers to earlier
builds only. -/
structure MemoryValid (mem : Memory) : Prop where
  keys : (mem.frontBackMap.map Prod.fst).Nodup
  ptr : ∀ e b g, mem.frontBackMap.lookup e = some (some (.node b g)) → b < mem.earlier.length
  poly : ∀ q op b g, mem.polyMap.lookup q = some op → .node b g ∈ op.inputs →
    b < mem.earlier.length
  poly_key : ∀ q op, mem.polyMap.lookup q = some op →
    ∃ e, q = .aux e ∧ mem.frontBackMap.lookup e = some (some q)

theorem memoryValid_fresh : MemoryValid .fresh :=
  ⟨List.nodup_nil, by simp [Memory.fresh], by simp [Memory.fresh], by simp [Memory.fresh]⟩

theorem inv_start {mem : Memory} (hm : MemoryValid mem) : Inv heap mem [] [] [] (start mem) where
  memo := rfl
  keys := hm.keys
  earlier := rfl
  length := rfl
  inLength := rfl
  outLength := rfl
  laid := trivial
  done := by
    intro o op _ h
    exact absurd h (by simp [start])
  pending := by simp
  uses := by
    intro u o
    simp [start, usesOf]
  outs_keys := by simp
  ptr_lt := fun e g h => absurd (hm.ptr e _ g h) (lt_irrefl _)
  poly_lt := fun q op g h hg => absurd (hm.poly q op _ g h hg) (lt_irrefl _)
  poly_key := hm.poly_key

theorem markOutput_frame (s : Builder) (p : NodePtr) :
    (s.markOutput p).frontBackMap = s.frontBackMap ∧ (s.markOutput p).polyMap = s.polyMap ∧
      (s.markOutput p).ops = s.ops ∧ (s.markOutput p).inEdgesOf = s.inEdgesOf ∧
      (s.markOutput p).outEdgesOf = s.outEdgesOf ∧
      (s.markOutput p).nodes.length = s.nodes.length ∧
      (s.markOutput p).earlier.length = s.earlier.length := by
  cases p with
  | node b g =>
      rw [markOutput]
      split <;> simp
  | aux q => exact ⟨rfl, rfl, rfl, rfl, rfl, rfl, rfl⟩

theorem markOutput_partyAt (s : Builder) (p : NodePtr) (b g : ℕ) :
    partyAt (s.markOutput p).earlier b g = partyAt s.earlier b g := by
  cases p with
  | node b' g' =>
      rw [markOutput]
      split
      · rfl
      · rw [partyAt, partyAt, List.getD_eq_getElem?_getD, List.getD_eq_getElem?_getD,
          List.getElem?_modify]
        cases s.earlier[b]? with
        | none => rfl
        | some ns =>
            simp only [Option.map_eq_map, Option.map_some, Option.getD_some]
            split
            · rw [List.getElem?_modify]
              cases ns[g]? with
              | none => rfl
              | some n => split <;> rfl
            · rfl
  | aux q => rfl

/-- The nodes after an output is marked: the one it points to has changed its
genre. -/
theorem markOutput_nodes (s : Builder) (p : NodePtr) (i : ℕ) (n : Node)
    (h : s.nodes[i]? = some n) :
    (s.markOutput p).nodes[i]? =
      some { n with type := if p = .node s.current i then .output else n.type } := by
  cases p with
  | node b g =>
      rw [markOutput]
      by_cases hb : b = s.current
      · rw [if_pos hb]
        by_cases hg : g = i
        · subst hg
          simp [List.getElem?_modify_eq, h, hb]
        · simp [List.getElem?_modify_ne _ _ hg, h, hg]
      · simp [hb, h]
  | aux q => simp [markOutput, h]

/-- A pointer into the current build belongs to an entry of this build. -/
theorem Inv.mem_new_of_current {mem : Memory} {pend : List ℕ} (hm : MemoryValid mem)
    (hi : Inv heap mem outs pend new s) {e g : ℕ}
    (he : s.frontBackMap.lookup e = some (some (.node s.current g))) :
    (e, some (.node s.current g)) ∈ new := by
  refine hi.mem_new he fun hmem => ?_
  obtain ⟨r, hr⟩ := exists_lookup_of_mem_keys hmem
  have hn : e ∉ new.map Prod.fst := by
    intro hn
    have hk := hi.keys
    rw [hi.memo, List.map_append] at hk
    exact (List.nodup_append.1 hk).2.2 _ hn _ hmem rfl
  have : s.frontBackMap.lookup e = some r := by
    rw [hi.memo, List.lookup_append, lookup_eq_none_iff_keys.2 hn, hr]
    rfl
  rw [he, Option.some.injEq] at this
  have hb := hm.ptr e _ g (by rw [hr, ← this])
  rw [← hi.earlier] at hb
  exact lt_irrefl _ hb

theorem Inv.mark {mem : Memory} {pend : List ℕ} (hm : MemoryValid mem)
    (hi : Inv heap mem outs pend new s) {e : ℕ} {p : NodePtr}
    (he : s.frontBackMap.lookup e = some (some p)) :
    Inv heap mem (e :: outs) pend new (s.markOutput p) := by
  obtain ⟨hmemo, hpoly, hops, hins, houts, hlen, hear⟩ := markOutput_frame s p
  have hcur : (s.markOutput p).current = s.current := hear
  -- a pointer into the current build is that of a new entry, and names its block
  have hself : ∀ g, p = .node s.current g → (e, some p) ∈ new ∧ g = startOf heap new e ∧
      weightAt heap e = 1 := by
    rintro g rfl
    have hmem := hi.mem_new_of_current hm he
    obtain ⟨exp, hexp, hent⟩ := hi.entry hmem
    obtain ⟨hw, -, hg⟩ := hent.of_node
    exact ⟨hmem, hg, by rw [weightAt, hexp, Option.elim_some, hw]⟩
  -- nodes of other entries keep their genre
  have hother : ∀ {e' r' i n}, (e', r') ∈ new → e' ≠ e → startOf heap new e' ≤ i →
      i < startOf heap new e' + weightAt heap e' → s.nodes[i]? = some n →
      (s.markOutput p).nodes[i]? = some n := by
    intro e' r' i n hx hee hle hlt hn
    rw [markOutput_nodes s p i n hn, if_neg]
    intro hp
    obtain ⟨hmem, hst, hw⟩ := hself i hp
    have hd := startOf_disjoint heap hee (List.mem_map_of_mem hx)
      (List.mem_map_of_mem hmem)
    omega
  exact {
    memo := hmemo.trans hi.memo
    keys := by rw [hmemo]; exact hi.keys
    earlier := hear.trans hi.earlier
    length := hlen.trans hi.length
    inLength := by rw [hins, hlen]; exact hi.inLength
    outLength := by rw [houts, hlen]; exact hi.outLength
    laid := by
      rw [laid_iff hi.keys_new]
      rintro ⟨e', r'⟩ hx
      obtain ⟨exp, hexp, hent⟩ := hi.entry hx
      have hlook : s.frontBackMap.lookup e' = some r' :=
        lookup_of_mem hi.keys (by rw [hi.memo]; exact List.mem_append_left _ hx)
      refine ⟨exp, hexp, ?_⟩
      simp only at hent ⊢
      have hkeep : ∀ {l}, exp.weight = 1 → r' = some (.node s.current (startOf heap new e')) →
          NodeFor s outs e' exp (startOf heap new e') l →
          NodeFor (s.markOutput p) (e :: outs) e' exp (startOf heap new e') l := by
        rintro l hw rfl hn
        refine ⟨?_, hins ▸ hn.inEdges⟩
        by_cases hee : e' = e
        · subst hee
          rw [he, Option.some.injEq, Option.some.injEq] at hlook
          rw [markOutput_nodes s p _ _ hn.node, if_pos hlook]
          simp [genreOf]
        · have hw' : weightAt heap e' = 1 := by rw [weightAt, hexp, Option.elim_some, hw]
          rw [hother hx hee le_rfl (by omega) hn.node]
          simp [genreOf, hee]
      cases hent with
      | null hop => exact .null hop
      | input hin hn =>
          rw [← hcur]
          exact .input hin (hkeep (weight_placeholder hin) rfl hn)
      | simple hop hn ho hin hidx hlt =>
          have hn' := hkeep (weight_simple hop) rfl hn
          rw [← hcur] at ho hlt ⊢
          exact .simple hop hn' (hops ▸ ho) (hmemo ▸ hin) hidx hlt
      | eval hop hs hxs hn hq hp ht ho hidx hlt =>
          have hn' := hkeep (weight_eval hop) rfl hn
          rw [← hcur] at ho hlt ⊢
          exact .eval hop hs hxs hn' (hmemo ▸ hq) (hpoly ▸ hp) ht (hops ▸ ho) hidx hlt
      | @poly degree c party r hop hcls hc hp hn =>
          have hwp : weightAt heap e' = degree := by
            rw [weightAt, hexp, Option.elim_some, Expression.weight, hop, hcls]
          rw [← hcur] at hp
          refine .poly hop hcls (hmemo ▸ hc) (hpoly ▸ hp) fun k hk => ⟨?_, hins ▸ (hn k hk).2⟩
          by_cases hee : e' = e
          · -- marking a polynomial marks no node
            subst hee
            rw [he, Option.some.injEq, Option.some.injEq] at hlook
            rw [hlook]
            exact (hn k hk).1
          · exact hother hx hee (Nat.le_add_right _ _) (by omega) (hn k hk).1
    done := by
      intro o op ho hop
      rw [hops] at hop
      rw [hins, hcur]
      exact hi.done o op ho hop
    pending := by
      rw [hops]
      exact hi.pending
    uses := by
      intro u o
      rw [houts, usesOf, hops]
      exact hi.uses u o
    outs_keys := by
      intro e' he'
      rw [hmemo]
      rcases List.mem_cons.1 he' with rfl | he'
      · exact mem_keys_of_lookup he
      · exact hi.outs_keys e' he'
    ptr_lt := by
      intro e' g h
      rw [hmemo, hcur] at h
      rw [hlen]
      exact hi.ptr_lt e' g h
    poly_lt := by
      intro q op g h hg
      rw [hpoly] at h
      rw [hcur] at hg
      rw [hlen]
      exact hi.poly_lt q op g h hg
    poly_key := by
      rw [hpoly, hmemo]
      exact hi.poly_key }

/-! ## The loop over the outputs -/

/-- What the loop over the outputs has done when it returns. -/
structure ImportedAll (heap : Heap) (mem : Memory) (outs : List ℕ)
    (new : List (ℕ × Option NodePtr)) (s s' : Builder) (outputs : List ℕ)
    (added : List (ℕ × Option NodePtr)) : Prop where
  inv : Inv heap mem (outputs.reverse ++ outs) [] (added ++ new) s'
  earlier : ∀ b g, partyAt s'.earlier b g = partyAt s.earlier b g
  poly : ∀ q op, s.polyMap.lookup q = some op → s'.polyMap.lookup q = some op
  memo : ∀ e r, s.frontBackMap.lookup e = some r → s'.frontBackMap.lookup e = some r
  found : ∀ e ∈ outputs, ∃ p, s'.frontBackMap.lookup e = some (some p)
  reach : ∀ y ∈ added, ∃ e ∈ outputs, heap.Reach e y.1

theorem importOutputs_spec {mem : Memory} (hac : heap.Acyclic) (hm : MemoryValid mem)
    {outputs : List ℕ} (hi : Inv heap mem outs [] new s)
    (h : importOutputs heap outputs s = some s') :
    ∃ added, ImportedAll heap mem outs new s s' outputs added := by
  induction outputs generalizing s outs new with
  | nil =>
      cases h
      exact ⟨[], hi, fun _ _ => rfl, fun _ _ h => h, fun _ _ h => h, by simp, by simp⟩
  | cons out outputs ih =>
      rw [importOutputs] at h
      simp only [Option.bind_eq_bind, Option.bind_eq_some_iff] at h
      obtain ⟨⟨s₁, r⟩, h₁, p, hp, h⟩ := h
      simp only at hp h
      subst hp
      obtain ⟨added₁, hi₁, hg₁, hf₁, hr₁⟩ := imports_importFrontend hac _ hi h₁
      obtain ⟨added, hi₂, hear, hpoly, hmemo, hfound, hreach⟩ := ih (hi₁.mark hm hf₁) h
      have hframe := (markOutput_frame s₁ p).1
      refine ⟨added ++ added₁, ?_, fun b g => ?_, fun q op hq => ?_, fun e r he => ?_,
        fun e he => ?_, fun y hy => ?_⟩
      · rw [List.append_assoc]
        simpa using hi₂
      · rw [hear, markOutput_partyAt, hg₁.earlier]
      · exact hpoly q op (by rw [(markOutput_frame s₁ p).2.1]; exact hg₁.poly q op hq)
      · exact hmemo e r (by rw [hframe]; exact hg₁.memo e r he)
      · rcases List.mem_cons.1 he with rfl | he
        · exact ⟨p, hmemo _ _ (by rw [hframe]; exact hf₁)⟩
        · exact hfound e he
      · rcases List.mem_append.1 hy with hy | hy
        · obtain ⟨e, he, h⟩ := hreach y hy
          exact ⟨e, List.mem_cons_of_mem _ he, h⟩
        · exact ⟨out, List.mem_cons_self .., hr₁ y hy⟩

/-! ## The graph of a first build -/

section Fresh

variable {pend : List ℕ}

theorem Inv.mem_new_fresh (hi : Inv heap .fresh outs pend new s) {e : ℕ} {r : Option NodePtr}
    (h : s.frontBackMap.lookup e = some r) : (e, r) ∈ new :=
  hi.mem_new h (by simp [Memory.fresh])

theorem Inv.lookup_new {mem : Memory} (hi : Inv heap mem outs pend new s) {e : ℕ}
    {r : Option NodePtr} (h : (e, r) ∈ new) : s.frontBackMap.lookup e = some r :=
  lookup_of_mem hi.keys (by rw [hi.memo]; exact List.mem_append_left _ h)

/-- On a first build every pointer to a node names the current build. -/
theorem Inv.ptr_fresh (hi : Inv heap .fresh outs pend new s) {e b g : ℕ}
    (h : s.frontBackMap.lookup e = some (some (.node b g))) :
    b = s.current ∧ g = startOf heap new e := by
  obtain ⟨exp, -, hent⟩ := hi.entry (hi.mem_new_fresh h)
  exact ⟨hent.of_node.2.1, hent.of_node.2.2⟩

/-- The inputs of the side entry of a polynomial. -/
theorem Inv.poly_fresh (hi : Inv heap .fresh outs pend new s) {q : NodePtr} {op : OpObject}
    (h : s.polyMap.lookup q = some op) {b g : ℕ} (hg : .node b g ∈ op.inputs) :
    b = s.current := by
  obtain ⟨e, rfl, hr⟩ := hi.poly_key q op h
  obtain ⟨exp, -, hent⟩ := hi.entry (hi.mem_new_fresh hr)
  cases hent with
  | poly hop hcls hc hp hn =>
      rw [hp, Option.some.injEq] at h
      subst h
      rcases List.mem_append.1 hg with hg | hg
      · rw [Option.mem_toList] at hg
        subst hg
        exact (hi.ptr_fresh hc).1
      · obtain ⟨k, -, hk⟩ := List.mem_map.1 hg
        rw [NodePtr.node.injEq] at hk
        exact hk.1.symm

/-- Where the inputs of an edge come from. -/
inductive InputsOf (heap : Heap) (s : Builder) (exp : Expression) (inputs : List NodePtr) : Prop
  | simple (hop : exp.isSimple = true)
      (hin : List.Forall₂ (fun x p => s.frontBackMap.lookup x = some (some p))
        (heap.operands exp.oprands) inputs)
  | eval {x : ℕ} {q : NodePtr} {old : OpObject} (hop : exp.op = .eval)
      (hs : exp.isShare = true) (hx : exp.oprands = [x])
      (hq : s.frontBackMap.lookup x = some (some q)) (hp : s.polyMap.lookup q = some old)
      (ht : old.type = .polilize) (hold : old.inputs = inputs)

/-- The operation at `o` is the edge of expression `e`. -/
structure EdgeOf (heap : Heap) (outs : List ℕ) (new : List (ℕ × Option NodePtr)) (s : Builder)
    (e : ℕ) (exp : Expression) (o : ℕ) (inputs : List NodePtr) : Prop where
  mem : (e, some (.node s.current (startOf heap new e))) ∈ new
  exp_eq : heap[e]? = some exp
  nodeFor : NodeFor s outs e exp (startOf heap new e) [o]
  op : s.ops[o]? = some ⟨exp.op, inputs, some (.node s.current (startOf heap new e))⟩
  inputsOf : InputsOf heap s exp inputs
  idx : ∀ p ∈ inputs, p.guid?.isSome
  lt : ∀ g, .node s.current g ∈ inputs → g < startOf heap new e

/-- A node with an in-edge belongs to an expression, whose edge it is. -/
theorem Inv.edgeOf_of_inEdges {mem : Memory} (hi : Inv heap mem outs pend new s) {i : ℕ}
    {l : List ℕ} (hl : s.inEdgesOf[i]? = some l) (hne : l ≠ []) :
    ∃ e exp o inputs, l = [o] ∧ i = startOf heap new e ∧
      EdgeOf heap outs new s e exp o inputs := by
  have hlt : i < total heap new := by
    rw [← hi.length, ← hi.inLength]
    exact lt_of_getElem?_some hl
  obtain ⟨e, r, exp, hr, hexp, hent, hle, hlt⟩ := hi.owner hlt
  have hone : exp.weight = 1 → i = startOf heap new e := fun hw => by omega
  cases hent with
  | null hop =>
      rw [weight_null hop] at hlt
      exact absurd hlt (by omega)
  | input hin hn =>
      rw [hone (weight_placeholder hin), hn.inEdges, Option.some.injEq] at hl
      exact absurd hl.symm hne
  | @simple o inputs hop hn ho hin hidx hlt' =>
      have hio := hone (weight_simple hop)
      rw [hio, hn.inEdges, Option.some.injEq] at hl
      exact ⟨e, exp, o, inputs, hl.symm, hio, hr, hexp, hn, ho, .simple hop hin, hidx, hlt'⟩
  | @eval o x q old hop hs hx hn hq hp ht ho hidx hlt' =>
      have hio := hone (weight_eval hop)
      rw [hio, hn.inEdges, Option.some.injEq] at hl
      exact ⟨e, exp, o, old.inputs, hl.symm, hio, hr, hexp, hn, hop ▸ ho,
        .eval hop hs hx hq hp ht rfl, hidx, hlt'⟩
  | @poly degree c party r hop hcls hc hp hn =>
      rw [Expression.weight, hop, hcls] at hlt
      obtain ⟨k, rfl⟩ := Nat.exists_eq_add_of_le hle
      rw [(hn k (by simpa using hlt)).2, Option.some.injEq] at hl
      exact absurd hl.symm hne

/-- A complete operation is the edge of an expression. -/
theorem Inv.edgeOf_of_op {mem : Memory} (hi : Inv heap mem outs [] new s) {o : ℕ} {op : OpObject}
    (h : s.ops[o]? = some op) : ∃ e exp inputs, EdgeOf heap outs new s e exp o inputs := by
  obtain ⟨i, -, hl⟩ := hi.done o op List.not_mem_nil h
  obtain ⟨e, exp, o', inputs, hoo, -, hedge⟩ := hi.edgeOf_of_inEdges hl (by simp)
  rw [List.singleton_inj.1 hoo]
  exact ⟨e, exp, inputs, hedge⟩

/-- The inputs of an edge are nodes of the current build. -/
theorem EdgeOf.inputs_fresh {e o : ℕ} {exp : Expression} {inputs : List NodePtr}
    (hi : Inv heap .fresh outs pend new s) (h : EdgeOf heap outs new s e exp o inputs)
    {p : NodePtr} (hp : p ∈ inputs) :
    ∃ g, p = .node s.current g ∧ g < startOf heap new e := by
  cases p with
  | aux q => exact absurd (h.idx _ hp) (by simp [NodePtr.guid?])
  | node b g =>
      have hb : b = s.current := by
        cases h.inputsOf with
        | simple hop hin =>
            obtain ⟨x, -, hx⟩ := exists_of_mem_right hin hp
            exact (hi.ptr_fresh hx).1
        | eval hop hs hx hq hpm ht hold =>
            rw [← hold] at hp
            exact hi.poly_fresh hpm hp
      subst hb
      exact ⟨g, rfl, h.lt g hp⟩

/-- The inputs of every edge are nodes of this build, made before its output. -/
def InputsHere (heap : Heap) (outs : List ℕ) (new : List (ℕ × Option NodePtr)) (s : Builder) :
    Prop :=
  ∀ {e o : ℕ} {exp : Expression} {inputs : List NodePtr},
    EdgeOf heap outs new s e exp o inputs →
      ∀ p ∈ inputs, ∃ g, p = .node s.current g ∧ g < startOf heap new e

theorem Inv.inputsHere_fresh (hi : Inv heap .fresh outs pend new s) :
    InputsHere heap outs new s := fun hedge _ hp => hedge.inputs_fresh hi hp

/-! ### Reading the graph off -/

theorem opAt_id (team o : ℕ) : (s.opAt team o).id = o := rfl

theorem opAt_injective (team : ℕ) : Function.Injective (s.opAt team) := fun o o' h => by
  rw [← opAt_id (s := s) team o, h, opAt_id]

theorem inEdges_toGraphBase (team v : ℕ) :
    (s.toGraphBase team).inEdges v = (s.inEdgesOf.getD v []).map (s.opAt team) := by
  rw [GraphBase.inEdges, OpTable.at', toGraphBase, List.getD_eq_getElem?_getD, List.getElem?_map,
    List.getD_eq_getElem?_getD]
  cases s.inEdgesOf[v]? <;> rfl

theorem outEdges_toGraphBase (team u : ℕ) :
    (s.toGraphBase team).outEdges u = (s.outEdgesOf.getD u []).map (s.opAt team) := by
  rw [GraphBase.outEdges, OpTable.at', toGraphBase, List.getD_eq_getElem?_getD, List.getElem?_map,
    List.getD_eq_getElem?_getD]
  cases s.outEdgesOf[u]? <;> rfl

theorem node?_toGraphBase (team i : ℕ) : (s.toGraphBase team).node? i = s.nodes[i]? := by
  rw [GraphBase.node?, toGraphBase, List.getD_eq_getElem?_getD, List.getElem?_map]
  cases s.nodes[i]? <;> rfl

/-- The guid of every node is its index. -/
theorem Inv.guid_eq {mem : Memory} (hi : Inv heap mem outs pend new s) {i : ℕ} {n : Node}
    (h : s.nodes[i]? = some n) : n.guid = i := by
  obtain ⟨e, r, exp, -, -, ⟨-, rfl⟩ | ⟨degree, party, c, k, -, rfl⟩⟩ := hi.node_cases h
  · rfl
  · rfl

theorem nodeAt_current {g : ℕ} {n : Node} (h : s.nodes[g]? = some n) :
    s.nodeAt (.node s.current g) = n := by
  rw [nodeAt, if_pos rfl, List.getD_eq_getElem?_getD, h]
  rfl

/-- The finished form of an edge. -/
theorem EdgeOf.opAt {e o : ℕ} {exp : Expression} {inputs : List NodePtr}
    (h : EdgeOf heap outs new s e exp o inputs) (team : ℕ) :
    (s.opAt team o).type = exp.op ∧ (s.opAt team o).inputs = inputs.map s.nodeAt ∧
      (s.opAt team o).output =
        ⟨startOf heap new e, exp.name, exp.party, genreOf outs e exp⟩ := by
  rw [Builder.opAt, List.getD_eq_getElem?_getD, h.op]
  exact ⟨rfl, rfl, nodeAt_current h.nodeFor.node⟩

theorem EdgeOf.hasEdge {e o : ℕ} {exp : Expression} {inputs : List NodePtr}
    (h : EdgeOf heap outs new s e exp o inputs) (team : ℕ) :
    (s.toGraphBase team).HasEdge (s.opAt team o) := by
  rw [GraphBase.HasEdge, inEdges_toGraphBase, (h.opAt team).2.2, List.getD_eq_getElem?_getD,
    h.nodeFor.inEdges]
  exact List.mem_singleton_self _

/-- What the lists of the graph contain. -/
theorem Inv.exists_of_listed {mem : Memory} (hi : Inv heap mem outs [] new s) {team : ℕ}
    {f : Operation} (hf : (s.toGraphBase team).Listed f) :
    ∃ o e exp inputs, f = s.opAt team o ∧ EdgeOf heap outs new s e exp o inputs := by
  rcases hf with ⟨v, hv⟩ | ⟨u, hu⟩
  · rw [inEdges_toGraphBase, List.mem_map] at hv
    obtain ⟨o, ho, rfl⟩ := hv
    rw [List.getD_eq_getElem?_getD] at ho
    cases hl : s.inEdgesOf[v]? with
    | none => simp [hl] at ho
    | some l =>
        rw [hl, Option.getD_some] at ho
        obtain ⟨e, exp, o', inputs, rfl, -, hedge⟩ :=
          hi.edgeOf_of_inEdges hl (List.ne_nil_of_mem ho)
        rw [List.mem_singleton.1 ho]
        exact ⟨o', e, exp, inputs, rfl, hedge⟩
  · rw [outEdges_toGraphBase, List.mem_map] at hu
    obtain ⟨o, ho, rfl⟩ := hu
    have hpos := List.count_pos_iff.2 ho
    rw [hi.uses, usesOf] at hpos
    cases hop : s.ops[o]? with
    | none => simp [hop] at hpos
    | some op =>
        obtain ⟨e, exp, inputs, hedge⟩ := hi.edgeOf_of_op hop
        exact ⟨o, e, exp, inputs, rfl, hedge⟩

/-- A build whose edges read its own nodes makes a well-formed graph. -/
theorem Inv.wellFormed {mem : Memory} (hi : Inv heap mem outs [] new s)
    (hh : InputsHere heap outs new s) (team : ℕ) : (s.toGraphBase team).WellFormed where
  inLength := by simp [toGraphBase, GraphBase.nodeSize, hi.inLength]
  outLength := by simp [toGraphBase, GraphBase.nodeSize, hi.outLength]
  guid_eq := by
    intro i n h
    rw [node?_toGraphBase] at h
    exact hi.guid_eq h
  address := by
    intro f f' hf hf' hid
    obtain ⟨o, -, -, -, rfl, -⟩ := hi.exists_of_listed hf
    obtain ⟨o', -, -, -, rfl, -⟩ := hi.exists_of_listed hf'
    rw [opAt_id, opAt_id] at hid
    rw [hid]
  in_once := by
    intro f hf v
    obtain ⟨o, e, exp, inputs, rfl, hedge⟩ := hi.exists_of_listed hf
    rw [inEdges_toGraphBase, List.count_map_of_injective _ _ (opAt_injective team),
      (hedge.opAt team).2.2, List.getD_eq_getElem?_getD]
    simp only
    cases hl : s.inEdgesOf[v]? with
    | none =>
        rw [if_neg]
        · simp
        · rintro rfl
          rw [hedge.nodeFor.inEdges] at hl
          exact absurd hl (by simp)
    | some l =>
        by_cases hne : l = []
        · subst hne
          rw [if_neg]
          · simp
          · rintro rfl
            rw [hedge.nodeFor.inEdges] at hl
            exact absurd hl (by simp)
        · obtain ⟨e', exp', o', inputs', rfl, hv, hedge'⟩ := hi.edgeOf_of_inEdges hl hne
          rw [Option.getD_some, List.count_singleton]
          by_cases hoo : o' = o
          · subst hoo
            have hop := hedge.op.symm.trans hedge'.op
            simp only [Option.some.injEq, OpObject.mk.injEq, NodePtr.node.injEq] at hop
            rw [hv, hop.2.2.2]
            simp
          · rw [if_neg (by simpa using hoo), if_neg]
            rintro rfl
            rw [hedge.nodeFor.inEdges, Option.some.injEq] at hl
            exact hoo (List.singleton_inj.1 hl).symm
  out_count := by
    intro u f
    rw [outEdges_toGraphBase]
    by_cases hf : (s.toGraphBase team).HasEdge f
    · rw [if_pos hf]
      obtain ⟨o, e, exp, inputs, rfl, hedge⟩ := hi.exists_of_listed (Or.inl ⟨_, hf⟩)
      rw [List.count_map_of_injective _ _ (opAt_injective team), hi.uses, usesOf, hedge.op,
        Option.elim_some, Operation.inputCount, (hedge.opAt team).2.1, List.map_map, List.count,
        List.countP_map]
      refine List.countP_congr fun p hp => ?_
      obtain ⟨g, rfl, hg⟩ := hh hedge p hp
      have hlt : g < s.nodes.length := hg.trans (lt_of_getElem?_some hedge.nodeFor.node)
      have hn := List.getElem?_eq_getElem hlt
      simp [nodeAt_current hn, hi.guid_eq hn, NodePtr.guid?]
    · rw [if_neg hf]
      refine List.count_eq_zero.2 fun hmem => hf ?_
      obtain ⟨o, e, exp, inputs, rfl, hedge⟩ := hi.exists_of_listed
        (Or.inr ⟨u, by rw [outEdges_toGraphBase]; exact hmem⟩)
      exact hedge.hasEdge team
  live := by
    intro f hf n hn
    obtain ⟨o, e, exp, inputs, rfl, hedge⟩ := hi.exists_of_listed hf
    rw [node?_toGraphBase]
    rcases List.mem_cons.1 hn with rfl | hn
    · rw [(hedge.opAt team).2.2]
      exact hedge.nodeFor.node
    · rw [(hedge.opAt team).2.1, List.mem_map] at hn
      obtain ⟨p, hp, rfl⟩ := hn
      obtain ⟨g, rfl, hg⟩ := hh hedge p hp
      have hlt : g < s.nodes.length := hg.trans (lt_of_getElem?_some hedge.nodeFor.node)
      have hnode := List.getElem?_eq_getElem hlt
      rw [nodeAt_current hnode, hi.guid_eq hnode]
      exact hnode

end Fresh

end Builder

theorem build_eq_some {team : ℕ} {heap : Heap} {mem mem' : Memory} {outputs : List ℕ}
    {g : GraphBase} : build team heap mem outputs = some (g, mem') ↔
      ∃ s, Builder.importOutputs heap outputs (.start mem) = some s ∧
        g = s.toGraphBase team ∧ mem' = s.leave := by
  rw [build]
  simp only [Option.bind_eq_bind, Option.bind_eq_some_iff, Option.pure_def, Option.some.injEq,
    Prod.mk.injEq]
  exact exists_congr fun s => and_congr Iff.rfl (and_congr eq_comm eq_comm)

/-- The state a build that returns ends in. -/
theorem importedAll_of_build {team : ℕ} {heap : Heap} (hac : heap.Acyclic) {mem mem' : Memory}
    (hm : Builder.MemoryValid mem) {outputs : List ℕ} {g : GraphBase}
    (h : build team heap mem outputs = some (g, mem')) :
    ∃ s new, g = s.toGraphBase team ∧ mem' = s.leave ∧
      Builder.ImportedAll heap mem [] [] (.start mem) s outputs new := by
  obtain ⟨s, hs, rfl, rfl⟩ := build_eq_some.1 h
  obtain ⟨added, hall⟩ := Builder.importOutputs_spec hac hm (Builder.inv_start hm) hs
  exact ⟨s, added, rfl, rfl, hall⟩

/-- **A first build makes a well-formed graph.** -/
theorem wellFormed_build {team : ℕ} {heap : Heap} (hac : heap.Acyclic) {outputs : List ℕ}
    {g : GraphBase} {mem : Memory} (h : build team heap .fresh outputs = some (g, mem)) :
    g.WellFormed := by
  obtain ⟨s, new, rfl, -, hall⟩ := importedAll_of_build hac Builder.memoryValid_fresh h
  exact hall.inv.wellFormed hall.inv.inputsHere_fresh team

end Gauv
