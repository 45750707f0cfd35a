import Gauv.Backend.Memory
import Gauv.Backend.Counters

/-!
# A graph read after later builds

A graph holds pointers to node objects, and so do the memo tables.  A later build
that takes an output from the tables writes the genre of its node object, and a
graph of an earlier build changes with it.  This file says what an earlier graph
reads as after any number of builds: the nodes of the outputs met since are
marked, and nothing else is different.
-/

namespace Gauv

open Relation

namespace Builder

/-! ## Reading node objects later -/

/-- The builder of an earlier build, its node objects read from the memory. -/
def readIn (s : Builder) (mem : Memory) : Builder :=
  { s with earlier := mem.earlier.take s.current, nodes := mem.earlier.getD s.current [] }

/-- Mark the node that the tables hold for `out`, if they hold one. -/
def markKnown (s : Builder) (out : ℕ) : Builder :=
  match s.frontBackMap.lookup out with
  | some (some p) => s.markOutput p
  | _ => s

/-- Mark the nodes that the tables hold for the outputs. -/
def markAll (s : Builder) (outs : List ℕ) : Builder := outs.foldl markKnown s

variable {heap : Heap} {mem : Memory} {prev outs pend : List ℕ}
  {new : List (ℕ × Option NodePtr)} {s t t' : Builder} {e : ℕ} {exp : Expression}

@[simp] theorem markAll_nil (s : Builder) : s.markAll [] = s := rfl

@[simp] theorem markAll_cons (s : Builder) (out : ℕ) (outs : List ℕ) :
    s.markAll (out :: outs) = (s.markKnown out).markAll outs := rfl

theorem markAll_append (s : Builder) (outs outs' : List ℕ) :
    s.markAll (outs ++ outs') = (s.markAll outs).markAll outs' := List.foldl_append

/-- Only the objects of a build and of those before it are read. -/
theorem readIn_congr {mem mem' : Memory} (h : mem.earlier = mem'.earlier) :
    s.readIn mem = s.readIn mem' := by
  unfold readIn
  rw [h]

/-- Read at once, the nodes are those the build has made. -/
theorem readIn_leave (s : Builder) : s.readIn s.leave = s := by
  unfold readIn leave current
  simp

/-- What a build leaves is read as before, if the build is a later one. -/
theorem readIn_leave_later (hlt : s.current < t.current) :
    s.readIn t.leave = s.readIn t.toMemory := by
  have hlen : s.current < t.earlier.length := hlt
  unfold readIn
  simp only [leave]
  rw [List.take_append_of_le_length hlen.le, List.getD_append _ _ _ _ hlen]

/-- A mark on a node of the build, or of an earlier one, is seen. -/
theorem readIn_markOutput_old (hlt : s.current < t.current) {b g : ℕ} (hb : b ≤ s.current) :
    s.readIn (t.markOutput (.node b g)).toMemory =
      (s.readIn t.toMemory).markOutput (.node b g) := by
  have hlen : s.current < t.earlier.length := hlt
  have hne : b ≠ t.current := by omega
  have hcur : (s.readIn t.toMemory).current = s.current := by
    show (t.earlier.take s.current).length = s.current
    rw [List.length_take]
    omega
  have htake : (t.earlier.take s.current).length = s.current := hcur
  rw [markOutput, if_neg hne, markOutput, hcur]
  unfold readIn
  simp only [List.take_modify, List.getD_eq_getElem?_getD, List.getElem?_modify]
  by_cases hbs : b = s.current
  · rw [if_pos hbs, List.modify_eq_self (by omega)]
    simp [hbs, List.getElem?_eq_getElem hlen]
  · simp [hbs]

/-- A mark on a node of a later build is not. -/
theorem readIn_markOutput_new {b g : ℕ} (hb : s.current < b) :
    s.readIn (t.markOutput (.node b g)).toMemory = s.readIn t.toMemory := by
  rw [markOutput]
  split
  · exact readIn_congr rfl
  · have htake : (t.earlier.take s.current).length ≤ b := by
      rw [List.length_take]
      omega
    have hne : b ≠ s.current := by omega
    unfold readIn
    simp only [List.take_modify, List.getD_eq_getElem?_getD, List.getElem?_modify,
      List.modify_eq_self htake, if_neg hne]
    simp

/-! ## What a memory keeps of an earlier build -/

/-- The memory has grown out of what the builder `s` left: the nodes of `s` are still
there, and it points to them, and to older ones, for the expressions `s` knew. -/
structure Kept (s : Builder) (mem : Memory) : Prop where
  lt : s.current < mem.earlier.length
  known : ∀ e b g, s.frontBackMap.lookup e = some (some (.node b g)) → b ≤ s.current
  memo : ∀ e r, s.frontBackMap.lookup e = some r → mem.frontBackMap.lookup e = some r
  back : ∀ e b g, mem.frontBackMap.lookup e = some (some (.node b g)) → b ≤ s.current →
    s.frontBackMap.lookup e = some (some (.node b g))

theorem kept_leave (hm : MemoryValid s.leave) : Kept s s.leave where
  lt := by simp [leave, current]
  known := by
    intro e b g h
    have hb := hm.ptr e b g h
    rw [leave, List.length_append, List.length_singleton] at hb
    exact Nat.le_of_lt_succ hb
  memo := fun _ _ h => h
  back := fun _ _ _ h _ => h

/-- While a later build runs, the memory keeps the earlier build. -/
theorem Kept.during (hk : Kept s mem) (hi : Inv heap mem outs pend new t) :
    Kept s t.toMemory where
  lt := by
    show s.current < t.earlier.length
    rw [hi.earlier]
    exact hk.lt
  known := hk.known
  memo := by
    intro e r h
    have hmem := mem_of_lookup (hk.memo e r h)
    exact lookup_of_mem hi.keys (by rw [hi.memo]; exact List.mem_append_right _ hmem)
  back := by
    intro e b g h hb
    rcases hi.lookup_cases h with hn | hn
    · -- what the build has imported points to its own nodes
      obtain ⟨exp, -, hent⟩ := hi.entry hn
      have hcur := hent.of_node.2.1
      have hlt := hk.lt
      rw [← hi.earlier] at hlt
      rw [current] at hcur
      omega
    · exact hk.back e b g hn hb

theorem Kept.leave (hk : Kept s t.toMemory) : Kept s t.leave where
  lt := by
    have hlt := hk.lt
    simp only [Builder.leave, List.length_append]
    omega
  known := hk.known
  memo := hk.memo
  back := hk.back

/-- **An output met later is marked**, if the earlier build knew it. -/
theorem Kept.readIn_mark (hk : Kept s t.toMemory) {out : ℕ} {p : NodePtr}
    (hp : t.frontBackMap.lookup out = some (some p)) :
    s.readIn (t.markOutput p).toMemory = (s.readIn t.toMemory).markKnown out := by
  have hsame : (s.readIn t.toMemory).frontBackMap = s.frontBackMap := rfl
  rw [markKnown, hsame]
  cases p with
  | aux q =>
      rw [markOutput]
      split
      · rename_i p' hp'
        have hpp := hk.memo out _ hp'
        rw [hp] at hpp
        cases hpp
        rfl
      · rfl
  | node b g =>
      by_cases hb : b ≤ s.current
      · rw [hk.back out b g hp hb]
        exact readIn_markOutput_old hk.lt hb
      · rw [readIn_markOutput_new (not_le.1 hb)]
        split
        · rename_i p' hp'
          have hpp := hk.memo out _ hp'
          rw [hp] at hpp
          cases hpp
          exact absurd (hk.known out b g hp') hb
        · rfl

/-- The loop over the outputs of a later build marks those that `s` knew. -/
theorem Kept.readIn_importOutputs (hac : heap.Acyclic) (hm : MemoryValid mem) (hk : Kept s mem)
    {outputs : List ℕ} (hi : Inv heap mem outs [] new t)
    (h : importOutputs heap outputs t = some t') :
    s.readIn t'.toMemory = (s.readIn t.toMemory).markAll outputs := by
  induction outputs generalizing t outs new with
  | nil =>
      cases h
      rfl
  | cons out outputs ih =>
      rw [importOutputs] at h
      simp only [Option.bind_eq_bind, Option.bind_eq_some_iff] at h
      obtain ⟨⟨t₁, r⟩, h₁, p, hp, h⟩ := h
      simp only at hp h
      subst hp
      obtain ⟨added, hi₁, hg₁, hf₁, -⟩ := imports_importFrontend hac _ hi h₁
      rw [ih (hi₁.mark hm hf₁) h, (hk.during hi₁).readIn_mark hf₁, markAll_cons]
      congr 2
      exact readIn_congr hg₁.earlier

/-! ## The marked graph -/

/-- Marking leaves everything but the genres of nodes as it was. -/
theorem markKnown_frame (s : Builder) (out : ℕ) :
    (s.markKnown out).frontBackMap = s.frontBackMap ∧ (s.markKnown out).ops = s.ops ∧
      (s.markKnown out).inEdgesOf = s.inEdgesOf ∧ (s.markKnown out).current = s.current := by
  rw [markKnown]
  split
  · rename_i p _
    obtain ⟨hmemo, -, hops, hins, -, -, hear⟩ := markOutput_frame s p
    exact ⟨hmemo, hops, hins, hear⟩
  · exact ⟨rfl, rfl, rfl, rfl⟩

theorem markAll_frame (s : Builder) (es : List ℕ) :
    (s.markAll es).frontBackMap = s.frontBackMap ∧ (s.markAll es).ops = s.ops ∧
      (s.markAll es).inEdgesOf = s.inEdgesOf ∧ (s.markAll es).current = s.current := by
  induction es generalizing s with
  | nil => exact ⟨rfl, rfl, rfl, rfl⟩
  | cons out es ih =>
      obtain ⟨hmemo, hops, hins, hcur⟩ := ih (s.markKnown out)
      obtain ⟨hmemo', hops', hins', hcur'⟩ := markKnown_frame s out
      exact ⟨hmemo.trans hmemo', hops.trans hops', hins.trans hins', hcur.trans hcur'⟩

/-- A node stays as it is, or becomes an output because of an expression it is for. -/
theorem markAll_nodes (s : Builder) (es : List ℕ) {i : ℕ} {n : Node} (h : s.nodes[i]? = some n) :
    (s.markAll es).nodes[i]? = some n ∨
      ((s.markAll es).nodes[i]? = some { n with type := .output } ∧
        ∃ e ∈ es, s.frontBackMap.lookup e = some (some (.node s.current i))) := by
  induction es generalizing s n with
  | nil => exact Or.inl h
  | cons out es ih =>
      obtain ⟨hmemo, -, -, hcur⟩ := markKnown_frame s out
      rw [markAll_cons]
      by_cases hp : s.frontBackMap.lookup out = some (some (.node s.current i))
      · have hn : (s.markKnown out).nodes[i]? = some { n with type := .output } := by
          rw [markKnown, hp]
          simp only
          rw [markOutput_nodes s _ i n h, if_pos rfl]
        refine Or.inr ⟨?_, out, List.mem_cons_self .., hp⟩
        rcases ih _ hn with hn' | ⟨hn', -⟩
        · exact hn'
        · exact hn'
      · have hn : (s.markKnown out).nodes[i]? = some n := by
          rw [markKnown]
          split
          · rename_i p hp'
            rw [markOutput_nodes s p i n h, if_neg]
            rintro rfl
            exact hp hp'
          · exact h
        rcases ih _ hn with hn' | ⟨hn', e, he, hlook⟩
        · exact Or.inl hn'
        · rw [hmemo, hcur] at hlook
          exact Or.inr ⟨hn', e, List.mem_cons_of_mem _ he, hlook⟩

theorem markAll_nodes_length (s : Builder) (es : List ℕ) :
    (s.markAll es).nodes.length = s.nodes.length := by
  induction es generalizing s with
  | nil => rfl
  | cons out es ih =>
      rw [markAll_cons, ih, markKnown]
      split
      · exact (markOutput_frame s _).2.2.2.2.2.1
      · rfl

/-- The outputs are marked after it that were before, or that the tables know. -/
theorem Inv.markAll (hm : MemoryValid mem) (hi : Inv heap mem outs pend new s) (es : List ℕ) :
    ∃ outs', Inv heap mem outs' pend new (s.markAll es) ∧
      ∀ e, e ∈ outs' ↔ e ∈ outs ∨ e ∈ es ∧ ∃ p, s.frontBackMap.lookup e = some (some p) := by
  induction es generalizing s outs with
  | nil => exact ⟨outs, hi, by simp⟩
  | cons out es ih =>
      have hmemo := (markKnown_frame s out).1
      rw [markAll_cons]
      by_cases hp : ∃ p, s.frontBackMap.lookup out = some (some p)
      · obtain ⟨p, hp⟩ := hp
        have hmark : s.markKnown out = s.markOutput p := by
          rw [markKnown, hp]
        rw [hmark] at hmemo ⊢
        obtain ⟨outs', hi', houts⟩ := ih (hi.mark hm hp)
        refine ⟨outs', hi', fun e => ?_⟩
        rw [houts, hmemo, List.mem_cons, List.mem_cons]
        by_cases he : e = out
        · subst he
          simp [hp]
        · simp [he]
      · have hmark : s.markKnown out = s := by
          rw [markKnown]
          split
          · rename_i p hp'
            exact absurd ⟨p, hp'⟩ hp
          · rfl
        rw [hmark]
        obtain ⟨outs', hi', houts⟩ := ih hi
        refine ⟨outs', hi', fun e => ?_⟩
        rw [houts, List.mem_cons]
        by_cases he : e = out
        · subst he
          simp [hp]
        · simp [he]

/-- The edges read the same nodes. -/
theorem InputsHere.markAll (hi : Inv heap mem outs [] new s) (hh : InputsHere heap outs new s)
    {es outs' : List ℕ} : InputsHere heap outs' new (s.markAll es) := by
  obtain ⟨-, hops, hins, hcur⟩ := markAll_frame s es
  intro e o exp inputs hedge p hp
  have hin := hedge.nodeFor.inEdges
  rw [hins] at hin
  obtain ⟨e', exp', o', inputs', hoo, hee, hedge'⟩ := hi.edgeOf_of_inEdges hin (by simp)
  have hop := hedge.op
  rw [hops, List.singleton_inj.1 hoo, hedge'.op] at hop
  simp only [Option.some.injEq, OpObject.mk.injEq] at hop
  rw [← hop.2.1] at hp
  obtain ⟨g, hg, hlt⟩ := hh hedge' p hp
  exact ⟨g, by rw [hcur, hg], by rw [hee]; exact hlt⟩

theorem Entry.nodeFor_of_node {i b g : ℕ} (h : Entry heap s outs i e exp (some (.node b g))) :
    ∃ l, NodeFor s outs e exp i l := by
  cases h with
  | input _ hn => exact ⟨_, hn⟩
  | simple _ hn _ _ _ _ => exact ⟨_, hn⟩
  | eval _ _ _ hn _ _ _ _ _ _ => exact ⟨_, hn⟩

/-- A mark is no news for a node that is an input or marked already. -/
theorem Inv.isInOut_of_known (hm : MemoryValid mem) (hi : Inv heap mem outs [] new s) {i : ℕ}
    {n : Node} (hn : s.nodes[i]? = some n)
    (hlook : s.frontBackMap.lookup e = some (some (.node s.current i)))
    (hgenre : ∀ exp, heap[e]? = some exp → e ∉ outs → exp.genre ≠ .others) :
    n.isInOut = true := by
  obtain ⟨exp, hexp, hent⟩ := hi.entry (hi.mem_new_of_current hm hlook)
  obtain ⟨-, -, hpos⟩ := hent.of_node
  obtain ⟨l, hnode⟩ := hent.nodeFor_of_node
  rw [hpos, hnode.node, Option.some.injEq] at hn
  rw [← hn, Node.isInOut, Node.isInput, Node.isOutput, genreOf]
  by_cases he : e ∈ outs
  · simp [he]
  · have hne := hgenre exp hexp he
    rw [if_neg he]
    unfold Expression.genre at hne ⊢
    split at hne
    · simp [*]
    · exact absurd rfl hne

/-- If no expression is marked whose node is neither an input nor marked already, the
counts are the same. -/
theorem Inv.counts_markAll (hm : MemoryValid mem) (hi : Inv heap mem outs [] new s)
    (es : List ℕ) (hes : ∀ e ∈ es, ∀ g, s.frontBackMap.lookup e = some (some (.node s.current g)) →
      ∀ exp, heap[e]? = some exp → e ∉ outs → exp.genre ≠ .others)
    (team : ℕ) (C : Finset PartyDecl) :
    ((s.markAll es).toGraphBase team).countRandom = (s.toGraphBase team).countRandom ∧
      ((s.markAll es).toGraphBase team).countBubble C = (s.toGraphBase team).countBubble C := by
  have hins := (markAll_frame s es).2.2.1
  have hdeg : ∀ i, ((s.markAll es).toGraphBase team).inDeg i = (s.toGraphBase team).inDeg i := by
    intro i
    rw [GraphBase.inDeg, GraphBase.inDeg, inEdges_toGraphBase, inEdges_toGraphBase, hins,
      List.length_map, List.length_map]
  -- a node that is marked counts as before
  have hnode : ∀ i, ∀ p q : Node → Bool, (∀ n n' : Node, n'.guid = n.guid → n'.party = n.party →
      n'.isInOut = n.isInOut → q n' = p n) →
      (((s.markAll es).toGraphBase team).node? i).any q =
        ((s.toGraphBase team).node? i).any p := by
    intro i p q hpq
    rw [node?_toGraphBase, node?_toGraphBase]
    cases hn : s.nodes[i]? with
    | none =>
        have hlen := markAll_nodes_length s es
        rw [List.getElem?_eq_none_iff] at hn
        rw [List.getElem?_eq_none (by omega)]
        rfl
    | some n =>
        rcases markAll_nodes s es hn with h | ⟨h, e, he, hlook⟩
        · rw [h]
          exact hpq n n rfl rfl rfl
        · rw [h]
          refine hpq n _ rfl rfl ?_
          rw [hi.isInOut_of_known hm hn hlook (hes e he i hlook)]
          simp [Node.isInOut, Node.isOutput]
  constructor
  · rw [GraphBase.countRandom, GraphBase.countRandom, GraphBase.countP_nodes,
      GraphBase.countP_nodes]
    refine congrArg (fun A : Set ℕ => (A.ncard : ℤ)) (Set.ext fun i => ?_)
    rw [Set.mem_ofPred_eq, Set.mem_ofPred_eq, hnode i (s.toGraphBase team).isRandom]
    intro n n' hg _ hio
    simp only [GraphBase.isRandom, Bool.and_assoc, ← Bool.not_or]
    rw [hg, hdeg]
    exact congrArg (fun b => decide _ && !b) hio
  · rw [GraphBase.countBubble, GraphBase.countBubble, GraphBase.countP_nodes,
      GraphBase.countP_nodes]
    refine congrArg (fun A : Set ℕ => (A.ncard : ℤ)) (Set.ext fun i => ?_)
    rw [Set.mem_ofPred_eq, Set.mem_ofPred_eq, hnode i ((s.toGraphBase team).isBubble C)]
    intro n n' hg hp hio
    rw [GraphBase.isBubble, GraphBase.isBubble, hg, hp, hio, hdeg]

end Builder

/-- **What an earlier graph reads as.**  After builds that return, its nodes are marked for
the outputs that its builder knew, and nothing else has changed. -/
theorem readIn_builds {team : ℕ} {heap : Heap} (hac : heap.Acyclic) {mem mem' : Memory}
    {prev : List ℕ} {s : Builder} (hm : Builder.Remembers heap prev mem) (hk : s.Kept mem)
    {later : List (List ℕ)} (hsh : heap.Shaped (prev ++ later.flatten)) {gs : List GraphBase}
    (h : builds team heap mem later = some (gs, mem')) :
    s.readIn mem' = (s.readIn mem).markAll later.flatten ∧ s.Kept mem' := by
  induction later generalizing prev mem gs with
  | nil =>
      rw [builds] at h
      cases h
      exact ⟨rfl, hk⟩
  | cons outputs rest ih =>
      rw [builds] at h
      simp only [Option.bind_eq_bind, Option.bind_eq_some_iff, Option.pure_def,
        Option.some.injEq, Prod.mk.injEq] at h
      obtain ⟨⟨g, mem₁⟩, h₁, ⟨gs', mem₂⟩, h₂, -, rfl⟩ := h
      obtain ⟨t, ht, -, rfl⟩ := build_eq_some.1 h₁
      have hi₀ : Builder.Inv heap mem [] [] [] (.start mem) := Builder.inv_start hm.valid
      obtain ⟨new, hall⟩ := Builder.importOutputs_spec hac hm.valid hi₀ ht
      have hkt : s.Kept t.toMemory := hk.during (by simpa using hall.inv)
      rw [List.flatten_cons, ← List.append_assoc] at hsh
      obtain ⟨hread, hkept⟩ := ih (hall.remembers hsh.left hm) hkt.leave hsh h₂
      refine ⟨?_, hkept⟩
      rw [hread, Builder.readIn_leave_later hkt.lt, List.flatten_cons, Builder.markAll_append,
        hk.readIn_importOutputs hac hm.valid hi₀ ht]
      rfl

/-- Taking `out` for an output changes the genre of a node of the graph for `outputs`:
the graph has a node for it, which is neither an input nor among those `marked` so far. -/
def Heap.Retypes (heap : Heap) (outputs marked : List ℕ) (out : ℕ) : Prop :=
  heap.Reached outputs out ∧ out ∉ marked ∧
    ∃ exp, heap[out]? = some exp ∧ exp.HasNode ∧ exp.genre = .others

/-- The graph with its edges and nodes read again; the counters are as they were. -/
def Graph.reread (g : Graph) (b : GraphBase) : Graph := { g with toGraphBase := b }

end Gauv
