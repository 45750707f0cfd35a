import Gauv.Backend.Memory

/-!
# A build after other builds

A later build returns the graph of a first build exactly when it meets no
expression that an earlier build has imported, apart from those that get no
nodes.  One direction runs the two builds side by side; the other counts nodes:
what is found in the memo table is missing from the new graph.
-/

namespace Gauv

open Relation

/-! ## The same graph -/

/-- The same operation at another address. -/
def Operation.moveTo (σ : ℕ → ℕ) (e : Operation) : Operation := { e with id := σ e.id }

/-- The same graph with its operations at other addresses. -/
def GraphBase.moveTo (σ : ℕ → ℕ) (g : GraphBase) : GraphBase where
  inEdgesOf := g.inEdgesOf.map fun es => es.map (Operation.moveTo σ)
  outEdgesOf := g.outEdgesOf.map fun es => es.map (Operation.moveTo σ)
  nodes := g.nodes

/-- The graphs are equal up to the identity of the operation objects. -/
def GraphBase.SameAs (g g' : GraphBase) : Prop :=
  ∃ σ : ℕ → ℕ, Function.Injective σ ∧ g.moveTo σ = g'

theorem GraphBase.SameAs.refl (g : GraphBase) : g.SameAs g := by
  refine ⟨id, Function.injective_id, ?_⟩
  have hid : Operation.moveTo id = id := rfl
  simp [moveTo, hid]

/-- No edge of the graph names a node beyond its vector of nodes. -/
def GraphBase.IndicesInRange (g : GraphBase) : Prop :=
  g.inEdgesOf.length = g.nodeSize ∧ g.outEdgesOf.length = g.nodeSize ∧
    ∀ f, g.Listed f → ∀ n ∈ f.output :: f.inputs, n.guid < g.nodeSize

theorem GraphBase.WellFormed.indicesInRange {g : GraphBase} (hg : g.WellFormed) :
    g.IndicesInRange :=
  ⟨hg.inLength, hg.outLength, fun _ hf n hn => lt_of_node? (hg.live hf n hn)⟩

/-- The build returns what it would return as the first build of a process. -/
def BuildsAsFirst (team : ℕ) (heap : Heap) (mem : Memory) (outputs : List ℕ) : Prop :=
  ∃ g mem', build team heap mem outputs = some (g, mem') ∧ g.IndicesInRange ∧
    ∃ g₀ mem₀, build team heap .fresh outputs = some (g₀, mem₀) ∧ g.SameAs g₀

/-- The import of the expression creates nodes. -/
def Heap.Contributes (heap : Heap) (e : ℕ) : Prop :=
  ∃ exp, heap[e]? = some exp ∧ 0 < exp.weight

/-- Nothing that contributes nodes to a build for `outputs` was reached by the
builds for `prev`. -/
def Heap.NoOverlap (heap : Heap) (prev outputs : List ℕ) : Prop :=
  ∀ e, heap.Reached outputs e → heap.Contributes e → ¬ heap.Reached prev e

/-! ## Two builds side by side -/

/-- The pointer, with its node in build `b`. -/
def NodePtr.inBuild (b : ℕ) : NodePtr → NodePtr
  | node _ g => node b g
  | aux q => aux q

@[simp] theorem NodePtr.guid?_inBuild (b : ℕ) (p : NodePtr) : (p.inBuild b).guid? = p.guid? := by
  cases p <;> rfl

def OpObject.inBuild (b : ℕ) (op : OpObject) : OpObject :=
  ⟨op.type, op.inputs.map (NodePtr.inBuild b), op.output.map (NodePtr.inBuild b)⟩

namespace Builder

/-- Builder `t`, which started fresh, and builder `s`, which started with `mem`,
have done the same so far.  The table of `s` may know more: entries of `mem`. -/
structure Sim (mem : Memory) (t s : Builder) : Prop where
  current : s.current = mem.earlier.length
  nodes : s.nodes = t.nodes
  ops : s.ops = t.ops.map (OpObject.inBuild mem.earlier.length)
  inEdges : s.inEdgesOf = t.inEdgesOf
  outEdges : s.outEdgesOf = t.outEdgesOf
  memo : ∀ e r, t.frontBackMap.lookup e = some r →
    s.frontBackMap.lookup e = some (r.map (NodePtr.inBuild mem.earlier.length))
  poly : ∀ q op, t.polyMap.lookup q = some op →
    s.polyMap.lookup (q.inBuild mem.earlier.length) = some (op.inBuild mem.earlier.length)
  old : ∀ e r, s.frontBackMap.lookup e = some r → t.frontBackMap.lookup e = none →
    mem.frontBackMap.lookup e = some r
  memMemo : ∀ e r, mem.frontBackMap.lookup e = some r → s.frontBackMap.lookup e = some r
  memPoly : ∀ q op, mem.polyMap.lookup q = some op → s.polyMap.lookup q = some op

theorem sim_start (mem : Memory) : Sim mem (.start .fresh) (.start mem) :=
  ⟨rfl, rfl, rfl, rfl, rfl, by simp [start, Memory.fresh], by simp [start, Memory.fresh],
    fun _ _ h _ => h, fun _ _ h => h, fun _ _ h => h⟩

section Steps

variable {mem : Memory} {t t' s : Builder}

/-- Steps that change neither the tables nor the number of the build. -/
theorem Sim.step (h : Sim mem t s) {s' : Builder}
    (ht : t'.frontBackMap = t.frontBackMap ∧ t'.polyMap = t.polyMap)
    (hs : s'.frontBackMap = s.frontBackMap ∧ s'.polyMap = s.polyMap)
    (hcur : s'.current = s.current) (hnodes : s'.nodes = t'.nodes)
    (hops : s'.ops = t'.ops.map (OpObject.inBuild mem.earlier.length))
    (hin : s'.inEdgesOf = t'.inEdgesOf) (hout : s'.outEdgesOf = t'.outEdgesOf) :
    Sim mem t' s' where
  current := hcur.trans h.current
  nodes := hnodes
  ops := hops
  inEdges := hin
  outEdges := hout
  memo := by rw [ht.1, hs.1]; exact h.memo
  poly := by rw [ht.2, hs.2]; exact h.poly
  old := by rw [ht.1, hs.1]; exact h.old
  memMemo := by rw [hs.1]; exact h.memMemo
  memPoly := by rw [hs.2]; exact h.memPoly

theorem Sim.newNode (h : Sim mem t s) (name : String) (party : PartyDecl) (type : NodeGenre) :
    Sim mem (t.newNode name party type).1 (s.newNode name party type).1 := by
  refine h.step ⟨rfl, rfl⟩ ⟨rfl, rfl⟩ rfl ?_ h.ops ?_ ?_
  · simp [Builder.newNode, h.nodes]
  · simp [Builder.newNode, h.inEdges]
  · simp [Builder.newNode, h.outEdges]

/-- The new node is the same in both builds. -/
theorem Sim.newPtr (h : Sim mem t s) :
    NodePtr.node s.current s.nodes.length =
      (NodePtr.node t.current t.nodes.length).inBuild mem.earlier.length := by
  rw [h.current, h.nodes]
  rfl

theorem Sim.opsLength (h : Sim mem t s) : s.ops.length = t.ops.length := by
  rw [h.ops, List.length_map]

theorem Sim.newOp (h : Sim mem t s) (op : OpObject) :
    Sim mem (t.newOp op).1 (s.newOp (op.inBuild mem.earlier.length)).1 := by
  refine h.step ⟨rfl, rfl⟩ ⟨rfl, rfl⟩ rfl h.nodes ?_ h.inEdges h.outEdges
  simp [Builder.newOp, h.ops]

theorem Sim.addInput (h : Sim mem t s) (o : ℕ) (p : NodePtr) :
    Sim mem (t.addInput o p) (s.addInput o (p.inBuild mem.earlier.length)) := by
  refine h.step ⟨rfl, rfl⟩ ⟨rfl, rfl⟩ rfl h.nodes ?_ h.inEdges h.outEdges
  rw [Builder.addInput, Builder.addInput, h.ops]
  exact (map_modify (fun op => by simp [OpObject.inBuild]) _ _).symm

theorem Sim.setOutput (h : Sim mem t s) (o : ℕ) (p : NodePtr) :
    Sim mem (t.setOutput o p) (s.setOutput o (p.inBuild mem.earlier.length)) := by
  refine h.step ⟨rfl, rfl⟩ ⟨rfl, rfl⟩ rfl h.nodes ?_ h.inEdges h.outEdges
  rw [Builder.setOutput, Builder.setOutput, h.ops]
  exact (map_modify (fun op => by simp [OpObject.inBuild]) _ _).symm

theorem Sim.pushIn (h : Sim mem t s) (g o : ℕ) : Sim mem (t.pushIn g o) (s.pushIn g o) := by
  refine h.step ⟨rfl, rfl⟩ ⟨rfl, rfl⟩ rfl h.nodes h.ops ?_ h.outEdges
  rw [Builder.pushIn, Builder.pushIn, h.inEdges]

theorem Sim.pushOut (h : Sim mem t s) {o : ℕ} {p : NodePtr} (ht : t.pushOut p o = some t') :
    ∃ s', s.pushOut (p.inBuild mem.earlier.length) o = some s' ∧ Sim mem t' s' := by
  obtain ⟨g, hg, hlt, rfl⟩ := pushOut_eq_some.1 ht
  refine ⟨_, pushOut_eq_some.2 ⟨g, by simpa using hg, by rw [h.outEdges]; exact hlt, rfl⟩, ?_⟩
  refine h.step ⟨rfl, rfl⟩ ⟨rfl, rfl⟩ rfl h.nodes h.ops h.inEdges ?_
  simp only [h.outEdges]

theorem Sim.pushOuts (h : Sim mem t s) {o : ℕ} {ps : List NodePtr}
    (ht : Builder.pushOuts o ps t = some t') :
    ∃ s', Builder.pushOuts o (ps.map (NodePtr.inBuild mem.earlier.length)) s = some s' ∧
      Sim mem t' s' := by
  induction ps generalizing t s with
  | nil =>
      cases ht
      exact ⟨s, rfl, h⟩
  | cons p ps ih =>
      rw [Builder.pushOuts] at ht
      simp only [Option.bind_eq_bind, Option.bind_eq_some_iff] at ht
      obtain ⟨t₁, h₁, ht⟩ := ht
      obtain ⟨s₁, hs₁, hsim⟩ := h.pushOut h₁
      obtain ⟨s', hs', hsim'⟩ := ih hsim ht
      refine ⟨s', ?_, hsim'⟩
      rw [List.map_cons, Builder.pushOuts, hs₁]
      exact hs'

/-- Both builds memoise a new expression. -/
theorem Sim.memoize (h : Sim mem t s) {e : ℕ} (he : mem.frontBackMap.lookup e = none)
    (r : Option NodePtr) : Sim mem (t.memoize e r)
      (s.memoize e (r.map (NodePtr.inBuild mem.earlier.length))) where
  current := h.current
  nodes := h.nodes
  ops := h.ops
  inEdges := h.inEdges
  outEdges := h.outEdges
  memo := by
    intro e' r' hr
    change ((e, r) :: t.frontBackMap).lookup e' = _ at hr
    change ((e, _) :: s.frontBackMap).lookup e' = _
    by_cases hee : e' = e
    · subst hee
      rw [List.lookup_cons_self, Option.some.injEq] at hr
      rw [List.lookup_cons_self, hr]
    · rw [lookup_cons_ne hee] at hr ⊢
      exact h.memo e' r' hr
  poly := h.poly
  old := by
    intro e' r' hs ht
    change ((e, _) :: s.frontBackMap).lookup e' = _ at hs
    change ((e, r) :: t.frontBackMap).lookup e' = _ at ht
    by_cases hee : e' = e
    · subst hee
      rw [List.lookup_cons_self] at ht
      exact absurd ht (by simp)
    · rw [lookup_cons_ne hee] at hs ht
      exact h.old e' r' hs ht
  memMemo := by
    intro e' r' hr
    change ((e, _) :: s.frontBackMap).lookup e' = _
    have hee : e' ≠ e := by
      rintro rfl
      rw [he] at hr
      exact absurd hr (by simp)
    rw [lookup_cons_ne hee]
    exact h.memMemo e' r' hr
  memPoly := h.memPoly

/-- The fresh build memoises what the other has known all along. -/
theorem Sim.memoizeOld (h : Sim mem t s) {e : ℕ} {r : Option NodePtr}
    (hs : s.frontBackMap.lookup e = some (r.map (NodePtr.inBuild mem.earlier.length))) :
    Sim mem (t.memoize e r) s :=
  { h with
    memo := by
      intro e' r' hr
      change ((e, r) :: t.frontBackMap).lookup e' = _ at hr
      by_cases hee : e' = e
      · subst hee
        rw [List.lookup_cons_self, Option.some.injEq] at hr
        rw [hs, hr]
      · rw [lookup_cons_ne hee] at hr
        exact h.memo e' r' hr
    old := by
      intro e' r' hs' ht
      change ((e, r) :: t.frontBackMap).lookup e' = _ at ht
      by_cases hee : e' = e
      · subst hee
        rw [List.lookup_cons_self] at ht
        exact absurd ht (by simp)
      · rw [lookup_cons_ne hee] at ht
        exact h.old e' r' hs' ht }

theorem inBuild_ne_aux {b e : ℕ} {q : NodePtr} (hq : q ≠ .aux e) : q.inBuild b ≠ .aux e := by
  cases q with
  | node b' g => simp [NodePtr.inBuild]
  | aux p => simpa [NodePtr.inBuild] using hq

/-- Both builds make a side entry. -/
theorem Sim.addPoly (h : Sim mem t s) {e : ℕ}
    (he : ∀ op, mem.polyMap.lookup (.aux e) ≠ some op) (op : OpObject) :
    Sim mem { t with polyMap := (.aux e, op) :: t.polyMap }
      { s with polyMap := (.aux e, op.inBuild mem.earlier.length) :: s.polyMap } :=
  { h with
    poly := by
      intro q op' hq
      change ((.aux e, op) :: t.polyMap).lookup q = _ at hq
      change ((.aux e, _) :: s.polyMap).lookup _ = _
      by_cases hqe : q = .aux e
      · subst hqe
        rw [List.lookup_cons_self, Option.some.injEq] at hq
        rw [NodePtr.inBuild, List.lookup_cons_self, hq]
      · rw [lookup_cons_ne hqe] at hq
        rw [lookup_cons_ne (inBuild_ne_aux hqe)]
        exact h.poly q op' hq
    memPoly := by
      intro q op' hq
      change ((.aux e, _) :: s.polyMap).lookup q = _
      have hqe : q ≠ .aux e := by
        rintro rfl
        exact he _ hq
      rw [lookup_cons_ne hqe]
      exact h.memPoly q op' hq }

/-- The fresh build makes a side entry that the other has. -/
theorem Sim.addPolyOld (h : Sim mem t s) {e : ℕ} {op : OpObject}
    (hs : s.polyMap.lookup (.aux e) = some (op.inBuild mem.earlier.length)) :
    Sim mem { t with polyMap := (.aux e, op) :: t.polyMap } s :=
  { h with
    poly := by
      intro q op' hq
      change ((.aux e, op) :: t.polyMap).lookup q = _ at hq
      by_cases hqe : q = .aux e
      · subst hqe
        rw [List.lookup_cons_self, Option.some.injEq] at hq
        rw [NodePtr.inBuild, hs, hq]
      · rw [lookup_cons_ne hqe] at hq
        exact h.poly q op' hq }

theorem Sim.newCoeffs (h : Sim mem t s) (name : String) (party : PartyDecl) (i k : ℕ) :
    Sim mem (Gauv.newCoeffs name party i k t).1 (Gauv.newCoeffs name party i k s).1 ∧
      (Gauv.newCoeffs name party i k s).2 =
        (Gauv.newCoeffs name party i k t).2.map (NodePtr.inBuild mem.earlier.length) := by
  induction k generalizing i t s with
  | zero => exact ⟨h, rfl⟩
  | succ k ih =>
      obtain ⟨h₁, h₂⟩ := ih (h.newNode (name ++ "_coeff_" ++ toString i) party .others) (i + 1)
      rw [Gauv.newCoeffs, Gauv.newCoeffs]
      refine ⟨h₁, ?_⟩
      simp only [newNode_snd, List.map_cons]
      rw [h₂, h.newPtr]

end Steps

/-! ### Imports -/

/-- Whatever the import does on a first build it does on the later one. -/
def Simulates (mem : Memory) (imp : Import) : Prop :=
  ∀ {t t' s : Builder} {r : Option NodePtr}, Sim mem t s → imp t = some (t', r) →
    ∃ s', imp s = some (s', r.map (NodePtr.inBuild mem.earlier.length)) ∧ Sim mem t' s'

section Imports

variable {heap : Heap} {mem : Memory} {t t' s : Builder} {imp : ℕ → Import} {e : ℕ}
  {exp : Expression} {r : Option NodePtr}

theorem Sim.importOprands {o : ℕ} {xs : List ℕ} (himp : ∀ x ∈ xs, Simulates mem (imp x))
    (h : Sim mem t s) (ht : importOprands heap imp o xs t = some t') :
    ∃ s', importOprands heap imp o xs s = some s' ∧ Sim mem t' s' := by
  induction xs generalizing t s with
  | nil =>
      cases ht
      exact ⟨s, rfl, h⟩
  | cons x xs ih =>
      have hrest := fun y hy => @himp y (List.mem_cons_of_mem _ hy)
      rw [Gauv.importOprands] at ht ⊢
      simp only [Option.bind_eq_bind, Option.bind_eq_some_iff] at ht ⊢
      obtain ⟨ex, hex, ht⟩ := ht
      split at ht
      · rename_i hc
        obtain ⟨s', hs', hsim⟩ := ih hrest h ht
        exact ⟨s', ⟨ex, hex, by rw [if_pos hc]; exact hs'⟩, hsim⟩
      · rename_i hc
        simp only [Option.bind_eq_some_iff] at ht
        obtain ⟨⟨t₁, r⟩, h₁, p, hp, t₂, h₂, ht⟩ := ht
        simp only at hp h₂
        subst hp
        obtain ⟨s₁, hs₁, hsim₁⟩ := himp x (List.mem_cons_self ..) h h₁
        obtain ⟨s₂, hs₂, hsim₂⟩ := (hsim₁.addInput o p).pushOut h₂
        obtain ⟨s', hs', hsim⟩ := ih hrest hsim₂ ht
        refine ⟨s', ⟨ex, hex, ?_⟩, hsim⟩
        rw [if_neg hc, hs₁]
        simp only [Option.map_some, Option.bind_some]
        rw [hs₂]
        exact hs'

/-- The cases of the switch, for an expression that is new to both builds. -/
theorem Sim.importCases (himp : ∀ x ∈ exp.refs, Simulates mem (imp x))
    (he : ∀ op, mem.polyMap.lookup (.aux e) ≠ some op) (h : Sim mem t s)
    (ht : importCases heap imp e exp t = some (t', r)) :
    ∃ s', importCases heap imp e exp s =
        some (s', r.map (NodePtr.inBuild mem.earlier.length)) ∧ Sim mem t' s' := by
  have hops : ∀ x ∈ exp.oprands, x ∈ exp.refs := fun x hx => Expression.mem_refs hx
  by_cases hs : exp.isSimple = true
  · rw [importCases_simple hs] at ht ⊢
    simp only [Option.bind_eq_bind, Option.bind_eq_some_iff, Option.pure_def, newOp_snd,
      Option.some.injEq, Prod.mk.injEq] at ht ⊢
    obtain ⟨t₁, h₁, rfl, rfl⟩ := ht
    obtain ⟨s₁, hs₁, hsim⟩ := (h.newOp ⟨exp.op, [], none⟩).importOprands
      (fun x hx => himp x (hops x hx)) h₁
    refine ⟨_, ⟨s₁, by rw [h.opsLength]; exact hs₁, rfl, ?_⟩, ?_⟩
    · simp only [newNode_snd, Option.map_some]
      rw [hsim.newPtr]
    · simp only [newNode_snd]
      rw [hsim.newPtr, hsim.nodes, h.opsLength]
      exact ((hsim.newNode _ _ _).pushIn _ _).setOutput _ _
  · rw [Gauv.importCases] at ht ⊢
    split at ht
    all_goals first
      | (rename_i hop; simp [Expression.isSimple, hop] at hs; done)
      | skip
    · -- NONE
      rename_i hop
      cases ht
      exact ⟨s, rfl, h⟩
    · -- INPUT
      have hnode : ∀ type : NodeGenre, some ((t.newNode exp.name exp.party type).1,
          some (t.newNode exp.name exp.party type).2) = some (t', r) →
          ∃ s', some ((s.newNode exp.name exp.party type).1,
            some (s.newNode exp.name exp.party type).2) =
              some (s', r.map (NodePtr.inBuild mem.earlier.length)) ∧ Sim mem t' s' := by
        intro type ht
        cases ht
        exact ⟨_, by rw [newNode_snd, newNode_snd, h.newPtr]; rfl, h.newNode _ _ _⟩
      split at ht
      · exact hnode .input ht
      · exact hnode .input ht
      · exact hnode .others ht
      · cases ht
        exact ⟨s, rfl, h⟩
    · -- EVAL
      split at ht
      · rename_i x hx
        have hxr : x ∈ exp.refs := hops x (by rw [hx]; exact List.mem_singleton_self x)
        by_cases hshare : exp.isShare = true
        · rw [if_pos hshare] at ht ⊢
          simp only [Option.bind_eq_bind, Option.bind_eq_some_iff] at ht ⊢
          obtain ⟨⟨t₁, r₁⟩, h₁, q, hq, old, hold, ht⟩ := ht
          simp only at hq hold ht
          subst hq
          obtain ⟨s₁, hs₁, hsim₁⟩ := himp x hxr h h₁
          split at ht
          · rename_i htype
            simp only [Option.bind_eq_some_iff, Option.pure_def, newOp_snd, newNode_snd,
              newOp_nodes, newOp_current, Option.some.injEq, Prod.mk.injEq] at ht ⊢
            obtain ⟨t₂, h₂, rfl, rfl⟩ := ht
            have hsim₂ := ((((hsim₁.newOp { old with type := .eval }).newNode exp.name exp.party
              .others).setOutput t₁.ops.length (.node t₁.current t₁.nodes.length)).pushIn
                t₁.nodes.length t₁.ops.length)
            obtain ⟨s₂, hs₂, hsim₂⟩ := hsim₂.pushOuts h₂
            refine ⟨s₂, ⟨_, hs₁, _, rfl, _, hsim₁.poly q old hold, ?_⟩, hsim₂⟩
            simp only [Option.map_some]
            have htype' : (old.inBuild mem.earlier.length).type = .polilize := htype
            rw [if_pos htype', hsim₁.newPtr, hsim₁.nodes, hsim₁.opsLength]
            exact Option.bind_eq_some_iff.2 ⟨s₂, hs₂, rfl⟩
          · exact absurd ht (by simp)
        · rw [if_neg hshare] at ht
          exact absurd ht (by simp)
      · exact absurd ht (by simp)
    · -- POLILIZE
      split at ht
      · rename_i degree party c hcls
        simp only [Option.bind_eq_bind, Option.bind_eq_some_iff, Option.pure_def,
          Option.some.injEq, Prod.mk.injEq] at ht ⊢
        obtain ⟨⟨t₁, r₁⟩, h₁, rfl, rfl⟩ := ht
        obtain ⟨s₁, hs₁, hsim₁⟩ := himp c (by simp [Expression.refs, hcls]) h h₁
        obtain ⟨hsim₂, hco⟩ := hsim₁.newCoeffs exp.name party 0 degree
        have hop : (⟨.polilize, r₁.toList ++ (Gauv.newCoeffs exp.name party 0 degree t₁).2,
            some (.aux e)⟩ : OpObject).inBuild mem.earlier.length =
              ⟨.polilize, (r₁.map (NodePtr.inBuild mem.earlier.length)).toList ++
                (Gauv.newCoeffs exp.name party 0 degree s₁).2, some (.aux e)⟩ := by
          rw [OpObject.inBuild, List.map_append, hco]
          cases r₁ <;> rfl
        refine ⟨_, ⟨_, hs₁, rfl, rfl⟩, ?_⟩
        have := hsim₂.addPoly he ⟨.polilize, r₁.toList ++
          (Gauv.newCoeffs exp.name party 0 degree t₁).2, some (.aux e)⟩
        rw [hop] at this
        exact this
      · exact absurd ht (by simp)

/-- The cases of the switch, for an expression without nodes that an earlier
build has imported: the fresh build comes to know what the other knows. -/
theorem Sim.importCasesOld {r₀ : Option NodePtr} (hsh : exp.Shaped heap)
    (hrec : Recalled heap mem e exp r₀) (he : heap[e]? = some exp)
    (hw : weightAt heap e = 0) (himp : ∀ x ∈ exp.refs, Simulates mem (imp x))
    (hhit : ∀ x ∈ exp.refs, ∀ {s s' : Builder} {r r' : Option NodePtr},
      s.frontBackMap.lookup x = some r → imp x s = some (s', r') → s' = s ∧ r' = r)
    (h : Sim mem t s) (ht : Gauv.importCases heap imp e exp t = some (t', r)) :
    r₀ = r.map (NodePtr.inBuild mem.earlier.length) ∧ Sim mem t' s := by
  cases hrec with
  | null hc =>
      obtain ⟨hop, -⟩ := hsh.op_of_isConstant hc
      have hcls : exp.cls = .constant := by simpa [Expression.isConstant] using hc
      rw [Gauv.importCases, hop, hcls] at ht
      cases ht
      exact ⟨rfl, h⟩
  | node hn _ =>
      rw [hsh.weightAt_eq he] at hw
      simp [hn.1, hn.2] at hw
  | @poly degree c party rc coeffs hcls hc hp hlen _ =>
      have hop := hsh.op_of_isPoly (by simp [Expression.isPoly, hcls])
      rw [weightAt, he, Option.elim_some, Expression.weight, hop, hcls] at hw
      simp only at hw
      subst hw
      rw [List.length_eq_zero_iff.1 hlen, List.append_nil] at hp
      have hcr : c ∈ exp.refs := by simp [Expression.refs, hcls]
      rw [Gauv.importCases, hop, hcls] at ht
      simp only [Option.bind_eq_bind, Option.bind_eq_some_iff, Option.pure_def,
        Option.some.injEq, Prod.mk.injEq] at ht
      obtain ⟨⟨t₁, r₁⟩, h₁, rfl, rfl⟩ := ht
      obtain ⟨s₁, hs₁, hsim⟩ := himp c hcr h h₁
      obtain ⟨rfl, rfl⟩ := hhit c hcr (h.memMemo c rc hc) hs₁
      refine ⟨rfl, hsim.addPolyOld ?_⟩
      rw [h.memPoly _ _ hp, OpObject.inBuild]
      cases r₁ <;> rfl

/-- The expression refers to nothing with nodes that an earlier build imported. -/
def Untouched (heap : Heap) (mem : Memory) (e : ℕ) : Prop :=
  ∀ x, heap.Reach e x → ∀ r, mem.frontBackMap.lookup x = some r → weightAt heap x = 0

theorem importFrontend_hit {fuel x : ℕ} {s s' : Builder} {r r' : Option NodePtr}
    (h : s.frontBackMap.lookup x = some r)
    (hs : importFrontend heap fuel x s = some (s', r')) : s' = s ∧ r' = r := by
  cases fuel with
  | zero => exact absurd hs (by simp [importFrontend])
  | succ fuel =>
      rw [importFrontend] at hs
      simp only [h] at hs
      cases hs
      exact ⟨rfl, rfl⟩

/-- **Imports of untouched expressions** do the same in both builds. -/
theorem simulates_importFrontend {prev : List ℕ} (hsh : heap.Shaped prev)
    (hm : Remembers heap prev mem) (fuel : ℕ) {e : ℕ} (hok : Untouched heap mem e) :
    Simulates mem (importFrontend heap fuel e) := by
  induction fuel generalizing e with
  | zero => exact fun _ ht => absurd ht (by simp [importFrontend])
  | succ fuel ih =>
      intro t t' s r h ht
      rw [importFrontend] at ht ⊢
      simp only at ht ⊢
      cases hte : t.frontBackMap.lookup e with
      | some r₁ =>
          rw [hte] at ht
          cases ht
          rw [h.memo e r hte]
          exact ⟨s, rfl, h⟩
      | none =>
          rw [hte] at ht
          simp only [Option.bind_eq_bind, Option.bind_eq_some_iff] at ht
          obtain ⟨exp, he, ⟨t₁, r₁⟩, h₁, ht⟩ := ht
          cases ht
          have hrefs : ∀ x ∈ exp.refs, Simulates mem (importFrontend heap fuel x) := by
            intro x hx
            exact ih fun y hy => hok y (.head ⟨exp, he, hx⟩ hy)
          cases hse : s.frontBackMap.lookup e with
          | none =>
              have hme : mem.frontBackMap.lookup e = none := by
                by_contra hcon
                obtain ⟨r₀, hr₀⟩ := Option.ne_none_iff_exists'.1 hcon
                rw [h.memMemo e r₀ hr₀] at hse
                exact absurd hse (by simp)
              have hpe : ∀ op, mem.polyMap.lookup (.aux e) ≠ some op := by
                intro op hop
                obtain ⟨e', hq, hr'⟩ := hm.poly_key _ _ hop
                cases hq
                rw [hme] at hr'
                exact absurd hr' (by simp)
              obtain ⟨s₁, hs₁, hsim⟩ := h.importCases hrefs hpe h₁
              refine ⟨_, ?_, hsim.memoize hme r₁⟩
              simp only [he, Option.bind_eq_bind, Option.bind_some]
              rw [hs₁]
              rfl
          | some r₀ =>
              have hme := h.old e r₀ hse hte
              obtain ⟨exp', he', hrec⟩ := hm.holds e r₀ hme
              rw [he, Option.some.injEq] at he'
              subst he'
              obtain ⟨rfl, hsim⟩ := h.importCasesOld (hsh e exp (hm.reached e r₀ hme) he) hrec he
                (hok e .refl r₀ hme) hrefs (fun x _ => importFrontend_hit) h₁
              exact ⟨s, rfl, hsim.memoizeOld hse⟩

/-! ### The loop over the outputs -/

theorem Sim.markOutput {p : NodePtr} (h : Sim mem t s)
    (hp : ∀ b g, p = .node b g → b = t.current) :
    Sim mem (t.markOutput p) (s.markOutput (p.inBuild mem.earlier.length)) := by
  cases p with
  | aux q => exact h
  | node b g =>
      rw [NodePtr.inBuild, Builder.markOutput, Builder.markOutput, if_pos (hp b g rfl),
        if_pos h.current.symm]
      exact h.step ⟨rfl, rfl⟩ ⟨rfl, rfl⟩ rfl (by simp only [h.nodes]) h.ops h.inEdges h.outEdges

theorem Sim.importOutputs (hac : heap.Acyclic) {prev : List ℕ} (hsh : heap.Shaped prev)
    (hm : Remembers heap prev mem) {outputs outs : List ℕ} {new : List (ℕ × Option NodePtr)}
    (hok : ∀ out ∈ outputs, Untouched heap mem out) (hi : Inv heap .fresh outs [] new t)
    (h : Sim mem t s) (ht : importOutputs heap outputs t = some t') :
    ∃ s', importOutputs heap outputs s = some s' ∧ Sim mem t' s' := by
  induction outputs generalizing t s outs new with
  | nil =>
      cases ht
      exact ⟨s, rfl, h⟩
  | cons out outputs ih =>
      rw [Builder.importOutputs] at ht
      simp only [Option.bind_eq_bind, Option.bind_eq_some_iff] at ht
      obtain ⟨⟨t₁, r⟩, h₁, p, hp, ht⟩ := ht
      simp only at hp ht
      subst hp
      obtain ⟨s₁, hs₁, hsim⟩ := simulates_importFrontend hsh hm _
        (hok out (List.mem_cons_self ..)) h h₁
      obtain ⟨added, hi₁, -, hf₁, -⟩ := imports_importFrontend hac _ hi h₁
      have hsim' := hsim.markOutput (p := p) fun b g hb => (hi₁.ptr_fresh (hb ▸ hf₁)).1
      obtain ⟨s', hs', hsim''⟩ := ih (fun o ho => hok o (List.mem_cons_of_mem _ ho))
        (hi₁.mark memoryValid_fresh hf₁) hsim' ht
      refine ⟨s', ?_, hsim''⟩
      rw [Builder.importOutputs, hs₁]
      exact hs'

/-- Builders that have done the same make the same graph. -/
theorem Sim.toGraphBase {outs : List ℕ} {new : List (ℕ × Option NodePtr)}
    (hi : Inv heap .fresh outs [] new t) (h : Sim mem t s) (team : ℕ) :
    s.toGraphBase team = t.toGraphBase team := by
  have hop : ∀ {o : ℕ} {e : ℕ} {exp : Expression} {inputs : List NodePtr},
      EdgeOf heap outs new t e exp o inputs → s.opAt team o = t.opAt team o := by
    intro o e exp inputs hedge
    have hcur : ∀ g, s.nodeAt ((NodePtr.node t.current g).inBuild mem.earlier.length) =
        t.nodeAt (.node t.current g) := by
      intro g
      rw [NodePtr.inBuild, nodeAt, nodeAt, if_pos h.current.symm, if_pos rfl, h.nodes]
    rw [opAt, opAt, List.getD_eq_getElem?_getD, List.getD_eq_getElem?_getD, h.ops,
      List.getElem?_map, hedge.op]
    simp only [Option.map_some, Option.getD_some, OpObject.inBuild, List.map_map]
    rw [hcur]
    congr 1
    refine List.map_congr_left fun p hp => ?_
    obtain ⟨g, rfl, -⟩ := hedge.inputs_fresh hi hp
    exact hcur g
  have hin : ∀ l ∈ t.inEdgesOf, l.map (s.opAt team) = l.map (t.opAt team) := by
    intro l hl
    obtain ⟨v, hv⟩ := List.getElem?_of_mem hl
    refine List.map_congr_left fun o ho => ?_
    obtain ⟨e, exp, o', inputs, rfl, -, hedge⟩ := hi.edgeOf_of_inEdges hv (List.ne_nil_of_mem ho)
    rw [List.mem_singleton.1 ho]
    exact hop hedge
  have hout : ∀ l ∈ t.outEdgesOf, l.map (s.opAt team) = l.map (t.opAt team) := by
    intro l hl
    obtain ⟨u, hu⟩ := List.getElem?_of_mem hl
    refine List.map_congr_left fun o ho => ?_
    have hpos := List.count_pos_iff.2 ho
    have huses := hi.uses u o
    rw [List.getD_eq_getElem?_getD, hu, Option.getD_some, usesOf] at huses
    cases hoo : t.ops[o]? with
    | none =>
        rw [hoo, Option.elim_none] at huses
        omega
    | some op =>
        obtain ⟨e, exp, inputs, hedge⟩ := hi.edgeOf_of_op hoo
        exact hop hedge
  rw [Builder.toGraphBase, Builder.toGraphBase, h.nodes, h.inEdges, h.outEdges,
    List.map_congr_left hin, List.map_congr_left hout]

end Imports

/-! ## What is known is missing -/

section Missing

variable {heap : Heap} {mem : Memory} {outputs : List ℕ} {new new₀ : List (ℕ × Option NodePtr)}
  {s t : Builder} {e : ℕ}

theorem total_eq_sum (hn : (new.map Prod.fst).Nodup) :
    total heap new = ∑ e ∈ (new.map Prod.fst).toFinset, weightAt heap e := by
  rw [List.sum_toFinset _ hn, List.map_map]
  rfl

/-- A later build makes fewer nodes when an earlier one has imported an
expression with nodes. -/
theorem length_lt_of_known (hsh : heap.Shaped outputs)
    (hall₀ : ImportedAll heap .fresh [] [] (.start .fresh) t outputs new₀)
    (hall : ImportedAll heap mem [] [] (.start mem) s outputs new)
    (hre : heap.Reached outputs e) (hw : 0 < weightAt heap e) {r : Option NodePtr}
    (hr : mem.frontBackMap.lookup e = some r) : s.nodes.length < t.nodes.length := by
  classical
  have hknown : ∀ x, heap.Reached outputs x → weightAt heap x ≠ 0 → x ∈ new₀.map Prod.fst := by
    intro x hx hne
    rw [weightAt] at hne
    cases hex : heap[x]? with
    | none => simp [hex] at hne
    | some ex =>
        refine hall₀.known hsh hx hex ?_
        by_contra hc
        rw [Bool.not_eq_false] at hc
        have hshx := hsh x ex hx hex
        rw [hex, Option.elim_some, weight_null (Or.inr (hshx.op_of_isConstant hc))] at hne
        exact hne rfl
  have hfresh : e ∉ new.map Prod.fst := by
    intro hmem
    have hnone := hall.inv.lookup_mem_of_new (by simpa using hmem)
    rw [hr] at hnone
    exact absurd hnone (by simp)
  have hlen : s.nodes.length = total heap new := by simpa using hall.inv.length
  have hlen₀ : t.nodes.length = total heap new₀ := by simpa using hall₀.inv.length
  have hkeys : (new.map Prod.fst).Nodup := by simpa using hall.inv.keys_new
  have hkeys₀ : (new₀.map Prod.fst).Nodup := by simpa using hall₀.inv.keys_new
  rw [hlen, hlen₀, total_eq_sum hkeys, total_eq_sum hkeys₀, ← Finset.sum_filter_ne_zero]
  refine Finset.sum_lt_sum_of_subset (i := e) (fun x hx => ?_)
    (List.mem_toFinset.2 (hknown e hre hw.ne')) (fun hx => ?_) hw fun _ _ _ => Nat.zero_le _
  · rw [Finset.mem_filter, List.mem_toFinset] at hx
    obtain ⟨y, hy, rfl⟩ := List.mem_map.1 hx.1
    exact List.mem_toFinset.2 (hknown _ (hall.reach y hy) hx.2)
  · rw [Finset.mem_filter, List.mem_toFinset] at hx
    exact hfresh hx.1

end Missing

end Builder

/-! ## The condition -/

theorem Heap.contributes_iff {heap : Heap} {e : ℕ} :
    heap.Contributes e ↔ 0 < Builder.weightAt heap e := by
  rw [Contributes, Builder.weightAt]
  cases heap[e]? <;> simp

namespace Builder

variable {heap : Heap} {mem : Memory} {prev outputs : List ℕ}
  {new : List (ℕ × Option NodePtr)} {s : Builder} {e : ℕ} {exp : Expression}

/-- Without an overlap, the nodes the tables hold for this build are its own. -/
theorem ImportedAll.current_of_noOverlap (hsh : heap.Shaped (prev ++ outputs))
    (hm : Remembers heap prev mem) (hnew : heap.NoOverlap prev outputs)
    (hall : ImportedAll heap mem [] [] (.start mem) s outputs new)
    (hre : heap.Reached outputs e) {b g : ℕ}
    (he : s.frontBackMap.lookup e = some (some (.node b g))) : b = s.current := by
  rcases hall.inv.lookup_cases he with hmem | hold
  · obtain ⟨exp, -, hent⟩ := hall.inv.entry hmem
    exact hent.of_node.2.1
  · obtain ⟨exp, hexp, hrec⟩ := hm.holds e _ hold
    cases hrec with
    | node hn _ =>
        refine absurd (hm.reached e _ hold) (hnew e hre (Heap.contributes_iff.2 ?_))
        rw [(hsh.right e exp hre hexp).weightAt_eq hexp]
        simp [hn.1, hn.2]

theorem ImportedAll.inputsHere (hsh : heap.Shaped (prev ++ outputs))
    (hm : Remembers heap prev mem) (hnew : heap.NoOverlap prev outputs)
    (hall : ImportedAll heap mem [] [] (.start mem) s outputs new) :
    InputsHere heap outputs.reverse new s := by
  have hi : Inv heap mem outputs.reverse [] new s := by simpa using hall.inv
  intro e o exp inputs hedge p hp
  have hre : heap.Reached outputs e := hall.reach _ hedge.mem
  have hshe := hsh.right e exp hre hedge.exp_eq
  cases p with
  | aux q => exact absurd (hedge.idx _ hp) (by simp [NodePtr.guid?])
  | node b g =>
      suffices hb : b = s.current by
        subst hb
        exact ⟨g, rfl, hedge.lt g hp⟩
      cases hedge.inputsOf with
      | simple hop hin =>
          obtain ⟨x, hx, hxp⟩ := exists_of_mem_right hin hp
          have hxo : x ∈ exp.oprands := (List.mem_filter.1 hx).1
          exact hall.current_of_noOverlap hsh hm hnew
            (hre.follow hedge.exp_eq (Expression.mem_refs hxo)) hxp
      | @eval x q old hop hshare hx hq hpm ht hold =>
          subst hold
          have hxr : heap.Reached outputs x :=
            hre.follow hedge.exp_eq (Expression.mem_refs (by rw [hx]; simp))
          have hterm : ∀ {ex : Expression} {degree c : ℕ} {party : PartyDecl}
              {rc : Option NodePtr}, heap[x]? = some ex → ex.cls = .poly degree party c →
              s.frontBackMap.lookup c = some rc → .node b g ∈ rc.toList → b = s.current := by
            intro ex degree c party rc hex hcls hc hbg
            rw [Option.mem_toList] at hbg
            subst hbg
            exact hall.current_of_noOverlap hsh hm hnew
              (hxr.follow hex (by simp [Expression.refs, hcls])) hc
          obtain ⟨x', rfl, -⟩ := hi.poly_key q old hpm
          rcases hi.lookup_cases hq with hmem | hold
          · obtain ⟨ex, hex, hent⟩ := hi.entry hmem
            cases hent with
            | poly _ hcls hc hp' _ =>
                rw [hpm, Option.some.injEq] at hp'
                subst hp'
                rcases List.mem_append.1 hp with hp | hp
                · exact hterm hex hcls hc hp
                · obtain ⟨k, -, hk⟩ := List.mem_map.1 hp
                  rw [NodePtr.node.injEq] at hk
                  exact hk.1.symm
          · obtain ⟨ex, hex, hrec⟩ := hm.holds x _ hold
            cases hrec with
            | @poly degree c party rc coeffs hcls hc hp' hlen _ =>
                -- an old polynomial that this build meets has no coefficients
                have hdeg : degree = 0 := by
                  by_contra hne
                  refine hnew x hxr (Heap.contributes_iff.2 ?_) (hm.reached x _ hold)
                  have hpoly : ex.isPoly = true := by simp [Expression.isPoly, hcls]
                  rw [(hsh.right x ex hxr hex).weightAt_eq hex, if_pos hpoly,
                    (Heap.degree_eq hex hcls).1]
                  exact Nat.pos_of_ne_zero hne
                rw [hall.poly _ _ hp', Option.some.injEq] at hpm
                subst hpm
                rw [hdeg, List.length_eq_zero_iff] at hlen
                rw [hlen, List.append_nil] at hp
                exact hterm hex hcls (hall.memo _ _ hc) hp

end Builder

/-- **Building after other builds**: a build returns what it would return as the
first one of a process if and only if nothing that contributes nodes to it was
imported by an earlier build. -/
theorem buildsAsFirst_iff {team : ℕ} {heap : Heap} (hac : heap.Acyclic)
    {history : List (List ℕ)} {outputs : List ℕ}
    (hsh : heap.Shaped (history.flatten ++ outputs)) {gs : List GraphBase} {mem mem₀ : Memory}
    (hb : builds team heap .fresh history = some (gs, mem)) {g₀ : GraphBase}
    (hb₀ : build team heap .fresh outputs = some (g₀, mem₀)) :
    BuildsAsFirst team heap mem outputs ↔ heap.NoOverlap history.flatten outputs := by
  have hm := remembers_builds hac Builder.remembers_fresh (by simpa using hsh.left) hb
  rw [List.nil_append] at hm
  obtain ⟨t, new₀, rfl, rfl, hall₀⟩ := importedAll_of_build hac Builder.memoryValid_fresh hb₀
  constructor
  · rintro ⟨g, mem', hg, -, g₁, mem₁, hg₁, σ, -, hs⟩ e hre hc hprev
    rw [hb₀, Option.some.injEq, Prod.mk.injEq] at hg₁
    obtain ⟨rfl, -⟩ := hg₁
    obtain ⟨s, new, rfl, -, hall⟩ := importedAll_of_build hac hm.valid hg
    obtain ⟨exp, he, hw⟩ := hc
    have hcc : exp.isConstant = false := by
      by_contra hc
      rw [Bool.not_eq_false] at hc
      rw [Builder.weight_null (Or.inr ((hsh.right e exp hre he).op_of_isConstant hc))] at hw
      exact lt_irrefl _ hw
    obtain ⟨r, hr⟩ := hm.known hsh.left hprev he hcc
    have hlt := Builder.length_lt_of_known hsh.right hall₀ hall hre
      (Heap.contributes_iff.1 ⟨exp, he, hw⟩) hr
    have hnodes := congrArg (fun g : GraphBase => g.nodes.length) hs
    simp only [GraphBase.moveTo, Builder.toGraphBase, List.length_map] at hnodes
    omega
  · intro hok
    have huntouched : ∀ out ∈ outputs, Builder.Untouched heap mem out := by
      intro out hout x hx r hr
      by_contra hw
      exact hok x ⟨out, hout, hx⟩ (Heap.contributes_iff.2 (Nat.pos_of_ne_zero hw))
        (hm.reached x r hr)
    obtain ⟨t', ht', hg, -⟩ := build_eq_some.1 hb₀
    obtain ⟨added, hall'⟩ := Builder.importOutputs_spec hac Builder.memoryValid_fresh
      (Builder.inv_start Builder.memoryValid_fresh) ht'
    obtain ⟨s, hs, hsim⟩ := (Builder.sim_start mem).importOutputs hac hsh.left hm huntouched
      (Builder.inv_start Builder.memoryValid_fresh) ht'
    have hsame := hsim.toGraphBase hall'.inv team
    refine ⟨_, _, build_eq_some.2 ⟨s, hs, rfl, rfl⟩, ?_, _, _, hb₀, ?_⟩
    · rw [hsame]
      exact (hall'.inv.wellFormed hall'.inv.inputsHere_fresh team).indicesInRange
    · rw [hg, hsame]
      exact .refl _

/-- Number of nodes of the graph a build returns. -/
def builtSize (team : ℕ) (heap : Heap) (mem : Memory) (outputs : List ℕ) : Option ℕ :=
  (build team heap mem outputs).map fun x => x.1.nodes.length

/-- The same builder, called again, returns a graph without nodes. -/
theorem second_build_empty : ∃ gs mem, builds 0 dealtHeap .fresh [[4]] = some (gs, mem) ∧
    ¬ BuildsAsFirst 0 dealtHeap mem [4] := by
  have hfirst : builtSize 0 dealtHeap .fresh [4] = some 4 := by decide +kernel
  have hsecond : ((builds 0 dealtHeap .fresh [[4]]).bind fun x =>
      builtSize 0 dealtHeap x.2 [4]) = some 0 := by decide +kernel
  rw [Option.bind_eq_some_iff] at hsecond
  obtain ⟨⟨gs, mem⟩, hb, hsecond⟩ := hsecond
  refine ⟨gs, mem, hb, ?_⟩
  rintro ⟨g, mem', hg, -, g₀, mem₀, hg₀, σ, -, hs⟩
  simp only [builtSize, hg, hg₀, Option.map_some, Option.some.injEq] at hfirst hsecond
  rw [← hs] at hfirst
  simp only [GraphBase.moveTo] at hfirst
  omega

theorem buildsAsFirst_iff_dealt : ∃ gs mem,
    builds 0 dealtHeap .fresh [[4]] = some (gs, mem) ∧
      (BuildsAsFirst 0 dealtHeap mem [4] ↔ dealtHeap.NoOverlap [4] [4]) := by
  have hfirst : (build 0 dealtHeap .fresh [4]).isSome = true := by decide +kernel
  obtain ⟨⟨g₀, mem₀⟩, hb₀⟩ := Option.isSome_iff_exists.1 hfirst
  have hsome : (builds 0 dealtHeap .fresh [[4]]).isSome = true := by decide +kernel
  obtain ⟨⟨gs, mem⟩, hb⟩ := Option.isSome_iff_exists.1 hsome
  exact ⟨gs, mem, hb, buildsAsFirst_iff dealtHeap_acyclic (dealtHeap_shaped _) hb hb₀⟩

end Gauv
