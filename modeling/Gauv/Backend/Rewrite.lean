import Gauv.Backend.Counters
import Gauv.Backend.Transformer

/-!
# Building the rewritten graph

A rewrite removes a batch of edges and then adds a batch of new ones.  When the
removed edges are distinct edges of the graph and the new ones have live ends
(`Plan.Valid`), the result is well formed, its counters are exact, and its
edges are exactly the kept ones and the new ones.
-/

namespace Gauv

open GraphBase

/-! ## Allocation -/

/-- Each new edge is made with its address. -/
theorem mem_makeShared {team fresh : ℕ} {es : List NewEdge} {e : Operation} :
    e ∈ makeShared team fresh es ↔ ∃ i, ∃ h : i < es.length,
      e = Operation.make team (fresh + i) es[i].type es[i].inputs es[i].output := by
  rw [makeShared, List.mem_map]
  constructor
  · rintro ⟨⟨n, i⟩, hni, rfl⟩
    obtain ⟨hi, hn⟩ := List.mem_zipIdx' hni
    exact ⟨i, hi, by rw [hn]⟩
  · rintro ⟨i, hi, rfl⟩
    refine ⟨(es[i], i), ?_, rfl⟩
    rw [List.mem_iff_getElem]
    exact ⟨i, by simpa using hi, by simp⟩

/-- Every allocated edge has the type and the ends of a requested one. -/
theorem exists_of_mem_makeShared {team fresh : ℕ} {es : List NewEdge} {e : Operation}
    (h : e ∈ makeShared team fresh es) :
    ∃ n ∈ es, e.type = n.type ∧ e.inputs = n.inputs ∧ e.output = n.output := by
  obtain ⟨i, hi, rfl⟩ := mem_makeShared.1 h
  exact ⟨es[i], List.getElem_mem hi, rfl, rfl, rfl⟩

/-- Every requested edge is allocated. -/
theorem exists_mem_makeShared (team fresh : ℕ) {es : List NewEdge} {n : NewEdge} (h : n ∈ es) :
    ∃ e ∈ makeShared team fresh es,
      e.type = n.type ∧ e.inputs = n.inputs ∧ e.output = n.output := by
  obtain ⟨i, hi, rfl⟩ := List.mem_iff_getElem.1 h
  exact ⟨_, mem_makeShared.2 ⟨i, hi, rfl⟩, rfl, rfl, rfl⟩

/-- The addresses of the new edges, in order. -/
theorem makeShared_id {team fresh : ℕ} {es : List NewEdge} :
    (makeShared team fresh es).map Operation.id = (List.range es.length).map (fresh + ·) := by
  refine List.ext_getElem (by simp [makeShared]) fun i h₁ h₂ => ?_
  simp [makeShared]

/-- No two new edges share an address. -/
theorem nodup_makeShared_id (team fresh : ℕ) (es : List NewEdge) :
    ((makeShared team fresh es).map Operation.id).Nodup := by
  rw [makeShared_id]
  exact List.nodup_range.map fun a b h => Nat.add_left_cancel h

/-- The addresses start at the fresh one. -/
theorem fresh_le_id {team fresh : ℕ} {es : List NewEdge} {e : Operation}
    (h : e ∈ makeShared team fresh es) : fresh ≤ e.id := by
  obtain ⟨i, hi, rfl⟩ := mem_makeShared.1 h
  exact Nat.le_add_right _ _

theorem le_foldr_max {l : List ℕ} {a : ℕ} (h : a ∈ l) : a ≤ l.foldr max 0 := by
  induction l with
  | nil => exact absurd h List.not_mem_nil
  | cons b l ih =>
      rcases List.mem_cons.1 h with rfl | h
      · exact le_max_left _ _
      · exact (ih h).trans (le_max_right _ _)

/-- Addresses in use are below the fresh one. -/
theorem id_lt_freshId {g : GraphBase} {e : Operation} (h : g.HasEdge e) : e.id < g.freshId := by
  have hmem : e ∈ g.inEdgesOf.flatten := by
    rw [List.mem_flatten]
    refine ⟨g.inEdges e.output.guid, ?_, h⟩
    by_cases hlt : e.output.guid < g.inEdgesOf.length
    · rw [inEdges, OpTable.at', List.getD_eq_getElem _ _ hlt]
      exact List.getElem_mem hlt
    · rw [HasEdge, inEdges, OpTable.at'_of_le (not_lt.1 hlt)] at h
      exact absurd h List.not_mem_nil
  exact Nat.lt_succ_of_le (le_foldr_max (List.mem_map_of_mem hmem))

/-! ## Batches -/

namespace Graph

variable {g : Graph}

/-- The two graphs have the same nodes and the same proof attempt. -/
structure SameFrame (g g' : Graph) : Prop where
  nodes : g'.nodes = g.nodes
  partyCnt : g'.partyCnt = g.partyCnt
  T : g'.T = g.T
  corrupted : g'.corruptedParties = g.corruptedParties

namespace SameFrame

theorem refl (g : Graph) : SameFrame g g := ⟨rfl, rfl, rfl, rfl⟩

theorem trans {g g' g'' : Graph} (h : SameFrame g g') (h' : SameFrame g' g'') :
    SameFrame g g'' :=
  ⟨h'.nodes.trans h.nodes, h'.partyCnt.trans h.partyCnt, h'.T.trans h.T,
    h'.corrupted.trans h.corrupted⟩

theorem symm {g g' : Graph} (h : SameFrame g g') : SameFrame g' g :=
  ⟨h.nodes.symm, h.partyCnt.symm, h.T.symm, h.corrupted.symm⟩

theorem node? {g g' : Graph} (h : SameFrame g g') (i : ℕ) : g'.node? i = g.node? i := by
  rw [GraphBase.node?, h.nodes, GraphBase.node?]

theorem nodeSize {g g' : Graph} (h : SameFrame g g') : g'.nodeSize = g.nodeSize := by
  rw [GraphBase.nodeSize, h.nodes, GraphBase.nodeSize]

end SameFrame

/-- Eliminating edges changes no node. -/
theorem sameFrame_eliminateEdges (g : Graph) (es : List Operation) :
    SameFrame g (g.eliminateEdges es) := by
  induction es generalizing g with
  | nil => exact .refl g
  | cons e es ih =>
      have h : SameFrame g (g.eliminateEdge e) := ⟨rfl, rfl, rfl, rfl⟩
      exact h.trans (ih (g.eliminateEdge e))

/-- Adding edges changes no node. -/
theorem sameFrame_addEdges (g : Graph) (es : List Operation) :
    SameFrame g (g.addEdges es) := by
  induction es generalizing g with
  | nil => exact .refl g
  | cons e es ih =>
      have h : SameFrame g (g.addEdge e) := ⟨rfl, rfl, rfl, rfl⟩
      exact h.trans (ih (g.addEdge e))

/-- A batch of distinct edges of the graph can be removed. -/
structure Removable (g : Graph) (es : List Operation) : Prop where
  nodup : es.Nodup
  present : ∀ e ∈ es, g.HasEdge e

/-- Once the first edge is gone, the others can still be eliminated. -/
theorem Removable.tail {e : Operation} {es : List Operation} (hg : g.WellFormed)
    (h : g.Removable (e :: es)) : (g.eliminateEdge e).Removable es where
  nodup := (List.nodup_cons.1 h.nodup).2
  present := fun f hf => (hasEdge_eliminateEdge hg (h.present e (List.mem_cons_self ..))).2
    ⟨h.present f (List.mem_cons_of_mem _ hf), fun hfe => (List.nodup_cons.1 h.nodup).1 (hfe ▸ hf)⟩

theorem Removable.of_isPrefix {es es' : List Operation} (h : g.Removable es) (hp : es' <+: es) :
    g.Removable es' :=
  ⟨h.nodup.sublist hp.sublist, fun e he => h.present e (hp.subset he)⟩

/-- The order of the edges does not matter. -/
theorem Removable.of_perm {es es' : List Operation} (h : g.Removable es) (hp : es'.Perm es) :
    g.Removable es' :=
  ⟨hp.nodup_iff.2 h.nodup, fun e he => h.present e (hp.mem_iff.1 he)⟩

/-- Eliminating edges of the graph keeps the lists consistent. -/
theorem wellFormed_eliminateEdges {es : List Operation} (hg : g.WellFormed)
    (h : g.Removable es) : (g.eliminateEdges es).WellFormed := by
  induction es generalizing g with
  | nil => exact hg
  | cons e es ih =>
      exact ih (wellFormed_eliminateEdge hg (h.present e (List.mem_cons_self ..))) (h.tail hg)

/-- It keeps the counters exact. -/
theorem exact_eliminateEdges {es : List Operation} (hg : g.WellFormed) (hx : g.Exact)
    (h : g.Removable es) : (g.eliminateEdges es).Exact := by
  induction es generalizing g with
  | nil => exact hx
  | cons e es ih =>
      have he := h.present e (List.mem_cons_self ..)
      exact ih (wellFormed_eliminateEdge hg he) (exact_eliminateEdge hg hx he) (h.tail hg)

/-- What is left are the other edges. -/
theorem hasEdge_eliminateEdges {es : List Operation} (hg : g.WellFormed) (h : g.Removable es)
    {f : Operation} : (g.eliminateEdges es).HasEdge f ↔ g.HasEdge f ∧ f ∉ es := by
  induction es generalizing g with
  | nil => exact ⟨fun h => ⟨h, List.not_mem_nil⟩, fun h => h.1⟩
  | cons e es ih =>
      have he := h.present e (List.mem_cons_self ..)
      rw [eliminateEdges, List.foldl_cons, ← eliminateEdges,
        ih (wellFormed_eliminateEdge hg he) (h.tail hg), hasEdge_eliminateEdge hg he]
      simp only [List.mem_cons, not_or, and_assoc]

/-- A batch of edges with distinct fresh addresses and live ends can be added. -/
structure AddableAll (g : Graph) (es : List Operation) : Prop where
  nodup : (es.map Operation.id).Nodup
  each : ∀ e ∈ es, g.Addable e

/-- Once the first edge is there, the others can still be added. -/
theorem AddableAll.tail {e : Operation} {es : List Operation} (hg : g.WellFormed)
    (h : g.AddableAll (e :: es)) : (g.addEdge e).AddableAll es where
  nodup := (List.nodup_cons.1 h.nodup).2
  each := fun f hf => by
    have he := h.each e (List.mem_cons_self ..)
    have hf' := h.each f (List.mem_cons_of_mem _ hf)
    refine ⟨fun k hk => ?_, hf'.live⟩
    rcases (hasEdge_addEdge hg he).1 hk with hk | rfl
    · exact hf'.fresh k hk
    · exact fun hid => (List.nodup_cons.1 h.nodup).1 (hid ▸ List.mem_map_of_mem hf)

theorem AddableAll.of_isPrefix {es es' : List Operation} (h : g.AddableAll es) (hp : es' <+: es) :
    g.AddableAll es' :=
  ⟨h.nodup.sublist (hp.sublist.map _), fun e he => h.each e (hp.subset he)⟩

/-- The order of the new edges does not matter. -/
theorem AddableAll.of_perm {es es' : List Operation} (h : g.AddableAll es) (hp : es'.Perm es) :
    g.AddableAll es' :=
  ⟨(hp.map _).nodup_iff.2 h.nodup, fun e he => h.each e (hp.mem_iff.1 he)⟩

/-- Adding fresh edges between live nodes keeps the lists consistent. -/
theorem wellFormed_addEdges {es : List Operation} (hg : g.WellFormed)
    (h : g.AddableAll es) : (g.addEdges es).WellFormed := by
  induction es generalizing g with
  | nil => exact hg
  | cons e es ih =>
      exact ih (wellFormed_addEdge hg (h.each e (List.mem_cons_self ..))) (h.tail hg)

/-- It keeps the counters exact. -/
theorem exact_addEdges {es : List Operation} (hg : g.WellFormed) (hx : g.Exact)
    (h : g.AddableAll es) : (g.addEdges es).Exact := by
  induction es generalizing g with
  | nil => exact hx
  | cons e es ih =>
      have he := h.each e (List.mem_cons_self ..)
      exact ih (wellFormed_addEdge hg he) (exact_addEdge hg hx he) (h.tail hg)

/-- Nothing but the new edges joins. -/
theorem hasEdge_addEdges {es : List Operation} (hg : g.WellFormed) (h : g.AddableAll es)
    {f : Operation} : (g.addEdges es).HasEdge f ↔ g.HasEdge f ∨ f ∈ es := by
  induction es generalizing g with
  | nil => exact ⟨Or.inl, fun h => h.resolve_right List.not_mem_nil⟩
  | cons e es ih =>
      have he := h.each e (List.mem_cons_self ..)
      rw [addEdges, List.foldl_cons, ← addEdges, ih (wellFormed_addEdge hg he) (h.tail hg),
        hasEdge_addEdge hg he, List.mem_cons, or_assoc]

end Graph

/-! ## Plans -/

namespace Plan

variable {g : Graph} {p : Plan}

/-- The plan removes distinct edges of the graph and links live nodes. -/
structure Valid (p : Plan) (g : Graph) : Prop where
  removable : g.Removable p.edgesToEliminate
  live : ∀ e ∈ p.edgesToAdd, ∀ n ∈ e.output :: e.inputs, g.node? n.guid = some n

/-- The new operations, as they are allocated. -/
def added (p : Plan) (team : ℕ) (g : Graph) : List Operation :=
  makeShared team g.freshId p.edgesToAdd

theorem addableAll_added (hg : g.WellFormed) (hp : p.Valid g) (team : ℕ) :
    (g.eliminateEdges p.edgesToEliminate).AddableAll (p.added team g) where
  nodup := nodup_makeShared_id _ _ _
  each := fun e he => by
    refine ⟨fun f hf => ?_, fun n hn => ?_⟩
    · have h₁ := id_lt_freshId ((Graph.hasEdge_eliminateEdges hg hp.removable).1 hf).1
      have h₂ := fresh_le_id he
      omega
    · obtain ⟨k, hk, -, hin, hout⟩ := exists_of_mem_makeShared he
      rw [(Graph.sameFrame_eliminateEdges g _).node?]
      rw [hin, hout] at hn
      exact hp.live k hk n hn

/-- **A valid plan keeps the lists consistent.** -/
theorem wellFormed_result (hg : g.WellFormed) (hp : p.Valid g) (team : ℕ) :
    (p.result team g).WellFormed :=
  Graph.wellFormed_addEdges (Graph.wellFormed_eliminateEdges hg hp.removable)
    (addableAll_added hg hp team)

/-- **A valid plan keeps the counters exact.** -/
theorem exact_result (hg : g.WellFormed) (hx : g.Exact) (hp : p.Valid g) (team : ℕ) :
    (p.result team g).Exact :=
  Graph.exact_addEdges (Graph.wellFormed_eliminateEdges hg hp.removable)
    (Graph.exact_eliminateEdges hg hx hp.removable) (addableAll_added hg hp team)

/-- The counters are exact after every single removal and addition. -/
theorem exact_prefix (hg : g.WellFormed) (hx : g.Exact) (hp : p.Valid g) (team : ℕ) :
    (∀ es, es <+: p.edgesToEliminate → (g.eliminateEdges es).Exact) ∧
      ∀ es, es <+: p.added team g →
        ((g.eliminateEdges p.edgesToEliminate).addEdges es).Exact :=
  ⟨fun _ hes => Graph.exact_eliminateEdges hg hx (hp.removable.of_isPrefix hes),
    fun _ hes => Graph.exact_addEdges (Graph.wellFormed_eliminateEdges hg hp.removable)
      (Graph.exact_eliminateEdges hg hx hp.removable)
      ((addableAll_added hg hp team).of_isPrefix hes)⟩

/-- The edges of the rewritten graph are the kept ones and the new ones. -/
theorem hasEdge_result (hg : g.WellFormed) (hp : p.Valid g) (team : ℕ) {f : Operation} :
    (p.result team g).HasEdge f ↔
      (g.HasEdge f ∧ f ∉ p.edgesToEliminate) ∨ f ∈ p.added team g := by
  rw [result, ← added, Graph.hasEdge_addEdges (Graph.wellFormed_eliminateEdges hg hp.removable)
    (addableAll_added hg hp team), Graph.hasEdge_eliminateEdges hg hp.removable]

theorem sameFrame_result (p : Plan) (team : ℕ) (g : Graph) : g.SameFrame (p.result team g) :=
  (Graph.sameFrame_eliminateEdges g _).trans (Graph.sameFrame_addEdges _ _)

end Plan

/-! ## Graphs given by their edges -/

/-- Nodes without edges. -/
def GraphBase.bare (nodes : List Node) : GraphBase :=
  ⟨nodes.map fun _ => [], nodes.map fun _ => [], nodes.map some⟩

namespace GraphBase

variable {nodes : List Node}

theorem at'_map_nil (i : ℕ) : OpTable.at' (nodes.map fun _ => []) i = [] := by
  rw [OpTable.at', List.getD_eq_getElem?_getD, List.getElem?_map]
  cases nodes[i]? <;> rfl

theorem node?_bare (i : ℕ) : (bare nodes).node? i = nodes[i]? := by
  rw [node?, bare, List.getD_eq_getElem?_getD, List.getElem?_map]
  cases nodes[i]? <;> rfl

theorem not_listed_bare (e : Operation) : ¬ (bare nodes).Listed e := by
  rintro (⟨v, hv⟩ | ⟨u, hu⟩)
  · rw [inEdges, bare, at'_map_nil] at hv
    exact List.not_mem_nil hv
  · rw [outEdges, bare, at'_map_nil] at hu
    exact List.not_mem_nil hu

/-- A graph without edges is consistent when its nodes stand at their indices. -/
theorem wellFormed_bare (h : nodes.map Node.guid = List.range nodes.length) :
    (bare nodes).WellFormed where
  inLength := by simp [bare, nodeSize]
  outLength := by simp [bare, nodeSize]
  guid_eq := by
    intro i n hn
    rw [node?_bare, List.getElem?_eq_some_iff] at hn
    obtain ⟨hi, rfl⟩ := hn
    have : (nodes.map Node.guid)[i]? = (List.range nodes.length)[i]? := by rw [h]
    rw [List.getElem?_map, List.getElem?_eq_getElem hi, List.getElem?_range hi] at this
    simpa using this
  address := fun he => absurd he (not_listed_bare _)
  in_once := fun he => absurd he (not_listed_bare _)
  out_count := by
    intro u e
    have hne : ¬ (bare nodes).HasEdge e := fun h => not_listed_bare e (Or.inl ⟨_, h⟩)
    rw [if_neg hne, outEdges, bare, at'_map_nil]
    rfl
  live := fun he => absurd he (not_listed_bare _)

end GraphBase

namespace Graph

variable {g : Graph} {nodes : List Node} {es : List Operation}

/-- Edges between listed nodes can be added. -/
theorem addableAll_bare (hg : g.toGraphBase = bare nodes) (hid : (es.map Operation.id).Nodup)
    (hlive : ∀ e ∈ es, ∀ n ∈ e.output :: e.inputs, nodes[n.guid]? = some n) :
    g.AddableAll es where
  nodup := hid
  each := fun e he => by
    refine ⟨fun f hf => ?_, fun n hn => ?_⟩
    · rw [hg] at hf
      exact absurd (Or.inl ⟨_, hf⟩) (not_listed_bare f)
    · rw [hg, node?_bare]
      exact hlive e he n hn

/-- Edges with distinct addresses and live ends make a well-formed graph. -/
theorem wellFormed_linked (hg : g.toGraphBase = bare nodes)
    (hguid : nodes.map Node.guid = List.range nodes.length)
    (hid : (es.map Operation.id).Nodup)
    (hlive : ∀ e ∈ es, ∀ n ∈ e.output :: e.inputs, nodes[n.guid]? = some n) :
    (g.addEdges es).WellFormed :=
  wellFormed_addEdges (hg ▸ wellFormed_bare hguid) (addableAll_bare hg hid hlive)

/-- The graph linked from nodes and edges has exactly these edges. -/
theorem hasEdge_linked (hg : g.toGraphBase = bare nodes)
    (hguid : nodes.map Node.guid = List.range nodes.length)
    (hid : (es.map Operation.id).Nodup)
    (hlive : ∀ e ∈ es, ∀ n ∈ e.output :: e.inputs, nodes[n.guid]? = some n) {f : Operation} :
    (g.addEdges es).HasEdge f ↔ f ∈ es := by
  rw [hasEdge_addEdges (hg ▸ wellFormed_bare hguid) (addableAll_bare hg hid hlive), hg]
  exact or_iff_right fun hf => not_listed_bare f (Or.inl ⟨_, hf⟩)

/-- Edges go into the tables whatever the caches hold. -/
theorem toGraphBase_addEdges_congr {g g' : Graph} (h : g.toGraphBase = g'.toGraphBase)
    (es : List Operation) : (g.addEdges es).toGraphBase = (g'.addEdges es).toGraphBase := by
  induction es generalizing g g' with
  | nil => exact h
  | cons e es ih =>
      have hadd : (g.addEdge e).toGraphBase = (g'.addEdge e).toGraphBase := by
        simp only [addEdge, h]
      exact ih hadd

end Graph

end Gauv
