import Gauv.Backend.Graph
import Gauv.Lists

/-!
# The adjacency representation

The in-list and out-list tables of a graph describe one set of hyperedges from
two sides.  `WellFormed` says that they agree: every listed edge stands exactly
once in the in-list of its output, and in the out-list of a node as often as
the node is an input of it.  `eliminateEdge`, `addEdge` and the deletion of a
node without out-edges keep this up.
-/

namespace Gauv

/-! ## Tables -/

namespace OpTable

/-- Reading a table after one list was replaced. -/
theorem at'_set (t : OpTable) (i j : ℕ) (l : List Operation) :
    OpTable.at' (t.set i l) j = if i = j ∧ i < t.length then l else t.at' j :=
  getD_set t i j l []

theorem at'_of_le {t : OpTable} {i : ℕ} (h : t.length ≤ i) : t.at' i = [] := by
  rw [at', List.getD_eq_default _ _ h]

/-- Reading a table after an edge was erased from one list. -/
theorem at'_erase (t : OpTable) (i j : ℕ) (e : Operation) :
    (t.erase i e).at' j = if i = j then (t.at' j).eraseP (fun x => x.id == e.id) else t.at' j := by
  rw [erase, at'_set]
  by_cases hij : i = j
  · subst hij
    by_cases hi : i < t.length
    · simp [hi]
    · simp [hi, at'_of_le (not_lt.1 hi)]
  · simp [hij]

/-- Reading a table after an edge was appended to one list. -/
theorem at'_push {t : OpTable} {i : ℕ} (hi : i < t.length) (j : ℕ) (e : Operation) :
    (t.push i e).at' j = t.at' j ++ if i = j then [e] else [] := by
  rw [push, at'_set]
  by_cases hij : i = j
  · subst hij
    simp [hi]
  · simp [hij]

@[simp] theorem length_erase (t : OpTable) (i : ℕ) (e : Operation) :
    (t.erase i e).length = t.length := by
  rw [erase, List.length_set]

@[simp] theorem length_push (t : OpTable) (i : ℕ) (e : Operation) :
    (t.push i e).length = t.length := by
  rw [push, List.length_set]

/-- Removing an edge from the out-lists of its inputs, as the loop over the
inputs does. -/
def eraseAll (t : OpTable) (ns : List Node) (e : Operation) : OpTable :=
  ns.foldl (fun t src => t.erase src.guid e) t

/-- Appending an edge to the out-lists of its inputs. -/
def pushAll (t : OpTable) (ns : List Node) (e : Operation) : OpTable :=
  ns.foldl (fun t src => t.push src.guid e) t

@[simp] theorem length_eraseAll (t : OpTable) (ns : List Node) (e : Operation) :
    (t.eraseAll ns e).length = t.length := by
  induction ns generalizing t with
  | nil => rfl
  | cons n ns ih => rw [eraseAll, List.foldl_cons, ← eraseAll, ih, length_erase]

@[simp] theorem length_pushAll (t : OpTable) (ns : List Node) (e : Operation) :
    (t.pushAll ns e).length = t.length := by
  induction ns generalizing t with
  | nil => rfl
  | cons n ns ih => rw [pushAll, List.foldl_cons, ← pushAll, ih, length_push]

/-- What the removal leaves was there before. -/
theorem mem_of_mem_eraseAll {t : OpTable} {ns : List Node} {e f : Operation} {j : ℕ}
    (h : f ∈ (t.eraseAll ns e).at' j) : f ∈ t.at' j := by
  induction ns generalizing t with
  | nil => exact h
  | cons n ns ih =>
      have := ih h
      rw [at'_erase] at this
      split at this
      · exact List.mem_of_mem_eraseP this
      · exact this

/-- The removal lowers the count of the edge by its number of occurrences among
the inputs and touches no other edge. -/
theorem count_eraseAll {t : OpTable} {e : Operation} {j : ℕ}
    (hid : ∀ x ∈ t.at' j, x.id = e.id ↔ x = e) (ns : List Node) (f : Operation) :
    ((t.eraseAll ns e).at' j).count f =
      (t.at' j).count f - if f = e then (ns.map Node.guid).count j else 0 := by
  induction ns generalizing t with
  | nil => simp [eraseAll]
  | cons n ns ih =>
      have hstep : ∀ x ∈ (t.erase n.guid e).at' j, x.id = e.id ↔ x = e := by
        intro x hx
        refine hid x ?_
        rw [at'_erase] at hx
        split at hx
        · exact List.mem_of_mem_eraseP hx
        · exact hx
      rw [eraseAll, List.foldl_cons, ← eraseAll, ih hstep, at'_erase]
      by_cases hn : n.guid = j
      · have hp : ∀ x ∈ t.at' j, (x.id == e.id) = true ↔ x = e := by
          intro x hx
          rw [beq_iff_eq]
          exact hid x hx
        rw [if_pos hn, count_eraseP hp]
        by_cases hf : f = e
        · simp only [hf, if_true, List.map_cons, hn, List.count_cons_self]
          omega
        · simp [hf]
      · rw [if_neg hn]
        by_cases hf : f = e
        · simp [hf, List.count_cons_of_ne hn]
        · simp [hf]

/-- The append raises the count of the edge by its number of occurrences among
the inputs and touches no other edge. -/
theorem count_pushAll {t : OpTable} {ns : List Node} (hns : ∀ n ∈ ns, n.guid < t.length)
    (e f : Operation) (j : ℕ) :
    ((t.pushAll ns e).at' j).count f =
      (t.at' j).count f + if f = e then (ns.map Node.guid).count j else 0 := by
  induction ns generalizing t with
  | nil => simp [pushAll]
  | cons n ns ih =>
      have hn : n.guid < t.length := hns n (List.mem_cons_self ..)
      have hns' : ∀ m ∈ ns, m.guid < (t.push n.guid e).length := fun m hm => by
        rw [length_push]
        exact hns m (List.mem_cons_of_mem _ hm)
      rw [pushAll, List.foldl_cons, ← pushAll, ih hns', at'_push hn]
      by_cases hj : n.guid = j
      · by_cases hf : f = e
        · simp [hj, hf]
          omega
        · simp [hj, hf, List.count_cons_of_ne (Ne.symm hf)]
      · by_cases hf : f = e
        · simp [hj, hf, List.count_cons_of_ne hj]
        · simp [hj, hf]

/-- Only the edge is new in any list. -/
theorem mem_pushAll {t : OpTable} {ns : List Node} {e f : Operation} {j : ℕ}
    (h : f ∈ (t.pushAll ns e).at' j) : f ∈ t.at' j ∨ f = e := by
  induction ns generalizing t with
  | nil => exact Or.inl h
  | cons n ns ih =>
      have h : f ∈ ((t.push n.guid e).pushAll ns e).at' j := h
      rcases ih h with h | h
      · rw [push, at'_set] at h
        split at h
        · rename_i hij
          rcases List.mem_append.1 h with h | h
          · exact Or.inl (hij.1 ▸ h)
          · exact Or.inr (List.mem_singleton.1 h)
        · exact Or.inl h
      · exact Or.inr h

end OpTable

/-! ## The invariant -/

namespace GraphBase

/-- The edge occurs in some list of the graph. -/
def Listed (g : GraphBase) (e : Operation) : Prop :=
  (∃ v, e ∈ g.inEdges v) ∨ ∃ u, e ∈ g.outEdges u

/-- The edge is in the in-list of its output. -/
def HasEdge (g : GraphBase) (e : Operation) : Prop := e ∈ g.inEdges e.output.guid

instance (g : GraphBase) (e : Operation) : Decidable (g.HasEdge e) :=
  inferInstanceAs (Decidable (e ∈ g.inEdges e.output.guid))

/-- The two adjacency tables mirror each other, and what they list is live. -/
structure WellFormed (g : GraphBase) : Prop where
  inLength : g.inEdgesOf.length = g.nodeSize
  outLength : g.outEdgesOf.length = g.nodeSize
  /-- The guid of a live node is its index. -/
  guid_eq : ∀ {i n}, g.node? i = some n → n.guid = i
  /-- Two listed edges at one address are one edge. -/
  address : ∀ {e f}, g.Listed e → g.Listed f → e.id = f.id → e = f
  /-- A listed edge is in the in-list of its output once, and in no other. -/
  in_once : ∀ {e}, g.Listed e → ∀ v, (g.inEdges v).count e = if v = e.output.guid then 1 else 0
  /-- The out-list of a node names an edge as often as the node is its input. -/
  out_count : ∀ u e, (g.outEdges u).count e = if g.HasEdge e then e.inputCount u else 0
  /-- The ends of a listed edge are live nodes. -/
  live : ∀ {e}, g.Listed e → ∀ n ∈ e.output :: e.inputs, g.node? n.guid = some n

variable {g : GraphBase}

/-- The only in-edge of its output is an edge of the graph. -/
theorem hasEdge_of_inEdges {e : Operation} (h : g.inEdges e.output.guid = [e]) :
    g.HasEdge e := by
  rw [HasEdge, h]
  exact List.mem_singleton_self e

theorem lt_of_node? {i : ℕ} {n : Node} (h : g.node? i = some n) : i < g.nodeSize := by
  by_contra hi
  rw [node?, List.getD_eq_default _ _ (not_lt.1 hi)] at h
  exact absurd h (by simp)

/-- Two live nodes with one guid are one node. -/
theorem eq_of_guid {m n : Node} (hm : g.node? m.guid = some m) (hn : g.node? n.guid = some n)
    (h : m.guid = n.guid) : m = n := by
  rw [h, hn] at hm
  exact (Option.some.inj hm).symm

namespace WellFormed

/-- Every listed edge is one of the graph. -/
theorem listed_iff (hg : g.WellFormed) {e : Operation} : g.Listed e ↔ g.HasEdge e := by
  constructor
  · intro h
    have := hg.in_once h e.output.guid
    rw [if_pos rfl] at this
    exact List.count_pos_iff.1 (by omega)
  · exact fun h => Or.inl ⟨_, h⟩

/-- The in-list of a node holds the edges that end there. -/
theorem mem_inEdges (hg : g.WellFormed) {e : Operation} {v : ℕ} :
    e ∈ g.inEdges v ↔ g.HasEdge e ∧ e.output.guid = v := by
  constructor
  · intro h
    have hl : g.Listed e := Or.inl ⟨v, h⟩
    have hc := hg.in_once hl v
    have hpos := List.count_pos_iff.2 h
    refine ⟨hg.listed_iff.1 hl, ?_⟩
    by_contra hv
    rw [if_neg (Ne.symm hv)] at hc
    omega
  · rintro ⟨h, rfl⟩
    exact h

/-- The out-list of a node holds the edges that read it. -/
theorem mem_outEdges (hg : g.WellFormed) {e : Operation} {u : ℕ} :
    e ∈ g.outEdges u ↔ g.HasEdge e ∧ ∃ n ∈ e.inputs, n.guid = u := by
  rw [← List.count_pos_iff, hg.out_count]
  by_cases h : g.HasEdge e
  · rw [if_pos h, Operation.inputCount, List.count_pos_iff, List.mem_map]
    exact ⟨fun hu => ⟨h, hu⟩, fun hu => hu.2⟩
  · rw [if_neg h]
    exact ⟨fun hc => absurd hc (lt_irrefl 0), fun hu => absurd hu.1 h⟩

/-- No edge stands in an in-list twice. -/
theorem nodup_inEdges (hg : g.WellFormed) (v : ℕ) : (g.inEdges v).Nodup := by
  rw [List.nodup_iff_count_le_one]
  intro e
  by_cases h : e ∈ g.inEdges v
  · rw [hg.in_once (Or.inl ⟨v, h⟩)]
    split <;> omega
  · rw [List.count_eq_zero_of_not_mem h]
    omega

/-- The output of an edge is the live node of its index. -/
theorem output_live (hg : g.WellFormed) {e : Operation} (h : g.HasEdge e) :
    g.node? e.output.guid = some e.output :=
  hg.live (hg.listed_iff.2 h) _ (List.mem_cons_self ..)

theorem eq_output (hg : g.WellFormed) {e : Operation} (h : g.HasEdge e) {n : Node}
    (hn : g.node? e.output.guid = some n) : n = e.output := by
  rw [hg.output_live h] at hn
  exact (Option.some.inj hn).symm

/-- The inputs of an edge are the live nodes of their indices. -/
theorem input_live (hg : g.WellFormed) {e : Operation} (h : g.HasEdge e) {n : Node}
    (hn : n ∈ e.inputs) : g.node? n.guid = some n :=
  hg.live (hg.listed_iff.2 h) _ (List.mem_cons_of_mem _ hn)

end WellFormed

end GraphBase

/-! ## One edge removed -/

namespace Graph

open GraphBase

variable {g : Graph} {e : Operation}

@[simp] theorem eliminateEdge_nodes (g : Graph) (e : Operation) :
    (g.eliminateEdge e).nodes = g.nodes := rfl

@[simp] theorem eliminateEdge_node? (g : Graph) (e : Operation) (i : ℕ) :
    (g.eliminateEdge e).node? i = g.node? i := rfl

/-- The in-lists after one edge is eliminated. -/
theorem eliminateEdge_inEdges (g : Graph) (e : Operation) (v : ℕ) :
    (g.eliminateEdge e).inEdges v = if e.output.guid = v
      then (g.inEdges v).eraseP (fun x => x.id == e.id) else g.inEdges v :=
  OpTable.at'_erase _ _ _ _

theorem eliminateEdge_outEdges (g : Graph) (e : Operation) (u : ℕ) :
    (g.eliminateEdge e).outEdges u = (g.outEdgesOf.eraseAll e.inputs e).at' u := rfl

/-- Nothing new is listed after a removal. -/
theorem listed_of_eliminateEdge {f : Operation} (h : (g.eliminateEdge e).Listed f) :
    g.Listed f := by
  rcases h with ⟨v, hv⟩ | ⟨u, hu⟩
  · rw [eliminateEdge_inEdges] at hv
    split at hv
    · exact Or.inl ⟨v, List.mem_of_mem_eraseP hv⟩
    · exact Or.inl ⟨v, hv⟩
  · exact Or.inr ⟨u, OpTable.mem_of_mem_eraseAll hu⟩

/-- The address tells the edge. -/
theorem id_eq_iff (hg : g.WellFormed) (he : g.HasEdge e) {f : Operation} (hf : g.Listed f) :
    f.id = e.id ↔ f = e :=
  ⟨fun h => hg.address hf (hg.listed_iff.2 he) h, fun h => by rw [h]⟩

/-- Only the eliminated edge is fewer, once. -/
theorem count_eliminateEdge_inEdges (hg : g.WellFormed) (he : g.HasEdge e) (v : ℕ)
    (f : Operation) :
    ((g.eliminateEdge e).inEdges v).count f =
      (g.inEdges v).count f - if f = e ∧ v = e.output.guid then 1 else 0 := by
  rw [eliminateEdge_inEdges]
  by_cases hv : e.output.guid = v
  · rw [if_pos hv, count_eraseP (a := e)]
    · simp [hv]
    · intro x hx
      rw [beq_iff_eq]
      exact id_eq_iff hg he (Or.inl ⟨v, hx⟩)
  · rw [if_neg hv, if_neg (fun h => hv h.2.symm), Nat.sub_zero]

theorem mem_eliminateEdge_inEdges (hg : g.WellFormed) (he : g.HasEdge e) {v : ℕ}
    {f : Operation} : f ∈ (g.eliminateEdge e).inEdges v ↔ f ∈ g.inEdges v ∧ f ≠ e := by
  rw [← List.count_pos_iff, count_eliminateEdge_inEdges hg he, ← List.count_pos_iff]
  by_cases hf : f = e
  · subst hf
    have hc := hg.in_once (hg.listed_iff.2 he) v
    by_cases hv : v = f.output.guid
    · subst hv
      rw [if_pos rfl] at hc
      simp [hc]
    · rw [if_neg hv] at hc
      simp [hc]
  · simp [hf]

/-- The other edges stay. -/
theorem hasEdge_eliminateEdge (hg : g.WellFormed) (he : g.HasEdge e) {f : Operation} :
    (g.eliminateEdge e).HasEdge f ↔ g.HasEdge f ∧ f ≠ e :=
  mem_eliminateEdge_inEdges hg he

/-- The output of the edge loses one in-edge. -/
theorem inDeg_eliminateEdge (he : g.HasEdge e) (v : ℕ) :
    (g.eliminateEdge e).inDeg v = g.inDeg v - if v = e.output.guid then 1 else 0 := by
  rw [inDeg, inDeg, eliminateEdge_inEdges]
  by_cases hv : e.output.guid = v
  · subst hv
    rw [if_pos rfl, if_pos rfl, List.length_eraseP_of_mem he (by simp)]
  · rw [if_neg hv, if_neg (Ne.symm hv), Nat.sub_zero]

/-- Removing an edge of the graph keeps the tables in step. -/
theorem wellFormed_eliminateEdge (hg : g.WellFormed) (he : g.HasEdge e) :
    (g.eliminateEdge e).WellFormed where
  inLength := by
    rw [← show g.nodeSize = (g.eliminateEdge e).nodeSize from rfl, ← hg.inLength]
    exact OpTable.length_erase _ _ _
  outLength := by
    rw [← show g.nodeSize = (g.eliminateEdge e).nodeSize from rfl, ← hg.outLength]
    exact OpTable.length_eraseAll _ _ _
  guid_eq := hg.guid_eq
  address := fun h h' => hg.address (listed_of_eliminateEdge h) (listed_of_eliminateEdge h')
  in_once := by
    intro f hf v
    have hc := hg.in_once (listed_of_eliminateEdge hf) v
    rw [count_eliminateEdge_inEdges hg he, hc]
    by_cases hfe : f = e
    · -- the removed edge is not listed any more
      exfalso
      subst hfe
      rcases hf with ⟨w, hw⟩ | ⟨u, hu⟩
      · exact ((mem_eliminateEdge_inEdges hg he).1 hw).2 rfl
      · have hpos := List.count_pos_iff.2 hu
        rw [eliminateEdge_outEdges, OpTable.count_eraseAll
          (fun x hx => id_eq_iff hg he (Or.inr ⟨u, hx⟩)), if_pos rfl] at hpos
        have := hg.out_count u f
        rw [if_pos he, Operation.inputCount] at this
        change 0 < (g.outEdges u).count f - _ at hpos
        omega
    · simp [hfe]
  out_count := by
    intro u f
    rw [eliminateEdge_outEdges, OpTable.count_eraseAll
      (fun x hx => id_eq_iff hg he (Or.inr ⟨u, hx⟩))]
    change (g.outEdges u).count f - _ = _
    rw [hg.out_count]
    by_cases hfe : f = e
    · subst hfe
      rw [if_pos rfl, if_pos he, if_neg fun h => ((hasEdge_eliminateEdge hg he).1 h).2 rfl,
        Operation.inputCount, Nat.sub_self]
    · have : (g.eliminateEdge e).HasEdge f ↔ g.HasEdge f := by
        rw [hasEdge_eliminateEdge hg he]
        exact and_iff_left hfe
      simp only [if_neg hfe, Nat.sub_zero, this]
  live := fun h => hg.live (listed_of_eliminateEdge h)

/-! ## One edge added -/

@[simp] theorem addEdge_nodes (g : Graph) (e : Operation) : (g.addEdge e).nodes = g.nodes := rfl

@[simp] theorem addEdge_node? (g : Graph) (e : Operation) (i : ℕ) :
    (g.addEdge e).node? i = g.node? i := rfl

/-- What `addEdge` needs of its argument: an address nobody has, and live ends. -/
structure Addable (g : Graph) (e : Operation) : Prop where
  fresh : ∀ f, g.HasEdge f → f.id ≠ e.id
  live : ∀ n ∈ e.output :: e.inputs, g.node? n.guid = some n

theorem Addable.not_hasEdge (ha : g.Addable e) : ¬ g.HasEdge e := fun h => ha.fresh e h rfl

/-- The in-lists after one edge is added. -/
theorem addEdge_inEdges (hg : g.WellFormed) (ha : g.Addable e) (v : ℕ) :
    (g.addEdge e).inEdges v = g.inEdges v ++ if e.output.guid = v then [e] else [] := by
  have hlt : e.output.guid < g.inEdgesOf.length := by
    rw [hg.inLength]
    exact lt_of_node? (ha.live _ (List.mem_cons_self ..))
  exact OpTable.at'_push hlt v e

/-- The edge joins the out-list of a node once for each time it reads it. -/
theorem count_addEdge_outEdges (hg : g.WellFormed) (ha : g.Addable e) (u : ℕ) (f : Operation) :
    ((g.addEdge e).outEdges u).count f =
      (g.outEdges u).count f + if f = e then e.inputCount u else 0 := by
  refine OpTable.count_pushAll (fun n hn => ?_) e f u
  rw [hg.outLength]
  exact lt_of_node? (ha.live _ (List.mem_cons_of_mem _ hn))

theorem mem_addEdge_inEdges (hg : g.WellFormed) (ha : g.Addable e) {v : ℕ} {f : Operation} :
    f ∈ (g.addEdge e).inEdges v ↔ f ∈ g.inEdges v ∨ f = e ∧ e.output.guid = v := by
  rw [addEdge_inEdges hg ha, List.mem_append]
  by_cases hv : e.output.guid = v
  · simp [hv]
  · simp [hv]

/-- The edge joins the others. -/
theorem hasEdge_addEdge (hg : g.WellFormed) (ha : g.Addable e) {f : Operation} :
    (g.addEdge e).HasEdge f ↔ g.HasEdge f ∨ f = e := by
  refine (mem_addEdge_inEdges hg ha).trans (or_congr Iff.rfl ?_)
  exact ⟨fun h => h.1, fun h => ⟨h, by rw [h]⟩⟩

theorem listed_of_addEdge (hg : g.WellFormed) (ha : g.Addable e) {f : Operation}
    (h : (g.addEdge e).Listed f) : g.Listed f ∨ f = e := by
  rcases h with ⟨v, hv⟩ | ⟨u, hu⟩
  · rcases (mem_addEdge_inEdges hg ha).1 hv with h | h
    · exact Or.inl (Or.inl ⟨v, h⟩)
    · exact Or.inr h.1
  · rcases OpTable.mem_pushAll hu with h | h
    · exact Or.inl (Or.inr ⟨u, h⟩)
    · exact Or.inr h

/-- The output of the edge gains one in-edge. -/
theorem inDeg_addEdge (hg : g.WellFormed) (ha : g.Addable e) (v : ℕ) :
    (g.addEdge e).inDeg v = g.inDeg v + if v = e.output.guid then 1 else 0 := by
  rw [inDeg, addEdge_inEdges hg ha, List.length_append, ← inDeg]
  by_cases hv : e.output.guid = v
  · simp [hv]
  · simp [hv, Ne.symm hv]

/-- Adding a fresh edge between live nodes keeps the tables in step. -/
theorem wellFormed_addEdge (hg : g.WellFormed) (ha : g.Addable e) :
    (g.addEdge e).WellFormed where
  inLength := by
    rw [← show g.nodeSize = (g.addEdge e).nodeSize from rfl, ← hg.inLength]
    exact OpTable.length_push _ _ _
  outLength := by
    rw [← show g.nodeSize = (g.addEdge e).nodeSize from rfl, ← hg.outLength]
    exact OpTable.length_pushAll _ _ _
  guid_eq := hg.guid_eq
  address := by
    intro f f' hf hf' hid
    rcases listed_of_addEdge hg ha hf with h | h <;>
      rcases listed_of_addEdge hg ha hf' with h' | h'
    · exact hg.address h h' hid
    · exact absurd (h' ▸ hid) (ha.fresh f (hg.listed_iff.1 h))
    · exact absurd (h ▸ hid.symm) (ha.fresh f' (hg.listed_iff.1 h'))
    · rw [h, h']
  in_once := by
    intro f hf v
    rw [addEdge_inEdges hg ha, List.count_append]
    rcases listed_of_addEdge hg ha hf with hf | rfl
    · have hne : e ≠ f := fun h => ha.not_hasEdge (h ▸ hg.listed_iff.1 hf)
      rw [hg.in_once hf]
      by_cases hv : e.output.guid = v
      · simp [hv, List.count_cons_of_ne hne]
      · simp [hv]
    · have h0 : (g.inEdges v).count f = 0 := by
        rw [List.count_eq_zero]
        exact fun h => ha.not_hasEdge ((hg.mem_inEdges).1 h).1
      by_cases hv : f.output.guid = v
      · simp [hv, h0]
      · simp [hv, h0, Ne.symm hv]
  out_count := by
    intro u f
    rw [count_addEdge_outEdges hg ha, hg.out_count]
    by_cases hfe : f = e
    · subst hfe
      rw [if_neg ha.not_hasEdge, if_pos rfl, if_pos ((hasEdge_addEdge hg ha).2 (Or.inr rfl)),
        Nat.zero_add]
    · have : (g.addEdge e).HasEdge f ↔ g.HasEdge f :=
        (hasEdge_addEdge hg ha).trans (or_iff_left hfe)
      simp only [if_neg hfe, Nat.add_zero, this]
  live := by
    intro f hf n hn
    rcases listed_of_addEdge hg ha hf with hf | rfl
    · exact hg.live hf n hn
    · exact ha.live n hn

end Graph

end Gauv
