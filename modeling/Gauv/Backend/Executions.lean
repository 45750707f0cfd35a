import Gauv.Backend.Precheck
import Gauv.Network
import Gauv.Simulation

/-!
# Executions of a protocol graph

An execution gives every node the value that its edge computes from the values
of the inputs.  In a graph without directed cycles, in which no node is computed
twice, the executions are the choices of values for the nodes without in-edges:
the inputs of the protocol and its random nodes.  So there are as many
executions with given inputs as values for the random nodes.
-/

namespace Gauv

open GraphBase Network

variable {A : Type*}

/-- What an operation computes from the values of its inputs. -/
abbrev Computation (A : Type*) := Operation → List A → A

namespace GraphBase

/-- No node is computed by two edges. -/
def SingleAssignment (g : GraphBase) : Prop := ∀ i, g.inDeg i ≤ 1

section Executions

variable [Zero A]

/-- Every edge has computed the value of its output; there is no value where
there is no node. -/
structure IsExecution (g : GraphBase) (op : Computation A) (val : ℕ → A) : Prop where
  computed : ∀ e, g.HasEdge e → val e.output.guid = op e (e.inputs.map fun n => val n.guid)
  absent : ∀ i, g.node? i = none → val i = 0

/-- The executions of the graph. -/
def executions (g : GraphBase) (op : Computation A) : Set (ℕ → A) := {val | g.IsExecution op val}

/-- The values of an execution at some of the nodes. -/
def valuesAt (g : GraphBase) (p : Node → Bool) (val : ℕ → A) : ℕ → A :=
  fun i => if (g.node? i).any p then val i else 0

/-- A node the protocol starts from: an input or output without in-edges. -/
def isStart (g : GraphBase) (n : Node) : Bool := n.isInOut && g.inDeg n.guid = 0

variable {g : GraphBase} {op : Computation A} {p : Node → Bool} {u v val : ℕ → A}

theorem mem_executions : val ∈ g.executions op ↔ g.IsExecution op val := Iff.rfl

theorem valuesAt_eq_iff : g.valuesAt p u = g.valuesAt p v ↔
    ∀ i n, g.node? i = some n → p n = true → u i = v i := by
  constructor
  · intro h i n hn hp
    have := congrFun h i
    simpa only [valuesAt, hn, Option.any_some, hp, if_true] using this
  · intro h
    funext i
    cases hn : g.node? i with
    | none => simp [valuesAt, hn]
    | some n =>
        cases hp : p n with
        | true => simp [valuesAt, hn, hp, h i n hn hp]
        | false => simp [valuesAt, hn, hp]

/-! ## The graph as a network -/

/-- The rule of a node: its edge, if it has one. -/
def rule (g : GraphBase) (op : Computation A) (i : ℕ) : Option ((ℕ → A) → A) :=
  match g.node? i with
  | none => some fun _ => 0
  | some _ => (g.inEdges i).head?.map fun e val => op e (e.inputs.map fun n => val n.guid)

theorem rule_eq_none : g.rule op i = none ↔ (∃ n, g.node? i = some n) ∧ g.inDeg i = 0 := by
  rw [rule, inDeg, List.length_eq_zero_iff]
  cases g.node? i with
  | none => simp
  | some n => simp

theorem reads_rule (hg : g.WellFormed) : Reads g.Feeds (g.rule op) := by
  intro i f hf u v huv
  rw [rule] at hf
  split at hf
  · cases hf
    rfl
  · rw [Option.map_eq_some_iff] at hf
    obtain ⟨e, he, rfl⟩ := hf
    obtain ⟨hedge, rfl⟩ := hg.mem_inEdges.1 (List.mem_of_mem_head? he)
    refine congrArg (op e) (List.map_congr_left fun n hn => ?_)
    exact huv n.guid ⟨e, hedge, ⟨n, hn, rfl⟩, rfl⟩

/-- The executions are the solutions of the network. -/
theorem isExecution_iff (hg : g.WellFormed) (hs : g.SingleAssignment) :
    g.IsExecution op val ↔ Solves (g.rule op) val := by
  constructor
  · rintro ⟨hcomp, habs⟩ i f hf
    rw [rule] at hf
    split at hf
    · rename_i hi
      cases hf
      exact habs i hi
    · rw [Option.map_eq_some_iff] at hf
      obtain ⟨e, he, rfl⟩ := hf
      obtain ⟨hedge, rfl⟩ := hg.mem_inEdges.1 (List.mem_of_mem_head? he)
      exact hcomp e hedge
  · intro h
    refine ⟨fun e he => ?_, fun i hi => h i _ (by rw [rule, hi])⟩
    refine h _ (fun w => op e (e.inputs.map fun n => w n.guid)) ?_
    have hone : g.inEdges e.output.guid = [e] := by
      obtain ⟨f, hf⟩ := List.length_eq_one_iff.1
        (le_antisymm (hs e.output.guid) (List.length_pos_of_mem he))
      rw [HasEdge, hf, List.mem_singleton] at he
      rw [hf, he]
    rw [rule, hg.output_live he, hone]
    rfl

theorem wellFounded_feeds (hg : g.WellFormed) (hac : g.Acyclic) : WellFounded g.Feeds := by
  refine Digraph.Acyclic.wellFounded hac ((Set.finite_Iio g.nodeSize).subset ?_)
  rintro v ⟨u, e, he, -, rfl⟩
  exact lt_of_node? (hg.output_live he)

end Executions

end GraphBase

/-! ## Counting executions -/

namespace Graph

variable [Zero A] {g : Graph} {op : Computation A} {u v s : ℕ → A}

/-- A node without in-edges is one the protocol starts from, or a random one. -/
theorem isStart_or_isRandom {n : Node} (h : g.inDeg n.guid = 0) :
    g.isStart n = true ∨ g.isRandom n = true := by
  rw [isStart, isRandom, Node.isInOut, h]
  cases n.isInput <;> cases n.isOutput <;> simp

theorem not_isRandom_of_isStart {n : Node} (h : g.isStart n = true) : g.isRandom n = false := by
  rw [isStart, Node.isInOut, Bool.and_eq_true] at h
  rw [isRandom]
  cases hi : n.isInput <;> cases ho : n.isOutput <;> simp_all

/-- Executions that agree on the starting nodes and on the random ones are one. -/
theorem eq_of_isExecution (hg : g.WellFormed) (hs : g.SingleAssignment) (hac : g.Acyclic)
    (hu : g.IsExecution op u) (hv : g.IsExecution op v)
    (hstart : g.valuesAt g.isStart u = g.valuesAt g.isStart v)
    (hrandom : ∀ i ∈ g.randomIds, u i = v i) : u = v := by
  refine Solves.ext (wellFounded_feeds hg hac) (reads_rule hg) ((isExecution_iff hg hs).1 hu)
    ((isExecution_iff hg hs).1 hv) fun i hi => ?_
  obtain ⟨⟨n, hn⟩, hdeg⟩ := rule_eq_none.1 hi
  rw [← hg.guid_eq hn] at hdeg
  rcases isStart_or_isRandom hdeg with h | h
  · exact valuesAt_eq_iff.1 hstart i n hn h
  · exact hrandom i (mem_randomIds.2 ⟨n, hn, h⟩)

/-- The random nodes can take any values, whatever the protocol starts from. -/
theorem exists_isExecution (hg : g.WellFormed) (hs : g.SingleAssignment) (hac : g.Acyclic)
    (s : ℕ → A) (c : g.randomIds → A) :
    ∃ u, g.IsExecution op u ∧ g.valuesAt g.isStart u = g.valuesAt g.isStart s ∧
      ∀ i : g.randomIds, u i = c i := by
  classical
  have : Inhabited A := ⟨0⟩
  have hreads : Reads g.Feeds (g.rule op) := reads_rule hg
  obtain ⟨u, hu, hb⟩ := exists_solves (wellFounded_feeds hg hac) hreads fun i =>
    if h : i ∈ g.randomIds then c ⟨i, h⟩ else s i
  have hfree : ∀ i n, g.node? i = some n → g.inDeg i = 0 → i ∈ free (g.rule op) :=
    fun i n hn hdeg => rule_eq_none.2 ⟨⟨n, hn⟩, hdeg⟩
  refine ⟨u, (isExecution_iff hg hs).2 hu, valuesAt_eq_iff.2 fun i n hn hst => ?_, fun i => ?_⟩
  · have hdeg : g.inDeg i = 0 := by
      rw [isStart, Bool.and_eq_true, hg.guid_eq hn] at hst
      exact of_decide_eq_true hst.2
    have hnot : i ∉ g.randomIds := fun hi => by
      obtain ⟨m, hm, hr⟩ := mem_randomIds.1 hi
      obtain rfl : n = m := Option.some.inj (hn.symm.trans hm)
      rw [not_isRandom_of_isStart hst] at hr
      exact absurd hr (by simp)
    exact (hb i (hfree i n hn hdeg)).trans (dif_neg hnot)
  · obtain ⟨n, hn, hr⟩ := mem_randomIds.1 i.2
    have hdeg : g.inDeg i = 0 := by
      rw [isRandom, hg.guid_eq hn, Bool.and_eq_true, Bool.and_eq_true] at hr
      exact of_decide_eq_true hr.1.1
    exact (hb i (hfree i n hn hdeg)).trans (dif_pos i.2)

/-- **As many executions as coins.** -/
theorem card_fiber (hg : g.WellFormed) (hs : g.SingleAssignment) (hac : g.Acyclic) (s : ℕ → A) :
    Nat.card (Simulation.Fiber (g.executions op) (g.valuesAt g.isStart) s) =
      Nat.card (g.randomIds → A) := by
  refine Nat.card_congr (.ofBijective (fun u i => u.1 i.1) ⟨?_, fun c => ?_⟩)
  · rintro ⟨u, hu, hus⟩ ⟨v, hv, hvs⟩ h
    refine Subtype.ext (eq_of_isExecution hg hs hac hu hv (hus.trans hvs.symm) fun i hi => ?_)
    exact congrFun h ⟨i, hi⟩
  · have hex : ∃ u, g.IsExecution op u ∧ g.valuesAt g.isStart u = g.valuesAt g.isStart s ∧
        ∀ i : g.randomIds, u i = c i := exists_isExecution hg hs hac s c
    obtain ⟨u, hu, hus, hc⟩ := hex
    exact ⟨⟨u, hu, hus⟩, funext hc⟩

end Graph

end Gauv
