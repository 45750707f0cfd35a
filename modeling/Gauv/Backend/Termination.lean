import Gauv.Backend.Reordering
import Gauv.Backend.Selection

/-!
# The rewriting loop ends

Every accepted rewrite lowers the potential, and the potentials of graphs with
as many nodes are finitely many.  So the loop takes fewer rounds than its fuel,
and the graph it returns is one where it stopped by itself.
-/

namespace Gauv

open GraphBase

namespace Graph

variable {g g' : Graph}

/-! ## The place of a potential -/

/-- A larger leading digit outweighs the digit that follows. -/
theorem digit_lt {a b c n : ℕ} (h : a < b) (hc : c ≤ n) (d : ℕ) :
    a * (n + 1) + c < b * (n + 1) + d := by
  have := Nat.mul_le_mul_right (n + 1) h
  rw [Nat.add_one_mul] at this
  omega

theorem numReachableNodes_le (g : Graph) : g.numReachableNodes ≤ g.nodeSize := by
  have hsub : {i | g.isHonest i = true ∧ Worklist.Reached g.operands g.corruptedNodes i} ⊆
      Set.Iio g.nodeSize := by
    intro i hi
    obtain ⟨n, hn, -⟩ := (Option.any_eq_true _ _).1 hi.1
    exact lt_of_node? hn
  have hle := Set.ncard_le_ncard hsub (Set.finite_Iio _)
  rwa [← Set.ncard_Iio_nat g.nodeSize, numReachableNodes_eq]

theorem sumTopoRandomNodes_le (g : Graph) : g.sumTopoRandomNodes ≤ g.nodeSize * g.nodeSize := by
  have hfold : ∀ (l : List ℕ) (s : ℕ),
      l.foldl (fun s i => s + (g.nodeSize - i)) s ≤ s + l.length * g.nodeSize := by
    intro l
    induction l with
    | nil => simp
    | cons i l ih =>
        intro s
        rw [List.foldl_cons, List.length_cons, Nat.add_one_mul]
        have := ih (s + (g.nodeSize - i))
        omega
  refine (hfold _ 0).trans ?_
  rw [Nat.zero_add]
  refine Nat.mul_le_mul_right _ ((List.length_filter_le _ _).trans ?_)
  rw [List.length_range]

theorem Exact.bubbleCnt_le (hx : g.Exact) : g.bubbleCnt ≤ g.nodeSize := by
  rw [hx.bubble, countBubble]
  exact_mod_cast List.countP_le_length

/-- The place of the potential among those of graphs with as many nodes. -/
def place (g : Graph) : ℕ :=
  (g.bubbleCnt.toNat * (g.nodeSize + 1) + g.numReachableNodes) * (g.nodeSize * g.nodeSize + 1) +
    g.sumTopoRandomNodes

theorem Exact.place_lt (hx : g.Exact) : g.place < Prover.rewriteFuel g := by
  have hb : g.bubbleCnt.toNat ≤ g.nodeSize := Int.toNat_le.2 hx.bubbleCnt_le
  have hr := g.numReachableNodes_le
  have ht := g.sumTopoRandomNodes_le
  have hlead : g.bubbleCnt.toNat * (g.nodeSize + 1) + g.numReachableNodes <
      (g.nodeSize + 1) * (g.nodeSize + 1) := digit_lt (Nat.lt_succ_of_le hb) hr 0
  rw [place, Prover.rewriteFuel]
  exact Nat.lt_succ_of_lt (digit_lt hlead ht 0)

/-- A lower potential has a lower place. -/
theorem place_lt_place (hx' : g'.Exact) (hsize : g'.nodeSize = g.nodeSize)
    (h : g'.potential < g.potential) : g'.place < g.place := by
  have hr := g'.numReachableNodes_le
  have ht := g'.sumTopoRandomNodes_le
  simp only [potential, Prod.Lex.toLex_lt_toLex, hsize, lt_irrefl, true_and, false_or] at h
  rw [hsize] at hr ht
  rw [place, place, hsize]
  rcases h with hlt | ⟨heq, hlt | ⟨heq', hlt⟩⟩
  · refine digit_lt (digit_lt ?_ hr _) ht _
    have := hx'.nonneg.2
    omega
  · rw [heq]
    exact digit_lt (Nat.add_lt_add_left hlt _) ht _
  · rw [heq, heq']
    exact Nat.add_lt_add_left hlt _

end Graph

/-! ## The loop -/

namespace Prover

variable {env : Env} {trs : List Transformer} {g₀ g g' : Graph} {iter : ℕ}
  {considered : List (UInt64 × ℤ × ℤ)}

/-- What an iteration takes lowers the potential. -/
theorem potential_lt_of_selectMin {call : ℕ} {r : Node × Graph}
    (h : selectMin env iter g considered trs call none = some (some r)) :
    r.2.potential < g.potential := by
  rw [selectMin_eq_foldl, Option.map_eq_some_iff] at h
  obtain ⟨rss, -, hr⟩ := h
  have hchosen : Greedy.chosen rank (eligible env g considered) rss.reverse = some r := by
    rw [Greedy.chosen, List.foldr_reverse]
    exact hr
  have helig := (Greedy.mem_of_chosen hchosen).2
  rw [eligible, Bool.and_eq_true] at helig
  exact of_decide_eq_true helig.1

/-- The loop stops: no bubble is left, or no result may be taken. -/
def Stops (env : Env) (trs : List Transformer) (iter : ℕ) (g : Graph)
    (considered : List (UInt64 × ℤ × ℤ)) : Prop :=
  g.hasBubble = true → selectMin env iter g considered trs 0 none = some none

/-- What every visited graph shares with the start. -/
theorem Visited.kept (hg : g₀.WellFormed) (hx : g₀.Exact)
    (h : Visited env trs g₀ iter g considered) :
    g.WellFormed ∧ g.Exact ∧ g₀.SameFrame g :=
  h.invariant (P := fun g => g.WellFormed ∧ g.Exact ∧ g₀.SameFrame g) ⟨hg, hx, .refl g₀⟩
    fun _ _ hi hr => ⟨hr.wellFormed hi.1, hr.exact hi.1 hi.2.1, hi.2.2.trans hr.sameFrame⟩

/-- Every round lowers the place of the potential. -/
theorem Visited.place_add_le (hg : g₀.WellFormed) (hx : g₀.Exact)
    (h : Visited env trs g₀ iter g considered) : g.place + iter ≤ g₀.place := by
  induction h with
  | start => exact le_rfl
  | @step iter g g' considered node hv hb hs ih =>
      obtain ⟨-, -, hframe⟩ := hv.kept hg hx
      obtain ⟨-, hxg', hframe'⟩ := (hv.step hb hs).kept hg hx
      have hsize : g'.nodeSize = g.nodeSize := hframe'.nodeSize.trans hframe.nodeSize.symm
      have := Graph.place_lt_place hxg' hsize (potential_lt_of_selectMin hs)
      omega

/-- The loop goes through the visited states. -/
theorem Visited.rewriteLoop_eq (h : Visited env trs g₀ iter g considered) (fuel : ℕ) :
    rewriteLoop env trs (fuel + iter) 0 g₀ [] = rewriteLoop env trs fuel iter g considered := by
  induction h generalizing fuel with
  | start => rfl
  | @step iter g g' considered node hv hb hs ih =>
      rw [← Nat.add_assoc, Nat.add_right_comm, ih (fuel + 1), rewriteLoop, if_pos hb, hs]
      rfl

theorem rewriteLoop_of_stops (h : Stops env trs iter g considered) (fuel : ℕ) :
    rewriteLoop env trs fuel iter g considered = some g := by
  cases fuel with
  | zero => rfl
  | succ fuel =>
      rw [rewriteLoop]
      split
      · rename_i hb
        rw [h hb]
        rfl
      · rfl

theorem exists_stops_of_rewriteLoop (hg : g₀.WellFormed) (hx : g₀.Exact)
    (hv : Visited env trs g₀ iter g considered) {fuel : ℕ} (hfuel : g.place < fuel)
    (h : rewriteLoop env trs fuel iter g considered = some g') :
    ∃ iter considered, Visited env trs g₀ iter g' considered ∧
      Stops env trs iter g' considered := by
  induction fuel generalizing iter g considered with
  | zero => omega
  | succ fuel ih =>
      rw [rewriteLoop] at h
      split at h
      · rename_i hb
        simp only [Option.bind_eq_bind, Option.bind_eq_some_iff] at h
        obtain ⟨r, hr, h⟩ := h
        cases r with
        | none =>
            cases h
            exact ⟨iter, considered, hv, fun _ => hr⟩
        | some r =>
            have hv' := hv.step hb hr
            obtain ⟨-, -, hframe⟩ := hv.kept hg hx
            obtain ⟨-, hx', hframe'⟩ := hv'.kept hg hx
            have hsize : r.2.nodeSize = g.nodeSize := hframe'.nodeSize.trans hframe.nodeSize.symm
            have := Graph.place_lt_place hx' hsize (potential_lt_of_selectMin hr)
            exact ih hv' (by omega) h
      · rename_i hb
        cases h
        exact ⟨iter, considered, hv, fun hb' => absurd hb' hb⟩

/-- **The loop ends by itself**: it returns a graph exactly when it visits it and
stops there. -/
theorem rewriteLoop_eq_some_iff (hg : g₀.WellFormed) (hx : g₀.Exact) :
    rewriteLoop env trs (rewriteFuel g₀) 0 g₀ [] = some g' ↔
      ∃ iter considered, Visited env trs g₀ iter g' considered ∧
        Stops env trs iter g' considered := by
  constructor
  · exact exists_stops_of_rewriteLoop hg hx .start hx.place_lt
  · rintro ⟨iter, considered, hv, hstop⟩
    have hiter : iter ≤ rewriteFuel g₀ := by
      have := hv.place_add_le hg hx
      have := hx.place_lt
      omega
    rw [← Nat.sub_add_cancel hiter, hv.rewriteLoop_eq, rewriteLoop_of_stops hstop]

/-- The rewriting loop returns if no iteration aborts. -/
theorem isSome_rewriteLoop {fuel iter : ℕ} {considered : List (UInt64 × ℤ × ℤ)}
    (hv : Visited env trs g₀ iter g considered)
    (h : ∀ iter g considered, Visited env trs g₀ iter g considered → g.hasBubble = true →
      (selectMin env iter g considered trs 0 none).isSome = true) :
    (rewriteLoop env trs fuel iter g considered).isSome = true := by
  induction fuel generalizing iter g considered with
  | zero => rfl
  | succ fuel ih =>
      rw [rewriteLoop]
      split
      · rename_i hb
        obtain ⟨r, hr⟩ := Option.isSome_iff_exists.1 (h iter g considered hv hb)
        rw [hr]
        cases r with
        | none => rfl
        | some r => exact ih (.step hv hb hr)
      · rfl

end Prover

end Gauv
