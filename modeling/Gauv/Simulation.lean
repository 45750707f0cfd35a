import Mathlib

/-!
# Simulators from counting

An observer sees a part of every execution.  If the executions with given inputs
are as many as the values of some coins, if inputs and coins tell executions
apart, and if the view depends on the coins and on what the observer knows
anyway, then a simulator that knows no more draws the views exactly as often as
the executions show them.
-/

namespace Simulation

variable {Ω X K C W : Type*} (S : Set Ω) (inputs : Ω → X) (known : Ω → K) (view : Ω → W)

/-- The executions with the inputs of `s`. -/
abbrev Fiber (s : Ω) : Type _ := {u : Ω // u ∈ S ∧ inputs u = inputs s}

/-- `sim`, given what is known of an execution, shows each view for as many
coins as there are executions with the same inputs that show it. -/
def Draws (sim : K → C → W) : Prop :=
  ∀ s ∈ S, Nat.card (Fiber S inputs s) = Nat.card C ∧
    ∀ w, Nat.card {u : Fiber S inputs s // view u.1 = w} = Nat.card {c // sim (known s) c = w}

variable {S inputs known view}

/-- **Counting gives a simulator.** -/
theorem exists_draws [Finite C] [Inhabited W] (coins : Ω → C)
    (hcard : ∀ s ∈ S, Nat.card (Fiber S inputs s) = Nat.card C)
    (hcoins : ∀ u ∈ S, ∀ v ∈ S, inputs u = inputs v → coins u = coins v → u = v)
    (hknown : ∀ u ∈ S, ∀ v ∈ S, inputs u = inputs v → known u = known v)
    (hview : ∀ u ∈ S, ∀ v ∈ S, known u = known v → coins u = coins v → view u = view v) :
    ∃ sim : K → C → W, Draws S inputs known view sim := by
  classical
  -- show the view of any execution with these coins and this knowledge
  let sim (k : K) (c : C) : W :=
    if h : ∃ u ∈ S, known u = k ∧ coins u = c then view h.choose else default
  have hsim : ∀ u ∈ S, sim (known u) (coins u) = view u := by
    intro u hu
    have hex : ∃ v ∈ S, known v = known u ∧ coins v = coins u := ⟨u, hu, rfl, rfl⟩
    obtain ⟨hv, hk, hc⟩ := hex.choose_spec
    exact (dif_pos hex).trans (hview _ hv u hu hk hc)
  refine ⟨sim, fun s hs => ⟨hcard s hs, fun w => ?_⟩⟩
  have hinj : Function.Injective fun u : Fiber S inputs s => coins u.1 := fun u v huv =>
    Subtype.ext (hcoins u.1 u.2.1 v.1 v.2.1 (u.2.2.trans v.2.2.symm) huv)
  have hbij := hinj.bijective_of_nat_card_le (hcard s hs).ge
  have hdraw : ∀ u : Fiber S inputs s, sim (known s) (coins u.1) = view u.1 := fun u => by
    rw [← hknown u.1 u.2.1 s hs u.2.2, hsim u.1 u.2.1]
  refine Nat.card_congr (Equiv.subtypeEquiv (.ofBijective _ hbij) fun u => ?_)
  rw [Equiv.ofBijective_apply, hdraw u]

/-- What an observer cannot tell apart beforehand shows the same views equally often. -/
theorem Draws.card_eq {sim : K → C → W} (h : Draws S inputs known view sim) {s t : Ω}
    (hs : s ∈ S) (ht : t ∈ S) (hst : known s = known t) (w : W) :
    Nat.card {u : Fiber S inputs s // view u.1 = w} =
      Nat.card {u : Fiber S inputs t // view u.1 = w} := by
  rw [(h s hs).2 w, (h t ht).2 w, hst]

end Simulation
