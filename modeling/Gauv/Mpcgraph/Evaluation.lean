import Gauv.Bgwfrontend.Calls
import Gauv.Sharing

/-!
# Values of expressions

What the expressions of a program stand for when its placeholders are given
values in a field.  `TRANSIT` copies, the arithmetic operators are those of the
field, an `EVAL` takes the value of its polynomial at the point of a party, and
a `RECONSTRUCT` interpolates its operands at `0`, the `i`-th of them at the
point of the `i`-th party.
-/

namespace Gauv

variable {F : Type*} [Field F]

/-- Values for everything that a program leaves open: the points of the parties,
the constants by their names, and the inputs and the coefficients of the
polynomials by the addresses of their expressions. -/
structure Reading (F : Type*) where
  parties : List PartyDecl
  point : PartyDecl → F
  constant : String → F
  input : ℕ → F
  coef : ℕ → ℕ → F

/-- The point of the `i`-th party. -/
def Reading.pointAt (ρ : Reading F) (i : ℕ) : F := ρ.point (ρ.parties.getD i nullParty)

/-- The value of `e`, which is at address `a`, from the values `v` of the
expressions it refers to.  A `Poly` is given the value of its constant term; only
an `EVAL` reads it. -/
def Expression.value (ρ : Reading F) (heap : Heap) (v : ℕ → F) (a : ℕ) (e : Expression) : F :=
  match e.op, e.oprands with
  | .input, _ => if e.isConstant then ρ.constant e.name else ρ.input a
  | .transit, [x] => v x
  | .typeCast, [x] => v x
  | .polilize, [x] => v x
  | .add, [x, y] => v x + v y
  | .sub, [x, y] => v x - v y
  | .mul, [x, y] => v x * v y
  | .div, [x, y] => v x / v y
  | .scalarMul, [x, y] => v x * v y
  | .eval, [p] =>
      match heap[p]?.map Expression.cls, e.params with
      | some (.poly degree _ c), [party] =>
          Sharing.evalPoly (v c) degree (ρ.coef p) (ρ.point party)
      | _, _ => 0
  | .reconstruct, xs =>
      ∑ i ∈ Finset.range xs.length, Sharing.weight ρ.pointAt xs.length i * v (xs.getD i 0)
  | _, _ => 0

namespace Heap

/-- The values of all expressions, each computed from the ones before it. -/
def values (ρ : Reading F) (heap : Heap) : List F :=
  heap.foldl (fun vs e => vs ++ [e.value ρ heap (fun x => vs.getD x 0) vs.length]) []

/-- The value of the expression at address `a`. -/
def value (ρ : Reading F) (heap : Heap) (a : ℕ) : F := (heap.values ρ).getD a 0

/-! ## The equations of the values -/

theorem Sound.of_isPrefix {heap heap' : Heap} (hs : heap'.Sound) (h : heap <+: heap') :
    heap.Sound := by
  intro e exp he
  have hlt := lt_of_getElem?_some he
  obtain ⟨t, rfl⟩ := h
  have hm := hs e exp (getElem?_append_some he)
  rwa [List.take_append_of_le_length hlt.le] at hm

theorem getElem?_of_isPrefix {heap heap' : Heap} (h : heap <+: heap') {a : ℕ} {e : Expression}
    (he : heap[a]? = some e) : heap'[a]? = some e := by
  obtain ⟨t, rfl⟩ := h
  exact getElem?_append_some he

end Heap

/-- The value of an expression depends only on those it was made from. -/
theorem Expression.value_congr {ρ : Reading F} {heap₀ heap heap' : Heap} {v w : ℕ → F} {a : ℕ}
    {e : Expression} (he : e.Made heap₀) (hs : heap₀.Sound) (h : heap₀ <+: heap)
    (h' : heap₀ <+: heap') (hv : ∀ x < heap₀.length, v x = w x) :
    e.value ρ heap v a = e.value ρ heap' w a := by
  cases he with
  | placeholder hcls hop hx => simp only [value, hop]
  | typeCast hcls hop hx hex => simp only [value, hop, hx, hv _ (lt_of_getElem?_some hex)]
  | binary hcls hop hx ha hb =>
      have ha' := hv _ (lt_of_getElem?_some ha)
      have hb' := hv _ (lt_of_getElem?_some hb)
      rcases hop with hop | hop | hop | hop <;> simp only [value, hop, hx, ha', hb']
  | scalarMul hcls hop hx hes hc =>
      simp only [value, hop, hx, hv _ (lt_of_getElem?_some hes), hv _ (lt_of_getElem?_some hc)]
  | transit hcls hop hx hes => simp only [value, hop, hx, hv _ (lt_of_getElem?_some hes)]
  | reconstruct hcls hop hx =>
      simp only [value, hop]
      refine Finset.sum_congr rfl fun i hi => ?_
      have hi' := Finset.mem_range.1 hi
      obtain ⟨ex, hex, -⟩ := hx _ (List.getElem_mem hi')
      rw [List.getD_eq_getElem _ _ hi', hv _ (lt_of_getElem?_some hex)]
  | poly hcls hop hx hc => simp only [value, hop, hx, hv _ (lt_of_getElem?_some hc)]
  | @eval p degree c ep hcls hop hx hp hep =>
      obtain ⟨ec, hec⟩ := (hs p ep hp).exists_of_refs (x := c) (by simp [Expression.refs, hep])
      have hc := hv c (lt_of_getElem?_some (Expression.Made.of_getElem?_take hec).1)
      rcases hpar : e.params with _ | ⟨party, _ | _⟩ <;>
        simp only [value, hop, hx, Heap.getElem?_of_isPrefix h hp, Heap.getElem?_of_isPrefix h' hp,
          Option.map_some, hep, hpar, hc]

namespace Heap

variable {ρ : Reading F} {heap heap' : Heap} {a : ℕ} {e : Expression}

theorem values_spec (ρ : Reading F) (he : heap[a]? = some e) :
    (heap.values ρ)[a]? = some
      (e.value ρ heap (fun x => ((heap.values ρ).take a).getD x 0) a) := by
  have h := (foldl_concat_spec
    (fun (vs : List F) e => e.value ρ heap (fun x => vs.getD x 0) vs.length) heap []).2 a e he
  rw [List.length_nil, Nat.zero_add] at h
  have hlen := lt_of_getElem?_some h
  rwa [List.length_take, min_eq_left hlen.le] at h

/-- The values are a solution of the equations of the expressions. -/
theorem value_eq (hs : heap.Sound) (he : heap[a]? = some e) :
    heap.value ρ a = e.value ρ heap (heap.value ρ) a := by
  have hval := values_spec ρ he
  rw [value, List.getD_eq_getElem?_getD, hval, Option.getD_some]
  refine Expression.value_congr (hs a e he) (hs.of_isPrefix (List.take_prefix ..))
    (List.take_prefix ..) (List.take_prefix ..) fun x hx => ?_
  rw [List.length_take] at hx
  have hxa : x < a := by omega
  rw [value, List.getD_eq_getElem?_getD, List.getD_eq_getElem?_getD,
    List.getElem?_take_of_lt hxa]

/-- What is added to the heap later does not change a value. -/
theorem value_of_isPrefix (hs : heap'.Sound) (h : heap <+: heap') (ha : a < heap.length) :
    heap'.value ρ a = heap.value ρ a := by
  induction a using Nat.strong_induction_on with
  | _ a ih =>
      have he := List.getElem?_eq_getElem ha
      have hs₀ := hs.of_isPrefix h
      have he' := getElem?_of_isPrefix h he
      rw [value_eq hs he', value_eq hs₀ he]
      refine Expression.value_congr (hs₀ a _ he) (hs₀.of_isPrefix (List.take_prefix ..))
        ((List.take_prefix ..).trans h) (List.take_prefix ..) fun x hx => ?_
      rw [List.length_take] at hx
      exact ih x (by omega) (by omega)

end Heap

end Gauv
