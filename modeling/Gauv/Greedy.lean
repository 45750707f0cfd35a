import Gauv.Lists

/-!
# Taking the first improvement

A running minimum over several lists that leaves a list at the first improvement
it finds there.  It ends with a value of at most `b` exactly when some list
holds such a value with nothing but undercut values before it.
-/

namespace Gauv

namespace Greedy

variable {β P : Type*} [LinearOrder P] (f : β → P) (c : β → Bool)

/-- The element may replace the best one so far. -/
def improves (best : Option β) (r : β) : Bool :=
  c r && match best with
    | none => true
    | some b => decide (f r < f b)

/-- The first improvement of a list, or the best one so far. -/
def takeFirst (best : Option β) (l : List β) : Option β :=
  match l.find? (improves f c best) with
  | some r => some r
  | none => best

/-- The running minimum over lists, the last of them first. -/
def chosen (ls : List (List β)) : Option β := ls.foldr (fun l best => takeFirst f c best l) none

/-- One of the lists, of which the first is read last, holds a value of at most
`b`, and every value that stands before it in its list is at most `b` too or
undercut by the lists read before. -/
def Undercut : List (List β) → P → Prop
  | [], _ => False
  | l :: ls, b => Undercut ls b ∨ ∃ pre r post, l = pre ++ r :: post ∧ c r = true ∧ f r ≤ b ∧
      ∀ x ∈ pre, c x = true → f x ≤ b ∨ Undercut ls (f x)

variable {f c}

theorem improves_iff {best : Option β} {r : β} :
    improves f c best r = true ↔ c r = true ∧ ∀ b, best = some b → f r < f b := by
  cases best <;> simp [improves]

/-- An acceptable element that is passed over is undercut by the best one so far. -/
theorem exists_le_of_not_improves {best : Option β} {r : β} (hc : c r = true)
    (h : ¬ improves f c best r = true) : ∃ b, best = some b ∧ f b ≤ f r := by
  rw [improves_iff, not_and] at h
  have hb := h hc
  push Not at hb
  exact hb

/-- Only which elements of the list are acceptable matters. -/
theorem takeFirst_congr {c' : β → Bool} {best : Option β} {l : List β}
    (h : ∀ r ∈ l, c r = c' r) : takeFirst f c best l = takeFirst f c' best l := by
  have himproves : ∀ r ∈ l, improves f c best r = improves f c' best r := fun r hr => by
    simp only [improves, h r hr]
  rw [takeFirst, takeFirst, List.find?_congr himproves]

theorem mem_of_takeFirst {best : Option β} {l : List β} {r : β}
    (h : takeFirst f c best l = some r) : best = some r ∨ r ∈ l ∧ c r = true := by
  rw [takeFirst] at h
  split at h
  · rename_i x hx
    cases h
    exact Or.inr ⟨List.mem_of_find?_eq_some hx, (improves_iff.1 (List.find?_some hx)).1⟩
  · exact Or.inl h

/-- Only acceptable elements of the lists are chosen. -/
theorem mem_of_chosen {ls : List (List β)} {r : β} (h : chosen f c ls = some r) :
    r ∈ ls.flatten ∧ c r = true := by
  induction ls with
  | nil => exact absurd h (by simp [chosen])
  | cons l ls ih =>
      rw [List.flatten_cons, List.mem_append]
      rcases mem_of_takeFirst h with h | ⟨h, hc⟩
      · exact ⟨Or.inr (ih h).1, (ih h).2⟩
      · exact ⟨Or.inl h, hc⟩

/-- What a running minimum has reached does not get worse. -/
theorem le_of_takeFirst {best : Option β} {l : List β} {y : β} (h : best = some y) :
    ∃ r, takeFirst f c best l = some r ∧ f r ≤ f y := by
  rw [takeFirst]
  split
  · rename_i x hx
    exact ⟨x, rfl, ((improves_iff.1 (List.find?_some hx)).2 y h).le⟩
  · exact ⟨y, h, le_rfl⟩

/-- **The minimum is at most `b` exactly when the lists undercut `b`.** -/
theorem chosen_le_iff (ls : List (List β)) (b : P) :
    (∃ r, chosen f c ls = some r ∧ f r ≤ b) ↔ Undercut f c ls b := by
  induction ls generalizing b with
  | nil => simp [chosen, Undercut]
  | cons l ls ih =>
      have hstep : chosen f c (l :: ls) = takeFirst f c (chosen f c ls) l := rfl
      rw [hstep, Undercut, ← ih b]
      constructor
      · rintro ⟨r, hr, hrb⟩
        rw [takeFirst] at hr
        split at hr
        · rename_i x hx
          cases hr
          obtain ⟨himp, pre, post, rfl, hpre⟩ := List.find?_eq_some_iff_append.1 hx
          refine Or.inr ⟨pre, r, post, rfl, (improves_iff.1 himp).1, hrb, fun y hy hcy => ?_⟩
          obtain ⟨z, hz, hle⟩ := exists_le_of_not_improves hcy (by simpa using hpre y hy)
          exact Or.inr ((ih _).1 ⟨z, hz, hle⟩)
        · exact Or.inl ⟨r, hr, hrb⟩
      · rintro (⟨y, hy, hyb⟩ | ⟨pre, r, post, rfl, hcr, hrb, hpre⟩)
        · obtain ⟨r, hr, hry⟩ := le_of_takeFirst (f := f) (c := c) (l := l) hy
          exact ⟨r, hr, hry.trans hyb⟩
        · by_cases hr : improves f c (chosen f c ls) r = true
          · have hfind : (pre ++ r :: post).find? (improves f c (chosen f c ls)) =
                some ((pre.find? (improves f c (chosen f c ls))).getD r) := by
              rw [List.find?_append, List.find?_cons_of_pos hr]
              cases pre.find? (improves f c (chosen f c ls)) <;> rfl
            refine ⟨_, by rw [takeFirst, hfind], ?_⟩
            cases hpref : pre.find? (improves f c (chosen f c ls)) with
            | none => exact hrb
            | some x =>
                have himp := improves_iff.1 (List.find?_some hpref)
                rcases hpre x (List.mem_of_find?_eq_some hpref) himp.1 with hle | hunder
                · exact hle
                · obtain ⟨z, hz, hzx⟩ := (ih _).2 hunder
                  exact absurd (himp.2 z hz) (not_lt.2 hzx)
          · obtain ⟨z, hz, hzr⟩ := exists_le_of_not_improves hcr hr
            obtain ⟨q, hq, hqz⟩ := le_of_takeFirst (f := f) (c := c) (l := pre ++ r :: post) hz
            exact ⟨q, hq, hqz.trans (hzr.trans hrb)⟩

/-- **The minimum is a least acceptable element exactly when the lists undercut
every acceptable element.** -/
theorem chosen_least_iff (ls : List (List β)) :
    ((∃ r ∈ ls.flatten, c r = true) → ∃ b, chosen f c ls = some b ∧
      ∀ r ∈ ls.flatten, c r = true → f b ≤ f r) ↔
    ∀ r ∈ ls.flatten, c r = true → Undercut f c ls (f r) := by
  constructor
  · intro h r hr hc
    obtain ⟨b, hb, hleast⟩ := h ⟨r, hr, hc⟩
    exact (chosen_le_iff ls _).1 ⟨b, hb, hleast r hr hc⟩
  · rintro h ⟨r, hr, hc⟩
    obtain ⟨b, hb, -⟩ := (chosen_le_iff ls _).2 (h r hr hc)
    refine ⟨b, hb, fun r' hr' hc' => ?_⟩
    obtain ⟨b', hb', hle⟩ := (chosen_le_iff ls _).2 (h r' hr' hc')
    rw [hb, Option.some.injEq] at hb'
    exact hb' ▸ hle

/-! ## Comparing two runs -/

variable (f) in
/-- The element has a smaller value than the best one so far. -/
def better (best : Option β) (r : β) : Bool :=
  match best with
  | none => true
  | some b => decide (f r < f b)

variable (f) in
/-- The first smaller element of a list, or the best one so far. -/
def takeBetter (best : Option β) (l : List β) : Option β := (l.find? (better f best)).or best

/-- Only the acceptable elements count. -/
theorem takeFirst_eq_takeBetter (best : Option β) (l : List β) :
    takeFirst f c best l = takeBetter f best (l.filter c) := by
  have hpred : improves f c best = fun r => decide (c r = true ∧ better f best r = true) := by
    funext r
    rw [Bool.decide_and, Bool.decide_eq_true, Bool.decide_eq_true]
    cases best <;> rfl
  rw [takeFirst, takeBetter, List.find?_filter, ← hpred]
  cases l.find? (improves f c best) <;> rfl

variable {γ Q : Type*} [LinearOrder Q] {f' : γ → Q} {R : β → γ → Prop}

/-- Related lists whose values compare alike lead to related elements. -/
theorem takeBetter_rel (hR : ∀ a a' b b', R a a' → R b b' → (f a < f b ↔ f' a' < f' b'))
    {best : Option β} {best' : Option γ} (hb : Option.Rel R best best') {l : List β} {l' : List γ}
    (hl : List.Forall₂ R l l') : Option.Rel R (takeBetter f best l) (takeBetter f' best' l') := by
  have hfind : Option.Rel R (l.find? (better f best)) (l'.find? (better f' best')) := by
    refine find?_rel hl fun a a' ha => ?_
    cases hb with
    | none => rfl
    | some hb => exact decide_eq_decide.2 (hR _ _ _ _ ha hb).symm
  rw [takeBetter, takeBetter]
  generalize l.find? (better f best) = o at hfind
  generalize l'.find? (better f' best') = o' at hfind
  cases hfind with
  | none => exact hb
  | some ha => exact .some ha

theorem foldl_takeBetter_rel
    (hR : ∀ a a' b b', R a a' → R b b' → (f a < f b ↔ f' a' < f' b')) {best : Option β}
    {best' : Option γ} (hb : Option.Rel R best best') {ls : List (List β)} {ls' : List (List γ)}
    (hls : List.Forall₂ (List.Forall₂ R) ls ls') :
    Option.Rel R (ls.foldl (takeBetter f) best) (ls'.foldl (takeBetter f') best') := by
  induction hls generalizing best best' with
  | nil => exact hb
  | cons hl _ ih => exact ih (takeBetter_rel hR hb hl)

end Greedy

end Gauv
