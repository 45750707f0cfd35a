import Gauv.Lists

/-!
# Lists that pair off

Two lists pair off under a relation when their elements, in some order, are
related one by one.  This is the lift of the relation to multisets, read on
lists: what filters, maps and concatenations of related lists have in common
when nothing is known about the order of either.
-/

namespace Gauv

variable {α β γ δ : Type*}

/-- The elements of the two lists are related one to one, in some order. -/
def PairsOff (r : α → β → Prop) (l : List α) (l' : List β) : Prop :=
  Multiset.Rel r (l : Multiset α) (l' : Multiset β)

namespace PairsOff

variable {r : α → β → Prop} {l k : List α} {l' k' : List β}

theorem nil : PairsOff r [] [] := .zero

theorem cons {a : α} {b : β} (hab : r a b) (h : PairsOff r l l') :
    PairsOff r (a :: l) (b :: l') := Multiset.Rel.cons hab h

/-- Lists that correspond in order pair off. -/
theorem of_forall₂ (h : List.Forall₂ r l l') : PairsOff r l l' := by
  induction h with
  | nil => exact .nil
  | cons hab _ ih => exact .cons hab ih

/-- The relation may be weakened on the elements. -/
theorem mono {s : α → β → Prop} (h : PairsOff r l l')
    (hrs : ∀ a ∈ l, ∀ b ∈ l', r a b → s a b) : PairsOff s l l' := Multiset.Rel.mono h hrs

/-- Pairing off the other way round. -/
theorem flip (h : PairsOff r l l') : PairsOff (fun b a => r a b) l' l := Multiset.rel_flip.2 h

theorem length_eq (h : PairsOff r l l') : l'.length = l.length :=
  (Multiset.card_eq_card_of_rel h).symm

/-- Lists that pair off may be joined. -/
theorem append (h : PairsOff r l l') (h' : PairsOff r k k') : PairsOff r (l ++ k) (l' ++ k') := by
  rw [PairsOff, ← Multiset.coe_add, ← Multiset.coe_add]
  exact Multiset.Rel.add h h'

/-- Either list may be rearranged. -/
theorem of_perm (h : PairsOff r l l') (hl : k.Perm l) (hl' : k'.Perm l') : PairsOff r k k' := by
  rw [PairsOff, Multiset.coe_eq_coe.2 hl, Multiset.coe_eq_coe.2 hl']
  exact h

/-- Each element on the left has a partner. -/
theorem exists_right (h : PairsOff r l l') {a : α} (ha : a ∈ l) : ∃ b ∈ l', r a b :=
  Multiset.exists_mem_of_rel_of_mem h ha

/-- Each element on the right has a partner. -/
theorem exists_left (h : PairsOff r l l') {b : β} (hb : b ∈ l') : ∃ a ∈ l, r a b :=
  h.flip.exists_right hb

theorem coe_filter (p : α → Bool) (l : List α) :
    (l.filter p : Multiset α) = (l : Multiset α).filter fun a => p a = true := by
  rw [Multiset.filter_coe]
  simp only [Bool.decide_eq_true]

/-- What passes a test that partners agree on pairs off. -/
theorem filter {p : α → Bool} {q : β → Bool} (h : PairsOff r l l')
    (hpq : ∀ a ∈ l, ∀ b ∈ l', r a b → q b = p a) : PairsOff r (l.filter p) (l'.filter q) := by
  have hmono := Multiset.Rel.mono (p := fun a b => r a b ∧ q b = p a) h fun a ha b hb hab =>
    ⟨hab, hpq a ha b hb hab⟩
  rw [PairsOff, coe_filter, coe_filter]
  generalize (l : Multiset α) = s at hmono
  generalize (l' : Multiset β) = t at hmono
  induction hmono with
  | zero => exact .zero
  | @cons a b s t hab _ ih =>
      by_cases hp : p a = true
      · rw [Multiset.filter_cons_of_pos s hp, Multiset.filter_cons_of_pos t (hab.2.trans hp)]
        exact .cons hab.1 ih
      · rwa [Multiset.filter_cons_of_neg s hp, Multiset.filter_cons_of_neg t (hab.2 ▸ hp)]

/-- The images of partners pair off. -/
theorem map {s : γ → δ → Prop} {f : α → γ} {g : β → δ} (h : PairsOff r l l')
    (hfg : ∀ a ∈ l, ∀ b ∈ l', r a b → s (f a) (g b)) : PairsOff s (l.map f) (l'.map g) := by
  rw [PairsOff, ← Multiset.map_coe, ← Multiset.map_coe, Multiset.rel_map]
  exact Multiset.Rel.mono h hfg

theorem of_map {s : γ → δ → Prop} {f : α → γ} {g : β → δ} (h : PairsOff s (l.map f) (l'.map g)) :
    PairsOff (fun a b => s (f a) (g b)) l l' := by
  rwa [PairsOff, ← Multiset.map_coe, ← Multiset.map_coe, Multiset.rel_map] at h

/-- Lists made of partners pair off when those made of one pair do. -/
theorem flatMap {s : γ → δ → Prop} {f : α → List γ} {g : β → List δ} (h : PairsOff r l l')
    (hfg : ∀ a ∈ l, ∀ b ∈ l', r a b → PairsOff s (f a) (g b)) :
    PairsOff s (l.flatMap f) (l'.flatMap g) := by
  have hmono := Multiset.Rel.mono h hfg
  rw [PairsOff, ← Multiset.coe_bind, ← Multiset.coe_bind]
  exact Multiset.rel_bind (fun _ _ hab => hab) hmono

/-- Related elements have the same image. -/
theorem perm_map {f : α → γ} {g : β → γ} (h : PairsOff r l l')
    (hfg : ∀ a ∈ l, ∀ b ∈ l', r a b → g b = f a) : (l'.map g).Perm (l.map f) := by
  have heq := h.map (s := fun x y => y = x) hfg
  exact (Multiset.coe_eq_coe.1 (Multiset.rel_flip_eq.1 heq)).symm

/-- A list pairs off with its images, in any order. -/
theorem of_perm_map {f : α → β} (h : l'.Perm (l.map f)) : PairsOff (fun a b => b = f a) l l' := by
  rw [PairsOff, Multiset.coe_eq_coe.2 h, ← Multiset.map_coe, Multiset.rel_map_right]
  exact Multiset.rel_refl_of_refl_on fun _ _ => rfl

theorem replicate {a : α} {b : β} (hab : r a b) (n : ℕ) :
    PairsOff r (List.replicate n a) (List.replicate n b) := by
  induction n with
  | zero => exact .nil
  | succ n ih => exact .cons hab ih

/-- The partner of an element, and what is left without the two. -/
theorem exists_erase [DecidableEq α] [DecidableEq β] (h : PairsOff r l l') {a : α} (ha : a ∈ l) :
    ∃ b ∈ l', r a b ∧ PairsOff r (l.erase a) (l'.erase b) := by
  have hsplit : (l : Multiset α) = a ::ₘ (l.erase a : Multiset α) := by
    rw [Multiset.cons_coe, Multiset.coe_eq_coe]
    exact List.perm_cons_erase ha
  rw [PairsOff, hsplit] at h
  obtain ⟨b, t, hab, ht, hl'⟩ := Multiset.rel_cons_left.1 h
  have hb : b ∈ (l' : Multiset β) := by
    rw [hl']
    exact Multiset.mem_cons_self b t
  have herase : (l'.erase b : Multiset β) = t := by
    rw [← Multiset.coe_erase, hl', Multiset.erase_cons_head]
  exact ⟨b, hb, hab, by rw [PairsOff, herase]; exact ht⟩

/-- A single element has a single partner. -/
theorem eq_singleton {a : α} (h : PairsOff r [a] l') : ∃ b, l' = [b] ∧ r a b := by
  obtain ⟨b, rfl⟩ := List.length_eq_one_iff.1 h.length_eq
  obtain ⟨c, hc, hac⟩ := h.exists_right (List.mem_singleton_self a)
  rw [List.mem_singleton.1 hc] at hac
  exact ⟨b, rfl, hac⟩

end PairsOff

/-! ## Collections -/

/-- Where the first computation returns, so does the second, and it offers a
counterpart to everything the first does. -/
def Offers (r : α → β → Prop) (o : Option (List α)) (o' : Option (List β)) : Prop :=
  ∀ l, o = some l → ∃ l', o' = some l' ∧ ∀ a ∈ l, ∃ b ∈ l', r a b

theorem Offers.of_nil {r : α → β → Prop} : Offers r (some []) (some []) :=
  fun l hl => ⟨[], rfl, fun a ha => by cases hl; exact absurd ha List.not_mem_nil⟩

/-- A check, a node and a plan for it. -/
theorem Offers.checked {α β ν ν' : Type} {r : α → β → Prop} {check : Option Bool} {node : Option ν}
    {node' : Option ν'} {plan : ν → Option α} {plan' : ν' → Option β}
    (h : check = some true → ∀ n, node = some n → ∀ p, plan n = some p →
      ∃ n', node' = some n' ∧ ∃ q, plan' n' = some q ∧ r p q) :
    Offers r
      (do
        let b ← check
        if b then
          let n ← node
          let p ← plan n
          return [p]
        else return [])
      (do
        let b ← check
        if b then
          let n ← node'
          let p ← plan' n
          return [p]
        else return []) := by
  intro ps hps
  cases check with
  | none => exact absurd hps (by simp)
  | some b =>
      cases b with
      | false =>
          cases hps
          exact ⟨[], rfl, fun p hp => absurd hp List.not_mem_nil⟩
      | true =>
          simp only [Option.bind_eq_bind, Option.bind_some, if_true, Option.bind_eq_some_iff,
            Option.pure_def, Option.some.injEq] at hps
          obtain ⟨n, hn, p, hp, rfl⟩ := hps
          obtain ⟨n', hn', q, hq, hpq⟩ := h rfl n hn p hp
          refine ⟨[q], ?_, fun p' hp' => ⟨q, List.mem_singleton_self q, ?_⟩⟩
          · simp [hn', hq]
          · rwa [List.mem_singleton.1 hp']

/-- Collecting along lists in which everything has a counterpart. -/
theorem Offers.collect {r : γ → δ → Prop} {s : α → β → Prop} {f : α → Option (List γ)}
    {f' : β → Option (List δ)} {l : List α} {l' : List β} (hl : ∀ a ∈ l, ∃ b ∈ l', s a b)
    (hl' : ∀ b ∈ l', ∃ a ∈ l, s a b) (hf : ∀ a b, s a b → Offers r (f a) (f' b)) :
    Offers r (collect f l) (collect f' l') := by
  intro ps hps
  have hsome := isSome_collect.1 (Option.isSome_iff_exists.2 ⟨ps, hps⟩)
  have hsome' : (Gauv.collect f' l').isSome = true := by
    refine isSome_collect.2 fun b hb => ?_
    obtain ⟨a, ha, hab⟩ := hl' b hb
    obtain ⟨r, hr⟩ := Option.isSome_iff_exists.1 (hsome a ha)
    obtain ⟨r', hr', -⟩ := hf a b hab r hr
    exact Option.isSome_iff_exists.2 ⟨r', hr'⟩
  obtain ⟨qs, hqs⟩ := Option.isSome_iff_exists.1 hsome'
  refine ⟨qs, hqs, fun p hp => ?_⟩
  obtain ⟨a, ha, r, hr, hpr⟩ := exists_of_mem_collect hps hp
  obtain ⟨b, hb, hab⟩ := hl a ha
  obtain ⟨r', hr', hcover⟩ := hf a b hab r hr
  obtain ⟨q, hq, hpq⟩ := hcover p hpr
  exact ⟨q, mem_collect hqs hb hr' hq, hpq⟩

end Gauv
