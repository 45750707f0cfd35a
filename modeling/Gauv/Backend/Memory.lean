import Gauv.Backend.Faithful

/-!
# What earlier builds leave behind

The memo tables outlive a builder.  After any number of builds they know the
expressions that the outputs so far refer to, constants aside, and point to the
nodes made for them.  A later build keeps this.
-/

namespace Gauv

open Relation

theorem Heap.reached_append {heap : Heap} {outputs outputs' : List ℕ} {e : ℕ} :
    heap.Reached (outputs ++ outputs') e ↔ heap.Reached outputs e ∨ heap.Reached outputs' e := by
  simp only [Reached, List.mem_append, or_and_right, exists_or]

theorem Heap.Shaped.left {heap : Heap} {outputs outputs' : List ℕ}
    (h : heap.Shaped (outputs ++ outputs')) : heap.Shaped outputs :=
  fun e exp hre he => h e exp (reached_append.2 (Or.inl hre)) he

theorem Heap.Shaped.right {heap : Heap} {outputs outputs' : List ℕ}
    (h : heap.Shaped (outputs ++ outputs')) : heap.Shaped outputs' :=
  fun e exp hre he => h e exp (reached_append.2 (Or.inr hre)) he

namespace Builder

variable {heap : Heap} {mem : Memory} {prev outputs outs pend : List ℕ}
  {new : List (ℕ × Option NodePtr)} {s : Builder} {e : ℕ} {exp : Expression}
  {r : Option NodePtr}

/-- What the memory holds for an expression. -/
inductive Recalled (heap : Heap) (mem : Memory) (e : ℕ) (exp : Expression) :
    Option NodePtr → Prop
  | null (hc : exp.isConstant = true) : Recalled heap mem e exp none
  | node {b g : ℕ} (hn : exp.HasNode) (hp : partyAt mem.earlier b g = some exp.party) :
      Recalled heap mem e exp (some (.node b g))
  | poly {degree c : ℕ} {party : PartyDecl} {rc : Option NodePtr} {coeffs : List NodePtr}
      (hcls : exp.cls = .poly degree party c) (hc : mem.frontBackMap.lookup c = some rc)
      (hp : mem.polyMap.lookup (.aux e) =
        some ⟨.polilize, rc.toList ++ coeffs, some (.aux e)⟩)
      (hlen : coeffs.length = degree)
      (hco : ∀ p ∈ coeffs, ∃ b g, p = .node b g ∧ partyAt mem.earlier b g = some party) :
      Recalled heap mem e exp (some (.aux e))

/-- The memory after builds whose outputs were, together, `prev`. -/
structure Remembers (heap : Heap) (prev : List ℕ) (mem : Memory) : Prop where
  keys : (mem.frontBackMap.map Prod.fst).Nodup
  outputs : ∀ out ∈ prev, ∃ r, mem.frontBackMap.lookup out = some r
  reached : ∀ e r, mem.frontBackMap.lookup e = some r → heap.Reached prev e
  closed : ∀ e r exp x ex, mem.frontBackMap.lookup e = some r → heap[e]? = some exp →
    x ∈ exp.refs → heap[x]? = some ex → ex.isConstant = false →
    ∃ r', mem.frontBackMap.lookup x = some r'
  holds : ∀ e r, mem.frontBackMap.lookup e = some r →
    ∃ exp, heap[e]? = some exp ∧ Recalled heap mem e exp r
  poly_key : ∀ q op, mem.polyMap.lookup q = some op →
    ∃ e, q = .aux e ∧ mem.frontBackMap.lookup e = some (some q)

theorem remembers_fresh : Remembers heap [] .fresh :=
  ⟨List.nodup_nil, by simp, by simp [Memory.fresh], by simp [Memory.fresh],
    by simp [Memory.fresh], by simp [Memory.fresh]⟩

theorem lt_of_partyAt {earlier : List (List Node)} {b g : ℕ} {party : PartyDecl}
    (h : partyAt earlier b g = some party) : b < earlier.length := by
  by_contra hlt
  rw [partyAt, List.getD_eq_default _ _ (not_lt.1 hlt)] at h
  simp at h

theorem Remembers.valid (hm : Remembers heap prev mem) : MemoryValid mem where
  keys := hm.keys
  ptr := by
    intro e b g h
    obtain ⟨exp, -, hrec⟩ := hm.holds e _ h
    cases hrec with
    | node _ hp => exact lt_of_partyAt hp
  poly := by
    intro q op b g hq hg
    obtain ⟨e, rfl, hr⟩ := hm.poly_key q op hq
    obtain ⟨exp, -, hrec⟩ := hm.holds e _ hr
    cases hrec with
    | poly _ hc hp _ hco =>
        rw [hq, Option.some.injEq] at hp
        subst hp
        rcases List.mem_append.1 hg with hg | hg
        · rw [Option.mem_toList] at hg
          subst hg
          obtain ⟨exp', -, hrec'⟩ := hm.holds _ _ hc
          cases hrec' with
          | node _ hp' => exact lt_of_partyAt hp'
        · obtain ⟨b', g', hbg, hp'⟩ := hco _ hg
          cases hbg
          exact lt_of_partyAt hp'
  poly_key := hm.poly_key

/-! ## A build keeps the memory -/

theorem Inv.lookup_cases (hi : Inv heap mem outs pend new s)
    (h : s.frontBackMap.lookup e = some r) :
    (e, r) ∈ new ∨ mem.frontBackMap.lookup e = some r := by
  rw [hi.memo, List.lookup_append] at h
  cases hn : new.lookup e with
  | none =>
      rw [hn] at h
      exact Or.inr h
  | some r' =>
      rw [hn] at h
      cases h
      exact Or.inl (mem_of_lookup hn)

/-- What a build adds was unknown before. -/
theorem Inv.lookup_mem_of_new (hi : Inv heap mem outs pend new s)
    (h : e ∈ new.map Prod.fst) : mem.frontBackMap.lookup e = none := by
  have hk := hi.keys
  rw [hi.memo, List.map_append] at hk
  exact lookup_eq_none_iff_keys.2 fun hmem => (List.nodup_append.1 hk).2.2 e h e hmem rfl

theorem Entry.nodeFor {i : ℕ} (hsh : exp.Shaped heap) (hent : Entry heap s outs i e exp r)
    (hn : exp.HasNode) : ∃ l, NodeFor s outs e exp i l := by
  cases hent with
  | null hop => exact absurd (hsh.isConstant_of_null hop) (by simp [hn.1])
  | input _ hnode => exact ⟨_, hnode⟩
  | simple _ hnode _ _ _ _ => exact ⟨_, hnode⟩
  | eval _ _ _ hnode _ _ _ _ _ _ => exact ⟨_, hnode⟩
  | poly hop _ _ _ _ => exact absurd (hsh.isPoly_of_op hop) (by simp [hn.2])

theorem partyAt_leave_current {g : ℕ} {n : Node} (h : s.nodes[g]? = some n) :
    partyAt s.leave.earlier s.current g = some n.party := by
  rw [partyAt, leave, current, List.getD_eq_getElem?_getD, List.getElem?_concat_length]
  simp [h]

theorem partyAt_leave_earlier {b g : ℕ} {party : PartyDecl}
    (h : partyAt s.earlier b g = some party) : partyAt s.leave.earlier b g = some party := by
  have hb := lt_of_partyAt h
  rw [partyAt, List.getD_eq_getElem?_getD] at h
  rw [partyAt, leave, List.getD_eq_getElem?_getD, List.getElem?_append_left hb]
  exact h

/-- What a new entry leaves in the memory. -/
theorem Entry.recalled {i : ℕ} (hsh : exp.Shaped heap) (hent : Entry heap s outs i e exp r) :
    Recalled heap s.leave e exp r := by
  by_cases hp : exp.isPoly = true
  · obtain ⟨rfl, degree, party, c, rc, hcls, hc, hpm, hn⟩ := hent.eq_aux hsh hp
    refine .poly hcls hc hpm (by simp) fun p hpm' => ?_
    obtain ⟨k, hk, rfl⟩ := List.mem_map.1 hpm'
    exact ⟨_, _, rfl, partyAt_leave_current (hn k (List.mem_range.1 hk))⟩
  · by_cases hc : exp.isConstant = true
    · rw [hent.eq_none hsh hc]
      exact .null hc
    · have hn : exp.HasNode := ⟨by simpa using hc, by simpa using hp⟩
      rw [hent.eq_node hsh hn]
      obtain ⟨l, hnode⟩ := hent.nodeFor hsh hn
      exact .node hn (partyAt_leave_current hnode.node)

/-- What a later build finds in the memory, and leaves there. -/
theorem Recalled.leave (hear : ∀ b g, partyAt s.earlier b g = partyAt mem.earlier b g)
    (hmemo : ∀ e r, mem.frontBackMap.lookup e = some r → s.frontBackMap.lookup e = some r)
    (hpoly : ∀ q op, mem.polyMap.lookup q = some op → s.polyMap.lookup q = some op)
    (h : Recalled heap mem e exp r) : Recalled heap s.leave e exp r := by
  cases h with
  | null hc => exact .null hc
  | node hn hp => exact .node hn (partyAt_leave_earlier (by rw [hear]; exact hp))
  | poly hcls hc hp hlen hco =>
      refine .poly hcls (hmemo _ _ hc) (hpoly _ _ hp) hlen fun p hpm => ?_
      obtain ⟨b, g, rfl, hb⟩ := hco p hpm
      exact ⟨b, g, rfl, partyAt_leave_earlier (by rw [hear]; exact hb)⟩

theorem ImportedAll.remembers (hsh : heap.Shaped (prev ++ outputs))
    (hm : Remembers heap prev mem)
    (hall : ImportedAll heap mem [] [] (start mem) s outputs new) :
    Remembers heap (prev ++ outputs) s.leave := by
  have hi : Inv heap mem outputs.reverse [] new s := by simpa using hall.inv
  have hmemo : ∀ e r, mem.frontBackMap.lookup e = some r → s.frontBackMap.lookup e = some r :=
    hall.memo
  -- what is known was reached, by this build or before
  have hre : ∀ {e r}, s.frontBackMap.lookup e = some r →
      heap.Reached (prev ++ outputs) e := by
    intro e r h
    rw [Heap.reached_append]
    rcases hi.lookup_cases h with h | h
    · exact Or.inr (hall.reach _ h)
    · exact Or.inl (hm.reached e r h)
  exact {
    keys := hi.keys
    outputs := by
      intro out hout
      rcases List.mem_append.1 hout with h | h
      · obtain ⟨r, hr⟩ := hm.outputs out h
        exact ⟨r, hmemo out r hr⟩
      · obtain ⟨p, hp⟩ := hall.found out h
        exact ⟨_, hp⟩
    reached := fun e r h => hre h
    closed := by
      intro e r exp x ex h he hx hex hc
      rcases hi.lookup_cases h with hn | hn
      · obtain ⟨exp', he', hent⟩ := hi.entry hn
        rw [he, Option.some.injEq] at he'
        subst he'
        exact hent.known_of_refs (hsh e exp (hre h) he) hx hex hc
      · obtain ⟨r', hr'⟩ := hm.closed e r exp x ex hn he hx hex hc
        exact ⟨r', hmemo x r' hr'⟩
    holds := by
      intro e r h
      rcases hi.lookup_cases h with hn | hn
      · obtain ⟨exp, he, hent⟩ := hi.entry hn
        exact ⟨exp, he, hent.recalled (hsh e exp (hre h) he)⟩
      · obtain ⟨exp, he, hrec⟩ := hm.holds e r hn
        exact ⟨exp, he, hrec.leave hall.earlier hmemo hall.poly⟩
    poly_key := hi.poly_key }

/-- What was reached is known, constants aside. -/
theorem Remembers.known (hsh : heap.Shaped prev) (hm : Remembers heap prev mem)
    (hre : heap.Reached prev e) (he : heap[e]? = some exp) (hc : exp.isConstant = false) :
    ∃ r, mem.frontBackMap.lookup e = some r := by
  obtain ⟨out, hout, hr⟩ := hre
  induction hr generalizing exp with
  | refl => exact hm.outputs out hout
  | @tail y z hr hstep ih =>
      obtain ⟨ey, hey, hz⟩ := hstep
      have hcy := (hsh y ey ⟨out, hout, hr⟩ hey).isConstant_of_refs hz
      obtain ⟨r, hr⟩ := ih hey hcy
      exact hm.closed y r ey z exp hr hey hz he hc

end Builder

/-! ## Builds one after the other -/

variable {team : ℕ} {heap : Heap} {mem mem' : Memory} {prev : List ℕ}

open Builder in
/-- The memory after any sequence of builds. -/
theorem remembers_builds (hac : heap.Acyclic) (hm : Remembers heap prev mem)
    {history : List (List ℕ)} (hsh : heap.Shaped (prev ++ history.flatten)) {gs : List GraphBase}
    (h : builds team heap mem history = some (gs, mem')) :
    Remembers heap (prev ++ history.flatten) mem' := by
  induction history generalizing prev mem gs with
  | nil =>
      rw [builds] at h
      cases h
      simpa using hm
  | cons outputs rest ih =>
      rw [builds] at h
      simp only [Option.bind_eq_bind, Option.bind_eq_some_iff, Option.pure_def,
        Option.some.injEq, Prod.mk.injEq] at h
      obtain ⟨⟨g, mem₁⟩, h₁, ⟨gs', mem₂⟩, h₂, -, rfl⟩ := h
      obtain ⟨s, new, -, rfl, hall⟩ := importedAll_of_build hac hm.valid h₁
      rw [List.flatten_cons, ← List.append_assoc] at hsh ⊢
      exact ih (hall.remembers hsh.left hm) hsh h₂

end Gauv
