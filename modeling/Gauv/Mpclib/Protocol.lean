import Gauv.Mpclib.Context
import Gauv.Mpclib.Random

/-!
# A protocol over the channels

The protocol `f_rand_2t` of the tests: every party deals a random polynomial of
degree `2 * T` that is zero at `0`, and adds up the shares it receives.  Once the
parties are registered, it can be run again and again: each run returns a sharing of
zero, the sum of the polynomials of that run, and leaves the channels empty.  Every
run takes one share out of each channel, so it may be repeated as long as no block
of a queue is used up.
-/

namespace Gauv.Mpclib

variable {BASE : UInt64}

/-! ## Calls of a party -/

/-- How a call ends without a result: with an exception, or without defined
behaviour, when a party that no context was attached to follows its pointer. -/
inductive Fault (BASE : UInt64) where
  | throws (e : Exn BASE)
  | emptyMessageQueue (p : Par BASE)
  | undefined

/-- A call that works on the context. -/
def ProtoM (BASE : UInt64) (α : Type) := MpcContext BASE → Except (Fault BASE) α × MpcContext BASE

namespace ProtoM

variable {α β : Type}

instance instMonad : Monad (ProtoM BASE) where
  pure a := fun c => (.ok a, c)
  bind m f := fun c =>
    match m c with
    | (.ok a, c') => f a c'
    | (.error e, c') => (.error e, c')

/-- An exception of the library leaves the protocol. -/
def lift (x : Except (Exn BASE) α) : ProtoM BASE α := fun c =>
  match x with
  | .ok a => (.ok a, c)
  | .error e => (.error (.throws e), c)

theorem bind_eq {m : ProtoM BASE α} {f : α → ProtoM BASE β} {c c' : MpcContext BASE} {a : α}
    (h : m c = (.ok a, c')) : (m >>= f) c = f a c' := by
  show (match m c with
    | (.ok a, c') => f a c'
    | (.error e, c') => (.error e, c')) = f a c'
  rw [h]

end ProtoM

/-- `par::send`. -/
def Par.send (i receiver : Par BASE) (msg : Share BASE) : ProtoM BASE Unit := fun c =>
  if i.addr ∈ c.attached then
    match c.send i receiver msg with
    | (.ok (), c') => (.ok (), c')
    | (.error e, c') => (.error (.throws e), c')
  else (.error .undefined, c)

/-- `par::receive`. -/
def Par.receive (perBlock : ℕ) (freed : Share BASE → Share BASE) (i sender : Par BASE) :
    ProtoM BASE (Share BASE) := fun c =>
  if i.addr ∈ c.attached then
    match c.receive perBlock freed i sender with
    | (.ok (some m), c') => (.ok m, c')
    | (.ok none, c') => (.error (.emptyMessageQueue i), c')
    | (.error e, c') => (.error (.throws e), c')
  else (.error .undefined, c)

/-- `share::operator=`. -/
def Share.assign (s other : Share BASE) : Except (Exn BASE) (Share BASE) :=
  if s.party.eq other.party then .ok ⟨s.party, other.val⟩
  else .error (.partyMissmatch s.party other.party)

section Protocol

variable [NeZero BASE]

/-- The round of party `i` in the first loop: it deals a random polynomial. -/
def dealZero {DEG : ℕ} (ps : Parset BASE) (draws : Par BASE → Fin DEG → UInt64) (i : Par BASE) :
    ProtoM BASE Unit :=
  ps.forM fun j => i.send j ((polyGen i (.ofBase 0) (draws i)).eval j)

/-- One round of the inner loop of the second: `delta_i = delta_i + s_j_i`. -/
def collect (perBlock : ℕ) (freed : Share BASE → Share BASE) (i : Par BASE) (delta : Share BASE)
    (j : Par BASE) : ProtoM BASE (Share BASE) := do
  let s ← i.receive perBlock freed j
  let sum ← ProtoM.lift (delta.add s)
  ProtoM.lift (delta.assign sum)

/-- The round of party `i` in the second loop: it adds up what it receives. -/
def addUp (perBlock : ℕ) (freed : Share BASE → Share BASE) (ps : Parset BASE)
    (res : List (Share BASE)) (i : Par BASE) : ProtoM BASE (List (Share BASE)) := do
  let delta ← ps.foldlM (collect perBlock freed i) ⟨i, 0⟩
  return res ++ [delta]

/-- The protocol `f_rand_2t`, when the generator draws the words `draws i` in the
round of party `i`. -/
def fRand2t (perBlock : ℕ) (freed : Share BASE → Share BASE) (T : ℕ) (ps : Parset BASE)
    (draws : Par BASE → Fin (T * 2) → UInt64) : ProtoM BASE (Bundle BASE) := do
  ps.forM (dealZero ps draws)
  let res ← ps.foldlM (addUp perBlock freed ps) []
  ProtoM.lift (Bundle.make ps res)

end Protocol

/-! ## Channels between the parties -/

/-- The parties are attached, and the channels between them are these queues. -/
structure Channels (ps : Parset BASE) (f : Par BASE → Par BASE → BlockQueue (Share BASE))
    (c : MpcContext BASE) : Prop where
  attached : ∀ p ∈ ps, p.addr ∈ c.attached
  queue : ∀ r ∈ ps, ∀ s ∈ ps, c.queue r s = some (f r s)

section Calls

variable {ps : Parset BASE} {f g : Par BASE → Par BASE → BlockQueue (Share BASE)}
  {c : MpcContext BASE} {i j : Par BASE} {m : Share BASE} {perBlock : ℕ}
  {freed : Share BASE → Share BASE}

theorem Channels.congr (h : Channels ps f c) (hfg : ∀ r ∈ ps, ∀ s ∈ ps, f r s = g r s) :
    Channels ps g c :=
  ⟨h.attached, fun r hr s hs => by rw [h.queue r hr s hs, hfg r hr s hs]⟩

/-- The entry behind a channel. -/
theorem MpcContext.exists_of_queue {q : BlockQueue (Share BASE)} (h : c.queue i j = some q) :
    ∃ pq, c.msgs i.hash = some pq ∧ pq.queues j.hash = some q := by
  obtain ⟨pq, hpq, hq⟩ := Option.bind_eq_some_iff.1 h
  exact ⟨pq, hpq, hq⟩

/-- The content of one channel changes. -/
theorem Channels.store (h : Channels ps f c) (hinj : Set.InjOn Par.hash {p | p ∈ ps})
    (hi : i ∈ ps) (hj : j ∈ ps) {pq : PartyQueues BASE} (hpq : c.msgs i.hash = some pq)
    (q : BlockQueue (Share BASE)) :
    Channels ps (fun r s => if r = i ∧ s = j then q else f r s) (c.store i j pq q) := by
  refine ⟨h.attached, fun r hr s hs => ?_⟩
  rw [MpcContext.queue_store hpq]
  by_cases hsame : r = i ∧ s = j
  · rw [if_pos hsame, if_pos ⟨congrArg Par.hash hsame.1, congrArg Par.hash hsame.2⟩]
  · rw [if_neg hsame, h.queue r hr s hs,
      if_neg fun hh => hsame ⟨hinj hr hi hh.1, hinj hs hj hh.2⟩]

/-- A share that is sent waits at the end of its channel. -/
theorem Channels.send (h : Channels ps f c) (hinj : Set.InjOn Par.hash {p | p ∈ ps})
    (hi : i ∈ ps) (hj : j ∈ ps) (hm : m.party = j) :
    ∃ c', i.send j m c = (.ok (), c') ∧
      Channels ps (fun r s => if r = j ∧ s = i then (f r s).pushBack m else f r s) c' := by
  obtain ⟨pq, hpq, hq⟩ := MpcContext.exists_of_queue (h.queue j hj i hi)
  refine ⟨c.store j i pq ((f j i).pushBack m), ?_,
    (h.store hinj hj hi hpq _).congr fun r _ s _ => ?_⟩
  · have hsend : c.send i j m = (.ok (), c.store j i pq ((f j i).pushBack m)) := by
      simp only [MpcContext.send, hm, Par.eq_self, if_true, hpq, hq]
    simp only [Par.send, h.attached i hi, if_true, hsend]
  · by_cases hsame : r = j ∧ s = i
    · rw [if_pos hsame, if_pos hsame, hsame.1, hsame.2]
    · rw [if_neg hsame, if_neg hsame]

variable (freed) in
/-- The head of a channel is received, unless it is the last share of a block. -/
theorem Channels.receive (h : Channels ps f c) (hinj : Set.InjOn Par.hash {p | p ∈ ps})
    (hi : i ∈ ps) (hj : j ∈ ps) {ms : List (Share BASE)} (hf : (f i j).items = m :: ms)
    (hend : ¬ (f i j).AtBlockEnd perBlock) :
    ∃ c', i.receive perBlock freed j c = (.ok m, c') ∧
      Channels ps (fun r s => if r = i ∧ s = j then (f r s).popFront perBlock else f r s) c' := by
  obtain ⟨pq, hpq, hq⟩ := MpcContext.exists_of_queue (h.queue i hi j hj)
  refine ⟨c.store i j pq ((f i j).popFront perBlock), ?_,
    (h.store hinj hi hj hpq _).congr fun r _ s _ => ?_⟩
  · have hreceive : c.receive perBlock freed i j =
        (.ok (some m), c.store i j pq ((f i j).popFront perBlock)) := by
      simp only [MpcContext.receive, hpq, hq, hf, MpcContext.copied, if_neg hend]
    simp only [Par.receive, h.attached i hi, if_true, hreceive]
  · by_cases hsame : r = i ∧ s = j
    · rw [if_pos hsame, if_pos hsame, hsame.1, hsame.2]
    · rw [if_neg hsame, if_neg hsame]

end Calls

/-! ## The loops -/

section Loops

variable [NeZero BASE] {DEG : ℕ} {ps l : Parset BASE}
  {f : Par BASE → Par BASE → BlockQueue (Share BASE)} {c : MpcContext BASE} {i : Par BASE}
  {perBlock : ℕ} {freed : Share BASE → Share BASE}

/-- The polynomial that a party deals. -/
def dealt (draws : Par BASE → Fin DEG → UInt64) (i : Par BASE) : Poly BASE DEG :=
  polyGen i (.ofBase 0) (draws i)

/-- A party sends its shares out. -/
theorem Channels.sends (h : Channels ps f c) (hinj : Set.InjOn Par.hash {p | p ∈ ps})
    (hi : i ∈ ps) (q : Poly BASE DEG) (hl : l ⊆ ps) (hnodup : l.Nodup) :
    ∃ c', (l.forM fun j => i.send j (q.eval j)) c = (.ok (), c') ∧
      Channels ps (fun r s => if r ∈ l ∧ s = i then (f r s).pushBack (q.eval r) else f r s) c' := by
  induction l generalizing c f with
  | nil => exact ⟨c, rfl, h.congr fun r _ s _ => by simp⟩
  | cons j l ih =>
      obtain ⟨hj, hl⟩ := List.cons_subset.1 hl
      obtain ⟨hnew, hnodup⟩ := List.nodup_cons.1 hnodup
      obtain ⟨c₁, hsend, h₁⟩ := h.send hinj hi hj (m := q.eval j) rfl
      obtain ⟨c', hrest, h'⟩ := ih h₁ hl hnodup
      refine ⟨c', (ProtoM.bind_eq hsend).trans hrest, h'.congr fun r _ s _ => ?_⟩
      by_cases hr : r = j
      · subst hr
        simp [hnew]
      · simp [hr]

/-- After the first loop every channel between parties has one more share. -/
theorem Channels.deals (h : Channels ps f c) (draws : Par BASE → Fin DEG → UInt64)
    (hinj : Set.InjOn Par.hash {p | p ∈ ps}) (hps : ps.Nodup) (hl : l ⊆ ps) (hnodup : l.Nodup) :
    ∃ c', l.forM (dealZero ps draws) c = (.ok (), c') ∧
      Channels ps
        (fun r s => if s ∈ l then (f r s).pushBack ((dealt draws s).eval r) else f r s) c' := by
  induction l generalizing c f with
  | nil => exact ⟨c, rfl, h.congr fun r _ s _ => by simp⟩
  | cons i l ih =>
      obtain ⟨hi, hl⟩ := List.cons_subset.1 hl
      obtain ⟨hnew, hnodup⟩ := List.nodup_cons.1 hnodup
      obtain ⟨c₁, hsends, h₁⟩ := h.sends hinj hi (dealt draws i) (List.Subset.refl ps) hps
      obtain ⟨c', hrest, h'⟩ := ih h₁ hl hnodup
      refine ⟨c', (ProtoM.bind_eq hsends).trans hrest, h'.congr fun r hr s _ => ?_⟩
      by_cases hs : s = i
      · subst hs
        simp [hnew, hr]
      · simp [hs]

variable (freed) in
/-- One share is received and added. -/
theorem collect_eq (hinj : Set.InjOn Par.hash {p | p ∈ ps}) (h : Channels ps f c) (hi : i ∈ ps)
    {j : Par BASE} (hj : j ∈ ps) {x y : Field BASE} {ms : List (Share BASE)}
    (hf : (f i j).items = ⟨i, y⟩ :: ms) (hend : ¬ (f i j).AtBlockEnd perBlock) :
    ∃ c', collect perBlock freed i ⟨i, x⟩ j c = (.ok ⟨i, x + y⟩, c') ∧
      Channels ps (fun r s => if r = i ∧ s = j then (f r s).popFront perBlock else f r s) c' := by
  obtain ⟨c', hreceive, h'⟩ := h.receive freed hinj hi hj hf hend
  refine ⟨c', ?_, h'⟩
  have hadd : Share.add ⟨i, x⟩ ⟨i, y⟩ = .ok ⟨i, x + y⟩ := Share.combine_same _ i x y
  have hassign : Share.assign ⟨i, x⟩ ⟨i, x + y⟩ = .ok ⟨i, x + y⟩ := if_pos i.eq_self
  unfold collect
  rw [ProtoM.bind_eq hreceive, hadd]
  show ProtoM.lift (Share.assign ⟨i, x⟩ ⟨i, x + y⟩) c' = _
  rw [hassign]
  rfl

variable (freed) in
/-- The inner loop of the second adds what waits at the heads of the channels. -/
theorem Channels.collects (h : Channels ps f c) (hinj : Set.InjOn Par.hash {p | p ∈ ps})
    (hi : i ∈ ps) (hl : l ⊆ ps) (hnodup : l.Nodup) {y : Par BASE → Field BASE}
    {ms : Par BASE → List (Share BASE)} (hf : ∀ j ∈ l, (f i j).items = ⟨i, y j⟩ :: ms j)
    (hend : ∀ j ∈ l, ¬ (f i j).AtBlockEnd perBlock) (x : Field BASE) :
    ∃ c', l.foldlM (collect perBlock freed i) ⟨i, x⟩ c =
        (.ok ⟨i, l.foldl (fun x j => x + y j) x⟩, c') ∧
      Channels ps (fun r s => if r = i ∧ s ∈ l then (f r s).popFront perBlock else f r s) c' := by
  induction l generalizing c f x with
  | nil => exact ⟨c, rfl, h.congr fun r _ s _ => by simp⟩
  | cons j l ih =>
      obtain ⟨hj, hl⟩ := List.cons_subset.1 hl
      obtain ⟨hnew, hnodup⟩ := List.nodup_cons.1 hnodup
      obtain ⟨hfj, hf⟩ := List.forall_mem_cons.1 hf
      obtain ⟨hendj, hend⟩ := List.forall_mem_cons.1 hend
      obtain ⟨c₁, hcollect, h₁⟩ := collect_eq freed hinj h hi hj (x := x) hfj hendj
      -- the other channels are as they were
      have hother : ∀ k ∈ l,
          (if i = i ∧ k = j then (f i k).popFront perBlock else f i k) = f i k := by
        intro k hk
        exact if_neg fun h : i = i ∧ k = j => hnew (h.2 ▸ hk)
      obtain ⟨c', hrest, h'⟩ := ih h₁ hl hnodup (fun k hk => by rw [hother k hk]; exact hf k hk)
        (fun k hk => by rw [hother k hk]; exact hend k hk) (x + y j)
      refine ⟨c', ?_, h'.congr fun r _ s _ => ?_⟩
      · rw [List.foldlM_cons, ProtoM.bind_eq hcollect, hrest, List.foldl_cons]
      · by_cases hs : s = j
        · subst hs
          simp [hnew]
        · simp [hs]

variable (freed) in
/-- The second loop adds up for every party and takes one share out of each
channel. -/
theorem Channels.outputs (h : Channels ps f c) (hinj : Set.InjOn Par.hash {p | p ∈ ps})
    (hps : ps.Nodup) (hl : l ⊆ ps) (hnodup : l.Nodup) {y : Par BASE → Par BASE → Field BASE}
    {m : Par BASE → Par BASE → List (Share BASE)}
    (hf : ∀ i ∈ l, ∀ j ∈ ps, (f i j).items = ⟨i, y i j⟩ :: m i j)
    (hend : ∀ i ∈ l, ∀ j ∈ ps, ¬ (f i j).AtBlockEnd perBlock) (res : List (Share BASE)) :
    ∃ c', l.foldlM (addUp perBlock freed ps) res c =
        (.ok (res ++ l.map fun i => ⟨i, ps.foldl (fun x j => x + y i j) 0⟩), c') ∧
      Channels ps (fun r s => if r ∈ l then (f r s).popFront perBlock else f r s) c' := by
  induction l generalizing c f res with
  | nil => exact ⟨c, by rw [List.map_nil, List.append_nil]; rfl, h.congr fun r _ s _ => by simp⟩
  | cons i l ih =>
      obtain ⟨hi, hl⟩ := List.cons_subset.1 hl
      obtain ⟨hnew, hnodup⟩ := List.nodup_cons.1 hnodup
      obtain ⟨hfi, hf⟩ := List.forall_mem_cons.1 hf
      obtain ⟨hendi, hend⟩ := List.forall_mem_cons.1 hend
      obtain ⟨c₁, hcollects, h₁⟩ :=
        h.collects freed hinj hi (List.Subset.refl ps) hps hfi hendi 0
      have hother : ∀ k ∈ l, ∀ j,
          (if k = i ∧ j ∈ ps then (f k j).popFront perBlock else f k j) = f k j := by
        intro k hk j
        exact if_neg fun h : k = i ∧ j ∈ ps => hnew (h.1 ▸ hk)
      obtain ⟨c', hrest, h'⟩ := ih h₁ hl hnodup
        (fun k hk j hj => by rw [hother k hk]; exact hf k hk j hj)
        (fun k hk j hj => by rw [hother k hk]; exact hend k hk j hj)
        (res ++ [⟨i, ps.foldl (fun x j => x + y i j) 0⟩])
      refine ⟨c', ?_, h'.congr fun r _ s hs => ?_⟩
      · rw [List.foldlM_cons, List.map_cons, List.append_cons, ← hrest]
        exact ProtoM.bind_eq (ProtoM.bind_eq (f := fun delta => pure (res ++ [delta])) hcollects)
      · by_cases hr : r = i
        · subst hr
          simp [hnew, hs]
        · simp [hr]

end Loops

/-! ## Sums of polynomials -/

section Sum

variable [NeZero BASE] {DEG : ℕ}

/-- The sum of the polynomials, which is zero at `0` as they are. -/
def Poly.sum (dealer : Par BASE) (qs : List (Poly BASE DEG)) : Poly BASE DEG :=
  qs.foldl (Poly.plus dealer) ⟨dealer, 0, fun _ => 0⟩

theorem Field.zero_add_zero : (0 : Field BASE) + 0 = 0 := by
  have hval : (0 : Field BASE).val = 0 := rfl
  refine Field.ext (UInt64.toNat_inj.1 ?_)
  rw [Field.toNat_add, hval]
  simp

theorem Poly.secret_sum (dealer : Par BASE) {qs : List (Poly BASE DEG)}
    (hqs : ∀ q ∈ qs, q.secret = 0) : (Poly.sum dealer qs).secret = 0 := by
  have hfold : ∀ (qs : List (Poly BASE DEG)) (q : Poly BASE DEG), (∀ q ∈ qs, q.secret = 0) →
      q.secret = 0 → (qs.foldl (Poly.plus dealer) q).secret = 0 := by
    intro qs
    induction qs with
    | nil => exact fun q _ hq => hq
    | cons r qs ih =>
        intro q hqs hq
        obtain ⟨hr, hqs⟩ := List.forall_mem_cons.1 hqs
        refine ih _ hqs ?_
        show q.secret + r.secret = 0
        rw [hq, hr, Field.zero_add_zero]
  exact hfold qs _ hqs rfl

/-- Its shares are the sums of theirs. -/
theorem Poly.eval_sum (hbase : BASE.toNat ≤ 2 ^ 32) (dealer : Par BASE)
    (qs : List (Poly BASE DEG)) (p : Par BASE) :
    (Poly.sum dealer qs).eval p = ⟨p, qs.foldl (fun x q => x + (q.eval p).val) 0⟩ := by
  have hfold : ∀ (qs : List (Poly BASE DEG)) (q : Poly BASE DEG),
      (qs.foldl (Poly.plus dealer) q).eval p =
        ⟨p, qs.foldl (fun x q => x + (q.eval p).val) (q.eval p).val⟩ := by
    intro qs
    induction qs with
    | nil => exact fun q => rfl
    | cons r qs ih =>
        intro q
        rw [List.foldl_cons, List.foldl_cons, ih, Poly.eval_plus hbase]
  have hzero : ((⟨dealer, 0, fun _ => 0⟩ : Poly BASE DEG).eval p).val = 0 := by
    refine Field.bijective_toZMod.1 ?_
    have hval : (0 : Field BASE).val = 0 := rfl
    rw [Poly.toZMod_eval hbase, Poly.valueAt, Field.toZMod]
    simp [hval]
  rw [Poly.sum, hfold, hzero]

end Sum

/-! ## Runs of the protocol -/

section Runs

variable [NeZero BASE] {T : ℕ} {ps : Parset BASE} {c : MpcContext BASE} {perBlock : ℕ}
  {freed : Share BASE → Share BASE}

/-- The polynomial whose values a run returns. -/
def dealtSum (dealer : Par BASE) (ps : Parset BASE) (draws : Par BASE → Fin (T * 2) → UInt64) :
    Poly BASE (T * 2) :=
  Poly.sum dealer (ps.map (dealt draws))

variable (perBlock freed) in
/-- **The step lemma**: one run over empty channels, whose heads have passed `k`
slots. -/
theorem Channels.fRand2t {k : ℕ} (h : Channels ps (fun _ _ => ⟨[], k⟩) c)
    (hbase : BASE.toNat ≤ 2 ^ 32) (hk : k + 1 < perBlock) (hhash : (ps.map Par.hash).Nodup)
    (hidx : (ps.map Par.idx).Nodup) (dealer : Par BASE)
    (draws : Par BASE → Fin (T * 2) → UInt64) :
    ∃ b c', Mpclib.fRand2t perBlock freed T ps draws c = (.ok b, c') ∧
      Channels ps (fun _ _ => ⟨[], k + 1⟩) c' ∧
      Bundle.make ps (ps.map (dealtSum dealer ps draws).eval) = .ok b := by
  have hinj : Set.InjOn Par.hash {p | p ∈ ps} := fun p hp q hq h =>
    List.inj_on_of_nodup_map hhash hp hq h
  have hps : ps.Nodup := hhash.of_map
  obtain ⟨c₁, hdeals, h₁⟩ := h.deals draws hinj hps (List.Subset.refl ps) hps
  obtain ⟨c', houtputs, h'⟩ := h₁.outputs freed hinj hps (List.Subset.refl ps) hps
    (y := fun i j => ((dealt draws j).eval i).val) (m := fun _ _ => [])
    (fun i hi j hj => by rw [if_pos hj]; rfl)
    (fun i hi j hj => by rw [if_pos hj]; exact hk.ne) []
  obtain ⟨b, hb, -⟩ := Bundle.make_map_eq_ok (f := (dealtSum dealer ps draws).eval)
    (fun _ => rfl) hidx
  have hshares : (ps.map fun i => (⟨i, ps.foldl (fun x j => x + ((dealt draws j).eval i).val) 0⟩ :
      Share BASE)) = ps.map (dealtSum dealer ps draws).eval := by
    refine List.map_congr_left fun i _ => ?_
    rw [dealtSum, Poly.eval_sum hbase, List.foldl_map]
  refine ⟨b, c', ?_, h'.congr fun r hr s hs => ?_, hb⟩
  · unfold Mpclib.fRand2t
    rw [ProtoM.bind_eq hdeals, ProtoM.bind_eq houtputs, List.nil_append, hshares, hb]
    rfl
  · rw [if_pos hr, if_pos hs]
    simp [BlockQueue.popFront, BlockQueue.pushBack, hk.ne]

omit [NeZero BASE] in
/-- Registration attaches every party. -/
theorem attached_registerLoop {parties rest : Parset BASE} {p : Par BASE}
    (hok : (MpcContext.registerLoop parties rest c).1 = .ok ())
    (hp : p ∈ rest ∨ p.addr ∈ c.attached) :
    p.addr ∈ (MpcContext.registerLoop parties rest c).2.attached := by
  induction rest generalizing c with
  | nil => exact hp.resolve_left List.not_mem_nil
  | cons q rest ih =>
      have hq := (MpcContext.registerLoop_eq_ok_iff.1 hok).1 q (List.mem_cons_self ..)
      rw [MpcContext.registerLoop_cons_none hq] at hok ⊢
      refine ih hok ?_
      rcases hp with hp | hp
      · rcases List.mem_cons.1 hp with rfl | hp
        · exact .inr (Finset.mem_insert_self _ _)
        · exact .inl hp
      · exact .inr (Finset.mem_insert_of_mem hp)

omit [NeZero BASE] in
/-- Registration opens empty channels between the parties. -/
theorem channels_registerParties (hok : (c.registerParties ps).1 = .ok ()) :
    Channels ps (fun _ _ => ⟨[], 0⟩) (c.registerParties ps).2 := by
  refine ⟨fun p hp => attached_registerLoop hok (.inl hp), fun r hr s hs => ?_⟩
  rw [MpcContext.queue, MpcContext.registerParties, MpcContext.registerLoop_ok hok hr,
    Option.bind_some, MpcContext.queues_make, if_pos (List.mem_map_of_mem hs), BlockQueue.empty]

/-- One more run of the protocol. -/
def runMore (perBlock : ℕ) (freed : Share BASE → Share BASE) (T : ℕ) (ps : Parset BASE)
    (bs : List (Bundle BASE)) (draws : Par BASE → Fin (T * 2) → UInt64) :
    ProtoM BASE (List (Bundle BASE)) := do
  let b ← fRand2t perBlock freed T ps draws
  return bs ++ [b]

/-- The bundle holds the values of a polynomial that is zero at `0`. -/
def SharesZero (dealer : Par BASE) (ps : Parset BASE) (draws : Par BASE → Fin (T * 2) → UInt64)
    (b : Bundle BASE) : Prop :=
  (dealtSum dealer ps draws).secret = 0 ∧
    ∀ p ∈ ps, b.at' p = .ok ((dealtSum dealer ps draws).eval p)

theorem secret_dealtSum (dealer : Par BASE) (ps : Parset BASE)
    (draws : Par BASE → Fin (T * 2) → UInt64) : (dealtSum dealer ps draws).secret = 0 := by
  refine Poly.secret_sum dealer fun q hq => ?_
  obtain ⟨i, -, rfl⟩ := List.mem_map.1 hq
  exact Field.ext (UInt64.zero_mod ..)

variable (perBlock freed) in
/-- The run lemma. -/
theorem Channels.runs {k : ℕ} (h : Channels ps (fun _ _ => ⟨[], k⟩) c)
    (hbase : BASE.toNat ≤ 2 ^ 32) (hhash : (ps.map Par.hash).Nodup)
    (hidx : (ps.map Par.idx).Nodup) (dealer : Par BASE)
    (rounds : List (Par BASE → Fin (T * 2) → UInt64)) (hk : k + rounds.length < perBlock)
    (bs : List (Bundle BASE)) :
    ∃ bs' c', rounds.foldlM (runMore perBlock freed T ps) bs c = (.ok (bs ++ bs'), c') ∧
      List.Forall₂ (SharesZero dealer ps) rounds bs' ∧
      Channels ps (fun _ _ => ⟨[], k + rounds.length⟩) c' := by
  induction rounds generalizing c k bs with
  | nil => exact ⟨[], c, by rw [List.append_nil]; rfl, .nil, h⟩
  | cons draws rounds ih =>
      rw [List.length_cons] at hk ⊢
      obtain ⟨b, c₁, hrun, h₁, hb⟩ :=
        h.fRand2t perBlock freed hbase (by omega) hhash hidx dealer draws
      obtain ⟨bs', c', hrest, hall, h'⟩ := ih h₁ (by omega) (bs ++ [b])
      rw [Nat.add_right_comm] at h'
      obtain ⟨b', hb', -, hat⟩ := Bundle.make_map_eq_ok (f := (dealtSum dealer ps draws).eval)
        (fun _ => rfl) hidx
      obtain rfl : b = b' := Except.ok.inj (hb.symm.trans hb')
      refine ⟨b :: bs', c', ?_, .cons ⟨secret_dealtSum dealer ps draws, hat⟩ hall, h'⟩
      rw [List.foldlM_cons, List.append_cons, ← hrest]
      exact ProtoM.bind_eq (ProtoM.bind_eq (f := fun b => pure (bs ++ [b])) hrun)

/-- **`f_rand_2t` makes sharings of zero**, in each of fewer runs than a block holds
shares: in a context where the parties could be registered every run returns, its
bundle holds for each party the value of the sum of the polynomials that were dealt
in this run, which is zero at `0`, and in the end all channels are empty again. -/
theorem fRand2t_runs (hbase : BASE.toNat ≤ 2 ^ 32) (hidx : (ps.map Par.idx).Nodup)
    (hok : (c.registerParties ps).1 = .ok ()) (dealer : Par BASE)
    (rounds : List (Par BASE → Fin (T * 2) → UInt64)) (hrounds : rounds.length < perBlock) :
    ∃ bs c', rounds.foldlM (runMore perBlock freed T ps) [] (c.registerParties ps).2 =
        (.ok bs, c') ∧
      List.Forall₂ (SharesZero dealer ps) rounds bs ∧
      ∀ r ∈ ps, ∀ s ∈ ps, (c'.queue r s).map BlockQueue.items = some [] := by
  have hhash := (MpcContext.registerLoop_eq_ok_iff.1 hok).2
  obtain ⟨bs, c', hrun, hall, h'⟩ := (channels_registerParties hok).runs
    perBlock freed hbase hhash hidx dealer rounds (by omega) []
  exact ⟨bs, c', hrun, hall, fun r hr s hs => by rw [h'.queue r hr s hs]; rfl⟩

theorem fRand2t_runs_two : ∃ bs c', [fun _ _ => 7, fun _ k => k.val.toUInt64].foldlM
    (runMore 32 id 1 Poly.testParties) [] (MpcContext.initial.registerParties Poly.testParties).2 =
      (.ok bs, c') ∧ bs.length = 2 := by
  have hok : (MpcContext.initial.registerParties Poly.testParties).1 = .ok () :=
    MpcContext.registerLoop_eq_ok_iff.2 ⟨fun _ _ => rfl, by decide⟩
  obtain ⟨bs, c', hrun, hall, -⟩ := @fRand2t_runs 23 _ 1 Poly.testParties _ 32 id (by decide)
    (by decide) hok ⟨0, 0, 0⟩ [fun _ _ => 7, fun _ k => k.val.toUInt64] (by decide)
  exact ⟨bs, c', hrun, hall.length_eq.symm⟩

end Runs

end Gauv.Mpclib
