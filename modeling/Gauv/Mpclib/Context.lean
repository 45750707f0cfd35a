import Gauv.Deque
import Gauv.Mpclib.Share

/-!
# The message context

The context keeps, for every registered party, one queue for each party it was
registered with: a two-level map keyed by the hash codes of receiver and sender.
Registering checks, inserts and attaches one party of the set at a time.

`receive` takes a reference to the head of the queue, pops it, and copies from
the reference afterwards.  A `std::deque` stores its elements in blocks, and
`pop_front` on the last slot of a block frees the block.  Elsewhere the slot is
left as it is, a share having nothing to destroy, and the copy yields the popped
share.  How many shares a block holds depends on the library; libstdc++ allots
512 bytes to a block, which is 32 shares of 16 bytes.  It is the parameter
`perBlock`, and what is found in a freed block the parameter `freed`.
-/

namespace Gauv.Mpclib

variable {BASE : UInt64}

/-- `party_queues`: a party and its queue for each sender. -/
structure PartyQueues (BASE : UInt64) where
  party : Par BASE
  queues : Table UInt32 (BlockQueue (Share BASE))

/-- The constructor: an empty queue for each party of the set. -/
def PartyQueues.make (p : Par BASE) (ps : Parset BASE) : PartyQueues BASE :=
  ⟨p, ps.foldl (fun queues pj => queues.insert pj.hash .empty) .empty⟩

/-- `mpc_context`: the message table, with the addresses of the parties whose
`_ctx` points to the context. -/
structure MpcContext (BASE : UInt64) where
  msgs : Table UInt32 (PartyQueues BASE)
  attached : Finset UInt64

namespace MpcContext

/-- The context before any call. -/
def initial : MpcContext BASE := ⟨.empty, ∅⟩

/-- The queue of the messages from `sender` to `receiver`. -/
def queue (c : MpcContext BASE) (receiver sender : Par BASE) :
    Option (BlockQueue (Share BASE)) :=
  (c.msgs receiver.hash).bind fun pq => pq.queues sender.hash

/-- The context with another content of one queue. -/
def store (c : MpcContext BASE) (receiver sender : Par BASE) (pq : PartyQueues BASE)
    (q : BlockQueue (Share BASE)) : MpcContext BASE :=
  { c with msgs := c.msgs.set receiver.hash { pq with queues := pq.queues.set sender.hash q } }

/-- `send`. -/
def send (c : MpcContext BASE) (sender receiver : Par BASE) (msg : Share BASE) :
    Except (Exn BASE) Unit × MpcContext BASE :=
  if receiver.eq msg.party then
    match c.msgs receiver.hash with
    | none => (.error .partyNonexist, c)
    | some pq =>
        match pq.queues sender.hash with
        | none => (.error .partyNonexist, c)
        | some q => (.ok (), c.store receiver sender pq (q.pushBack msg))
  else (.error (.partyMissmatch receiver msg.party), c)

/-- The copy that `receive` returns after it popped `m` off `q`. -/
def copied (perBlock : ℕ) (freed : Share BASE → Share BASE) (q : BlockQueue (Share BASE))
    (m : Share BASE) : Share BASE := if q.AtBlockEnd perBlock then freed m else m

/-- `receive`. -/
def receive (perBlock : ℕ) (freed : Share BASE → Share BASE) (c : MpcContext BASE)
    (receiver sender : Par BASE) : Except (Exn BASE) (Option (Share BASE)) × MpcContext BASE :=
  match c.msgs receiver.hash with
  | none => (.error .partyNonexist, c)
  | some pq =>
      match pq.queues sender.hash with
      | none => (.error .partyNonexist, c)
      | some q =>
          match q.items with
          | [] => (.ok none, c)
          | m :: _ => (.ok (some (copied perBlock freed q m)),
              c.store receiver sender pq (q.popFront perBlock))

/-- What one pass of `register_parties` does for a new party: enter its queues
and attach it. -/
def enter (c : MpcContext BASE) (p : Par BASE) (parties : Parset BASE) : MpcContext BASE :=
  ⟨c.msgs.insert p.hash (.make p parties), insert p.addr c.attached⟩

/-- The loop of `register_parties` over the parties that are left. -/
def registerLoop (parties : Parset BASE) :
    List (Par BASE) → MpcContext BASE → Except (Exn BASE) Unit × MpcContext BASE
  | [], c => (.ok (), c)
  | p :: rest, c =>
      match c.msgs p.hash with
      | some pq => (.error (.partyDuplicated pq.party p), c)
      | none => registerLoop parties rest (c.enter p parties)

/-- `register_parties`. -/
def registerParties (c : MpcContext BASE) (parties : Parset BASE) :
    Except (Exn BASE) Unit × MpcContext BASE := registerLoop parties parties c

/-! ## What one call does -/

variable {c : MpcContext BASE} {perBlock : ℕ} {freed : Share BASE → Share BASE}

theorem queue_store {receiver sender : Par BASE} {pq : PartyQueues BASE}
    (hpq : c.msgs receiver.hash = some pq) (q : BlockQueue (Share BASE)) (r s : Par BASE) :
    (c.store receiver sender pq q).queue r s =
      if r.hash = receiver.hash ∧ s.hash = sender.hash then some q else c.queue r s := by
  rw [queue, store]
  by_cases hr : r.hash = receiver.hash
  · simp only [hr, Table.set_self, Option.bind_some, true_and]
    by_cases hs : s.hash = sender.hash
    · rw [if_pos hs, hs, Table.set_self]
    · rw [if_neg hs, Table.set_of_ne hs, queue, hr, hpq]
      rfl
  · simp only [Table.set_of_ne hr, hr, false_and, if_false]
    rfl

/-- A send either fails and changes nothing, or appends to one queue. -/
theorem send_cases (sender receiver : Par BASE) (msg : Share BASE) :
    (∃ e, c.send sender receiver msg = (.error e, c)) ∨
      ∃ q c', c.send sender receiver msg = (.ok (), c') ∧ c.queue receiver sender = some q ∧
        ∀ r s, c'.queue r s = if r.hash = receiver.hash ∧ s.hash = sender.hash
          then some (q.pushBack msg) else c.queue r s := by
  rw [send]
  split
  · cases hpq : c.msgs receiver.hash with
    | none => exact Or.inl ⟨_, rfl⟩
    | some pq =>
        cases hq : pq.queues sender.hash with
        | none => exact Or.inl ⟨.partyNonexist, by simp only [hq]⟩
        | some q =>
            refine Or.inr ⟨q, c.store receiver sender pq (q.pushBack msg),
              by simp only [hq], ?_, ?_⟩
            · rw [queue, hpq, Option.bind_some, hq]
            · exact queue_store hpq _
  · exact Or.inl ⟨_, rfl⟩

/-- A receive fails and changes nothing, finds its queue empty, or pops the head
of one queue. -/
theorem receive_cases (perBlock : ℕ) (freed : Share BASE → Share BASE)
    (receiver sender : Par BASE) :
    (c.queue receiver sender = none ∧
      ∃ e, c.receive perBlock freed receiver sender = (.error e, c)) ∨
    (∃ q, c.queue receiver sender = some q ∧ q.items = [] ∧
      c.receive perBlock freed receiver sender = (.ok none, c)) ∨
      ∃ m ms q c', c.queue receiver sender = some q ∧ q.items = m :: ms ∧
        c.receive perBlock freed receiver sender = (.ok (some (copied perBlock freed q m)), c') ∧
        ∀ r s, c'.queue r s = if r.hash = receiver.hash ∧ s.hash = sender.hash
          then some (q.popFront perBlock) else c.queue r s := by
  rw [receive, queue]
  cases hpq : c.msgs receiver.hash with
  | none => exact Or.inl ⟨rfl, _, rfl⟩
  | some pq =>
      rw [Option.bind_some]
      cases hq : pq.queues sender.hash with
      | none => exact Or.inl ⟨rfl, .partyNonexist, by simp only [hq]⟩
      | some q =>
          cases hitems : q.items with
          | nil => exact Or.inr (Or.inl ⟨q, rfl, hitems, by simp only [hq, hitems]⟩)
          | cons m ms =>
              refine Or.inr (Or.inr ⟨m, ms, q, c.store receiver sender pq (q.popFront perBlock),
                rfl, hitems, ?_, ?_⟩)
              · simp only [hq, hitems]
              · exact queue_store hpq _

/-! ## Registration -/

/-- The queues of a new entry: an empty one for each party of the set. -/
theorem queues_make (p : Par BASE) (ps : Parset BASE) (h : UInt32) :
    (PartyQueues.make p ps).queues h =
      if h ∈ ps.map Par.hash then some .empty else none := by
  have hfold : ∀ (l : Parset BASE) (t : Table UInt32 (BlockQueue (Share BASE))),
      (∀ k, t k = none ∨ t k = some .empty) →
      l.foldl (fun queues pj => queues.insert pj.hash .empty) t h =
        if h ∈ l.map Par.hash then some .empty else t h := by
    intro l
    induction l with
    | nil => intro t _; simp
    | cons q l ih =>
        intro t ht
        have hinsert : ∀ k, t.insert q.hash .empty k =
            if k = q.hash then some .empty else t k := by
          intro k
          by_cases hk : k = q.hash
          · subst hk
            rw [if_pos rfl]
            rcases ht q.hash with h0 | h0
            · exact Table.insert_self h0
            · exact Table.insert_mono h0
          · rw [if_neg hk, Table.insert_of_ne hk]
        rw [List.foldl_cons, ih, hinsert]
        · by_cases hl : h ∈ l.map Par.hash
          · simp [hl]
          · by_cases hq : h = q.hash <;> simp [hl, hq]
        · intro k
          rw [hinsert]
          split
          · exact Or.inr rfl
          · exact ht k
  exact hfold ps .empty fun _ => Or.inl rfl

variable {parties rest : Parset BASE} {p : Par BASE}

theorem enter_self (hp : c.msgs p.hash = none) :
    (c.enter p parties).msgs p.hash = some (.make p parties) := Table.insert_self hp

theorem enter_of_ne {h : UInt32} (hh : h ≠ p.hash) :
    (c.enter p parties).msgs h = c.msgs h := Table.insert_of_ne hh

theorem enter_mono {h : UInt32} {pq : PartyQueues BASE} (hpq : c.msgs h = some pq) :
    (c.enter p parties).msgs h = some pq := Table.insert_mono hpq

theorem registerLoop_cons_some {pq : PartyQueues BASE} (hp : c.msgs p.hash = some pq) :
    registerLoop parties (p :: rest) c = (.error (.partyDuplicated pq.party p), c) := by
  rw [registerLoop, hp]

theorem registerLoop_cons_none (hp : c.msgs p.hash = none) :
    registerLoop parties (p :: rest) c = registerLoop parties rest (c.enter p parties) := by
  rw [registerLoop, hp]

/-- The loop returns exactly when no hash code of the parties left is taken, by
an earlier registration or by another of them. -/
theorem registerLoop_eq_ok_iff : (registerLoop parties rest c).1 = .ok () ↔
    (∀ p ∈ rest, c.msgs p.hash = none) ∧ (rest.map Par.hash).Nodup := by
  induction rest generalizing c with
  | nil => simp [registerLoop]
  | cons p rest ih =>
      cases hp : c.msgs p.hash with
      | some pq =>
          rw [registerLoop_cons_some hp]
          simp [hp]
      | none =>
          rw [registerLoop_cons_none hp, ih, List.forall_mem_cons, List.map_cons, List.nodup_cons]
          have hkey : ∀ q : Par BASE, (c.enter p parties).msgs q.hash = none ↔
              q.hash ≠ p.hash ∧ c.msgs q.hash = none := by
            intro q
            by_cases hq : q.hash = p.hash
            · rw [hq, enter_self hp]
              simp
            · rw [enter_of_ne hq]
              simp [hq]
          constructor
          · rintro ⟨hnew, hnodup⟩
            refine ⟨⟨hp, fun q hq => ((hkey q).1 (hnew q hq)).2⟩, fun hmem => ?_, hnodup⟩
            obtain ⟨q, hq, hqp⟩ := List.mem_map.1 hmem
            exact ((hkey q).1 (hnew q hq)).1 hqp
          · rintro ⟨⟨-, hnew⟩, hp', hnodup⟩
            refine ⟨fun q hq => (hkey q).2 ⟨fun h => hp' ?_, hnew q hq⟩, hnodup⟩
            exact h ▸ List.mem_map_of_mem hq

/-- Entries of the table are never replaced. -/
theorem registerLoop_mono {h : UInt32} {pq : PartyQueues BASE} (hpq : c.msgs h = some pq) :
    (registerLoop parties rest c).2.msgs h = some pq := by
  induction rest generalizing c with
  | nil => exact hpq
  | cons p rest ih =>
      cases hp : c.msgs p.hash with
      | some _ =>
          rw [registerLoop_cons_some hp]
          exact hpq
      | none =>
          rw [registerLoop_cons_none hp]
          exact ih (enter_mono hpq)

/-- An entry of the table is an old one, or the new one of a party of the set. -/
theorem registerLoop_cases {h : UInt32} {pq : PartyQueues BASE}
    (hpq : (registerLoop parties rest c).2.msgs h = some pq) :
    c.msgs h = some pq ∨ ∃ p ∈ rest, pq = .make p parties := by
  induction rest generalizing c with
  | nil => exact Or.inl hpq
  | cons p rest ih =>
      cases hp : c.msgs p.hash with
      | some _ =>
          rw [registerLoop_cons_some hp] at hpq
          exact Or.inl hpq
      | none =>
          rw [registerLoop_cons_none hp] at hpq
          rcases ih hpq with h' | ⟨q, hq, hpq⟩
          · by_cases hh : h = p.hash
            · rw [hh, enter_self hp, Option.some.injEq] at h'
              exact Or.inr ⟨p, List.mem_cons_self .., h'.symm⟩
            · rw [enter_of_ne hh] at h'
              exact Or.inl h'
          · exact Or.inr ⟨q, List.mem_cons_of_mem _ hq, hpq⟩

/-- A set that is registered has its entries. -/
theorem registerLoop_ok (hok : (registerLoop parties rest c).1 = .ok ()) (hp : p ∈ rest) :
    (registerLoop parties rest c).2.msgs p.hash = some (.make p parties) := by
  induction rest generalizing c with
  | nil => exact absurd hp List.not_mem_nil
  | cons q rest ih =>
      have hq := (registerLoop_eq_ok_iff.1 hok).1 q (List.mem_cons_self ..)
      rw [registerLoop_cons_none hq] at hok ⊢
      rcases List.mem_cons.1 hp with rfl | hp
      · exact registerLoop_mono (enter_self hq)
      · exact ih hok hp

/-- **Registering leaves the queues alone** and adds empty ones. -/
theorem queue_registerParties (r s : Par BASE) :
    (∀ q, c.queue r s = some q → (c.registerParties parties).2.queue r s = some q) ∧
      ((c.registerParties parties).2.queue r s).getD .empty = (c.queue r s).getD .empty := by
  have hmono : ∀ q, c.queue r s = some q →
      (c.registerParties parties).2.queue r s = some q := by
    intro q hq
    obtain ⟨pq, hpq, hs⟩ := Option.bind_eq_some_iff.1 hq
    rw [queue, registerParties, registerLoop_mono hpq]
    exact hs
  refine ⟨hmono, ?_⟩
  cases hq : c.queue r s with
  | some q => rw [hmono q hq]
  | none =>
      cases hq' : (c.registerParties parties).2.queue r s with
      | none => rfl
      | some q =>
          obtain ⟨pq, hpq, hs⟩ := Option.bind_eq_some_iff.1 hq'
          rcases registerLoop_cases hpq with h | ⟨p, -, rfl⟩
          · rw [queue, h, Option.bind_some, hs] at hq
            exact absurd hq (by simp)
          · rw [queues_make] at hs
            split at hs
            · rw [← Option.some.inj hs]
              rfl
            · exact absurd hs (by simp)

/-! ## Atomic registration -/

/-- If the call throws, the table is as before and no party of the set was
attached; if it returns, each party has one queue, an empty one, from each party
of the set and from no other. -/
def RegistersAtomically (c : MpcContext BASE) (ps : Parset BASE) : Prop :=
  (∀ e, (c.registerParties ps).1 = .error e → (c.registerParties ps).2.msgs = c.msgs ∧
    ∀ p ∈ ps, p.addr ∈ (c.registerParties ps).2.attached → p.addr ∈ c.attached) ∧
  ((c.registerParties ps).1 = .ok () → (ps.map Par.hash).Nodup ∧ ∀ p ∈ ps,
    ∃ pq, (c.registerParties ps).2.msgs p.hash = some pq ∧ pq.party = p ∧
      ∀ h, pq.queues h = if h ∈ ps.map Par.hash then some .empty else none)

/-- **When registration is atomic**: the first party of the set is refused at
once, or none is. -/
theorem registersAtomically_iff (c : MpcContext BASE) (ps : Parset BASE) :
    RegistersAtomically c ps ↔ (∃ p rest, ps = p :: rest ∧ c.msgs p.hash ≠ none) ∨
      (∀ p ∈ ps, c.msgs p.hash = none) ∧ (ps.map Par.hash).Nodup := by
  rw [← @registerLoop_eq_ok_iff BASE c ps ps]
  constructor
  · rintro ⟨hthrow, -⟩
    cases hres : (registerLoop ps ps c).1 with
    | ok => exact Or.inr rfl
    | error e =>
        refine Or.inl ?_
        obtain ⟨htable, -⟩ := hthrow e hres
        cases ps with
        | nil => exact absurd hres (by simp [registerLoop])
        | cons p rest =>
            refine ⟨p, rest, rfl, fun hnone => ?_⟩
            -- the first party was entered before the collision
            have hentered : (registerParties c (p :: rest)).2.msgs p.hash =
                some (.make p (p :: rest)) := by
              rw [registerParties, registerLoop_cons_none hnone]
              exact registerLoop_mono (enter_self hnone)
            rw [htable, hnone] at hentered
            exact absurd hentered (by simp)
  · rintro (⟨p, rest, rfl, hp⟩ | hok)
    · obtain ⟨pq, hpq⟩ := Option.ne_none_iff_exists'.1 hp
      have hres : registerParties c (p :: rest) = (.error (.partyDuplicated pq.party p), c) :=
        registerLoop_cons_some hpq
      refine ⟨fun e _ => ?_, fun hok => ?_⟩
      · rw [hres]
        exact ⟨rfl, fun _ _ h => h⟩
      · rw [hres] at hok
        exact absurd hok (by simp)
    · refine ⟨fun e he => ?_, fun _ => ⟨(registerLoop_eq_ok_iff.1 hok).2, fun p hp => ?_⟩⟩
      · rw [registerParties, hok] at he
        exact absurd he (by simp)
      · exact ⟨_, registerLoop_ok hok hp, rfl, queues_make p ps⟩

/-! ### A party registered twice -/

/-- Two parties modulo 23. -/
def twoParties : List (Par 23) := [⟨0, 0, .ofBase 0⟩, ⟨16, 1, .ofBase 5⟩]

/-- The context after the second party was registered alone. -/
def secondRegistered : MpcContext 23 := (initial.registerParties (twoParties.drop 1)).2

/-- Registering both then throws, with the first one entered and attached. -/
theorem registration_not_atomic : ¬ ∀ (c : MpcContext 23) ps, RegistersAtomically c ps := by
  intro h
  obtain ⟨htable, -⟩ := (h secondRegistered twoParties).1 _ rfl
  have hentry := congrArg Option.isSome (congrFun htable (⟨0, 0, .ofBase 0⟩ : Par 23).hash)
  exact absurd hentry (by decide)

end MpcContext

end Gauv.Mpclib
