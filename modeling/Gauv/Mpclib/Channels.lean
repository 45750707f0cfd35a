import Gauv.Fifo
import Gauv.Mpclib.Context

/-!
# Channels over whole runs

Registrations, sends and receives in any order, from the first call of the
process on.  The messages from one party to another form a FIFO channel of their
own, whatever freed memory holds, exactly when no `receive` takes the share in
the last slot of a block of its queue: that share is copied out of freed memory.
The other calls lose, copy and move no share.
-/

namespace Gauv.Mpclib

variable {BASE : UInt64}

/-- A call on the context. -/
inductive Call (BASE : UInt64) where
  | register (parties : Parset BASE)
  | send (sender receiver : Par BASE) (msg : Share BASE)
  | receive (receiver sender : Par BASE)

/-- The parties named by a call. -/
def Call.parties : Call BASE → List (Par BASE)
  | register parties => parties
  | send sender receiver _ => [sender, receiver]
  | receive receiver sender => [receiver, sender]

/-- What a call returns or throws. -/
abbrev Outcome (BASE : UInt64) := Except (Exn BASE) (Option (Share BASE))

/-- One call. -/
def MpcContext.step (perBlock : ℕ) (freed : Share BASE → Share BASE) (c : MpcContext BASE) :
    Call BASE → Outcome BASE × MpcContext BASE
  | .register parties => ((c.registerParties parties).1.map fun _ => none,
      (c.registerParties parties).2)
  | .send sender receiver msg => ((c.send sender receiver msg).1.map fun _ => none,
      (c.send sender receiver msg).2)
  | .receive receiver sender => c.receive perBlock freed receiver sender

/-- The context after some calls, with what they returned. -/
structure Run (BASE : UInt64) where
  ctx : MpcContext BASE
  log : List (Call BASE × Outcome BASE)

/-- The run continued by one call.  `freed n m` is what the `n`-th call finds where
`m` was, when the block is freed. -/
def Run.next (perBlock : ℕ) (freed : ℕ → Share BASE → Share BASE) (r : Run BASE)
    (call : Call BASE) : Run BASE :=
  ⟨(r.ctx.step perBlock (freed r.log.length) call).2,
    r.log ++ [(call, (r.ctx.step perBlock (freed r.log.length) call).1)]⟩

/-- The run of a list of calls. -/
def run (perBlock : ℕ) (freed : ℕ → Share BASE → Share BASE) (calls : List (Call BASE)) :
    Run BASE := calls.foldl (Run.next perBlock freed) ⟨.initial, []⟩

/-- What a call did to a channel, which is named by its sender and receiver. -/
def event : Call BASE × Outcome BASE → Option (Fifo.Event (Par BASE × Par BASE) (Share BASE))
  | (.send sender receiver msg, .ok _) => some (.put (sender, receiver) msg)
  | (.receive receiver sender, .ok (some m)) => some (.take (sender, receiver) m)
  | _ => none

namespace Run

def events (r : Run BASE) : List (Fifo.Event (Par BASE × Par BASE) (Share BASE)) :=
  r.log.filterMap event

/-- The shares that `i` successfully sent to `j`, in order. -/
def sent (r : Run BASE) (i j : Par BASE) : List (Share BASE) := Fifo.puts (i, j) r.events

/-- The shares that `j` received from `i`, in order. -/
def received (r : Run BASE) (i j : Par BASE) : List (Share BASE) := Fifo.takes (i, j) r.events

/-- The messages under way in a channel. -/
def content (r : Run BASE) (k : Par BASE × Par BASE) : List (Share BASE) :=
  ((r.ctx.queue k.2 k.1).getD .empty).items

/-- The channels between the parties of `P` are private FIFO queues. -/
structure Lawful (P : Set (Par BASE)) (r : Run BASE) : Prop where
  /-- What `i` sent to `j` is what `j` received from `i`, then what is queued. -/
  kept : ∀ i ∈ P, ∀ j ∈ P, r.sent i j = r.received i j ++ r.content (i, j)
  fifo : ∀ i ∈ P, ∀ j ∈ P, r.received i j <+: r.sent i j
  /-- A channel gives nothing exactly when everything sent was received. -/
  empty : ∀ i ∈ P, ∀ j ∈ P, r.ctx.queue j i ≠ none → ∀ perBlock freed,
    (r.ctx.receive perBlock freed j i).1 = .ok none ↔ r.received i j = r.sent i j
  /-- A call that throws leaves every queue as it is. -/
  throws : ∀ perBlock freed call e, (r.ctx.step perBlock freed call).1 = .error e →
    ∀ i j q, r.ctx.queue j i = some q → (r.ctx.step perBlock freed call).2.queue j i = some q

end Run

/-! ## One call -/

/-- A call that throws leaves the queues as they are. -/
theorem MpcContext.queue_of_throws {c : MpcContext BASE} {perBlock : ℕ}
    {freed : Share BASE → Share BASE} {call : Call BASE} {e : Exn BASE}
    (he : (c.step perBlock freed call).1 = .error e) {i j : Par BASE}
    {q : BlockQueue (Share BASE)} (hq : c.queue j i = some q) :
    (c.step perBlock freed call).2.queue j i = some q := by
  cases call with
  | register parties => exact (queue_registerParties j i).1 q hq
  | send sender receiver msg =>
      rcases send_cases (c := c) sender receiver msg with ⟨e', h⟩ | ⟨q', c', h, -⟩
      · rw [step, h]
        exact hq
      · rw [step, h] at he
        exact absurd he (by simp [Except.map])
  | receive receiver sender =>
      rcases receive_cases (c := c) perBlock freed receiver sender with
        ⟨-, e', h⟩ | ⟨q', -, -, h⟩ | ⟨m, ms, q', c', -, -, h, -⟩
      · rw [step, h]
        exact hq
      · rw [step, h]
        exact hq
      · rw [step, h] at he
        exact absurd he (by simp)

namespace Run

variable {P : Set (Par BASE)} {perBlock : ℕ} {freed : ℕ → Share BASE → Share BASE} {r : Run BASE}
  {call : Call BASE}

/-- The channels between parties of `P`. -/
def between (P : Set (Par BASE)) : Set (Par BASE × Par BASE) := {k | k.1 ∈ P ∧ k.2 ∈ P}

/-- The copy made by a call is the message that it popped. -/
def Intact (perBlock : ℕ) (freed : ℕ → Share BASE → Share BASE) (r : Run BASE)
    (call : Call BASE) : Prop :=
  ∀ receiver sender q m ms, call = .receive receiver sender →
    r.ctx.queue receiver sender = some q → q.items = m :: ms →
    MpcContext.copied perBlock (freed r.log.length) q m = m

theorem next_eq {out : Outcome BASE} {c' : MpcContext BASE}
    (h : r.ctx.step perBlock (freed r.log.length) call = (out, c')) :
    r.next perBlock freed call = ⟨c', r.log ++ [(call, out)]⟩ := by rw [next, h]

theorem events_concat (c' : MpcContext BASE) (x : Call BASE × Outcome BASE) :
    (⟨c', r.log ++ [x]⟩ : Run BASE).events = r.events ++ (event x).toList := by
  rw [events, events, List.filterMap_append, List.filterMap_cons]
  cases event x <;> rfl

theorem event_register (parties : Parset BASE) (res : Except (Exn BASE) Unit) :
    event (.register parties, res.map fun _ => none) = none := rfl

/-- With distinct hash codes a channel of `P` is touched by its own calls only. -/
theorem hash_eq_iff (hP : P.InjOn Par.hash) {s t : Par BASE} (hs : s ∈ P) (ht : t ∈ P)
    {k : Par BASE × Par BASE} (hk : k ∈ between P) :
    k.2.hash = t.hash ∧ k.1.hash = s.hash ↔ (s, t) = k := by
  constructor
  · rintro ⟨h2, h1⟩
    exact Prod.ext (hP hs hk.1 h1.symm) (hP ht hk.2 h2.symm)
  · rintro rfl
    exact ⟨rfl, rfl⟩

/-- A queue that got another content is the queue of one channel of `P`. -/
theorem content_of_queue (hP : P.InjOn Par.hash) {s t : Par BASE} (hs : s ∈ P) (ht : t ∈ P)
    {c' : MpcContext BASE} {log : List (Call BASE × Outcome BASE)} {q : BlockQueue (Share BASE)}
    (hq : ∀ a b, c'.queue a b =
      if a.hash = t.hash ∧ b.hash = s.hash then some q else r.ctx.queue a b)
    {k : Par BASE × Par BASE} (hk : k ∈ between P) :
    (⟨c', log⟩ : Run BASE).content k = if (s, t) = k then q.items else r.content k := by
  rw [content, hq]
  simp only [hash_eq_iff hP hs ht hk]
  split
  · rfl
  · rfl

/-- **The step lemma.**  A call whose copy is its message keeps the balance of
what was sent, received and queued. -/
theorem balanced_next (hP : P.InjOn Par.hash) (hcall : ∀ p ∈ call.parties, p ∈ P)
    (hi : Intact perBlock freed r call) (hb : Fifo.Balanced (between P) r.content r.events) :
    Fifo.Balanced (between P) (r.next perBlock freed call).content
      (r.next perBlock freed call).events := by
  -- a call that leaves the context alone and does nothing to a channel
  have hidle : ∀ out, r.ctx.step perBlock (freed r.log.length) call = (out, r.ctx) →
      event (call, out) = none →
      Fifo.Balanced (between P) (r.next perBlock freed call).content
        (r.next perBlock freed call).events := by
    intro out hstep hevent
    rw [next_eq hstep, events_concat, hevent, Option.toList_none, List.append_nil]
    exact hb
  cases call with
  | register parties =>
      rw [next_eq rfl, events_concat, event_register, Option.toList_none, List.append_nil]
      exact hb.of_eq fun k _ =>
        congrArg BlockQueue.items (MpcContext.queue_registerParties k.2 k.1).2
  | send sender receiver msg =>
      have hs : sender ∈ P := hcall sender (by simp [Call.parties])
      have hr : receiver ∈ P := hcall receiver (by simp [Call.parties])
      rcases @MpcContext.send_cases BASE r.ctx sender receiver msg with
        ⟨e, h⟩ | ⟨q, c', h, hq, hq'⟩
      · exact hidle (.error e) (by rw [MpcContext.step, h]; rfl) rfl
      · have hstep : r.ctx.step perBlock (freed r.log.length) (.send sender receiver msg) =
            (.ok none, c') := by rw [MpcContext.step, h]; rfl
        rw [next_eq hstep, events_concat]
        refine hb.put fun k hk => ?_
        rw [content_of_queue hP hs hr hq' hk, BlockQueue.items_pushBack]
        split
        · rename_i hkey
          rw [← hkey, content, hq]
          rfl
        · rw [List.append_nil]
  | receive receiver sender =>
      have hs : sender ∈ P := hcall sender (by simp [Call.parties])
      have hr : receiver ∈ P := hcall receiver (by simp [Call.parties])
      rcases @MpcContext.receive_cases BASE r.ctx perBlock (freed r.log.length) receiver sender with
        ⟨-, e, h⟩ | ⟨q, -, -, h⟩ | ⟨m, ms, q, c', hq, hitems, h, hq'⟩
      · exact hidle (.error e) h rfl
      · exact hidle (.ok none) h rfl
      · rw [hi receiver sender q m ms rfl hq hitems] at h
        have hstep : r.ctx.step perBlock (freed r.log.length) (.receive receiver sender) =
            (.ok (some m), c') := h
        rw [next_eq hstep, events_concat]
        refine hb.take fun k hk => ?_
        rw [content_of_queue hP hs hr hq' hk, BlockQueue.items_popFront, hitems]
        split
        · rename_i hkey
          rw [← hkey, content, hq]
          exact hitems
        · rfl

/-- A call that keeps the balance copied the message it popped. -/
theorem intact_of_balanced (hP : P.InjOn Par.hash) (hcall : ∀ p ∈ call.parties, p ∈ P)
    (hb : Fifo.Balanced (between P) r.content r.events)
    (hb' : Fifo.Balanced (between P) (r.next perBlock freed call).content
      (r.next perBlock freed call).events) :
    Intact perBlock freed r call := by
  rintro receiver sender q m ms rfl hq hitems
  have hs : sender ∈ P := hcall sender (by simp [Call.parties])
  have hr : receiver ∈ P := hcall receiver (by simp [Call.parties])
  have hk : (sender, receiver) ∈ between P := ⟨hs, hr⟩
  rcases @MpcContext.receive_cases BASE r.ctx perBlock (freed r.log.length) receiver sender with
    ⟨hnone, -⟩ | ⟨q', hsome, hnil, -⟩ | ⟨f, fs, q', c', hsome, hcons, h, hq'⟩
  · rw [hnone] at hq
    exact absurd hq (by simp)
  · obtain rfl := Option.some.inj (hsome.symm.trans hq)
    exact absurd (hnil.symm.trans hitems) (by simp)
  · obtain rfl := Option.some.inj (hsome.symm.trans hq)
    obtain ⟨rfl, rfl⟩ := List.cons.inj (hcons.symm.trans hitems)
    have hstep : r.ctx.step perBlock (freed r.log.length) (.receive receiver sender) =
        (.ok (some (MpcContext.copied perBlock (freed r.log.length) q' f)), c') := h
    rw [next_eq hstep, events_concat] at hb'
    refine hb.take_inv hb' hk ?_
    rw [content_of_queue hP hs hr hq' hk, if_pos rfl, content, hsome, BlockQueue.items_popFront]
    show q'.items = f :: q'.items.tail
    rw [hcons, List.tail_cons]

/-! ## The law of a balanced state -/

/-- A balanced state obeys the law. -/
theorem lawful_of_balanced (hb : Fifo.Balanced (between P) r.content r.events) :
    r.Lawful P where
  kept := fun i hi j hj => hb (i, j) ⟨hi, hj⟩
  fifo := fun i hi j hj => hb.takes_isPrefix ⟨hi, hj⟩
  empty := by
    intro i hi j hj hq perBlock freed
    have hk : (i, j) ∈ between P := ⟨hi, hj⟩
    refine Iff.trans ?_ (hb.queue_eq_nil_iff hk)
    rw [content]
    rcases @MpcContext.receive_cases BASE r.ctx perBlock freed j i with
      ⟨hnone, -⟩ | ⟨q, hsome, hnil, h⟩ | ⟨m, ms, q, c', hsome, hcons, h, -⟩
    · exact absurd hnone hq
    · rw [hsome, h]
      exact iff_of_true rfl hnil
    · rw [hsome, h]
      simp [hcons]
  throws := fun _ _ _ _ he _ _ _ hq => MpcContext.queue_of_throws he hq

theorem Lawful.balanced (h : r.Lawful P) : Fifo.Balanced (between P) r.content r.events :=
  fun k hk => h.kept k.1 hk.1 k.2 hk.2

end Run

/-! ## Whole runs -/

section Runs

variable {P : Set (Par BASE)} {perBlock : ℕ} {freed : ℕ → Share BASE → Share BASE}
  {calls : List (Call BASE)}

theorem run_concat (perBlock : ℕ) (freed : ℕ → Share BASE → Share BASE) (calls : List (Call BASE))
    (call : Call BASE) :
    run perBlock freed (calls ++ [call]) = (run perBlock freed calls).next perBlock freed call := by
  rw [run, List.foldl_append, List.foldl_cons, List.foldl_nil]
  rfl

theorem run_take_succ {n : ℕ} {call : Call BASE} (h : calls[n]? = some call) :
    run perBlock freed (calls.take (n + 1)) =
      (run perBlock freed (calls.take n)).next perBlock freed call := by
  rw [List.take_add_one, h, Option.toList_some, run_concat]

/-- What a call does to the context does not depend on freed memory. -/
theorem MpcContext.step_snd (c : MpcContext BASE) (perBlock : ℕ)
    (freed freed' : Share BASE → Share BASE) (call : Call BASE) :
    (c.step perBlock freed call).2 = (c.step perBlock freed' call).2 := by
  cases call with
  | register parties => rfl
  | send sender receiver msg => rfl
  | receive receiver sender =>
      show (c.receive perBlock freed receiver sender).2 =
        (c.receive perBlock freed' receiver sender).2
      unfold MpcContext.receive
      split
      · rfl
      · split
        · rfl
        · split <;> rfl

/-- The context after the calls. -/
def contextAfter (perBlock : ℕ) (calls : List (Call BASE)) : MpcContext BASE :=
  (run perBlock (fun _ m => m) calls).ctx

theorem ctx_run (perBlock : ℕ) (freed : ℕ → Share BASE → Share BASE) (calls : List (Call BASE)) :
    (run perBlock freed calls).ctx = contextAfter perBlock calls := by
  induction calls using List.reverseRecOn with
  | nil => rfl
  | append_singleton calls call ih =>
      unfold contextAfter at ih ⊢
      rw [run_concat, run_concat, Run.next, Run.next]
      show (MpcContext.step _ _ _ call).2 = (MpcContext.step _ _ _ call).2
      rw [ih, MpcContext.step_snd]

/-- No receive takes the share in the last slot of a block of its queue. -/
def SparesBlocks (perBlock : ℕ) (calls : List (Call BASE)) : Prop :=
  ∀ n receiver sender q, calls[n]? = some (.receive receiver sender) →
    (contextAfter perBlock (calls.take n)).queue receiver sender = some q → q.items ≠ [] →
    ¬ q.AtBlockEnd perBlock

/-- Then every copy is the message that was popped. -/
theorem SparesBlocks.intact (h : SparesBlocks perBlock calls) {n : ℕ} {call : Call BASE}
    (hn : calls[n]? = some call) :
    Run.Intact perBlock freed (run perBlock freed (calls.take n)) call := by
  rintro receiver sender q m ms rfl hq hitems
  rw [ctx_run] at hq
  exact if_neg (h n receiver sender q hn hq (by rw [hitems]; exact List.cons_ne_nil m ms))

/-- **The run lemma.** -/
theorem balanced_run (hP : P.InjOn Par.hash) (hcalls : ∀ call ∈ calls, ∀ p ∈ call.parties, p ∈ P)
    (hs : SparesBlocks perBlock calls) (n : ℕ) : Fifo.Balanced (Run.between P)
      (run perBlock freed (calls.take n)).content (run perBlock freed (calls.take n)).events := by
  induction n with
  | zero => exact fun _ _ => rfl
  | succ n ih =>
      cases hn : calls[n]? with
      | none =>
          rw [List.take_add_one, hn, Option.toList_none, List.append_nil]
          exact ih
      | some call =>
          rw [run_take_succ hn]
          exact Run.balanced_next hP (hcalls call (List.mem_of_getElem? hn)) (hs.intact hn) ih

/-- **Channels are private FIFO queues** in every state of a run, whatever freed
memory holds, exactly when no receive of the run takes the last share of a block. -/
theorem channels_fifo_iff (hP : P.InjOn Par.hash)
    (hcalls : ∀ call ∈ calls, ∀ p ∈ call.parties, p ∈ P) :
    (∀ freed n, (run perBlock freed (calls.take n)).Lawful P) ↔ SparesBlocks perBlock calls := by
  constructor
  · intro h n receiver sender q hn hq hne hend
    -- a freed block may hold a share of another party
    let freed : ℕ → Share BASE → Share BASE := fun _ m =>
      ⟨{ m.party with addr := m.party.addr + 1 }, m.val⟩
    obtain ⟨m, ms, hitems⟩ := List.exists_cons_of_ne_nil hne
    have hb' := (h freed (n + 1)).balanced
    rw [run_take_succ hn] at hb'
    have hcopy := Run.intact_of_balanced hP (hcalls _ (List.mem_of_getElem? hn))
      (h freed n).balanced hb' receiver sender q m ms rfl (by rw [ctx_run]; exact hq) hitems
    rw [MpcContext.copied, if_pos hend] at hcopy
    have haddr : m.party.addr + 1 = m.party.addr := congrArg (fun s => s.party.addr) hcopy
    simp at haddr
  · exact fun hs freed n => Run.lawful_of_balanced (balanced_run hP hcalls hs n)

/-! ### Short runs -/

/-- How many calls of the list are receives on the channel. -/
def receives (receiver sender : Par BASE) (calls : List (Call BASE)) : ℕ :=
  calls.countP fun
    | .receive r s => r.hash == receiver.hash && s.hash == sender.hash
    | _ => false

theorem receives_concat (receiver sender : Par BASE) (calls : List (Call BASE))
    (call : Call BASE) : receives receiver sender (calls ++ [call]) =
      receives receiver sender calls + receives receiver sender [call] := by
  rw [receives, List.countP_append]
  rfl

variable (perBlock) in
/-- The head of a queue has passed at most one slot for each receive on it. -/
theorem front_le_receives (receiver sender : Par BASE) (calls : List (Call BASE)) :
    (((contextAfter perBlock calls).queue receiver sender).getD .empty).front ≤
      receives receiver sender calls := by
  induction calls using List.reverseRecOn with
  | nil => exact le_rfl
  | append_singleton calls call ih =>
      rw [receives_concat]
      have hctx : contextAfter perBlock (calls ++ [call]) =
          ((contextAfter perBlock calls).step perBlock (fun m => m) call).2 := by
        rw [contextAfter, run_concat]
        rfl
      rw [hctx]
      cases call with
      | register parties =>
          show ((((contextAfter perBlock calls).registerParties parties).2.queue _ _).getD
            _).front ≤ _
          rw [(MpcContext.queue_registerParties receiver sender).2]
          exact ih.trans (Nat.le_add_right ..)
      | send s r msg =>
          refine le_trans ?_ (Nat.le_add_right ..)
          rcases MpcContext.send_cases (c := contextAfter perBlock calls) s r msg with
            ⟨e, h⟩ | ⟨q, c', h, hq, hq'⟩
          · rw [MpcContext.step, h]
            exact ih
          · rw [MpcContext.step, h]
            show ((c'.queue receiver sender).getD _).front ≤ _
            rw [hq']
            split
            · rename_i hsame
              rw [MpcContext.queue, hsame.1, hsame.2] at ih
              rw [MpcContext.queue] at hq
              rw [hq] at ih
              exact ih
            · exact ih
      | receive r s =>
          rcases MpcContext.receive_cases (c := contextAfter perBlock calls) perBlock
              (fun m => m) r s with ⟨-, e, h⟩ | ⟨q, -, -, h⟩ | ⟨m, ms, q, c', hq, -, h, hq'⟩
          · rw [MpcContext.step, h]
            exact ih.trans (Nat.le_add_right ..)
          · rw [MpcContext.step, h]
            exact ih.trans (Nat.le_add_right ..)
          · rw [MpcContext.step, h]
            show ((c'.queue receiver sender).getD _).front ≤ _
            rw [hq']
            split
            · rename_i hsame
              rw [MpcContext.queue, hsame.1, hsame.2] at ih
              rw [MpcContext.queue] at hq
              rw [hq] at ih
              have hone : receives receiver sender [Call.receive r s] = 1 := by
                simp [receives, hsame]
              rw [hone]
              exact (q.front_popFront_le perBlock).trans (Nat.add_le_add_right ih 1)
            · exact ih.trans (Nat.le_add_right ..)

/-- A run with fewer receives on each channel than a block has slots frees no
block. -/
theorem sparesBlocks_of_receives (h : ∀ receiver sender : Par BASE,
    receives receiver sender calls < perBlock) : SparesBlocks perBlock calls := by
  intro n receiver sender q hn hq hne hend
  have hfront := front_le_receives perBlock receiver sender (calls.take n)
  rw [hq] at hfront
  -- the receive itself is one more
  have hsplit : calls = calls.take n ++ .receive receiver sender :: calls.drop (n + 1) := by
    obtain ⟨hlt, hget⟩ := List.getElem?_eq_some_iff.1 hn
    rw [← hget, List.getElem_cons_drop, List.take_append_drop]
  have hcount : receives receiver sender (calls.take n) + 1 ≤ receives receiver sender calls := by
    conv_rhs => rw [hsplit]
    unfold receives
    rw [List.countP_append, List.countP_cons_of_pos (by simp)]
    omega
  have := h receiver sender
  have hend' : q.front + 1 = perBlock := hend
  simp only [Option.getD_some] at hfront
  omega

end Runs

/-! ### A block of messages -/

/-- The parties of `twoParties`, as a set. -/
def pair : Set (Par 23) := {p | p ∈ MpcContext.twoParties}

theorem injOn_pair : pair.InjOn Par.hash := fun p hp q hq h =>
  (by decide : ∀ p ∈ MpcContext.twoParties, ∀ q ∈ MpcContext.twoParties,
    p.hash = q.hash → p = q) p hp q hq h

/-- The share 7 of the second party. -/
def seven : Share 23 := ⟨⟨16, 1, .ofBase 5⟩, .ofBase 7⟩

/-- The first party sends the share to the second `k` times, which receives it as
often. -/
def messages (k : ℕ) : List (Call 23) :=
  .register MpcContext.twoParties ::
    (List.replicate k (.send ⟨0, 0, .ofBase 0⟩ ⟨16, 1, .ofBase 5⟩ seven) ++
      List.replicate k (.receive ⟨16, 1, .ofBase 5⟩ ⟨0, 0, .ofBase 0⟩))

theorem parties_messages (k : ℕ) : ∀ call ∈ messages k, ∀ p ∈ call.parties, p ∈ pair := by
  intro call hcall
  change ∀ p ∈ call.parties, p ∈ MpcContext.twoParties
  simp only [messages, List.mem_cons, List.mem_append, List.mem_replicate] at hcall
  rcases hcall with rfl | ⟨-, rfl⟩ | ⟨-, rfl⟩
  · exact fun p hp => hp
  · decide
  · decide

theorem receives_messages (receiver sender : Par 23) (k : ℕ) :
    receives receiver sender (messages k) ≤ k := by
  have hle : ∀ (p : Call 23 → Bool) call, (List.replicate k call).countP p ≤ k := fun p call =>
    List.countP_le_length.trans_eq (List.length_replicate ..)
  unfold receives messages
  rw [List.countP_cons_of_neg (by simp), List.countP_append,
    List.countP_eq_zero.2 fun call hcall => by simp [List.eq_of_mem_replicate hcall], Nat.zero_add]
  exact hle _ _

theorem sparesBlocks_messages : SparesBlocks 32 (messages 31) :=
  sparesBlocks_of_receives fun receiver sender =>
    (receives_messages receiver sender 31).trans_lt (by decide)

theorem channels_fifo_iff_messages : SparesBlocks 32 (messages 31) ∧
    ∀ freed n, (run 32 freed ((messages 31).take n)).Lawful pair :=
  ⟨sparesBlocks_messages,
    (channels_fifo_iff injOn_pair (parties_messages 31)).2 sparesBlocks_messages⟩

/-- The thirty-second share of a channel is copied out of a freed block: the second
party may receive a share that was not sent. -/
theorem popped_block_freed : ¬ ∀ (freed : ℕ → Share 23 → Share 23) (P : Set (Par 23))
    (calls : List (Call 23)), P.InjOn Par.hash →
    (∀ call ∈ calls, ∀ p ∈ call.parties, p ∈ P) →
    ∀ n, (run 32 freed (calls.take n)).Lawful P := by
  intro h
  have hlaw := h (fun _ m => ⟨m.party, .ofBase 0⟩) pair (messages 32) injOn_pair
    (parties_messages 32) 65
  have hfifo := hlaw.fifo ⟨0, 0, .ofBase 0⟩ (by change _ ∈ MpcContext.twoParties; decide)
    ⟨16, 1, .ofBase 5⟩ (by change _ ∈ MpcContext.twoParties; decide)
  exact absurd hfifo (by decide +kernel)

end Gauv.Mpclib
