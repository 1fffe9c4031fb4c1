import AlaphiOS.Ipc.MsgQueue
import AlaphiOS.Lib.WaitQueues
import Mathlib.Data.List.Forall2
import Mathlib.Data.List.Nodup

/-!
# Delivery of messages

Every message of every run: in what order it is received, and that nobody sleeps over
it. Unlike `send` of a pipe, a call moves one message and signals once for it, so that
the signals add up. `Kept` says how: for each message that is queued a receiver has been
woken, and for each free slot a sender, as long as there is anyone to wake. Receivers and
senders that come in between take a message or a slot, never more than one.
-/

namespace AlaphiOS.Ipc.MsgQueue

open Lib Lib.Monitor List State

variable {k : Frame} {st : Outcome}

/-! ## The order of messages -/

variable {τ : Type} {s s' : State τ Cond MsgQueue Frame} {tr es : List (Event τ Call Reply Message)}

/-- The calls of `send` that were successful, in the order of their returns. -/
def completed (tr : List (Event τ Call Reply Message)) : List (τ × Nat) :=
  tr.filterMap fun
    | .returned id (.sent (.ok ())) => some id
    | _ => none

/-- What was received, in order, each with the call that received it. -/
def receipts (tr : List (Event τ Call Reply Message)) : List ((τ × Nat) × List UInt8) :=
  tr.filterMap fun
    | .returned id (.received bytes) => some (id, bytes)
    | _ => none

/-- A message was received: the receiver's call got as much of it as fits. -/
def ReceivedAs (tr : List (Event τ Call Reply Message)) (m : (τ × Nat) × Message)
    (r : (τ × Nat) × List UInt8) : Prop :=
  ∃ len, .called r.1 (.recv len) ∈ tr ∧ r.2 = m.2.1.take len

/-- Where the messages are: those that were taken out have been received, one by one and
in order, and the others are queued. -/
def Delivered (s : State τ Cond MsgQueue Frame) (tr : List (Event τ Call Reply Message)) : Prop :=
  ∃ taken left, puts tr = taken ++ left ∧ left.map Prod.snd = s.shared.queue ∧
    List.Forall₂ (ReceivedAs tr) taken (receipts tr)

theorem completed_append : completed (tr ++ es) = completed tr ++ completed es :=
  filterMap_append

theorem receipts_append : receipts (tr ++ es) = receipts tr ++ receipts es :=
  filterMap_append

theorem ReceivedAs.mono {m : (τ × Nat) × Message} {r : (τ × Nat) × List UInt8}
    (h : ReceivedAs tr m r) : ReceivedAs (tr ++ es) m r := by
  obtain ⟨len, hcalled, hbytes⟩ := h
  exact ⟨len, mem_append_left _ hcalled, hbytes⟩

/-- A stretch that moves no message. -/
theorem Delivered.idle (h : Delivered s tr) (hqueue : s'.shared.queue = s.shared.queue)
    (hputs : puts es = []) (hreceipts : receipts es = []) : Delivered s' (tr ++ es) := by
  obtain ⟨taken, left, hall, hleft, htaken⟩ := h
  refine ⟨taken, left, ?_, by rw [hleft, hqueue], ?_⟩
  · rw [puts_append, hputs, append_nil, hall]
  · rw [receipts_append, hreceipts, append_nil]
    exact htaken.imp fun _ _ => ReceivedAs.mono

variable {t : τ} {op : Op τ Call} {id : τ × Nat} {msg : Message} {c : Cond}

theorem Delivered.pushed (h : Delivered s tr)
    (hqueue : s'.shared.queue = s.shared.queue ++ [msg]) (hputs : puts es = [(id, msg)])
    (hreceipts : receipts es = []) : Delivered s' (tr ++ es) := by
  obtain ⟨taken, left, hall, hleft, htaken⟩ := h
  refine ⟨taken, left ++ [(id, msg)], ?_, ?_, ?_⟩
  · rw [puts_append, hputs, hall, append_assoc]
  · rw [map_append, hleft, hqueue]
    rfl
  · rw [receipts_append, hreceipts, append_nil]
    exact htaken.imp fun _ _ => ReceivedAs.mono

variable {len : Nat} {q : MsgQueue}

theorem Delivered.popped (h : Delivered s tr)
    (hqueue : s.shared.queue = msg :: s'.shared.queue) (hputs : puts es = [])
    (hcalled : .called id (.recv len) ∈ tr)
    (hreceipts : receipts es = [(id, msg.1.take (min len msgSize))]) :
    Delivered s' (tr ++ es) := by
  obtain ⟨taken, left, hall, hleft, htaken⟩ := h
  rw [hqueue] at hleft
  obtain ⟨m, left, rfl, hm, hleft⟩ := map_eq_cons_iff.mp hleft
  refine ⟨taken ++ [m], left, ?_, hleft, ?_⟩
  · rw [puts_append, hputs, append_nil, hall, append_cons]
  · rw [receipts_append, hreceipts]
    refine rel_append (htaken.imp fun _ _ => ReceivedAs.mono) (.cons ?_ .nil)
    refine ⟨len, mem_append_left _ hcalled, ?_⟩
    -- no more than a message can be copied
    show msg.1.take (min len msgSize) = m.2.1.take len
    rw [hm]
    exact take_eq_take_iff.mpr (by rw [msg.2]; omega)

theorem Delivered.step [DecidableEq τ] (h : Delivered s tr)
    (hcalls : Accounted Going Gone s tr) (hstep : Step program s op s' es) :
    Delivered s' (tr ++ es) := by
  cases hstep with
  | start w _ => exact h.idle rfl rfl rfl
  | @wake t => exact h.idle (congrArg MsgQueue.queue (s.wakes_unblock t).shared) rfl rfl
  | @run t k st hk hcode =>
    have hqueue := congrArg MsgQueue.queue (s.apply_shared t st)
    have hputs : puts (report (t, s.calls t) st : List (Event τ Call Reply Message))
        = st.log.map ((t, s.calls t), ·) := puts_report st
    cases code_inv hcode with
    | tooLarge | refused | full | ended | empty | close => exact h.idle hqueue hputs rfl
    | pushed => exact h.pushed hqueue hputs rfl
    | popped hpop =>
      obtain ⟨w, hw, _, hgoing⟩ := hcalls.active t _ (Phase.frame_of_runnable hk)
      cases w with
      | send | close => exact absurd hgoing.1 (by simp [program])
      | recv len' =>
        cases hgoing.1
        exact h.popped (hpop.trans (by rw [hqueue])) hputs ((hw _).mpr rfl) rfl

theorem completed_step [DecidableEq τ] (hstep : Step program s op s' es) :
    (puts es).map Prod.fst = completed es := by
  cases hstep with
  | start | wake => rfl
  | @run t k st hk hcode =>
    rw [puts_report]
    cases code_inv hcode <;> rfl

/-! ## Wake-ups -/

/-- Senders wait on `not_full`, receivers on `not_empty`. -/
def Sorted : Cond → Frame → Prop
  | .notEmpty, k => ∃ len, k = .recv len
  | .notFull, k => ∃ msg, k = .sending msg

theorem code_sorted {k' : Frame}
    (h : program.code k q = some st) (hfinish : st.finish = .wait c k') : Sorted c k' := by
  cases code_inv h with
  | tooLarge | refused | pushed | popped | ended | close => cases hfinish
  | full | empty =>
    cases hfinish
    exact ⟨_, rfl⟩

theorem Frame.Carries.not_recv (h : k.Carries msg) : k ≠ .recv len := by
  rintro rfl
  exact h

/-- The queues are in order, and nobody sleeps over a message or a slot. -/
structure Kept (s : State τ Cond MsgQueue Frame) : Prop where
  tidy : Tidy s
  sorted : WaitsOn Sorted s
  bounded : s.shared.queue.length ≤ maxMessages
  messages : Covers s .notEmpty s.shared.queue.length
  slots : Covers s .notFull (maxMessages - s.shared.queue.length)
  closed : s.shared.closed = true → ∀ c, s.waiters c = []

/-- A task that runs was not woken from a queue in which such calls do not wait. -/
theorem Kept.not_woken (h : Kept s) (hk : (s.phase t).runnable = some k)
    (hnot : ¬ Sorted c k) (k' : Frame) : s.phase t ≠ .woken c k' := by
  intro hwoken
  rw [hwoken] at hk
  obtain rfl : k' = k := Option.some.inj hk
  exact hnot (h.sorted t c k' (.inr hwoken))

variable [DecidableEq τ]

theorem Kept.start (h : Kept s) (hout : s.phase t = .outside) :
    Kept { s with phase := Function.update s.phase t (.ready k) } where
  tidy := h.tidy.start hout
  sorted := h.sorted.update rfl (nofun) (nofun)
  bounded := h.bounded
  messages := h.messages.start hout
  slots := h.slots.start hout
  closed := h.closed

/-- The same when the wake-ups of the stretch are done. -/
theorem Kept.not_woken_after (h : Kept s) (hk : (s.phase t).runnable = some k)
    (st : Outcome) (hnot : ¬ Sorted c k) (k' : Frame) :
    (st.wakes.foldl wakeUp { s with shared := st.shared }).phase t ≠ .woken c k' := by
  have hstay := wakes_wakeAll st.wakes { s with shared := st.shared }
  rw [hstay.phase_of_runnable (s := { s with shared := st.shared }) hk]
  exact h.not_woken hk hnot k'

/-- Nobody sleeps over a message: a receiver is woken for one that comes, and one that goes
is taken by a receiver. -/
theorem Kept.messages_apply (h : Kept s) (hk : (s.phase t).runnable = some k)
    (hdoes : Does s.shared k st) : Covers (s.apply t st) .notEmpty st.shared.queue.length := by
  have hmessages : Covers { s with shared := st.shared } .notEmpty s.shared.queue.length := h.messages
  have htidy : Tidy { s with shared := st.shared } := ⟨h.tidy.nodup, h.tidy.mem⟩
  have hnot := fun c => h.not_woken_after (c := c) hk st
  cases hdoes with
  | tooLarge => exact hmessages.settle_keep (by simp) (hnot _ (by simp [Sorted]))
  | refused _ hclosed | ended _ hclosed => exact .of_eq_nil (h.closed hclosed _)
  -- One more message, and one more receiver is woken for it.
  | pushed hcarries =>
    have hsender : ¬ Sorted .notEmpty k := fun ⟨_, hrecv⟩ => hcarries.not_recv hrecv
    show Covers _ _ (_ ++ [_]).length
    rw [length_append]
    exact (hmessages.signal_self htidy).settle_keep (by simp) (hnot _ hsender)
  | full hcarries =>
    have hsender : ¬ Sorted .notEmpty k := fun ⟨_, hrecv⟩ => hcarries.not_recv hrecv
    exact hmessages.settle_keep (by simp) (hnot _ hsender)
  -- The message went to this receiver, which may be one of those that were woken.
  | popped hpop =>
    have hlen := congrArg length hpop
    rw [length_cons] at hlen
    exact (Covers.mono (hmessages.signal_of_ne (by decide)) (Nat.le_of_eq hlen.symm)).settle_erase
      (by simp)
  | empty hempty =>
    show Covers _ _ s.shared.queue.length
    rw [hempty]
    exact Covers.zero _ _
  -- `close` wakes everybody, so nobody is left to sleep.
  | close =>
    exact .of_eq_nil ((broadcast_waiters_of_ne _ (by decide)).trans
      (broadcast_waiters_self ..))

/-- Nobody sleeps over a slot. -/
theorem Kept.slots_apply (h : Kept s) (hk : (s.phase t).runnable = some k)
    (hdoes : Does s.shared k st) :
    Covers (s.apply t st) .notFull (maxMessages - st.shared.queue.length) := by
  have hslots : Covers { s with shared := st.shared } .notFull
    (maxMessages - s.shared.queue.length) := h.slots
  have htidy : Tidy { s with shared := st.shared } := ⟨h.tidy.nodup, h.tidy.mem⟩
  have hnot := fun c => h.not_woken_after (c := c) hk st
  cases hdoes with
  | tooLarge | empty =>
    exact hslots.settle_keep (by simp) (hnot _ (by simp [Sorted]))
  | refused _ hclosed | ended _ hclosed => exact .of_eq_nil (h.closed hclosed _)
  | pushed _ _ hroom =>
    -- the slot is taken by the sender that was woken for it, or by another
    show Covers _ _ (_ - (_ ++ [_]).length)
    rw [length_append]
    exact (Covers.mono (hslots.signal_of_ne (by decide)) (by simp; omega)).settle_erase (by simp)
  | full _ _ hfull =>
    show Covers _ _ (maxMessages - s.shared.queue.length)
    rw [Nat.sub_eq_zero_of_le hfull]
    exact Covers.zero _ _
  | @popped _ _ rest hpop =>
    have hlen := congrArg length hpop
    rw [length_cons] at hlen
    have hbounded := h.bounded
    refine (Covers.mono (hslots.signal_self htidy) ?_).settle_keep (by simp)
      (hnot _ (by simp [Sorted]))
    show maxMessages - rest.length ≤ maxMessages - s.shared.queue.length + 1
    omega
  | close => exact .of_eq_nil (broadcast_waiters_self ..)

/-- Once the queue is closed, nobody waits any more. -/
theorem Kept.closed_apply (h : Kept s) (t : τ) (hdoes : Does s.shared k st)
    (hclosed : st.shared.closed = true) (c : Cond) : (s.apply t st).waiters c = [] := by
  cases hdoes with
  | tooLarge | refused | ended => exact h.closed hclosed c
  | pushed _ hopen => cases hopen.symm.trans hclosed
  | full _ hopen => cases hopen.symm.trans hclosed
  | empty _ hopen => cases hopen.symm.trans hclosed
  | popped =>
    cases c with
    | notEmpty => exact (signal_waiters_of_ne _ (by decide)).trans (h.closed hclosed _)
    | notFull =>
      refine (signal_waiters_self ..).trans ?_
      show (s.waiters .notFull).tail = []
      rw [h.closed hclosed, tail_nil]
  | close =>
    cases c with
    | notEmpty =>
      exact (broadcast_waiters_of_ne _ (by decide)).trans (broadcast_waiters_self ..)
    | notFull => exact broadcast_waiters_self ..

theorem does_bounded (hdoes : Does q k st) (h : q.queue.length ≤ maxMessages) :
    st.shared.queue.length ≤ maxMessages := by
  cases hdoes with
  | tooLarge | refused | full | ended | empty | close => exact h
  | pushed _ _ hroom =>
    show (_ ++ [_]).length ≤ maxMessages
    rw [length_append]
    exact hroom
  | popped hpop =>
    rw [hpop] at h
    exact Nat.le_of_succ_le h

theorem Kept.step (h : Kept s) (hop : op.isWake = false)
    (hstep : Step program s op s' es) : Kept s' := by
  have htidy := h.tidy.step hop hstep
  have hsorted := h.sorted.step code_sorted hstep
  cases hstep with
  | start w hout => exact h.start hout
  | wake => exact absurd hop (by simp [Op.isWake])
  | @run t k st hk hcode =>
    have hdoes := code_inv hcode
    refine ⟨htidy, hsorted, ?_, ?_, ?_, ?_⟩
    · rw [apply_shared]
      exact does_bounded hdoes h.bounded
    · rw [apply_shared]
      exact h.messages_apply hk hdoes
    · rw [apply_shared]
      exact h.slots_apply hk hdoes
    · rw [apply_shared]
      exact h.closed_apply t hdoes

/-! ## All runs -/

/-- What a message queue does. -/
structure Correct (s : State τ Cond MsgQueue Frame) (tr : List (Event τ Call Reply Message)) :
    Prop where
  bounded : s.shared.queue.length ≤ maxMessages
  /-- One message for each `send` that completed, in that order. -/
  ordered : (puts tr).map Prod.fst = completed tr
  once : (completed tr).Nodup
  padded : ∀ m ∈ puts tr, ∃ data h, .called m.1 (.send data) ∈ tr ∧ m.2 = padded data h
  delivered : Delivered s tr
  noSleepingReceiver : ∀ t k, s.phase t = .waiting .notEmpty k → s.shared.queue ≠ [] →
    ∃ x c k', s.phase x = .woken c k'
  noSleepingSender : ∀ t k, s.phase t = .waiting .notFull k → s.shared.queue.length < maxMessages →
    ∃ x c k', s.phase x = .woken c k'

/-- A call puts at most one message, its own. -/
theorem putsOf_call (hcalls : Accounted Going Gone s tr) {w : Call} (hw : .called id w ∈ tr) :
    putsOf id tr = [] ∨ ∃ data h, w = .send data ∧ putsOf id tr = [MsgQueue.padded data h] := by
  rcases hcalls.of_called hw with ⟨k, hgoing, _⟩ | ⟨r, _, hgone⟩
  · cases w with
    | send | recv | close => exact .inl hgoing.2
  · cases w with
    | recv | close => exact .inl hgone
    | send data =>
      rcases hgone with hnil | ⟨_, hle, hput⟩
      · exact .inl hnil
      · exact .inr ⟨data, hle, rfl, hput⟩

theorem nodup_puts (hcalls : Accounted Going Gone s tr) : ((puts tr).map Prod.fst).Nodup := by
  refine nodup_iff_count_le_one.mpr fun id => ?_
  -- A call puts one message at most, and every call has its own number.
  by_cases hid : id ∈ (puts tr).map Prod.fst
  · obtain ⟨x, hx, rfl⟩ := mem_map.mp hid
    obtain ⟨w, hw, _⟩ := hcalls.exists_of_puts hx
    rw [count_puts]
    rcases putsOf_call hcalls hw with hnil | ⟨_, _, _, hput⟩
    · rw [hnil]
      exact Nat.zero_le _
    · rw [hput]
      exact Nat.le_refl _
  · rw [count_eq_zero_of_not_mem hid]
    exact Nat.zero_le _

/-- What holds at every point of a run. -/
structure Inv (s : State τ Cond MsgQueue Frame) (tr : List (Event τ Call Reply Message)) :
    Prop where
  kept : Kept s
  calls : Accounted Going Gone s tr
  delivered : Delivered s tr
  ordered : (puts tr).map Prod.fst = completed tr

theorem inv_init : Inv (init new : State τ Cond MsgQueue Frame) [] where
  kept := {
    tidy := tidy_init _
    sorted := waitsOn_init _
    bounded := Nat.zero_le _
    messages := .of_eq_nil rfl
    slots := .of_eq_nil rfl
    closed := fun _ _ => rfl }
  calls := accounted_init _
  delivered := ⟨[], [], rfl, rfl, .nil⟩
  ordered := rfl

theorem Inv.step (h : Inv s tr) (hop : op.isWake = false)
    (hstep : Step program s op s' es) : Inv s' (tr ++ es) where
  kept := h.kept.step hop hstep
  calls := h.calls.step rule hstep
  delivered := h.delivered.step h.calls hstep
  ordered := by rw [puts_append, completed_append, map_append, h.ordered, completed_step hstep]

/-- **A message queue delivers every message once and in order, and nobody sleeps over
one**, for any interleaving of calls by any tasks. -/
theorem msg_queue_correct {ops : List (Op τ Call)} (hwakes : ∀ op ∈ ops, op.isWake = false)
    (h : Reaches program new ops s tr) : Correct s tr := by
  have hinv : Inv s tr := by
    refine reaches_induction (P := fun _ op => op.isWake = false ∧ True) (I := Inv) inv_init ?_
      (along_true.and_forall hwakes) h
    exact fun hI hP hstep => hI.step hP.1 hstep
  obtain ⟨hkept, hcalls, hdelivered, hordered⟩ := hinv
  -- Who waits is in the queue, so that `Covers` has somebody who was woken.
  have hsome : ∀ {t c k}, s.phase t = .waiting c k → s.waiters c ≠ [] := fun hwait =>
    ne_nil_of_mem ((hkept.tidy.mem _ _).mpr ⟨_, hwait⟩)
  refine ⟨hkept.bounded, hordered, hordered ▸ nodup_puts hcalls, fun m hm => ?_, hdelivered,
    fun t k hwait hne => ?_, fun t k hwait hroom => ?_⟩
  · obtain ⟨w, hw, hmem⟩ := hcalls.exists_of_puts hm
    rcases putsOf_call hcalls hw with hnil | ⟨data, hle, rfl, hput⟩
    · exact absurd hnil (ne_nil_of_mem hmem)
    · rw [hput] at hmem
      exact ⟨data, hle, hw, mem_singleton.mp hmem⟩
  · obtain ⟨x, k', hx⟩ := hkept.messages.exists_woken (length_pos_iff.mpr hne) (hsome hwait)
    exact ⟨x, _, k', hx⟩
  · obtain ⟨x, k', hx⟩ := hkept.slots.exists_woken (Nat.sub_pos_of_lt hroom) (hsome hwait)
    exact ⟨x, _, k', hx⟩

/-- Tasks 0 and 1 wait, task 2 sends a message, and task 1 is left waiting when task 0 has
received three bytes of it. -/
def oneMessage : List (Op (Fin 3) Call) :=
  [.start 0 (.recv 3), .run 0, .start 1 (.recv 3), .run 1, .start 2 (.send [7, 8]), .run 2, .run 0]

/-- One message. -/
theorem msg_queue_correct_oneMessage : ∃ s tr, Reaches program new oneMessage s tr ∧
    receipts tr = [((0, 0), [7, 8, 0])] ∧ completed tr = [(2, 0)] ∧ Correct s tr := by
  obtain ⟨⟨s, tr⟩, hrun, hreceipts, hcompleted⟩ :
      ∃ x ∈ exec (traced (Monitor.step program)) (State.init new, []) oneMessage,
        receipts x.2 = [((0, 0), [7, 8, 0])] ∧ completed x.2 = [(2, 0)] := by
    decide +kernel
  exact ⟨s, tr, hrun, hreceipts, hcompleted, msg_queue_correct (by decide) hrun⟩

end AlaphiOS.Ipc.MsgQueue
