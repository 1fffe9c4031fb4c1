import AlaphiOS.Ipc.Channel
import AlaphiOS.Lib.Bytes

/-!
# Message queues

`kernel/src/ipc/msg_queue.rs`: at most 128 messages of 256 bytes. `Does` lists what a
stretch can do, and `rule` says what one call puts into the queue.

Mirroring notes:
- `recv` returns `Ok(0)` for a message received into an empty slice as well as for a
  closed and empty queue. `Reply.received` and `Reply.ended` tell them apart.
- `send` rejects what is too long before it takes the lock; the stretch that does so
  reads nothing of the queue.
-/

namespace AlaphiOS.Ipc

open Lib Lib.Monitor

/-- `MSG_SIZE`. -/
def msgSize : Nat := 256

/-- `MAX_MESSAGES`. -/
def maxMessages : Nat := 128

abbrev Message := Block msgSize

/-- `MsgQueue`. -/
structure MsgQueue where
  queue : List Message
  closed : Bool

namespace MsgQueue

def new : MsgQueue := ⟨[], false⟩

/-- What a call knows between two stretches. -/
inductive Frame where
  | send (data : List UInt8)
  /-- In the loop of `send`, behind a `wait`. -/
  | sending (msg : Message)
  | recv (len : Nat)
  | close
  deriving DecidableEq

/-- What a call returns. -/
inductive Reply where
  | sent (result : Except IpcError Unit)
  /-- A message was taken out, and these bytes of it were copied. -/
  | received (bytes : List UInt8)
  /-- Closed, and nothing was left. -/
  | ended
  | closed

abbrev Outcome := Stretch Cond MsgQueue Frame Reply Message

/-- The data with zeros behind it. -/
def padded (data : List UInt8) (h : data.length ≤ msgSize) : Message :=
  ⟨data ++ List.replicate (msgSize - data.length) 0, by
    rw [List.length_append, List.length_replicate]
    omega⟩

/-- A turn of the loop of `send`. -/
def sendLoop (msg : Message) (q : MsgQueue) : Outcome :=
  if q.closed then ⟨q, [], [], .ret (.sent (.error .closed))⟩
  else if q.queue.length < maxMessages then
    ⟨{ q with queue := q.queue ++ [msg] }, [msg], [.signal .notEmpty], .ret (.sent (.ok ()))⟩
  else ⟨q, [], [], .wait .notFull (.sending msg)⟩

/-- `send`. -/
def send (data : List UInt8) (q : MsgQueue) : Outcome :=
  if h : data.length ≤ msgSize then sendLoop (padded data h) q
  else ⟨q, [], [], .ret (.sent (.error .tooLarge))⟩

/-- `recv`. -/
def recv (len : Nat) (q : MsgQueue) : Outcome :=
  match q.queue with
  | msg :: rest =>
    let toRead := min len msgSize
    ⟨{ q with queue := rest }, [], [.signal .notFull], .ret (.received (msg.1.take toRead))⟩
  | [] =>
    if q.closed then ⟨q, [], [], .ret .ended⟩
    else ⟨q, [], [], .wait .notEmpty (.recv len)⟩

/-- `close`. -/
def close (q : MsgQueue) : Outcome :=
  ⟨{ q with closed := true }, [], [.broadcast .notEmpty, .broadcast .notFull], .ret .closed⟩

/-- `impl IpcChannel for MsgQueue`. -/
def program : Program Cond MsgQueue Frame Call Reply Message where
  enter
    | .send data => .send data
    | .recv len => .recv len
    | .close => .close
  code
    | .send data, q => some (send data q)
    | .sending msg, q => some (sendLoop msg q)
    | .recv len, q => some (recv len q)
    | .close, q => some (close q)

/-! ## Stretches -/

/-- The call has this message to send. -/
def Frame.Carries : Frame → Message → Prop
  | .send data, msg => ∃ h, msg = padded data h
  | .sending msg', msg => msg = msg'
  | .recv _, _ | .close, _ => False

/-- What a stretch can be. -/
inductive Does (q : MsgQueue) : Frame → Outcome → Prop
  | tooLarge {data : List UInt8} (h : msgSize < data.length) :
      Does q (.send data) ⟨q, [], [], .ret (.sent (.error .tooLarge))⟩
  | refused {k : Frame} {msg : Message} (hk : k.Carries msg) (hclosed : q.closed = true) :
      Does q k ⟨q, [], [], .ret (.sent (.error .closed))⟩
  | pushed {k : Frame} {msg : Message} (hk : k.Carries msg) (hopen : q.closed = false)
      (hroom : q.queue.length < maxMessages) :
      Does q k ⟨{ q with queue := q.queue ++ [msg] }, [msg], [.signal .notEmpty],
        .ret (.sent (.ok ()))⟩
  | full {k : Frame} {msg : Message} (hk : k.Carries msg) (hopen : q.closed = false)
      (hfull : maxMessages ≤ q.queue.length) : Does q k ⟨q, [], [], .wait .notFull (.sending msg)⟩
  | popped {len : Nat} {msg : Message} {rest : List Message} (h : q.queue = msg :: rest) :
      Does q (.recv len) ⟨{ q with queue := rest }, [], [.signal .notFull],
        .ret (.received (msg.1.take (min len msgSize)))⟩
  | ended {len : Nat} (h : q.queue = []) (hclosed : q.closed = true) :
      Does q (.recv len) ⟨q, [], [], .ret .ended⟩
  | empty {len : Nat} (h : q.queue = []) (hopen : q.closed = false) :
      Does q (.recv len) ⟨q, [], [], .wait .notEmpty (.recv len)⟩
  | close : Does q .close ⟨{ q with closed := true }, [], [.broadcast .notEmpty, .broadcast .notFull],
      .ret .closed⟩

variable {q : MsgQueue} {k : Frame} {st : Outcome}

/-- The loop of `send`. -/
theorem does_sendLoop {msg : Message} (hk : k.Carries msg) : Does q k (sendLoop msg q) := by
  unfold sendLoop
  split
  next hclosed => exact .refused hk hclosed
  next hopen =>
    have hopen := Bool.eq_false_iff.mpr hopen
    split
    next hroom => exact .pushed hk hopen hroom
    next hfull => exact .full hk hopen (Nat.not_lt.mp hfull)

/-- `recv`. -/
theorem does_recv (len : Nat) : Does q (.recv len) (recv len q) := by
  unfold recv
  split
  next h => exact .popped h
  next h =>
    split
    next hclosed => exact .ended h hclosed
    next hopen => exact .empty h (Bool.eq_false_iff.mpr hopen)

/-- Every stretch is one of these. -/
theorem code_inv (h : program.code k q = some st) : Does q k st := by
  cases k with
  | send data =>
    obtain rfl : send data q = st := Option.some.inj h
    unfold send
    split
    next hle => exact does_sendLoop ⟨hle, rfl⟩
    next hlt => exact .tooLarge (Nat.not_le.mp hlt)
  | sending msg =>
    obtain rfl : sendLoop msg q = st := Option.some.inj h
    exact does_sendLoop rfl
  | recv len =>
    obtain rfl : recv len q = st := Option.some.inj h
    exact does_recv len
  | close =>
    obtain rfl : close q = st := Option.some.inj h
    exact .close

/-! ## One call -/

/-- What a call knows while it goes on: it has put nothing so far. -/
def Going : Call → Frame → List Message → Prop
  | .send data, k, es => (k = .send data ∨ ∃ h, k = .sending (padded data h)) ∧ es = []
  | w, k, es => k = program.enter w ∧ es = []

/-- What a call has put when it returns: a `send` that was successful its message. -/
def Gone : Call → Reply → List Message → Prop
  | .send data, r, es => es = [] ∨ r = .sent (.ok ()) ∧ ∃ h, es = [padded data h]
  | _, _, es => es = []

/-- What a `send` waits with is its message. -/
theorem Going.carries {data : List UInt8} {es : List Message} {msg : Message}
    (h : Going (.send data) k es) (hk : k.Carries msg) : ∃ h, msg = padded data h := by
  rcases h.1 with rfl | ⟨hle, rfl⟩
  · exact hk
  · exact ⟨hle, hk⟩

/-- What a call has put is what it says it sent. -/
theorem rule : Rule program Going Gone where
  enter := by
    intro w
    cases w with
    | send data => exact ⟨.inl rfl, rfl⟩
    | recv | close => exact ⟨rfl, rfl⟩
  wait := by
    intro w k es q st c k' hgoing hcode hfinish
    cases code_inv hcode with
    | tooLarge | refused | pushed | popped | ended | close => cases hfinish
    -- Only a `send` carries a message, and it waits with it.
    | full hk =>
      cases hfinish
      cases w with
      | send data =>
        obtain ⟨hle, rfl⟩ := hgoing.carries hk
        exact ⟨.inr ⟨hle, rfl⟩, by rw [hgoing.2]; rfl⟩
      | recv | close =>
        obtain ⟨rfl, _⟩ := hgoing
        exact absurd hk id
    -- Only a `recv` waits for one.
    | empty =>
      cases hfinish
      cases w with
      | send data => exact absurd hgoing.1 (by simp)
      | recv | close => exact ⟨hgoing.1, by rw [hgoing.2]; rfl⟩
  ret := by
    intro w k es q st r hgoing hcode hfinish
    have hnil : es = [] := by
      cases w with
      | send | recv | close => exact hgoing.2
    rw [hnil, List.nil_append]
    cases code_inv hcode with
    | full | empty => cases hfinish
    | pushed hk =>
      cases hfinish
      cases w with
      | send data =>
        obtain ⟨hle, rfl⟩ := hgoing.carries hk
        exact .inr ⟨rfl, hle, rfl⟩
      | recv | close =>
        obtain ⟨rfl, _⟩ := hgoing
        exact absurd hk id
    | tooLarge | refused | popped | ended | close =>
      cases w with
      | send => exact .inl rfl
      | recv | close => rfl

end MsgQueue

end AlaphiOS.Ipc
