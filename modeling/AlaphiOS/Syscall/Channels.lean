import AlaphiOS.Syscall.Locks
import AlaphiOS.Ipc.Pipe
import AlaphiOS.Ipc.MsgQueue

/-!
# Spinlocks of the blocking calls

`CondVar` of `kernel/src/sync/condvar.rs`, `QueuedResource` of `kernel/src/sync/resource.rs`
and the channels of `kernel/src/ipc`, by the spinlocks they take.

`CondVar::wait` is given one guard, drops it and takes it again after `schedule`
(`outside`). So a `send` or `recv` waits without a guard of its own; what a caller of it
holds, it holds during the wait (`withLock_waits`).

Mirroring notes:
- The loops run on `fuel`.
- `signal` of both kinds and `QueuedResource::broadcast` hold the queue's guard over
  `unblock_tid`, being in a scrutinee; `CondVar::broadcast` has it in a variable.
- The methods are given a channel or a resource by its number.
-/

namespace AlaphiOS.Syscall

open Lib Lib.LockCode Ipc

/-- `pop_front` and `unblock_tid`, with the queue locked: whether there was a waiter. -/
def wakeFront : Code Bool := do
  let v ← view
  match v.popFront with
  | some tid =>
    unblockTid tid
    pure true
  | none => pure false

/-- A waiter is woken as by `unblock_tid`. -/
theorem orderly_wakeFront : Ranked wakeClasses wakeFront := by
  refine .view fun v => ?_
  split
  · exact (orderly_unblockTid _).bind fun _ => .pure true
  · exact .pure false

/-! ## `CondVar` -/

namespace CondVar

/-- `wait`, on a condition variable of the channel, with the guard of its buffer. -/
def wait (ch : Nat) (c : Cond) : Code Unit := do
  let currTid ← currentTid
  withLock (.waiters ch c) heapCalls
  markBlocked currTid
  outside (.buf ch) do
    await
    schedule

/-- `signal`. -/
def signal (ch : Nat) (c : Cond) : Code Unit :=
  withLock (.waiters ch c) do
    let _ ← wakeFront

/-- `broadcast`. -/
def broadcast (fuel ch : Nat) (c : Cond) : Code Unit :=
  withLock (.waiters ch c) <| loop fuel (fun _ => do
    if ← wakeFront then pure (.inl ()) else pure (.inr ())) ()

end CondVar

/-- What the channels take next to their buffer. -/
def signalClasses : List LockClass := .waiters :: wakeClasses

/-- `signal` wakes under the guard of the queue. -/
theorem orderly_signal (ch : Nat) (c : Cond) : Ranked signalClasses (CondVar.signal ch c) :=
  .withLock rfl (.bind (orderly_wakeFront.mono rfl) fun _ => .pure ())

/-- So does `broadcast`. -/
theorem orderly_broadcast (fuel ch : Nat) (c : Cond) :
    Ranked signalClasses (CondVar.broadcast fuel ch c) := by
  refine .withLock rfl (Orderly.loop (fun _ => ?_) fuel ())
  refine .bind (orderly_wakeFront.mono rfl) fun more => ?_
  split <;> exact .pure _

/-- What a channel takes at all. -/
def channelClasses : List LockClass := .buf :: .closed :: .waiters :: userClasses

/-- `wait` is entered with the buffer's guard and waits without it. -/
theorem orderly_condVar_wait (ch : Nat) (c : Cond) :
    Orderly lockOrder (some []) [.buf ch] channelClasses (CondVar.wait ch c) := by
  have hqueue : Ranked signalClasses (withLock (.waiters ch c) heapCalls) :=
    .withLock rfl (orderly_heapCalls.mono rfl)
  refine .bind (orderly_currentTid.under rfl rfl) fun currTid => ?_
  refine .bind (hqueue.under rfl rfl) fun _ => ?_
  refine .bind ((orderly_markBlocked currTid).under rfl rfl) fun _ => ?_
  exact .outside rfl (.bind .await fun _ => orderly_schedule.waits rfl)

/-! ## `QueuedResource` -/

namespace QueuedResource

/-- The block of `lock` that is under `state`: whether it has the mutex. -/
def tryTake (r currTid : Nat) : Code Bool :=
  withLock (.state r) do
    let v ← view
    if v.locked r then
      heapCalls
      markBlocked currTid
      pure false
    else pure true

/-- `lock`. -/
def lock (fuel r : Nat) : Code Unit :=
  loop fuel (fun _ => do
    let currTid ← currentTid
    if ← tryTake r currTid then pure (.inr ())
    else
      await
      schedule
      pure (.inl ())) ()

/-- `try_lock`. -/
def tryLock (r : Nat) : Code Bool :=
  withLock (.state r) do
    let v ← view
    pure (!v.locked r)

/-- `unlock`. -/
def unlock (r : Nat) : Code Unit := do
  let waiter ← withLock (.state r) do
    let v ← view
    pure v.popFront
  match waiter with
  | some tid => unblockTid tid
  | none => pure ()

/-- `wait`. -/
def wait (fuel r : Nat) : Code Unit := do
  let currTid ← currentTid
  withLock (.condWaiters r) heapCalls
  markBlocked currTid
  unlock r
  await
  schedule
  lock fuel r

/-- `signal`. -/
def signal (r : Nat) : Code Unit :=
  withLock (.condWaiters r) do
    let _ ← wakeFront

/-- `broadcast`. -/
def broadcast (fuel r : Nat) : Code Unit :=
  loop fuel (fun _ => do
    if ← withLock (.condWaiters r) wakeFront then pure (.inl ()) else pure (.inr ())) ()

end QueuedResource

/-- What a resource takes. -/
def resourceClasses : List LockClass := .state :: .condWaiters :: wakeClasses

/-- The caller is marked as blocked under `state`. -/
theorem orderly_tryTake (r currTid : Nat) :
    Ranked resourceClasses (QueuedResource.tryTake r currTid) := by
  refine .withLock rfl (.view fun v => ?_)
  split
  · exact .bind (orderly_heapCalls.mono rfl) fun _ =>
      .bind ((orderly_markBlocked currTid).mono rfl) fun _ => .pure false
  · exact .pure true

/-- `try_lock` takes `state` alone. -/
theorem orderly_tryLock (r : Nat) : Ranked resourceClasses (QueuedResource.tryLock r) :=
  .withLock rfl (.view fun _ => .pure _)

/-- `unlock` lets `state` go before it wakes a task. -/
theorem orderly_unlock (r : Nat) : Ranked resourceClasses (QueuedResource.unlock r) := by
  refine .bind (.withLock rfl (.view fun _ => .pure _)) fun waiter => ?_
  split
  · exact (orderly_unblockTid _).mono rfl
  · exact .pure ()

/-- `signal` wakes under the guard of the queue. -/
theorem orderly_resource_signal (r : Nat) : Ranked resourceClasses (QueuedResource.signal r) :=
  .withLock rfl (.bind (orderly_wakeFront.mono rfl) fun _ => .pure ())

/-- `broadcast` takes the guard anew for every waiter. -/
theorem orderly_resource_broadcast (fuel r : Nat) :
    Ranked resourceClasses (QueuedResource.broadcast fuel r) := by
  refine Orderly.loop (fun _ => ?_) fuel ()
  refine .bind (.withLock rfl (orderly_wakeFront.mono rfl)) fun more => ?_
  split <;> exact .pure _

/-- `lock` holds nothing when it waits. -/
theorem orderly_lock (fuel r : Nat) : Blocks resourceClasses (QueuedResource.lock fuel r) := by
  refine Orderly.loop (fun _ => .bind (orderly_currentTid.waits rfl) fun currTid => ?_) fuel ()
  refine .bind ((orderly_tryTake r currTid).waits rfl) fun acquired => ?_
  split
  · exact .pure _
  · exact .bind .await fun _ => .bind (orderly_schedule.waits rfl) fun _ => .pure _

/-- Nor does `wait`, which ends with a `lock`. -/
theorem orderly_resource_wait (fuel r : Nat) :
    Blocks resourceClasses (QueuedResource.wait fuel r) := by
  have hqueue : Ranked resourceClasses (withLock (.condWaiters r) heapCalls) :=
    .withLock rfl (orderly_heapCalls.mono rfl)
  refine .bind (orderly_currentTid.waits rfl) fun currTid => .bind (hqueue.waits rfl) fun _ => ?_
  refine .bind ((orderly_markBlocked currTid).waits rfl) fun _ => ?_
  refine .bind ((orderly_unlock r).waits rfl) fun _ => .bind .await fun _ => ?_
  exact .bind (orderly_schedule.waits rfl) fun _ => orderly_lock fuel r

/-! ## Channels -/

/-- `*self.closed.lock()`. -/
def isClosed (ch : Nat) : Code Bool :=
  withLock (.closed ch) do
    let v ← view
    pure (v.closed ch)

namespace Pipe

/-- `send`, of `len` bytes. -/
def send (fuel ch len : Nat) : Code (Except IpcError Unit) :=
  withLock (.buf ch) <| loop fuel (fun bytesWritten => do
    if bytesWritten < len then
      if ← isClosed ch then pure (.inr (.error .closed))
      else
        let v ← view
        match usizeSub pipeBuf (v.len ch) with
        | none => stop
        | some 0 =>
          CondVar.wait ch .notFull
          pure (.inl bytesWritten)
        | some availableSpace =>
          let toWrite := min (len - bytesWritten) availableSpace
          userMemory
          heapCalls
          CondVar.signal ch .notEmpty
          pure (.inl (bytesWritten + toWrite))
    else pure (.inr (.ok ()))) 0

/-- The `while` of `recv`: whether it ends with bytes in the buffer. -/
def awaitBytes (fuel ch : Nat) : Code Bool :=
  loop fuel (fun _ => do
    let v ← view
    if v.len ch = 0 then
      if ← isClosed ch then pure (.inr false)
      else
        CondVar.wait ch .notEmpty
        pure (.inl ())
    else pure (.inr true)) ()

/-- `recv`, into `len` bytes. -/
def recv (fuel ch len : Nat) : Code (Except IpcError Nat) :=
  withLock (.buf ch) do
    if ← awaitBytes fuel ch then
      let v ← view
      let toRead := min len (v.len ch)
      userMemory
      if toRead > 0 then CondVar.signal ch .notFull
      pure (.ok toRead)
    else pure (.ok 0)

end Pipe

namespace MsgQueue

/-- `send`, of `len` bytes. -/
def send (fuel ch len : Nat) : Code (Except IpcError Unit) := do
  if len > msgSize then pure (.error .tooLarge)
  else
    userMemory
    withLock (.buf ch) <| loop fuel (fun _ => do
      if ← isClosed ch then pure (.inr (.error .closed))
      else
        let v ← view
        if v.len ch < maxMessages then
          heapCalls
          CondVar.signal ch .notEmpty
          pure (.inr (.ok ()))
        else
          CondVar.wait ch .notFull
          pure (.inl ())) ()

/-- `recv`, into `len` bytes. -/
def recv (fuel ch len : Nat) : Code (Except IpcError Nat) :=
  withLock (.buf ch) <| loop fuel (fun _ => do
    let v ← view
    if v.len ch > 0 then
      userMemory
      CondVar.signal ch .notFull
      pure (.inr (.ok (min len msgSize)))
    else if ← isClosed ch then pure (.inr (.ok 0))
    else
      CondVar.wait ch .notEmpty
      pure (.inl ())) ()

end MsgQueue

/-- `close`, which `Pipe` and `MsgQueue` have alike. -/
def closeChannel (fuel ch : Nat) : Code Unit :=
  withLock (.buf ch) do
    withLock (.closed ch) (pure ())
    CondVar.broadcast fuel ch .notEmpty
    CondVar.broadcast fuel ch .notFull

namespace Channel

/-- `send`, by the kind of the channel. -/
def send (fuel : Nat) : Channel → Nat → Code (Except IpcError Unit)
  | pipe ch, len => Pipe.send fuel ch len
  | msgQueue ch, len => MsgQueue.send fuel ch len
  | sharedMem, _ => pure (.error .wouldBlock)

/-- `recv`, by the kind of the channel. -/
def recv (fuel : Nat) : Channel → Nat → Code (Except IpcError Nat)
  | pipe ch, len => Pipe.recv fuel ch len
  | msgQueue ch, len => MsgQueue.recv fuel ch len
  | sharedMem, _ => pure (.error .wouldBlock)

/-- `close`, by the kind of the channel. -/
def close (fuel : Nat) : Channel → Code Unit
  | pipe ch => closeChannel fuel ch
  | msgQueue ch => closeChannel fuel ch
  | sharedMem => pure ()

end Channel

/-- `close` locks one queue after the other. -/
theorem orderly_close (fuel : Nat) (ch : Channel) : Ranked channelClasses (ch.close fuel) := by
  have hclose (ch : Nat) : Ranked channelClasses (closeChannel fuel ch) :=
    .withLock rfl <| .bind (.withLock rfl (.pure ())) fun _ =>
      .bind ((orderly_broadcast fuel ch .notEmpty).mono rfl) fun _ =>
        (orderly_broadcast fuel ch .notFull).mono rfl
  cases ch with
  | pipe ch => exact hclose ch
  | msgQueue ch => exact hclose ch
  | sharedMem => exact .pure ()

/-- The flag is read under the buffer's guard. -/
theorem orderly_isClosed (ch : Nat) :
    Orderly lockOrder (some []) [.buf ch] channelClasses (isClosed ch) := by
  have hquiet : Ranked [.closed] (isClosed ch) :=
    .withLock rfl (.view fun _ => .pure _)
  exact hquiet.under rfl rfl

/-- `signal` under the buffer's guard. -/
theorem orderly_signal_buf (ch : Nat) (c : Cond) :
    Orderly lockOrder (some []) [.buf ch] channelClasses (CondVar.signal ch c) :=
  (orderly_signal ch c).under rfl rfl

/-- User memory under the buffer's guard. -/
theorem orderly_userMemory_buf (ch : Nat) :
    Orderly lockOrder (some []) [.buf ch] channelClasses userMemory :=
  orderly_userMemory.under rfl rfl

/-- The heap under the buffer's guard. -/
theorem orderly_heapCalls_buf (ch : Nat) :
    Orderly lockOrder (some []) [.buf ch] channelClasses heapCalls :=
  orderly_heapCalls.under rfl rfl

/-- A `send` that waits for room holds no guard of its own. -/
theorem orderly_pipe_send (fuel ch len : Nat) : Blocks channelClasses (Pipe.send fuel ch len) := by
  refine .withGuard rfl (Orderly.loop (fun bytesWritten => ?_) fuel 0)
  split
  · refine .bind (orderly_isClosed ch) fun closed => ?_
    split
    · exact .pure _
    · refine .view fun v => ?_
      split
      · exact .stop
      · exact .bind (orderly_condVar_wait ch .notFull) fun _ => .pure _
      · exact .bind (orderly_userMemory_buf ch) fun _ => .bind (orderly_heapCalls_buf ch) fun _ =>
          .bind (orderly_signal_buf ch .notEmpty) fun _ => .pure _
  · exact .pure _

/-- The wait for bytes is entered with the buffer's guard. -/
theorem orderly_awaitBytes (fuel ch : Nat) :
    Orderly lockOrder (some []) [.buf ch] channelClasses (Pipe.awaitBytes fuel ch) := by
  refine Orderly.loop (fun _ => .view fun v => ?_) fuel ()
  split
  · refine .bind (orderly_isClosed ch) fun closed => ?_
    split
    · exact .pure _
    · exact .bind (orderly_condVar_wait ch .notEmpty) fun _ => .pure _
  · exact .pure _

/-- A `recv` that waits holds no guard of its own. -/
theorem orderly_pipe_recv (fuel ch len : Nat) : Blocks channelClasses (Pipe.recv fuel ch len) := by
  refine .withGuard rfl (.bind (orderly_awaitBytes fuel ch) fun ready => ?_)
  split
  · refine .view fun v => .bind (orderly_userMemory_buf ch) fun _ => ?_
    split
    · exact .bind (orderly_signal_buf ch .notFull) fun _ => .pure _
    · exact .pure _
  · exact .pure _

/-- The same of `send` on a message queue. -/
theorem orderly_msgQueue_send (fuel ch len : Nat) :
    Blocks channelClasses (MsgQueue.send fuel ch len) := by
  unfold MsgQueue.send
  split
  · exact .pure _
  · refine .bind (orderly_userMemory.waits rfl) fun _ =>
      .withGuard rfl (Orderly.loop (fun _ => ?_) fuel ())
    refine .bind (orderly_isClosed ch) fun closed => ?_
    split
    · exact .pure _
    · refine .view fun v => ?_
      split
      · exact .bind (orderly_heapCalls_buf ch) fun _ =>
          .bind (orderly_signal_buf ch .notEmpty) fun _ => .pure _
      · exact .bind (orderly_condVar_wait ch .notFull) fun _ => .pure _

/-- The same of `recv` on a message queue. -/
theorem orderly_msgQueue_recv (fuel ch len : Nat) :
    Blocks channelClasses (MsgQueue.recv fuel ch len) := by
  refine .withGuard rfl (Orderly.loop (fun _ => .view fun v => ?_) fuel ())
  split
  · exact .bind (orderly_userMemory_buf ch) fun _ =>
      .bind (orderly_signal_buf ch .notFull) fun _ => .pure _
  · refine .bind (orderly_isClosed ch) fun closed => ?_
    split
    · exact .pure _
    · exact .bind (orderly_condVar_wait ch .notEmpty) fun _ => .pure _

/-- `send` on any channel. -/
theorem orderly_send (fuel : Nat) (ch : Channel) (len : Nat) :
    Blocks channelClasses (ch.send fuel len) := by
  cases ch with
  | pipe ch => exact orderly_pipe_send fuel ch len
  | msgQueue ch => exact orderly_msgQueue_send fuel ch len
  | sharedMem => exact .pure _

/-- `recv` on any channel. -/
theorem orderly_recv (fuel : Nat) (ch : Channel) (len : Nat) :
    Blocks channelClasses (ch.recv fuel len) := by
  cases ch with
  | pipe ch => exact orderly_pipe_recv fuel ch len
  | msgQueue ch => exact orderly_msgQueue_recv fuel ch len
  | sharedMem => exact .pure _

end AlaphiOS.Syscall
