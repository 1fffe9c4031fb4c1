import AlaphiOS.Lib.Monitor

/-!
# Channels

`IpcChannel` of `kernel/src/ipc/channel.rs`, as the two channels that block implement
it. Each of them has a lock, a flag `closed` that is read and written under that lock,
and two `CondVar`s of `kernel/src/sync/condvar.rs`; it is a `Program` of `Monitor`.

Mirroring notes:
- A stretch begins where the guard is there (after `lock()` or behind `wait(guard)`) and
  ends in a `wait` or where the guard is dropped. `closed` has its own spinlock, which is
  only taken with the other one held.
- `CondVar::wait` queues the task and marks it Blocked before it drops the guard, so this
  is part of the stretch; `unblock_tid` leaves a task alone that is not Blocked.
-/

namespace AlaphiOS.Ipc

open Lib.Monitor

/-- `IpcError`. -/
inductive IpcError where
  | closed
  | wouldBlock
  | tooLarge
  deriving DecidableEq

/-- The `CondVar`s of a channel. -/
inductive Cond where
  | notEmpty
  | notFull
  deriving DecidableEq

/-- The methods of `IpcChannel`; `len` is the length of the slice to receive into. -/
inductive Call where
  | send (data : List UInt8)
  | recv (len : Nat)
  | close
  deriving DecidableEq

end AlaphiOS.Ipc
