import AlaphiOS.Lib.LockOrder
import AlaphiOS.Sched.Mlfq
import AlaphiOS.Fs.Vfs
import AlaphiOS.Ipc.Channel

/-!
# Spinlocks on the kernel's paths

Which spinlocks the kernel's own functions take, in which order, and with which guards
still alive: `kernel/src/scheduler/mod.rs`, `kernel/src/scheduler/mlfq.rs`,
`kernel/src/process/lifecycle.rs`, `kernel/src/process/table.rs` and
`page_fault_handler` of `kernel/src/arch/idt.rs`. Each function is a `LockCode`; after it
stands which classes of locks it takes, by the ranks of the classes (`lockOrder`).

Mirroring notes:
- A guard that is a temporary in the scrutinee of an `if let` or a `match` lives until the
  end of the block that is taken, one in a `let`, in the condition of an `if` or in an
  expression statement until the end of that. `withLock` is the stretch in which a guard
  is alive.
- `View` is what the code finds where it looks; whatever it decides on is read from there.
  A new view at every read stands for any state and any interleaving.
- Every use of the global allocator takes the lock of the kernel heap (`heapCalls`), and a
  use of user memory may fault (`userMemory`).
- A task is named by its tid. `SERIAL`, `SCANCODE_BUF` and `PICS` are not `Spinlock`s.
- A panic only cuts a run short; those that depend on no lock are left out.
-/

namespace AlaphiOS.Syscall

open Lib Lib.LockCode Ipc Fs
open AlaphiOS.Sched (TaskState)

/-! ## Locks -/

/-- The spinlocks, by what they protect. A channel has four, a resource two. -/
inductive Lock where
  | taskTable
  | scheduler
  | task (t : Nat)
  | heap
  | frameAllocator
  | swap
  | resourceTable
  | state (r : Nat)
  | condWaiters (r : Nat)
  | ipcTable
  | shmRegistry
  /-- `buf` of a `Pipe`, `queue` of a `MsgQueue`. -/
  | buf (ch : Nat)
  | closed (ch : Nat)
  | waiters (ch : Nat) (c : Cond)
  | fs
  | console
  | deviceTable
  | accessControl
  deriving DecidableEq

/-- The locks of one kind, whatever their number. -/
inductive LockClass where
  | taskTable
  | scheduler
  | task
  | heap
  | frameAllocator
  | swap
  | resourceTable
  | state
  | condWaiters
  | ipcTable
  | shmRegistry
  | buf
  | closed
  | waiters
  | fs
  | console
  | deviceTable
  | accessControl
  deriving DecidableEq

/-- The class of a lock. -/
def Lock.cls : Lock → LockClass
  | .taskTable => .taskTable
  | .scheduler => .scheduler
  | .task _ => .task
  | .heap => .heap
  | .frameAllocator => .frameAllocator
  | .swap => .swap
  | .resourceTable => .resourceTable
  | .state _ => .state
  | .condWaiters _ => .condWaiters
  | .ipcTable => .ipcTable
  | .shmRegistry => .shmRegistry
  | .buf _ => .buf
  | .closed _ => .closed
  | .waiters _ _ => .waiters
  | .fs => .fs
  | .console => .console
  | .deviceTable => .deviceTable
  | .accessControl => .accessControl

/-- Where a class stands in the order. Most of the kernel takes locks of rising rank; for the
calls that do not, see `Dispatch`. -/
def LockClass.rank : LockClass → Nat
  | .shmRegistry => 0
  | .ipcTable => 1
  | .buf => 2
  | .closed | .resourceTable | .fs | .console | .deviceTable | .accessControl => 3
  | .state | .condWaiters | .waiters => 4
  | .taskTable => 5
  | .scheduler => 6
  | .task => 7
  | .frameAllocator => 8
  | .swap => 9
  | .heap => 10

/-- The order by rank. -/
def lockOrder : LockOrder Lock LockClass where
  cls := Lock.cls
  before a b := decide (a.rank < b.rank)
  irrefl _ := decide_eq_false (Nat.lt_irrefl _)

/-- Takes locks of these classes alone, by rising rank, and does not wait. -/
abbrev Ranked {σ α : Type} (ks : List LockClass) (c : LockCode σ Lock α) : Prop :=
  Orderly lockOrder none [] ks c

/-- The same of code that may wait, without a guard of its own. -/
abbrev Blocks {σ α : Type} (ks : List LockClass) (c : LockCode σ Lock α) : Prop :=
  Orderly lockOrder (some []) [] ks c

/-! ## What the code finds -/

/-- A channel in `IPC_TABLE`. -/
inductive Channel where
  | pipe (ch : Nat)
  | msgQueue (ch : Nat)
  | sharedMem
  deriving DecidableEq

/-- What the code reads. -/
structure View where
  /-- `current` of the scheduler. -/
  current : Option Nat
  needsReschedule : Bool
  /-- What `pick_next` finds. -/
  pickNext : Option Nat
  /-- The keys of `TASK_TABLE`. -/
  inTable : Nat → Bool
  allTids : List Nat
  pid : Nat → Nat
  state : Nat → TaskState
  parent : Nat → Option Nat
  exitCode : Nat → Option Int
  uid : Nat → Nat
  gid : Nat → Nat
  heapStart : Nat → Nat
  brk : Nat → Nat
  /-- `NEXT_TID` and `NEXT_PID`. -/
  nextTid : Nat
  nextPid : Nat
  /-- `RESOURCE_TABLE` and `IPC_TABLE`, with the next handle of the one that is locked. -/
  resource : Nat → Option Nat
  channel : Nat → Option Channel
  nextHandle : Nat
  /-- `locked` of a resource. -/
  locked : Nat → Bool
  /-- What `pop_front` finds in the queue that is locked. -/
  popFront : Option Nat
  /-- The number of bytes or messages in a channel. -/
  len : Nat → Nat
  closed : Nat → Bool
  /-- The number of times the allocator is called. -/
  heapCalls : Nat
  /-- The number of page faults on the way through a piece of user memory. -/
  faults : Nat
  /-- In a page fault: the page is in the swap, and there is a frame for it. -/
  swapped : Bool
  /-- What `handle_fault` returns. -/
  handled : Bool
  /-- Whether `from_utf8` accepts the bytes. -/
  utf8 : Bool
  /-- What the method of `LogicalFs` returns. -/
  fsResult : Except FsError Nat
  /-- What `verify_password` returns. -/
  passwordOk : Bool
  /-- What `access` returns. -/
  rights : Nat
  /-- Whether `grant`, `revoke` or `mprotect` succeeds. -/
  succeeds : Bool
  /-- What `find` of `DEVICE_TABLE` returns. -/
  device : Option Nat
  /-- Whether `DEVICE_TABLE` has this index. -/
  hasDevice : Nat → Bool
  /-- Whether there is a byte in the console. -/
  consoleReady : Bool
  /-- `rax` of the frame that `SYS_SIGRETURN` restores. -/
  savedRax : Int

/-- Code of the kernel, by its locks. -/
abbrev Code := LockCode View Lock

/-! ## The heap -/

/-- Calls of the global allocator. -/
def heapCalls : Code Unit := do
  let v ← view
  times v.heapCalls (withLock .heap (pure ()))

/-- The allocator takes the heap's lock alone. -/
theorem orderly_heapCalls : Ranked [.heap] heapCalls :=
  .view fun _ => Orderly.times (.withLock rfl (.pure ())) _

/-! ## The scheduler -/

/-- What the scheduler takes. -/
def schedClasses : List LockClass := [.scheduler, .task, .heap]

/-- `current_tid`. -/
def currentTid : Code Nat :=
  withLock .scheduler do
    let v ← view
    match v.current with
    | none => stop
    | some t => withLock (.task t) (pure t)

/-- `current_pid`. -/
def currentPid : Code Nat :=
  withLock .scheduler do
    let v ← view
    match v.current with
    | none => stop
    | some t => withLock (.task t) do
      let v ← view
      pure (v.pid t)

/-- `current_ppid`. -/
def currentPpid : Code (Option Nat) :=
  withLock .scheduler do
    let v ← view
    match v.current with
    | none => pure none
    | some t => withLock (.task t) do
      let v ← view
      pure (v.parent t)

/-- `push`, on the locked scheduler. -/
def push (t : Nat) : Code Unit := do
  withLock (.task t) (pure ())
  heapCalls

/-- `should_reschedule`, on the locked scheduler. -/
def shouldReschedule : Code Unit := do
  let v ← view
  match v.current with
  | none => pure ()
  | some t => withLock (.task t) (pure ())

/-- `prepare_switch`, on the locked scheduler. -/
def prepareSwitch : Code Unit := do
  let v ← view
  if v.needsReschedule then
    match v.pickNext with
    | none => pure ()
    | some incoming =>
      match v.current with
      | none => pure ()
      | some out =>
        withLock (.task out) (pure ())
        heapCalls
      withLock (.task incoming) (pure ())

/-- `schedule`; `preempt_count` is the number of guards. Other tasks may run in it. -/
def schedule : Code Unit := do
  let preemptCount ← heldCount
  if preemptCount > 0 then
    pure ()
  else
    withLock .scheduler shouldReschedule
    withLock .scheduler prepareSwitch

/-- `remove_current`. -/
def removeCurrent : Code Unit := withLock .scheduler heapCalls

/-- `current_tid` locks the running task under the scheduler. -/
theorem orderly_currentTid : Ranked schedClasses currentTid := by
  refine .withLock rfl (.view fun v => ?_)
  split
  · exact .stop
  · exact .withLock rfl (.pure _)

/-- So does `current_pid`. -/
theorem orderly_currentPid : Ranked schedClasses currentPid := by
  refine .withLock rfl (.view fun v => ?_)
  split
  · exact .stop
  · exact .withLock rfl (.view fun _ => .pure _)

/-- So does `current_ppid`. -/
theorem orderly_currentPpid : Ranked schedClasses currentPpid := by
  refine .withLock rfl (.view fun v => ?_)
  split
  · exact .pure none
  · exact .withLock rfl (.view fun _ => .pure _)

/-- `push` locks the task and then the heap. -/
theorem orderly_push (t : Nat) : Ranked [.task, .heap] (push t) :=
  .bind (.withLock rfl (.pure ())) fun _ => orderly_heapCalls.mono rfl

/-- `should_reschedule` locks the running task. -/
theorem orderly_shouldReschedule : Ranked [.task] shouldReschedule := by
  refine .view fun v => ?_
  split
  · exact .pure ()
  · exact .withLock rfl (.pure ())

/-- `prepare_switch` locks one task at a time. -/
theorem orderly_prepareSwitch : Ranked [.task, .heap] prepareSwitch := by
  refine .view fun v => ?_
  split
  · split
    · exact .pure ()
    · have hin (t : Nat) : Ranked [.task, .heap]
          (withLock (.task t) (pure ()) : Code Unit) :=
        .withLock rfl (.pure ())
      split
      · exact hin _
      · exact (hin _).bind fun _ => (orderly_heapCalls.mono rfl).bind fun _ => hin _
  · exact .pure ()

/-- `schedule` locks the scheduler twice, and lets it go in between. -/
theorem orderly_schedule : Ranked schedClasses schedule := by
  refine .heldCount fun n => ?_
  split
  · exact .pure ()
  · exact .bind (.withLock rfl (orderly_shouldReschedule.mono rfl))
      fun _ => .withLock rfl (orderly_prepareSwitch.mono rfl)

/-- `remove_current` may use the heap under the scheduler. -/
theorem orderly_removeCurrent : Ranked schedClasses removeCurrent :=
  .withLock rfl (orderly_heapCalls.mono rfl)

/-! ## The table -/

/-- What waking a task takes. -/
def wakeClasses : List LockClass := [.taskTable, .scheduler, .task, .heap]

/-- `spawn`. -/
def spawn (t : Nat) : Code Unit := do
  heapCalls
  withLock .taskTable do
    withLock (.task t) (pure ())
    heapCalls
  withLock .scheduler (push t)

/-- `unblock_tid`: `TASK_TABLE` is locked until the end. -/
def unblockTid (tid : Nat) : Code Unit :=
  withLock .taskTable do
    let v ← view
    if v.inTable tid then
      let woken ← withLock (.task tid) do
        let v ← view
        pure (v.state tid == .blocked)
      if woken then withLock .scheduler (push tid)

/-- The scan of `unblock_pid` and `wait`, on the locked table. -/
def findPid (pid : Nat) : List Nat → Code (Option Nat)
  | [] => pure none
  | t :: ts => do
    let v ← view
    if v.inTable t then
      let found ← withLock (.task t) do
        let v ← view
        pure (v.pid t == pid)
      if found then pure (some t) else findPid pid ts
    else findPid pid ts

/-- `all_tids` and the scan. -/
def scan (pid : Nat) : Code (Option Nat) := do
  let v ← view
  heapCalls
  findPid pid v.allTids

/-- `unblock_pid`. -/
def unblockPid (pid : Nat) : Code Unit := do
  match ← withLock .taskTable (scan pid) with
  | some tid => unblockTid tid
  | none => pure ()

/-- `mark_blocked`; `CondVar::wait`, `wait` and `wait_tid` have the same lines. -/
def markBlocked (tid : Nat) : Code Unit :=
  withLock .taskTable do
    let v ← view
    if v.inTable tid then withLock (.task tid) (pure ())

/-- `spawn` lets the table go before it locks the scheduler. -/
theorem orderly_spawn (t : Nat) : Ranked wakeClasses (spawn t) := by
  refine .bind (orderly_heapCalls.mono rfl) fun _ => .bind (.withLock rfl ?_) fun _ => ?_
  · exact .bind (.withLock rfl (.pure ())) fun _ => orderly_heapCalls.mono rfl
  · exact .withLock rfl ((orderly_push t).mono rfl)

/-- `unblock_tid` locks the scheduler under the table. -/
theorem orderly_unblockTid (tid : Nat) : Ranked wakeClasses (unblockTid tid) := by
  refine .withLock rfl (.view fun v => ?_)
  split
  · refine .bind (.withLock rfl (.view fun _ => .pure _)) fun woken => ?_
    split
    · exact .withLock rfl ((orderly_push tid).mono rfl)
    · exact .pure ()
  · exact .pure ()

/-- The scan locks one task at a time. -/
theorem orderly_findPid (pid : Nat) : ∀ ts, Ranked [.task] (findPid pid ts)
  | [] => .pure none
  | t :: ts => by
    refine .view fun v => ?_
    split
    · refine .bind (.withLock rfl (.view fun _ => .pure _)) fun found => ?_
      split
      · exact .pure _
      · exact orderly_findPid pid ts
    · exact orderly_findPid pid ts

/-- `all_tids` uses the heap. -/
theorem orderly_scan (pid : Nat) : Ranked [.task, .heap] (scan pid) :=
  .view fun v => .bind (orderly_heapCalls.mono rfl) fun _ => (orderly_findPid pid v.allTids).mono rfl

/-- `unblock_pid` lets the table go before `unblock_tid` locks it. -/
theorem orderly_unblockPid (pid : Nat) : Ranked wakeClasses (unblockPid pid) := by
  refine .bind (.withLock rfl ((orderly_scan pid).mono rfl)) fun found => ?_
  split
  · exact orderly_unblockTid _
  · exact .pure ()

/-- `mark_blocked` locks the task under the table. -/
theorem orderly_markBlocked (tid : Nat) : Ranked wakeClasses (markBlocked tid) := by
  refine .withLock rfl (.view fun v => ?_)
  split
  · exact .withLock rfl (.pure ())
  · exact .pure ()

/-! ## User memory -/

/-- What a page fault takes. -/
def userClasses : List LockClass := [.taskTable, .scheduler, .task, .frameAllocator, .swap, .heap]

/-- `handle_fault`, with the task and the frame allocator locked. -/
def handleFault : Code Bool := do
  let v ← view
  heapCalls
  if v.swapped then withLock .swap (pure ())
  pure v.handled

/-- `page_fault_handler`. -/
def pageFault : Code Unit := do
  let tid ← withLock .taskTable do
    let tid ← currentTid
    let v ← view
    pure (if v.inTable tid then some tid else none)
  match tid with
  | none => stop
  | some tid =>
    let handled ← withLock (.task tid) (withLock .frameAllocator handleFault)
    if handled then pure () else stop

/-- A piece of user memory is read or written. -/
def userMemory : Code Unit := do
  let v ← view
  times v.faults pageFault

/-- `handle_fault` takes the swap and the heap. -/
theorem orderly_handleFault : Ranked [.swap, .heap] handleFault := by
  refine .view fun v => .bind (orderly_heapCalls.mono rfl) fun _ => ?_
  split
  · exact .bind (.withLock rfl (.pure ())) fun _ => .pure _
  · exact .pure _

/-- `page_fault_handler` begins with the table, below every lock it takes. -/
theorem orderly_pageFault : Ranked userClasses pageFault := by
  refine .bind (.withLock rfl (.bind (orderly_currentTid.mono rfl) fun _ => .view fun _ => .pure _))
    fun tid => ?_
  split
  · exact .stop
  · refine .bind (.withLock rfl (.withLock rfl (orderly_handleFault.mono rfl))) fun handled => ?_
    split
    · exact .pure ()
    · exact .stop

/-- So does every use of user memory. -/
theorem orderly_userMemory : Ranked userClasses userMemory :=
  .view fun _ => Orderly.times orderly_pageFault _

/-! ## `exit`, `wait` and `wait_tid`

`await` stands before a `schedule` that a task calls in order to wait. -/

/-- `exit`. -/
def exit : Code Int := do
  let currTid ← currentTid
  let parentPid ← withLock .taskTable do
    let v ← view
    if v.inTable currTid then
      withLock (.task currTid) do
        let v ← view
        pure (v.parent currTid)
    else pure none
  match parentPid with
  | some pid => unblockPid pid
  | none => pure ()
  removeCurrent
  schedule
  stop

/-- The look of `wait` and `wait_tid` at the locked table; `find` is how they find the child. -/
def reap (find : Code (Option Nat)) : Code (Option Int) := do
  match ← find with
  | none => pure (some (-1))
  | some tid =>
    let code ← withLock (.task tid) do
      let v ← view
      pure (if v.state tid = .zombie then some ((v.exitCode tid).getD (-1)) else none)
    match code with
    | some code =>
      heapCalls
      pure (some code)
    | none => pure none

/-- The loop of `wait` and `wait_tid`. -/
def waitFor (fuel : Nat) (find : Code (Option Nat)) : Code Int := do
  let currTid ← currentTid
  loop fuel (fun _ => do
    match ← withLock .taskTable (reap find) with
    | some code => pure (.inr code)
    | none =>
      markBlocked currTid
      await
      schedule
      pure (.inl ())) ()

/-- `wait`. -/
def wait (fuel childPid : Nat) : Code Int := waitFor fuel (scan childPid)

/-- `wait_tid`. -/
def waitTid (fuel targetTid : Nat) : Code Int :=
  waitFor fuel do
    let v ← view
    pure (if v.inTable targetTid then some targetTid else none)

/-- `exit` holds nothing when it wakes the parent. -/
theorem orderly_exit : Ranked wakeClasses exit := by
  refine .bind (orderly_currentTid.mono rfl) fun currTid => .bind (.withLock rfl (.view fun v => ?_))
    fun parentPid => ?_
  · split
    · exact .withLock rfl (.view fun _ => .pure _)
    · exact .pure none
  · have hend : Ranked wakeClasses (do removeCurrent; schedule; stop : Code Int) :=
      .bind (orderly_removeCurrent.mono rfl) fun _ => .bind (orderly_schedule.mono rfl) fun _ => .stop
    split
    · exact (orderly_unblockPid _).bind fun _ => hend
    · exact hend

variable {find : Code (Option Nat)}

/-- The look takes tasks and the heap, if `find` does. -/
theorem orderly_reap (hfind : Ranked [.task, .heap] find) : Ranked [.task, .heap] (reap find) := by
  refine .bind hfind fun found => ?_
  split
  · exact .pure _
  · refine .bind (.withLock rfl (.view fun _ => .pure _)) fun code => ?_
    split
    · exact .bind (orderly_heapCalls.mono rfl) fun _ => .pure _
    · exact .pure none

/-- The loop holds nothing when it waits. -/
theorem orderly_waitFor (hfind : Ranked [.task, .heap] find)
    (fuel : Nat) : Blocks wakeClasses (waitFor fuel find) := by
  refine .bind (orderly_currentTid.waits rfl) fun currTid => Orderly.loop (fun _ => ?_) fuel ()
  have hlook : Ranked wakeClasses (withLock .taskTable (reap find)) :=
    .withLock rfl ((orderly_reap hfind).mono rfl)
  refine .bind (hlook.waits rfl) fun code => ?_
  split
  · exact .pure _
  · exact .bind ((orderly_markBlocked currTid).waits rfl) fun _ => .bind .await fun _ =>
      .bind (orderly_schedule.waits rfl) fun _ => .pure _

/-- So does `wait`. -/
theorem orderly_wait (fuel childPid : Nat) : Blocks wakeClasses (wait fuel childPid) :=
  orderly_waitFor (orderly_scan childPid) fuel

/-- So does `wait_tid`. -/
theorem orderly_waitTid (fuel targetTid : Nat) : Blocks wakeClasses (waitTid fuel targetTid) :=
  orderly_waitFor (.view fun _ => .pure _) fuel

end AlaphiOS.Syscall
