import AlaphiOS.Sched.Mlfq

/-!
# Tasks and the paths they block on

The scheduler's users, step by step: `kernel/src/scheduler/mod.rs` (`spawn`,
`schedule`, `unblock_tid`, `unblock_pid`), `kernel/src/process/lifecycle.rs`
(`exit`, `wait`, `wait_tid`), `kernel/src/sync/resource.rs` (`QueuedResource`),
`kernel/src/sync/condvar.rs`, `SYS_KILL`, `SYS_CLONE`, `SYS_FORK` and `SYS_YIELD`
of `kernel/src/syscall/dispatch.rs`, and the timer interrupt of
`kernel/src/arch/idt.rs`.

There is one processor. A step is one stretch of code under a spinlock (a held
spinlock keeps the timer from switching tasks) or one timer interrupt; between
two steps of a task, other tasks can run. `Pc` says where a task is between two
steps.

Mirroring notes:
- The guard of `TASK_TABLE.lock().get(..)` in the scrutinee of an `if let` or
  `match` lives until the end of its body, so `unblock_tid` is one step, and so
  is `QueuedResource::signal`. `spawn` locks twice and is two steps; so is
  `schedule`, which releases `SCHEDULER` between `should_reschedule` and
  `prepare_switch`. `CondVar::wait` is entered with a spinlock held and is one
  step up to its `schedule`.
- `current_tid()` is `cpu`, the task that runs: see `Roster.Ok.runsCurrent`.
- `preempt_count()` is an argument of the steps that read it.
- `TASK_TABLE` keeps its keys sorted; `allTids` lists them that way.
- `prepare_switch` and `switch_to` are one step. With interrupts on, a timer interrupt
  can come between the two: its own `prepare_switch` then has the incoming task for the
  outgoing one, and the context of the task that runs is saved there. Such runs are not
  modelled.
- With no outgoing task nothing is saved, and that task's stack pointer is stale from
  then on (`Pc.lost`). It can be dispatched after all; what it does then is not modelled.
- A resource or condition variable that was never used is as `new()` makes it.
- `none` is a panic, or a step the task cannot take where it is.
-/

namespace AlaphiOS.Sched

open Lib Function

/-- What `wait` and `wait_tid` wait for. -/
inductive Target where
  | pid (p : Nat)
  | tid (t : Nat)
  deriving DecidableEq

/-- Where a task is between two steps: what it does next. -/
inductive Pc where
  /-- Outside all of these calls. -/
  | run
  /-- At the top of the loop of `QueuedResource::lock`. -/
  | lock (r : Nat)
  /-- In `QueuedResource::wait`, before `mark_blocked`. -/
  | condMark (r : Nat)
  /-- In `QueuedResource::wait`, before `unlock`. -/
  | condUnlock (r : Nat)
  /-- In `QueuedResource::wait`, before the first round of its `lock`. -/
  | condLock (r : Nat)
  /-- In `CondVar::wait`, before the caller's spinlock is taken again. -/
  | cvReturn (c : Nat)
  /-- At the top of the loop of `QueuedResource::broadcast`. -/
  | broadcast (r : Nat)
  /-- At the top of the loop of `wait` or `wait_tid`. -/
  | wait (target : Target)
  /-- There, before it marks itself Blocked. -/
  | waitMark (target : Target)
  /-- In `exit`, before `unblock_pid`. -/
  | exitWake (parent : Nat)
  /-- In `exit`, before `remove_current`. -/
  | exitRemove
  /-- In the loop at the end of `exit`. -/
  | halt
  /-- In `spawn`, before `push`. -/
  | spawnPush (t : Nat)
  /-- Before `unblock_tid`. -/
  | wake (t : Nat) (next : Pc)
  /-- Before `schedule`. -/
  | schedule (next : Pc)
  /-- In `schedule`, before `prepare_switch`. -/
  | prepare (next : Pc)
  /-- Nowhere: its context was not saved. -/
  | lost
  deriving DecidableEq

/-- What can be seen of a step. -/
inductive Event where
  /-- The state was set to Blocked. -/
  | blocked (t : Nat)
  /-- `unblock_tid` was called. -/
  | unblocked (t : Nat)
  /-- Put into a ready queue. -/
  | enqueued (t : Nat)
  /-- The incoming task of `prepare_switch`. -/
  | dispatched (t : Nat)
  /-- `exit` stored Zombie and the code. -/
  | exited (t : Nat) (code : Int)
  /-- `wait` or `wait_tid` returned to `t`; `child` was removed from the table. -/
  | waited (t : Nat) (child : Option Nat) (code : Int)
  deriving DecidableEq

/-- `QueuedResource`. -/
structure Resource where
  locked : Bool
  waiters : List Nat
  condWaiters : List Nat

/-- The scheduler, the tasks and where each is. -/
structure Kernel where
  tasks : Tasks
  /-- The keys of `TASK_TABLE`. -/
  inTable : Nat → Bool
  /-- `NEXT_TID`. -/
  nextTid : Nat
  /-- `NEXT_PID`. -/
  nextPid : Nat
  /-- `SCHEDULER`. -/
  sched : MlfqScheduler
  resources : Nat → Resource
  /-- The waiters of each `CondVar`. -/
  condvars : Nat → List Nat
  /-- What `try_lock` returned to each task last. -/
  tryLocked : Nat → Bool
  /-- The task that runs. -/
  cpu : Nat
  pc : Nat → Pc

namespace Kernel

/-! ## The table -/

/-- `all_tids`. -/
def allTids (k : Kernel) : List Nat := (List.range k.nextTid).filter k.inTable

/-- The scan for a pid of `unblock_pid`, `wait` and `SYS_KILL`. -/
def findPid (k : Kernel) (pid : Nat) : Option Nat :=
  k.allTids.find? fun t => (k.tasks t).pid == pid

/-- What `wait` and `wait_tid` look at. -/
def find (k : Kernel) : Target → Option Nat
  | .pid p => k.findPid p
  | .tid t => if k.inTable t then some t else none

/-- The running task goes on at `p`. -/
def goto (k : Kernel) (p : Pc) : Kernel := { k with pc := update k.pc k.cpu p }

/-- `mark_blocked`. -/
def markBlocked (k : Kernel) (t : Nat) : Kernel × List Event :=
  if k.inTable t then
    ({ k with tasks := update k.tasks t { k.tasks t with state := .blocked } },
      [.blocked t])
  else (k, [])

/-- `unblock_tid`. -/
def unblockTid (k : Kernel) (t : Nat) : Kernel × List Event :=
  if k.inTable t = true ∧ (k.tasks t).state = .blocked then
    let tasks := update k.tasks t { k.tasks t with state := .ready }
    ({ k with tasks := tasks, sched := k.sched.push tasks t }, [.unblocked t, .enqueued t])
  else (k, [.unblocked t])

/-- `while let Some(tid) = waiters.pop_front() { unblock_tid(tid) }`. -/
def unblockAll (k : Kernel) : List Nat → Kernel × List Event
  | [] => (k, [])
  | t :: ts =>
    let (k, es) := k.unblockTid t
    let (k, es') := k.unblockAll ts
    (k, es ++ es')

/-! ## `schedule` and the timer -/

/-- `switch_to`. -/
def switchTo (k : Kernel) (out : Option Nat) (incoming : Nat) : Kernel :=
  { k with
    pc := if out.isNone then update k.pc k.cpu .lost else k.pc
    cpu := incoming }

/-- `prepare_switch` and the switch. -/
def dispatch (k : Kernel) : Option (Kernel × List Event) := do
  let (pair, sched, tasks) ← k.sched.prepareSwitch k.tasks
  let k := { k with sched := sched, tasks := tasks }
  match pair with
  | none => some (k, [])
  | some (out, incoming) =>
    some (k.switchTo out incoming, (out.map Event.enqueued).toList ++ [.dispatched incoming])

/-- `should_reschedule`, on the locked scheduler. -/
def shouldReschedule (k : Kernel) : Kernel :=
  { k with sched := k.sched.shouldReschedule k.tasks }

/-- `timer_handler`: `tick` and `schedule`. -/
def timer (k : Kernel) (preemptCount : Nat) : Option (Kernel × List Event) := do
  let (sched, tasks) ← k.sched.tick k.tasks
  let k := { k with sched := sched, tasks := tasks }
  if preemptCount > 0 then some (k, []) else k.shouldReschedule.dispatch

/-! ## Steps inside a call -/

/-- One round of `QueuedResource::lock`. -/
def lockStep (k : Kernel) (r : Nat) : Kernel × List Event :=
  let res := k.resources r
  if res.locked then
    let k := { k with
      resources := update k.resources r { res with waiters := res.waiters ++ [k.cpu] } }
    let (k, es) := k.markBlocked k.cpu
    (k.goto (.schedule (.lock r)), es)
  else
    ({ k with resources := update k.resources r { res with locked := true } }.goto .run, [])

/-- The locked part of `unlock`; a waiter is woken in the next step. -/
def unlockStep (k : Kernel) (r : Nat) (next : Pc) : Kernel :=
  let res := k.resources r
  let k := { k with
    resources := update k.resources r
      { res with locked := false, waiters := res.waiters.tail } }
  match res.waiters with
  | [] => k.goto next
  | t :: _ => k.goto (.wake t next)

/-- `self.cond_waiters.lock().pop_front()` with `unblock_tid`, then `next`; at
`done` when there was nobody. -/
def signalStep (k : Kernel) (r : Nat) (next done : Pc) : Kernel × List Event :=
  let res := k.resources r
  match res.condWaiters with
  | [] => (k.goto done, [])
  | t :: ts =>
    let k := { k with
      resources := update k.resources r { res with condWaiters := ts } }
    let (k, es) := k.unblockTid t
    (k.goto next, es)

/-- One look of `wait` or `wait_tid` at the table. -/
def waitStep (k : Kernel) (target : Target) : Kernel × List Event :=
  match k.find target with
  | none => (k.goto .run, [.waited k.cpu none (-1)])
  | some t =>
    if (k.tasks t).state = .zombie then
      ({ k with inTable := update k.inTable t false }.goto .run,
        [.waited k.cpu (some t) ((k.tasks t).exitCode.getD (-1))])
    else (k.goto (.waitMark target), [])

/-- The next step of the running task inside its call. -/
def next (k : Kernel) (preemptCount : Nat) : Option (Kernel × List Event) :=
  match k.pc k.cpu with
  | .run | .halt | .lost => none
  | .lock r | .condLock r => some (k.lockStep r)
  | .condMark r =>
    let (k, es) := k.markBlocked k.cpu
    some (k.goto (.condUnlock r), es)
  | .condUnlock r => some (k.unlockStep r (.schedule (.condLock r)), [])
  | .cvReturn _ => some (k.goto .run, [])
  | .broadcast r => some (k.signalStep r (.broadcast r) .run)
  | .wait target => some (k.waitStep target)
  | .waitMark target =>
    let (k, es) := k.markBlocked k.cpu
    some (k.goto (.schedule (.wait target)), es)
  | .exitWake parent =>
    match k.findPid parent with
    | some t => some (k.goto (.wake t .exitRemove), [])
    | none => some (k.goto .exitRemove, [])
  | .exitRemove => some ({ k with sched := k.sched.removeCurrent }.goto (.schedule .halt), [])
  | .spawnPush t =>
    some ({ k with sched := k.sched.push k.tasks t }.goto .run, [.enqueued t])
  | .wake t next =>
    let (k, es) := k.unblockTid t
    some (k.goto next, es)
  | .schedule next =>
    if preemptCount > 0 then some (k.goto next, [])
    else some (k.shouldReschedule.goto (.prepare next), [])
  | .prepare next => (k.goto next).dispatch

/-! ## Calls -/

/-- What a task can begin. -/
inductive Call where
  | lock (r : Nat)
  | tryLock (r : Nat)
  | unlock (r : Nat)
  | condWait (r : Nat)
  | signal (r : Nat)
  | broadcast (r : Nat)
  | cvWait (c : Nat)
  | cvSignal (c : Nat)
  | cvBroadcast (c : Nat)
  | wait (target : Target)
  | exit (code : Int)
  | kill (pid : Nat)
  /-- `spawn` of a `Task::new` or a `Task::new_user`. -/
  | spawn (priority : Nat) (parent : Option Nat)
  | clone (priority : Nat)
  | fork
  | yield

/-- A new task goes into the table; it is pushed in the next step. -/
def create (k : Kernel) (pid priority : Nat) (parent : Option Nat) : Kernel :=
  { k with
    tasks := update k.tasks k.nextTid ⟨pid, .ready, priority, parent, none⟩
    inTable := update k.inTable k.nextTid true
    pc := update (update k.pc k.nextTid .run) k.cpu (.spawnPush k.nextTid)
    nextTid := k.nextTid + 1 }

/-- The first step of a call. -/
def call (k : Kernel) : Call → Kernel × List Event
  | .lock r => (k.goto (.lock r), [])
  | .tryLock r =>
    let res := k.resources r
    if res.locked then ({ k with tryLocked := update k.tryLocked k.cpu false }, [])
    else ({ k with
      resources := update k.resources r { res with locked := true }
      tryLocked := update k.tryLocked k.cpu true }, [])
  | .unlock r => (k.unlockStep r .run, [])
  | .condWait r =>
    let res := k.resources r
    let res := { res with condWaiters := res.condWaiters ++ [k.cpu] }
    ({ k with resources := update k.resources r res }.goto (.condMark r), [])
  | .signal r => k.signalStep r .run .run
  | .broadcast r => (k.goto (.broadcast r), [])
  | .cvWait c =>
    let k := { k with condvars := update k.condvars c (k.condvars c ++ [k.cpu]) }
    let (k, es) := k.markBlocked k.cpu
    (k.goto (.schedule (.cvReturn c)), es)
  | .cvSignal c =>
    match k.condvars c with
    | [] => (k, [])
    | t :: ts =>
      let k := { k with condvars := update k.condvars c ts }
      let (k, es) := k.unblockTid t
      (k.goto .run, es)
  | .cvBroadcast c =>
    let waiters := k.condvars c
    let k := { k with condvars := update k.condvars c [] }
    let (k, es) := k.unblockAll waiters
    (k.goto .run, es)
  | .wait target => (k.goto (.wait target), [])
  | .exit code =>
    if k.inTable k.cpu then
      let task := k.tasks k.cpu
      let tasks := update k.tasks k.cpu { task with state := .zombie, exitCode := some code }
      ({ k with tasks := tasks }.goto (match task.parent with
        | some pid => .exitWake pid
        | none => .exitRemove), [.exited k.cpu code])
    else (k.goto .exitRemove, [])
  | .kill pid =>
    match k.findPid pid with
    | some t => if (k.tasks t).state = .blocked then (k.goto (.wake t .run), []) else (k, [])
    | none => (k, [])
  | .spawn priority parent =>
    ({ k with nextPid := k.nextPid + 1 }.create k.nextPid priority parent, [])
  | .clone priority =>
    if k.inTable k.cpu then
      (k.create (k.tasks k.cpu).pid priority (k.tasks k.cpu).parent, [])
    else (k, [])
  | .fork =>
    if k.inTable k.cpu then
      ({ k with nextPid := k.nextPid + 1 }.create k.nextPid (k.tasks k.cpu).priority
        (some (k.tasks k.cpu).pid), [])
    else (k, [])
  | .yield => (k.goto (.schedule .run), [])

/-! ## Steps -/

/-- What can happen next. -/
inductive Op where
  /-- A timer interrupt; `preemptCount` spinlocks are held where it arrives. -/
  | timer (preemptCount : Nat)
  /-- The running task begins a call. -/
  | call (c : Call)
  /-- The running task goes on in its call. -/
  | next (preemptCount : Nat)

/-- One step of the kernel. -/
def step (k : Kernel) : Op → Option (Kernel × List Event)
  | .timer n => if k.pc k.cpu = .lost then none else k.timer n
  | .call c => if k.pc k.cpu = .run then some (k.call c) else none
  | .next n => k.next n

variable {k k' : Kernel} {es : List Event}

/-- What `next` does at each place, one case per branch of the code there. -/
inductive Next (k : Kernel) : Pc → Kernel → List Event → Prop
  | lock (r : Nat) : Next k (.lock r) (k.lockStep r).1 (k.lockStep r).2
  | condMark (r : Nat) :
      Next k (.condMark r) ((k.markBlocked k.cpu).1.goto (.condUnlock r)) (k.markBlocked k.cpu).2
  | condUnlock (r : Nat) : Next k (.condUnlock r) (k.unlockStep r (.schedule (.condLock r))) []
  | condLock (r : Nat) : Next k (.condLock r) (k.lockStep r).1 (k.lockStep r).2
  | cvReturn (c : Nat) : Next k (.cvReturn c) (k.goto .run) []
  | broadcast (r : Nat) :
      Next k (.broadcast r) (k.signalStep r (.broadcast r) .run).1 (k.signalStep r (.broadcast r) .run).2
  | wait (target : Target) : Next k (.wait target) (k.waitStep target).1 (k.waitStep target).2
  | waitMark (target : Target) :
      Next k (.waitMark target) ((k.markBlocked k.cpu).1.goto (.schedule (.wait target)))
        (k.markBlocked k.cpu).2
  | exitWake (parent t : Nat) : Next k (.exitWake parent) (k.goto (.wake t .exitRemove)) []
  | exitAlone (parent : Nat) : Next k (.exitWake parent) (k.goto .exitRemove) []
  | exitRemove :
      Next k .exitRemove ({ k with sched := k.sched.removeCurrent }.goto (.schedule .halt)) []
  | spawnPush (t : Nat) :
      Next k (.spawnPush t) ({ k with sched := k.sched.push k.tasks t }.goto .run) [.enqueued t]
  | wake (t : Nat) (next : Pc) : Next k (.wake t next) ((k.unblockTid t).1.goto next) (k.unblockTid t).2
  | scheduleLater (next : Pc) : Next k (.schedule next) (k.goto next) []
  | schedule (next : Pc) : Next k (.schedule next) (k.shouldReschedule.goto (.prepare next)) []
  | prepare (next : Pc) {k' : Kernel} {es : List Event} (h : (k.goto next).dispatch = some (k', es)) :
      Next k (.prepare next) k' es

/-- What `next` does, by the place in the code. -/
theorem next_inv {n : Nat} (h : k.next n = some (k', es)) : Next k (k.pc k.cpu) k' es := by
  have hdone : ∀ {x : Kernel × List Event}, some x = some (k', es) → x.1 = k' ∧ x.2 = es :=
    fun hx => Prod.mk.inj (Option.some.inj hx)
  unfold next at h
  -- One branch of `next` for each place.
  cases hpc : k.pc k.cpu <;> rw [hpc] at h
  case run | halt | lost => cases h
  case exitWake =>
    dsimp only at h
    split at h <;> obtain ⟨rfl, rfl⟩ := hdone h
    · exact .exitWake ..
    · exact .exitAlone _
  case schedule =>
    dsimp only at h
    split at h <;> obtain ⟨rfl, rfl⟩ := hdone h
    · exact .scheduleLater _
    · exact .schedule _
  case prepare => exact .prepare _ h
  all_goals
    obtain ⟨rfl, rfl⟩ := hdone h
    constructor

theorem timer_of_step {n : Nat} (h : k.step (.timer n) = some (k', es)) :
    k.timer n = some (k', es) := by
  dsimp only [step] at h
  split at h
  · cases h
  · exact h

/-- A call starts from `run`. -/
theorem call_of_step {c : Call} (h : k.step (.call c) = some (k', es)) :
    k.pc k.cpu = .run ∧ k' = (k.call c).1 ∧ es = (k.call c).2 := by
  dsimp only [step] at h
  split at h
  next hrun =>
    obtain ⟨rfl, rfl⟩ := Prod.mk.inj (Option.some.inj h)
    exact ⟨hrun, rfl, rfl⟩
  · cases h

/-- A switch that is due is made. -/
theorem dispatch_of_prepareSwitch {out : Option Nat} {incoming : Nat} {m' : MlfqScheduler} {ts' : Tasks}
    (h : k.sched.prepareSwitch k.tasks = some (some (out, incoming), m', ts')) :
    ∃ k' es, k.dispatch = some (k', es) ∧ k'.cpu = incoming := by
  unfold dispatch
  rw [h]
  exact ⟨_, _, rfl, rfl⟩

theorem step_of_schedule {next : Pc} (h : k.pc k.cpu = .schedule next) :
    k.step (.next 0) = some (k.shouldReschedule.goto (.prepare next), []) := by
  show k.next 0 = _
  unfold Kernel.next
  rw [h]
  rfl

theorem step_of_prepare {next : Pc} {preemptCount : Nat} (h : k.pc k.cpu = .prepare next) :
    k.step (.next preemptCount) = (k.goto next).dispatch := by
  show k.next preemptCount = _
  unfold Kernel.next
  rw [h]

/-- After `scheduler::init`: the boot task runs and one idle task is queued. -/
def boot : Kernel where
  tasks := fun t => ⟨t, if t = 1 then .running else .ready, if t = 1 then 0 else 7, none, none⟩
  inTable := fun t => t == 1 || t == 2
  nextTid := 3
  nextPid := 3
  sched := ⟨[[], [], [], [], [], [], [], [2]], rfl, some 1, 1, 0, false⟩
  resources := fun _ => ⟨false, [], []⟩
  condvars := fun _ => []
  tryLocked := fun _ => false
  cpu := 1
  pc := fun _ => .run

end Kernel

end AlaphiOS.Sched
