import AlaphiOS.Syscall.Dispatch

/-!
# The order of the kernel's spinlocks

The remaining paths of the kernel by the spinlocks they take: the timer interrupt
(`kernel/src/arch/idt.rs`, `tick` of `kernel/src/scheduler/mlfq.rs`), the reaper
(`kernel/src/memory/swap.rs`) and the delivery of signals (`kernel/src/process/signal.rs`)
that `syscall_entry` of `kernel/src/arch/syscall.rs` ends with. `Before` is the relation that
all paths together make: a lock of the one class is taken while one of the other is held.

The paths keep to the ranks of `Locks`, with three system calls that do not. `SYS_BRK` and
`SYS_FORK` take a task's lock under `FRAME_ALLOCATOR`, which a page fault takes under the task's
lock; `SYS_PIPE_CLOSE` takes `IPC_TABLE` under itself. A fourth way to a cycle are timer
interrupts that arrive under a guard: `tick` takes `SCHEDULER` there. Without these four there is
no cycle, and with any of them there is one (`locks_acyclic`).

Mirroring notes:
- Interrupts can come on every path. The kernel's own tasks run with interrupts on. System calls,
  page faults and the timer handler begin with interrupts off (`SFMask`, interrupt gates), but
  `switch_to` does not save the flag: one that is switched out goes on with the flag of whoever
  switches back to it.
- `evict_addr` locks `SWAP` for one statement, with `FRAME_ALLOCATOR` locked to the end.
- The loops run on `fuel`.
-/

namespace AlaphiOS.Syscall

open Lib Lib.LockCode

/-- What the code of this file finds besides. -/
structure KernelView extends View where
  /-- A timer interrupt arrives. -/
  interrupt : Bool
  /-- `total_ticks % BOOST_PERIOD == 0`. -/
  boosts : Bool
  /-- The tasks in the queues behind the first. -/
  queued : List Nat
  /-- The handler of the first pending signal of a task. -/
  pending : Nat → Option Nat
  /-- `free_count` of the frame allocator. -/
  freeCount : Nat
  userEntry : Nat → Nat
  /-- The sizes of a task's areas together. -/
  vsize : Nat → Nat
  /-- The pages in a task's areas that are mapped. -/
  resident : Nat → List Nat
  /-- What `read_bits` returns for a page of a task. -/
  bits : Nat → Nat → Option (Bool × Bool)
  /-- Whether `translate_addr` and `page_flags` find the page. -/
  mapped : Nat → Nat → Bool
  /-- Whether `swap_out` finds a slot. -/
  slotFree : Bool

abbrev KernelCode := LockCode KernelView Lock

/-- Code of the other files. -/
def lift {α : Type} (c : Code α) : KernelCode α := c.zoom KernelView.toView

/-- Code of the dispatcher, with interrupts. -/
theorem orderly_lift {α : Type} {w : Option (List Lock)} {ks : List LockClass} {c : Code α}
    (hc : Orderly lockOrder w [] ks c) : Orderly lockOrder w [] ks (lift c) := hc.zoom

/-! ## The timer -/

/-- `boost_priorities`, on the locked scheduler. -/
def boostPriorities : List Nat → KernelCode Unit
  | [] => lift heapCalls
  | t :: ts => do
    withLock (.task t) (pure ())
    lift heapCalls
    boostPriorities ts

/-- `tick`. -/
def tick : KernelCode Unit :=
  withLock .scheduler do
    let v ← view
    if v.boosts then boostPriorities v.queued

/-- `timer_handler`. -/
def timerHandler : KernelCode Unit := do
  tick
  lift schedule

theorem orderly_boostPriorities : ∀ ts, Ranked [.task, .heap] (boostPriorities ts)
  | [] => (orderly_lift orderly_heapCalls).mono rfl
  | _ :: ts => .bind (.withLock rfl (.pure ())) fun _ =>
    .bind ((orderly_lift orderly_heapCalls).mono rfl) fun _ => orderly_boostPriorities ts

/-- The timer takes the scheduler, then tasks. -/
theorem orderly_timerHandler : Ranked schedClasses timerHandler := by
  refine .bind (.withLock rfl (.view fun v => ?_)) fun _ => orderly_lift orderly_schedule
  split
  · exact (orderly_boostPriorities _).mono rfl
  · exact .pure ()

/-! ## Signals -/

/-- `deliver_pending_signal`. -/
def deliverPendingSignal : KernelCode Unit := do
  let tid ← lift currentTid
  let handler ← withLock .taskTable do
    let v ← view
    if v.inTable tid then
      withLock (.task tid) do
        let v ← view
        pure (v.pending tid)
    else pure none
  match handler with
  | none => pure ()
  | some 0 =>
    let _ ← lift exit
  | some _ => lift userMemory

/-- `syscall_entry`. -/
def syscallEntry (fuel nr : Nat) (a : Args) : KernelCode Unit := do
  let _ ← lift (syscallHandler fuel nr a)
  deliverPendingSignal

/-- Delivery writes to user memory. -/
theorem orderly_deliverPendingSignal : Ranked userClasses deliverPendingSignal := by
  refine .bind ((orderly_lift orderly_currentTid).mono rfl) fun tid =>
    .bind (.withLock rfl (.view fun v => ?_)) fun handler => ?_
  · split
    · exact .withLock rfl (.view fun _ => .pure _)
    · exact .pure none
  · split
    · exact .pure ()
    · exact .bind ((orderly_lift orderly_exit).mono rfl) fun _ => .pure ()
    · exact orderly_lift orderly_userMemory

/-! ## The reaper -/

/-- What `gather_candidates` notes of a task. -/
structure Usage where
  task : Nat
  vsize : Nat
  resident : List Nat

/-- `Candidate`: a task and a page of it. -/
structure Candidate where
  task : Nat
  vaddr : Nat

/-- The pages of all tasks; those of a task with more than its share first. -/
def candidates (perTask : List Usage) : List Candidate :=
  let totalVsize := perTask.foldl (fun n u => n + u.vsize) 0
  let totalResident := perTask.foldl (fun n u => n + u.resident.length) 0
  let scored : List (Int × Candidate) := perTask.flatMap fun u =>
    let share : Nat := if totalVsize > 0 then u.vsize * totalResident / totalVsize else 0
    u.resident.map fun vaddr => ((u.resident.length : Int) - share, ⟨u.task, vaddr⟩)
  (scored.mergeSort fun a b => decide (b.1 ≤ a.1)).map Prod.snd

/-- The loop of `gather_candidates` over the tasks. -/
def gatherTasks : List Nat → KernelCode (List Usage)
  | [] => pure []
  | t :: ts => do
    let usage ← withLock (.task t) do
      let v ← view
      if v.userEntry t = 0 then pure none
      else
        lift heapCalls
        pure (some ⟨t, v.vsize t, v.resident t⟩)
    match usage with
    | none => gatherTasks ts
    | some u =>
      lift heapCalls
      let us ← gatherTasks ts
      pure (u :: us)

/-- `gather_candidates`. -/
def gatherCandidates : KernelCode (List Candidate) := do
  let tids ← withLock .taskTable do
    let v ← view
    lift heapCalls
    pure (v.allTids.filter v.inTable)
  let perTask ← gatherTasks tids
  lift heapCalls
  pure (candidates perTask)

/-- `evict_addr`, with the task locked. -/
def evictAddr (t vaddr : Nat) : KernelCode Bool := do
  let v ← view
  if v.mapped t vaddr then
    withLock .frameAllocator do
      let slot ← withLock .swap do
        let v ← view
        pure v.slotFree
      if slot then
        lift heapCalls
        pure true
      else pure false
  else pure false

/-- `FRAME_ALLOCATOR.lock().free_count()`. -/
def freeCount : KernelCode Nat :=
  withLock .frameAllocator do
    let v ← view
    pure v.freeCount

/-- What `reap_to` counts: the pages it has evicted, and whether there was one in this round. -/
structure Reaped where
  reaped : Nat
  progress : Bool

/-- Whether a sweep takes a page with these bits. -/
def takes (sweep : Nat) (accessed dirty : Bool) : Bool :=
  match sweep with
  | 0 => !accessed && !dirty
  | 1 => !accessed
  | _ => true

/-- One page in a sweep of `reap_to`; `inr` leaves the sweeps. -/
def tryPage (targetFree sweep : Nat) (c : Candidate) (r : Reaped) :
    KernelCode (Reaped ⊕ Reaped) := do
  let v ← view
  match v.bits c.task c.vaddr with
  | none => pure (.inl r)
  | some (accessed, dirty) =>
    if takes sweep accessed dirty then
      if ← withLock (.task c.task) (evictAddr c.task c.vaddr) then
        let r : Reaped := ⟨r.reaped + 1, true⟩
        if (← freeCount) ≥ targetFree then pure (.inr r) else pure (.inl r)
      else pure (.inl r)
    else pure (.inl r)

/-- The sweeps, as one loop over the sweeps and pages. -/
def sweepPages (targetFree : Nat) : List (Nat × Candidate) → Reaped → KernelCode Reaped
  | [], r => pure r
  | (sweep, c) :: rest, r => do
    match ← tryPage targetFree sweep c r with
    | .inl r => sweepPages targetFree rest r
    | .inr r => pure r

/-- `reap_to`. -/
def reapTo (fuel targetFree : Nat) : KernelCode Nat :=
  loop fuel (fun reaped => do
    if (← freeCount) ≥ targetFree then pure (.inr reaped)
    else
      let cs ← gatherCandidates
      if cs.isEmpty then pure (.inr reaped)
      else
        let sweeps := (List.range 3).flatMap fun sweep => cs.map fun c => (sweep, c)
        let r ← sweepPages targetFree sweeps ⟨reaped, false⟩
        if r.progress then pure (.inl r.reaped) else pure (.inr r.reaped)) 0

/-- `POOL_MIN`. -/
def poolMin : Nat := 64

/-- `POOL_MAX`. -/
def poolMax : Nat := 256

/-- `reap_if_needed`. -/
def reapIfNeeded (fuel : Nat) : KernelCode Unit := do
  if (← freeCount) < poolMin then
    let _ ← reapTo fuel poolMax

/-- `reaper_main`. -/
def reaperMain (fuel : Nat) : KernelCode Unit :=
  loop fuel (fun _ => do
    reapIfNeeded fuel
    lift schedule
    pure (.inl ())) ()

/-- What the reaper takes. -/
def reaperClasses : List LockClass := [.taskTable, .scheduler, .task, .frameAllocator, .swap, .heap]

theorem orderly_gatherTasks : ∀ ts, Ranked [.task, .heap] (gatherTasks ts)
  | [] => .pure []
  | _ :: ts => by
    have hheap : Ranked [.heap] (lift heapCalls) := orderly_lift orderly_heapCalls
    refine .bind (.withLock rfl (.view fun v => ?_)) fun usage => ?_
    · split
      · exact .pure none
      · exact .bind (hheap.mono rfl) fun _ => .pure _
    · split
      · exact orderly_gatherTasks ts
      · exact .bind (hheap.mono rfl) fun _ => .bind (orderly_gatherTasks ts) fun _ => .pure _

/-- The reaper looks at one task at a time. -/
theorem orderly_gatherCandidates : Ranked reaperClasses gatherCandidates := by
  have hheap : Ranked [.heap] (lift heapCalls) := orderly_lift orderly_heapCalls
  refine .bind (.withLock rfl (.view fun v => .bind (hheap.mono rfl) fun _ => .pure _)) fun tids => ?_
  exact .bind ((orderly_gatherTasks tids).mono rfl) fun _ => .bind (hheap.mono rfl) fun _ => .pure _

/-- It evicts under the allocator. -/
theorem orderly_evictAddr (t vaddr : Nat) :
    Ranked [.frameAllocator, .swap, .heap] (evictAddr t vaddr) := by
  refine .view fun v => ?_
  split
  · refine .withLock rfl (.bind (.withLock rfl (.view fun _ => .pure _)) fun slot => ?_)
    split
    · exact .bind ((orderly_lift orderly_heapCalls).mono rfl) fun _ => .pure true
    · exact .pure false
  · exact .pure false

theorem orderly_freeCount : Ranked [.frameAllocator] freeCount :=
  .withLock rfl (.view fun _ => .pure _)

theorem orderly_tryPage (targetFree sweep : Nat) (c : Candidate) (r : Reaped) :
    Ranked reaperClasses (tryPage targetFree sweep c r) := by
  refine .view fun v => ?_
  split
  · exact .pure _
  · split
    · refine .bind (.withLock rfl ((orderly_evictAddr _ _).mono rfl)) fun evicted => ?_
      split
      · refine .bind (orderly_freeCount.mono rfl) fun n => ?_
        split <;> exact .pure _
      · exact .pure _
    · exact .pure _

theorem orderly_sweepPages (targetFree : Nat) : ∀ pages r,
    Ranked reaperClasses (sweepPages targetFree pages r)
  | [], r => .pure r
  | (sweep, c) :: rest, r => by
    refine .bind (orderly_tryPage targetFree sweep c r) fun next => ?_
    cases next with
    | inl r => exact orderly_sweepPages targetFree rest r
    | inr r => exact .pure r

/-- `reap_to`. -/
theorem orderly_reapTo (fuel targetFree : Nat) : Ranked reaperClasses (reapTo fuel targetFree) := by
  refine Orderly.loop (fun reaped => .bind (orderly_freeCount.mono rfl) fun n => ?_) fuel 0
  split
  · exact .pure _
  · refine .bind orderly_gatherCandidates fun cs => ?_
    split
    · exact .pure _
    · refine .bind (orderly_sweepPages targetFree _ _) fun r => ?_
      split <;> exact .pure _

/-- The reaper. -/
theorem orderly_reaperMain (fuel : Nat) : Ranked reaperClasses (reaperMain fuel) := by
  refine Orderly.loop (fun _ =>
    .bind (.bind (orderly_freeCount.mono rfl) fun n => ?_) fun _ => ?_) fuel ()
  · split
    · exact .bind (orderly_reapTo fuel poolMax) fun _ => .pure ()
    · exact .pure ()
  · exact .bind ((orderly_lift orderly_schedule).mono rfl) fun _ => .pure _

/-! ## All paths -/

/-- What the kernel's own tasks run. -/
inductive KernelTask where
  | reaper
  | spawn (t : Nat)
  | exit
  | wait (childPid : Nat)
  | waitTid (targetTid : Nat)
  | yield

/-- What it runs. -/
def KernelTask.code (fuel : Nat) : KernelTask → KernelCode Unit
  | .reaper => reaperMain fuel
  | .spawn t => lift (Syscall.spawn t)
  | .exit => do let _ ← lift Syscall.exit
  | .wait childPid => do let _ ← lift (Syscall.wait fuel childPid)
  | .waitTid targetTid => do let _ ← lift (Syscall.waitTid fuel targetTid)
  | .yield => lift schedule

/-- A way into the kernel. -/
inductive Path where
  | syscall (nr : Nat) (a : Args)
  | pageFault
  | timer
  | task (call : KernelTask)

/-- The path by itself. -/
def Path.body (fuel : Nat) : Path → KernelCode Unit
  | .syscall nr a => syscallEntry fuel nr a
  | .pageFault => lift Syscall.pageFault
  | .timer => timerHandler
  | .task call => call.code fuel

/-- The path with timer interrupts on the way, under a guard too if `under`. -/
def Path.code (fuel : Nat) (under : Bool) (p : Path) : KernelCode Unit :=
  interrupted KernelView.interrupt under timerHandler (p.body fuel)

/-- The paths with the system calls of `calls`. -/
def Path.Among (calls : Nat → Prop) : Path → Prop
  | .syscall nr _ => calls nr
  | .pageFault | .timer | .task _ => True

/-- A lock of class `B` is taken on one of these paths while one of class `A` is held, with
interrupts under a guard only if `nested`. -/
def Before (calls : Nat → Prop) (nested : Prop) (A B : LockClass) : Prop :=
  ∃ (p : Path) (fuel : Nat) (under : Bool) (env : Nat → KernelView) (l l' : Lock)
    (held : List Lock), p.Among calls ∧ (under = true → nested) ∧
      .lock l held ∈ (p.code fuel under).events env 0 [] ∧ l' ∈ held ∧ l'.cls = A ∧ l.cls = B

/-- System calls, but for the three. -/
theorem orderly_syscallEntry {fuel nr : Nat} {a : Args}
    (h : ∀ s ∈ Sys.disorderly, nr ≠ s.number) :
    ∃ w, Orderly lockOrder w [] allClasses (syscallEntry fuel nr a) := by
  have hsignal {w : Option (List Lock)} : Orderly lockOrder w [] allClasses deliverPendingSignal :=
    orderly_deliverPendingSignal.waits rfl
  unfold syscallEntry syscallHandler
  cases hs : Sys.ofNumber nr with
  | none => exact ⟨none, .bind (orderly_lift (.pure enosys)) fun _ => hsignal⟩
  | some s =>
    by_cases hio : s ∈ Sys.channelIo
    · exact ⟨_, .bind (orderly_lift (orderly_channelIo hio)) fun _ => hsignal⟩
    · have hs' : s ∉ Sys.disorderly := fun hmem => h s hmem (Sys.number_of_ofNumber hs).symm
      exact ⟨_, .bind (orderly_lift (orderly_branch hio hs')) fun _ => hsignal⟩

/-- Tasks of the kernel. -/
theorem orderly_kernelTask (fuel : Nat) (call : KernelTask) :
    Blocks allClasses (call.code fuel) := by
  cases call with
  | reaper => exact (orderly_reaperMain fuel).waits rfl
  | spawn t => exact (orderly_lift (orderly_spawn t)).waits rfl
  | exit => exact .bind ((orderly_lift orderly_exit).waits rfl) fun _ => .pure ()
  | wait pid => exact .bind ((orderly_lift (orderly_wait fuel pid)).mono rfl) fun _ => .pure ()
  | waitTid tid =>
    exact .bind ((orderly_lift (orderly_waitTid fuel tid)).mono rfl) fun _ => .pure ()
  | yield => exact (orderly_lift orderly_schedule).waits rfl

/-- Along every path but the four kinds, the ranks rise. -/
theorem before_rank {calls : Nat → Prop} {nested : Prop}
    (hcalls : ∀ s ∈ Sys.disorderly, ¬ calls s.number) (hnested : ¬ nested)
    {A B : LockClass} (h : Before calls nested A B) : A.rank < B.rank := by
  obtain ⟨p, fuel, under, env, l, l', held, hamong, hunder, hmem, hl', rfl, rfl⟩ := h
  have horderly : ∃ w, Orderly lockOrder w [] allClasses (p.body fuel) := by
    cases p with
    | syscall nr a => exact orderly_syscallEntry fun s hs heq => hcalls s hs (heq ▸ hamong)
    | pageFault => exact ⟨none, (orderly_lift orderly_pageFault).mono rfl⟩
    | timer => exact ⟨none, orderly_timerHandler.mono rfl⟩
    | task call => exact ⟨_, orderly_kernelTask fuel call⟩
  obtain ⟨w, horderly⟩ := horderly
  obtain rfl : under = false := Bool.eq_false_iff.mpr fun h => hnested (hunder h)
  have hcode : Orderly lockOrder w [] allClasses (p.code fuel false) :=
    horderly.interrupted (orderly_timerHandler.mono rfl)
  exact of_decide_eq_true (hcode.before hmem l' hl')

/-! ## Cycles -/

/-- The kernel as its only task finds it, with a page fault that is handled. -/
def oneTask : KernelView where
  toView := onePipe
  interrupt := false
  boosts := false
  queued := []
  pending _ := none
  freeCount := 0
  userEntry _ := 0
  vsize _ := 0
  resident _ := []
  bits _ _ := none
  mapped _ _ := false
  slotFree := false

section

variable {calls : Nat → Prop} {nested : Prop}

/-- A page fault takes the frame allocator under the task's lock. -/
theorem task_before_allocator : Before calls nested .task .frameAllocator :=
  ⟨.pageFault, 1, false, fun _ => oneTask, .frameAllocator, .task 1, [.task 1], trivial, by simp,
    by decide +kernel, by decide, rfl, rfl⟩

/-- `SYS_BRK` and `SYS_FORK`: the allocator, then a task. -/
theorem allocator_before_task {s : Sys} (hs : s = .brk ∨ s = .fork) (hcalls : calls s.number) :
    Before calls nested .frameAllocator .task := by
  have hmem : LockEvent.lock (.task 1) [.taskTable, .frameAllocator] ∈
      ((Path.syscall s.number ⟨0x402000, 0, 0, 0⟩).code 1 false).events (fun _ => oneTask) 0 [] := by
    rcases hs with rfl | rfl <;> decide +kernel
  exact ⟨.syscall s.number ⟨0x402000, 0, 0, 0⟩, 1, false, _, _, .frameAllocator, _, hcalls, by simp,
    hmem, by decide, rfl, rfl⟩

/-- `SYS_PIPE_CLOSE`: `IPC_TABLE` twice. -/
theorem ipcTable_before_itself (hcalls : calls Sys.pipeClose.number) :
    Before calls nested .ipcTable .ipcTable :=
  ⟨.syscall Sys.pipeClose.number ⟨0, 0, 0, 0⟩, 1, false, fun _ => oneTask, .ipcTable, .ipcTable,
    [.ipcTable], hcalls, by simp, by decide +kernel, by decide, rfl, rfl⟩

/-- A timer interrupt in a stretch under `SCHEDULER`. -/
theorem scheduler_before_itself (hnested : nested) : Before calls nested .scheduler .scheduler :=
  ⟨.task .yield, 1, true, fun _ => { oneTask with interrupt := true }, .scheduler, .scheduler,
    [.scheduler], trivial, fun _ => hnested, by decide +kernel, by decide, rfl, rfl⟩

end

/-- **The order of the locks has no cycle** over all paths, if neither `SYS_BRK`, `SYS_FORK` nor
`SYS_PIPE_CLOSE` is called and timer interrupts arrive where no lock is held; and only then. -/
theorem locks_acyclic (calls : Nat → Prop) (nested : Prop) :
    (∀ A, ¬ Relation.TransGen (Before calls nested) A A) ↔
      (∀ s ∈ Sys.disorderly, ¬ calls s.number) ∧ ¬ nested := by
  constructor
  · refine fun hacyclic => ⟨fun s hs hcalls => ?_, fun hnested => ?_⟩
    · have hcross (hs : s = .brk ∨ s = .fork) : False :=
        hacyclic .task (.tail (.single task_before_allocator) (allocator_before_task hs hcalls))
      unfold Sys.disorderly at hs
      simp only [List.mem_cons, List.not_mem_nil, or_false] at hs
      rcases hs with hbrk | hfork | rfl
      · exact hcross (.inl hbrk)
      · exact hcross (.inr hfork)
      · exact hacyclic .ipcTable (.single (ipcTable_before_itself hcalls))
    · exact hacyclic .scheduler (.single (scheduler_before_itself hnested))
  · rintro ⟨hcalls, hnested⟩
    exact acyclic_of_rank LockClass.rank fun _ _ => before_rank hcalls hnested

/-- `SYS_BRK` takes the lock of the task under `FRAME_ALLOCATOR`, a page fault takes
`FRAME_ALLOCATOR` under the lock of the task. -/
theorem allocator_and_task_crossed :
    (∃ held, .lock (.task 1) held ∈ (syscallEntry 1 Sys.brk.number ⟨0x402000, 0, 0, 0⟩).events
      (fun _ => oneTask) 0 [] ∧ .frameAllocator ∈ held) ∧
    (∃ held, .lock .frameAllocator held ∈ (lift pageFault).events (fun _ => oneTask) 0 [] ∧
      .task 1 ∈ held) ∧
    Relation.TransGen (Before (· = Sys.brk.number) False) .task .task := by
  refine ⟨⟨[.taskTable, .frameAllocator], by decide +kernel, by decide⟩,
    ⟨[.task 1], by decide +kernel, by decide⟩, ?_⟩
  exact .tail (.single task_before_allocator) (allocator_before_task (.inl rfl) rfl)

end AlaphiOS.Syscall
