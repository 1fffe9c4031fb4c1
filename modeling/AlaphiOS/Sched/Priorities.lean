import AlaphiOS.Sched.Queues
import AlaphiOS.Sched.Yield

/-!
# The priorities that index `TIME_SLICES`

`set_current` and `prepare_switch` take the time slice of the priority that is stored in the task,
and `prepare_switch` adds one to the priority of the outgoing task. Demotion and boosting store
numbers of queues, and a fork copies one; but `SYS_CLONE` stores the low byte of a user register.
`push` puts such a task into the last queue and leaves its priority as it is. If it is dispatched
before the next boost, the index is out of range.

With priorities below `NUM_QUEUES` in all calls, every task keeps one (`step_priorities`), and
the scheduler does not stop (`indexes_in_range`).
-/

namespace AlaphiOS.Sched

open Lib Function MlfqScheduler

namespace Kernel

/-- All priorities are numbers of queues. -/
def Priorities (k : Kernel) : Prop := ∀ t, (k.tasks t).priority < numQueues

/-- The priority that a call stores in a task is the number of a queue. -/
def Op.InRange : Op → Prop
  | .call (.spawn priority _) | .call (.clone priority) => priority < numQueues
  | _ => True

/-- `SYS_CLONE` with this third argument: `arg2 as u8`. -/
def sysClone (arg2 : Nat) : Op := .call (.clone (arg2 % 2 ^ 8))

/-- The current task has an entry in `TIME_SLICES`, and no switch of tasks that could happen now
stops the kernel: neither one of the running task nor one of the timer. -/
structure IndexesInRange (k : Kernel) : Prop where
  current : ∀ t, k.sched.current = some t → (k.tasks t).priority < numQueues
  dispatch : k.dispatch.isSome
  schedule : k.shouldReschedule.dispatch.isSome
  timer : ∀ n, k.sched.totalTicks + 1 < 2 ^ 32 → (k.timer n).isSome

variable {k k' : Kernel} {es : List Event}

/-! ## Steps that leave the priorities alone -/

/-- The two have the same priorities. -/
def SamePriorities (k k' : Kernel) : Prop := ∀ t, (k'.tasks t).priority = (k.tasks t).priority

theorem SamePriorities.refl (k : Kernel) : k.SamePriorities k := fun _ => rfl

theorem SamePriorities.trans {k'' : Kernel} (h : k.SamePriorities k') (h' : k'.SamePriorities k'') :
    k.SamePriorities k'' := fun t => (h' t).trans (h t)

theorem markBlocked_samePriorities (t : Nat) : k.SamePriorities (k.markBlocked t).1 := by
  intro x
  unfold markBlocked
  split
  · exact priority_update
  · rfl

theorem unblockTid_samePriorities (t : Nat) : k.SamePriorities (k.unblockTid t).1 := by
  intro x
  unfold unblockTid
  split
  · exact priority_update
  · rfl

theorem unblockAll_samePriorities : ∀ (ts : List Nat) {k : Kernel},
    k.SamePriorities (k.unblockAll ts).1 := by
  intro ts
  induction ts with
  | nil => exact fun {k} => SamePriorities.refl k
  | cons t ts ih => exact fun {k} => (unblockTid_samePriorities t).trans ih

theorem lockStep_samePriorities (r : Nat) : k.SamePriorities (k.lockStep r).1 := by
  unfold lockStep
  dsimp only
  split
  · exact fun x => markBlocked_samePriorities (k := { k with resources := _ }) k.cpu x
  · exact fun _ => rfl

theorem unlockStep_samePriorities (r : Nat) (next : Pc) :
    k.SamePriorities (k.unlockStep r next) := by
  unfold unlockStep
  dsimp only
  split <;> exact fun _ => rfl

theorem signalStep_samePriorities (r : Nat) (next done : Pc) :
    k.SamePriorities (k.signalStep r next done).1 := by
  unfold signalStep
  dsimp only
  split
  · exact fun _ => rfl
  next t ts _ => exact fun x => unblockTid_samePriorities (k := { k with resources := _ }) t x

theorem waitStep_samePriorities (target : Target) : k.SamePriorities (k.waitStep target).1 := by
  unfold waitStep
  split
  · exact fun _ => rfl
  · split <;> exact fun _ => rfl

/-! ## Steps that change them -/

theorem dispatch_priorities (hk : k.Priorities) (h : k.dispatch = some (k', es)) :
    k'.Priorities := by
  intro t
  obtain ⟨r, hprep⟩ := dispatch_prepareSwitch h
  rcases prepareSwitch_priority hprep t with hsame | ⟨_, _, hdown⟩
  · rw [hsame]
    exact hk t
  · rw [hdown]
    exact demoted_lt k.tasks t

theorem tick_priorities {sched : MlfqScheduler} {tasks : Tasks} (hk : k.Priorities)
    (h : k.sched.tick k.tasks = some (sched, tasks)) :
    { k with sched := sched, tasks := tasks }.Priorities := by
  intro t
  obtain ⟨_, _, _, ⟨_, _, rfl⟩ | ⟨_, _, rfl⟩⟩ := tick_cases h
  · refine boostTasks_priority (P := (· < numQueues)) (fun i _ hi => ?_) (.inl (hk t))
    have hlt := hi.lt_length
    rw [k.sched.length_queues] at hlt
    omega
  · exact hk t

theorem timer_priorities {n : Nat} (hk : k.Priorities) (h : k.timer n = some (k', es)) :
    k'.Priorities := by
  obtain ⟨⟨sched, tasks⟩, htick, h⟩ := bind_inv h
  have hticked := tick_priorities hk htick
  dsimp only at h
  split at h
  · cases h
    exact hticked
  · exact dispatch_priorities (k := { k with sched := sched, tasks := tasks }.shouldReschedule)
      hticked h

theorem create_priorities {pid priority : Nat} {parent : Option Nat} (hk : k.Priorities)
    (hlt : priority < numQueues) : (k.create pid priority parent).Priorities := by
  intro t
  show (update k.tasks k.nextTid _ t).priority < numQueues
  by_cases h : t = k.nextTid
  · rw [h, update_self]
    exact hlt
  · rw [update_of_ne h]
    exact hk t

/-! ## Steps and runs -/

theorem SamePriorities.priorities (h : k.SamePriorities k') (hk : k.Priorities) :
    k'.Priorities := by
  intro t
  rw [h t]
  exact hk t

theorem call_priorities {c : Call} (hc : (Op.call c).InRange) (hk : k.Priorities) :
    (k.call c).1.Priorities := by
  cases c with
  | lock | condWait | broadcast | wait | yield => exact hk
  | tryLock r =>
    dsimp only [call]
    split <;> exact hk
  | unlock r => exact (unlockStep_samePriorities r .run).priorities hk
  | signal r => exact (signalStep_samePriorities r .run .run).priorities hk
  | cvWait c =>
    exact (markBlocked_samePriorities (k := { k with condvars := _ }) k.cpu).priorities hk
  | cvSignal c =>
    dsimp only [call]
    split
    · exact hk
    next t ts _ => exact (unblockTid_samePriorities (k := { k with condvars := _ }) t).priorities hk
  | cvBroadcast c =>
    exact (unblockAll_samePriorities _ (k := { k with condvars := _ })).priorities hk
  | exit code =>
    dsimp only [call]
    split
    · refine SamePriorities.priorities (k := k) (fun t => ?_) hk
      exact priority_update_of rfl
    · exact hk
  | kill pid =>
    dsimp only [call]
    split
    · split <;> exact hk
    · exact hk
  | spawn priority parent => exact create_priorities (k := { k with nextPid := _ }) hk hc
  | clone priority =>
    dsimp only [call]
    split
    · exact create_priorities hk hc
    · exact hk
  | fork =>
    dsimp only [call]
    split
    · exact create_priorities (k := { k with nextPid := _ }) hk (hk k.cpu)
    · exact hk

theorem next_priorities {n : Nat} (hk : k.Priorities) (h : k.next n = some (k', es)) :
    k'.Priorities := by
  have hnext := next_inv h
  generalize k.pc k.cpu = pc at hnext
  cases hnext with
  | lock r | condLock r => exact (lockStep_samePriorities r).priorities hk
  | condMark | waitMark => exact (markBlocked_samePriorities k.cpu).priorities hk
  | condUnlock r => exact (unlockStep_samePriorities r _).priorities hk
  | broadcast r => exact (signalStep_samePriorities r _ _).priorities hk
  | wait target => exact (waitStep_samePriorities target).priorities hk
  | exitWake | exitAlone | exitRemove | spawnPush | scheduleLater | schedule | cvReturn => exact hk
  | wake t next => exact (unblockTid_samePriorities t).priorities hk
  | prepare next hdispatch => exact dispatch_priorities (k := k.goto next) hk hdispatch

/-- Every step keeps the priorities in range. -/
theorem step_priorities {op : Op} (hop : op.InRange) (hk : k.Priorities)
    (h : k.step op = some (k', es)) : k'.Priorities := by
  cases op with
  | timer n => exact timer_priorities hk (timer_of_step h)
  | call c =>
    obtain ⟨_, rfl, _⟩ := call_of_step h
    exact call_priorities hop hk
  | next n => exact next_priorities hk h

theorem boot_priorities : boot.Priorities := by
  intro t
  show (if t = 1 then 0 else 7) < numQueues
  split <;> decide

/-! ## The scheduler does not stop -/

/-- So no switch stops the kernel. -/
theorem Priorities.dispatch_isSome (hk : k.Priorities) : k.dispatch.isSome := by
  obtain ⟨⟨r, m', ts'⟩, hprep⟩ := Option.isSome_iff_exists.mp
    (MlfqScheduler.InRange.prepareSwitch_isSome (m := k.sched) fun t _ => hk t)
  obtain ⟨k', es, hdispatch, _⟩ := dispatch_of_some hprep
  rw [hdispatch]
  rfl

/-- Nor does the timer. -/
theorem Priorities.timer_isSome (hk : k.Priorities) (hticks : k.sched.totalTicks + 1 < 2 ^ 32)
    (n : Nat) : (k.timer n).isSome := by
  have hsome : (k.sched.tick k.tasks).isSome := tick_isSome_iff.mpr hticks
  obtain ⟨⟨sched, tasks⟩, htick⟩ := Option.isSome_iff_exists.mp hsome
  unfold timer
  rw [bind_of_eq htick]
  dsimp only
  split
  · rfl
  · exact Priorities.dispatch_isSome
      (k := { k with sched := sched, tasks := tasks }.shouldReschedule) (tick_priorities hk htick)

theorem Priorities.indexesInRange (hk : k.Priorities) : k.IndexesInRange where
  current := fun t _ => hk t
  dispatch := hk.dispatch_isSome
  schedule := Priorities.dispatch_isSome (k := k.shouldReschedule) hk
  timer := fun n hticks => hk.timer_isSome hticks n

/-- **Indexing is in bounds.** In every run in which the priorities given to `SYS_CLONE` and
`spawn` are below `NUM_QUEUES`. -/
theorem indexes_in_range {ops : List Op} {tr : List Event} (hops : ∀ op ∈ ops, op.InRange)
    (hrun : exec (traced step) (boot, []) ops = some (k, tr)) : k.IndexesInRange := by
  have hk : k.Priorities := by
    refine exec_induction (I := fun s : Kernel × List Event => s.1.Priorities)
      (fun s op s' hI hop hs => ?_) boot_priorities (along_true.and_forall hops) hrun
    obtain ⟨es, hstep, _⟩ := traced_inv hs
    exact step_priorities hop.1 hI hstep
  exact hk.indexesInRange

/-- A clone with the lowest priority is pushed. -/
theorem indexes_in_range_clone : ∃ k tr,
    exec (traced step) (boot, []) [sysClone 7, .next 0, .timer 0] = some (k, tr) ∧
      k.IndexesInRange := by
  obtain ⟨⟨k, tr⟩, hrun⟩ := Option.isSome_iff_exists.mp
    (show (exec (traced step) (boot, []) [sysClone 7, .next 0, .timer 0]).isSome by decide +kernel)
  refine ⟨k, tr, hrun, indexes_in_range (fun op hop => ?_) hrun⟩
  simp only [List.mem_cons, List.not_mem_nil, or_false] at hop
  rcases hop with rfl | rfl | rfl
  · exact show 7 % 2 ^ 8 < numQueues by decide
  · trivial
  · trivial

/-- A thread is cloned with priority 200. When it is the first in the queues, the timer interrupt
that ends the slice of the boot task stops the kernel. -/
theorem clone_stops_timer : ∃ k tr,
    exec (traced step) (boot, []) ([sysClone 200, .next 0] ++ List.replicate 68 (.timer 0))
      = some (k, tr) ∧ k.sched.totalTicks = 68 ∧ (k.tasks 3).priority = 200 ∧ k.timer 0 = none ∧
    ¬ k.IndexesInRange := by
  have hfacts : ∃ s ∈ exec (traced step) (boot, [])
      ([sysClone 200, .next 0] ++ List.replicate 68 (.timer 0)),
      s.1.sched.totalTicks = 68 ∧ (s.1.tasks 3).priority = 200 ∧ (s.1.timer 0).isNone := by
    decide +kernel
  obtain ⟨⟨k, tr⟩, hrun, hticks, hprio, hstop⟩ := hfacts
  dsimp only at hticks hprio hstop
  rw [Option.isNone_iff_eq_none] at hstop
  refine ⟨k, tr, hrun, hticks, hprio, hstop, fun h => ?_⟩
  have hsome := h.timer 0 (by rw [hticks]; decide)
  rw [hstop] at hsome
  exact nomatch hsome

end Kernel

end AlaphiOS.Sched
