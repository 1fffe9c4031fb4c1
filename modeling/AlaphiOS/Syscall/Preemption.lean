import AlaphiOS.Syscall.Dispatch
import AlaphiOS.Sched.Kernel

/-!
# Waiting with preemption enabled

`schedule` returns at once while a guard is alive. So a call that waits has to wait
without one: then, in the kernel of `Sched.Kernel`, a Blocked caller is switched out as
soon as another task is ready (`switched_out`).

The waits of `wait`, `wait_tid`, `QueuedResource::lock` and `QueuedResource::wait` are all
of this kind. Those of a channel are not: the four calls that send and receive look their
handle up in the scrutinee of an `if let`, and `CondVar::wait` only drops the guard of the
buffer (`waits_preemptible`).
-/

namespace AlaphiOS.Sched.Kernel

/-- The running task is about to call `schedule`; it is Blocked and another task is ready. -/
structure BlockedAtSchedule (k : Kernel) (next : Pc) : Prop where
  atSchedule : k.pc k.cpu = .schedule next
  blocked : (k.tasks k.cpu).state = .blocked
  current : k.sched.current = some k.cpu
  notQueued : k.cpu ∉ k.sched.queued
  otherReady : k.sched.queued ≠ 0
  inRange : ∀ t, (k.tasks t).priority < numQueues

/-- The next two steps, `schedule` with this `preempt_count`, give the processor to another
task. -/
def SwitchedOut (k : Kernel) (preemptCount : Nat) : Prop :=
  ∃ k₁ k₂ es, k.step (.next preemptCount) = some (k₁, []) ∧
    k₁.step (.next preemptCount) = some (k₂, es) ∧ k₂.cpu ≠ k.cpu

theorem switched_out {k : Kernel} {next : Pc} (h : k.BlockedAtSchedule next) : k.SwitchedOut 0 := by
  -- `should_reschedule` asks for a switch, as the current task is Blocked.
  have hneeds : (k.sched.shouldReschedule k.tasks).needsReschedule = true := by
    unfold MlfqScheduler.shouldReschedule
    rw [h.current]
    dsimp only
    rw [h.blocked]
  have hcurrent : (k.sched.shouldReschedule k.tasks).current = some k.cpu :=
    MlfqScheduler.shouldReschedule_spec.2.trans h.current
  have hqueued : (k.sched.shouldReschedule k.tasks).queued = k.sched.queued :=
    congrArg (fun q : List (List Nat) => (q.flatten : Multiset Nat)) MlfqScheduler.shouldReschedule_spec.1
  -- `prepare_switch` finds the other task, and it is not the caller, which is in no queue.
  obtain ⟨incoming, m', ts', hin, hprep⟩ := MlfqScheduler.exists_prepareSwitch hneeds
    (hqueued ▸ h.otherReady) (fun t _ => h.inRange t) (fun t _ => h.inRange t)
  obtain ⟨k₂, es, hdispatch, hcpu⟩ := dispatch_of_prepareSwitch
    (k := (k.shouldReschedule.goto (.prepare next)).goto next) hprep
  refine ⟨_, k₂, es, step_of_schedule h.atSchedule,
    (step_of_prepare (Function.update_self ..)).trans hdispatch, ?_⟩
  intro heq
  rw [hqueued, ← hcpu, heq] at hin
  exact h.notQueued hin

end AlaphiOS.Sched.Kernel

namespace AlaphiOS.Syscall

open Lib Lib.LockCode Sched Function

/-- What a run of the dispatcher does. -/
def run (fuel nr : Nat) (a : Args) (env : Nat → View) : List (LockEvent Lock) :=
  (syscallHandler fuel nr a).events env 0 []

variable {fuel nr : Nat} {a : Args} {env : Nat → View} {held : List Lock}

/-- The four calls on a channel wait with `IPC_TABLE` locked. -/
theorem wait_of_channelIo {s : Sys} (hs : Sys.ofNumber nr = some s) (hio : s ∈ Sys.channelIo)
    (hwait : .wait held ∈ run fuel nr a env) : held = [.ipcTable] := by
  let R : Rules Lock := ⟨True, fun held => held = [.ipcTable]⟩
  have hkeeps : Keeps R (branch fuel a s) [] := keeps_channelIo hio rfl
  unfold run syscallHandler at hwait
  rw [hs] at hwait
  exact Does.events hkeeps 0 _ hwait

/-- The others wait without a guard. -/
theorem wait_of_not_channelIo (hio : ∀ s ∈ Sys.channelIo, Sys.ofNumber nr ≠ some s)
    (hwait : .wait held ∈ run fuel nr a env) : held = [] := by
  let R : Rules Lock := ⟨True, fun held => held = []⟩
  unfold run syscallHandler at hwait
  cases hs : Sys.ofNumber nr with
  | none =>
    rw [hs] at hwait
    cases hwait
  | some s =>
    rw [hs] at hwait
    have hkeeps : Keeps R (branch fuel a s) [] := by
      by_cases hclose : s = .pipeClose
      · subst hclose
        exact keeps_pipeClose trivial
      · exact keeps_branch (fun hmem => hio s hmem hs) hclose rfl
    exact Does.events hkeeps 0 _ hwait

/-- **A blocking call blocks with preemption enabled** unless it is one of the four that
send to a channel or receive from it: these wait with `IPC_TABLE` locked, every time. The guards
alive at a wait are the `preempt_count` that `schedule` then finds, in whatever state the rest of
the kernel is; where there is none, a Blocked caller is switched out if another task is ready. -/
theorem waits_preemptible (fuel nr : Nat) (a : Args) (env : Nat → View) :
    ((∀ held, .wait held ∈ run fuel nr a env → held = []) ↔
      ¬ (nr ∈ Sys.channelIo.map Sys.number ∧ ∃ held, .wait held ∈ run fuel nr a env)) ∧
    ∀ held, .wait held ∈ run fuel nr a env → held = [] →
      ∀ (k : Kernel) (next : Pc), k.BlockedAtSchedule next → k.SwitchedOut held.length := by
  refine ⟨⟨?_, ?_⟩, ?_⟩
  · rintro hempty ⟨hnr, held, hwait⟩
    obtain ⟨s, hio, hs⟩ := Sys.exists_of_mem_channelIo hnr
    have htable := wait_of_channelIo hs hio hwait
    rw [hempty held hwait] at htable
    cases htable
  · intro hnot held hwait
    refine wait_of_not_channelIo (fun s hio hs => hnot ⟨?_, held, hwait⟩) hwait
    exact List.mem_map.mpr ⟨s, hio, Sys.number_of_ofNumber hs⟩
  · rintro held - rfl k next h
    exact Kernel.switched_out h

/-- The boot task waits for the idle task, which is ready. -/
def awaitsIdle : Kernel :=
  { Kernel.boot with
    tasks := update Kernel.boot.tasks 1 { Kernel.boot.tasks 1 with state := .blocked }
    pc := update Kernel.boot.pc 1 (.schedule (.wait (.pid 2))) }

theorem awaitsIdle_blocked : awaitsIdle.BlockedAtSchedule (.wait (.pid 2)) where
  atSchedule := rfl
  blocked := rfl
  current := rfl
  notQueued := by decide
  otherReady := by decide
  inRange := by
    intro t
    show (update Kernel.boot.tasks 1 _ t).priority < numQueues
    by_cases ht : t = 1
    · rw [ht, update_self]
      decide
    · rw [update_of_ne ht]
      show (if t = 1 then 0 else 7) < numQueues
      rw [if_neg ht]
      decide

/-- `SYS_WAITPID` for a task that has not exited. -/
theorem waits_preemptible_waitpid :
    .wait [] ∈ run 1 Sys.waitpid.number ⟨1, 0, 0, 0⟩ (fun _ => onePipe) ∧ awaitsIdle.SwitchedOut 0 := by
  have hwait : .wait [] ∈ run 1 Sys.waitpid.number ⟨1, 0, 0, 0⟩ (fun _ => onePipe) := by decide
  have hswitched := (waits_preemptible 1 Sys.waitpid.number ⟨1, 0, 0, 0⟩ fun _ => onePipe).2
  exact ⟨hwait, hswitched [] hwait rfl awaitsIdle _ awaitsIdle_blocked⟩

/-- `SYS_PIPE_READ` of an empty pipe comes to `schedule` with `IPC_TABLE` locked. -/
theorem pipeRead_waits_locked :
    ∃ held, .wait held ∈ run 1 Sys.pipeRead.number ⟨0, 4096, 1, 0⟩ (fun _ => onePipe) ∧ held ≠ [] :=
  ⟨[.ipcTable], by decide, by decide⟩

end AlaphiOS.Syscall
