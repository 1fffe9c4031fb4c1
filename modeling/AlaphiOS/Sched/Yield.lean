import AlaphiOS.Sched.Queues
import AlaphiOS.Sched.RosterInv

/-!
# What a voluntary `schedule` does

`SYS_YIELD` and `reaper_main` call `schedule` to let another task run: the front of the first
queue that is not empty should become current, and the caller should go to a queue (`Yields`).

`schedule` does that only if a switch is due: the time slice is used up, or the caller is Blocked
or a Zombie (`SwitchDue`). A Running task with ticks left goes on. `yields_iff` has the exact
condition; the two bounds in it are those under which `prepare_switch` does not stop the kernel.
-/

namespace AlaphiOS.Sched

open Lib Function Option

namespace MlfqScheduler

variable {m : MlfqScheduler} {ts : Tasks} {t : Nat}

/-- `should_reschedule` asks for a switch if the current task is Blocked or a Zombie. -/
theorem shouldReschedule_needs (hc : m.current = some t) :
    (m.shouldReschedule ts).needsReschedule = true ↔
      m.needsReschedule = true ∨ (ts t).state = .blocked ∨ (ts t).state = .zombie := by
  unfold shouldReschedule
  rw [hc]
  dsimp only
  cases (ts t).state <;> simp

/-- `prepare_switch` on a scheduler with a current task and a queued one. -/
theorem prepareSwitch_yields_iff {front : Nat} {rest : List (List Nat)} (hc : m.current = some t)
    (hpick : pickNext m.queues = some (front, rest)) :
    (∃ r m' ts', m.prepareSwitch ts = some (r, m', ts') ∧ m'.current = some front ∧
        t ∈ m'.queued) ↔
      (m.needsReschedule = true ∧ (ts t).priority + 1 < 2 ^ 8 ∧
        (front ≠ t → (ts front).priority < numQueues)) ∨
      (¬ m.needsReschedule = true ∧ front = t) := by
  by_cases hneeds : m.needsReschedule = true
  · have hsome : (m.prepareSwitch ts).isSome ↔ (ts t).priority + 1 < 2 ^ 8 ∧
        (front ≠ t → (ts front).priority < numQueues) := by
      rw [prepareSwitch_isSome_iff hneeds hpick]
      simp only [hc, ne_eq, some.injEq, forall_eq', eq_comm (a := front) (b := t)]
    constructor
    · intro ⟨r, m', ts', hprep, _⟩
      exact .inl ⟨hneeds, hsome.mp (by rw [hprep]; rfl)⟩
    · intro h
      obtain ⟨_, hrange⟩ := h.resolve_right fun h => h.1 hneeds
      obtain ⟨⟨r, m', ts'⟩, hprep⟩ := isSome_iff_exists.mp (hsome.mpr hrange)
      refine ⟨r, m', ts', hprep, ?_⟩
      obtain ⟨_, ⟨_, hidle, _⟩ | ⟨_, incoming, qs, hpick', _, hcur, hcase⟩⟩ :=
        prepareSwitch_cases hprep
      · rcases hidle with hidle | hidle
        · cases hneeds.symm.trans hidle
        · cases hpick.symm.trans hidle
      · cases hpick'.symm.trans hpick
        rcases hcase with ⟨hnone, _⟩ | ⟨out, _, hout, hq, _⟩
        · cases hc.symm.trans hnone
        · obtain rfl : t = out := some.inj (hc.symm.trans hout)
          refine ⟨hcur, mem_flatten_iff.mpr ⟨demoted ts t, ?_⟩⟩
          rw [hq]
          refine inQueue_modify.mpr (.inr ⟨rfl, rfl, ?_⟩)
          rw [(pickNext_spec hpick).1, m.length_queues]
          exact demoted_lt ts t
  · have hprep : m.prepareSwitch ts = some (none, m, ts) := by
      unfold prepareSwitch
      exact if_pos (by simpa using hneeds)
    constructor
    · intro ⟨r, m', ts', hr, hcur, _⟩
      cases hprep.symm.trans hr
      exact .inr ⟨hneeds, some.inj (hcur.symm.trans hc)⟩
    · intro h
      obtain ⟨_, rfl⟩ := h.resolve_left fun h => hneeds h.1
      refine ⟨none, m, ts, hprep, hc, ?_⟩
      have hflat : m.queues.flatten = front :: rest.flatten := (pickNext_spec hpick).2
      show front ∈ m.queues.flatten
      rw [hflat]
      exact List.mem_cons_self

end MlfqScheduler

namespace Kernel

/-- A voluntary `schedule` with `preempt_count` 0 makes the first queued task current and puts the
caller into a queue. -/
def Yields (k : Kernel) : Prop :=
  ∃ front rest k₁ k₂ k₃ es, pickNext k.sched.queues = some (front, rest) ∧
    k.step (.call .yield) = some (k₁, []) ∧ k₁.step (.next 0) = some (k₂, []) ∧
    k₂.step (.next 0) = some (k₃, es) ∧
    k₃.sched.current = some front ∧ k.cpu ∈ k₃.sched.queued

/-- The time slice of the running task is used up, or the task is not to run. -/
def SwitchDue (k : Kernel) : Prop :=
  k.sched.needsReschedule = true ∨ (k.tasks k.cpu).state = .blocked ∨
    (k.tasks k.cpu).state = .zombie

variable {k : Kernel}

theorem dispatch_prepareSwitch {k' : Kernel} {es : List Event} (h : k.dispatch = some (k', es)) :
    ∃ r, k.sched.prepareSwitch k.tasks = some (r, k'.sched, k'.tasks) := by
  obtain ⟨⟨pair, sched, tasks⟩, hprep, h⟩ := bind_inv h
  refine ⟨pair, ?_⟩
  cases pair with
  | none | some =>
    cases h
    exact hprep

theorem dispatch_of_some {r : Option (Option Nat × Nat)} {m' : MlfqScheduler} {ts' : Tasks}
    (h : k.sched.prepareSwitch k.tasks = some (r, m', ts')) :
    ∃ k' es, k.dispatch = some (k', es) ∧ k'.sched = m' := by
  unfold dispatch
  rw [h]
  cases r with
  | none | some => exact ⟨_, _, rfl, rfl⟩

/-- The three steps of the call: on the scheduler they are `should_reschedule` and
`prepare_switch`. -/
theorem yields_iff_prepareSwitch {front : Nat} {rest : List (List Nat)} (hpc : k.pc k.cpu = .run)
    (hpick : pickNext k.sched.queues = some (front, rest)) :
    k.Yields ↔ ∃ r m' ts', (k.sched.shouldReschedule k.tasks).prepareSwitch k.tasks
        = some (r, m', ts') ∧ m'.current = some front ∧ k.cpu ∈ m'.queued := by
  have hyield : k.step (.call .yield) = some (k.goto (.schedule .run), []) := if_pos hpc
  have hschedule : (k.goto (.schedule .run)).step (.next 0)
      = some ((k.goto (.schedule .run)).shouldReschedule.goto (.prepare .run), []) :=
    step_of_schedule (update_self ..)
  have hprepare : ((k.goto (.schedule .run)).shouldReschedule.goto (.prepare .run)).step (.next 0)
      = (((k.goto (.schedule .run)).shouldReschedule.goto (.prepare .run)).goto .run).dispatch :=
    step_of_prepare (update_self ..)
  constructor
  · intro ⟨front', rest', k₁, k₂, k₃, es, hpick', hstep₁, hstep₂, hstep₃, hcur, hmem⟩
    cases hpick'.symm.trans hpick
    cases hyield.symm.trans hstep₁
    cases hschedule.symm.trans hstep₂
    rw [hprepare] at hstep₃
    obtain ⟨r, hprep⟩ := dispatch_prepareSwitch hstep₃
    exact ⟨r, _, _, hprep, hcur, hmem⟩
  · intro ⟨r, m', ts', hprep, hcur, hmem⟩
    obtain ⟨k₃, es, hdispatch, hsched⟩ := dispatch_of_some
      (k := ((k.goto (.schedule .run)).shouldReschedule.goto (.prepare .run)).goto .run) hprep
    exact ⟨front, rest, _, _, k₃, es, hpick, hyield, hschedule, hprepare.trans hdispatch,
      hsched ▸ hcur, hsched ▸ hmem⟩

/-- **When a yield yields.** In every reachable state, for a running task that is outside of all
calls, with `front` the first queued task: a switch has to be due, with priorities for which it
does not stop the kernel; or the caller is itself the first queued task. -/
theorem yields_iff {ops : List Op} {tr : List Event} {front : Nat} {rest : List (List Nat)}
    (hrun : exec (traced step) (boot, []) ops = some (k, tr)) (hpc : k.pc k.cpu = .run)
    (hpick : pickNext k.sched.queues = some (front, rest)) :
    k.Yields ↔
      (k.SwitchDue ∧ (k.tasks k.cpu).priority + 1 < 2 ^ 8 ∧
        (front ≠ k.cpu → (k.tasks front).priority < numQueues)) ∨
      (¬ k.SwitchDue ∧ front = k.cpu) := by
  have hcurrent : k.sched.current = some k.cpu := by
    refine (run_ok hrun).current_of_live ?_
    show (k.pc k.cpu).phase = .live
    rw [hpc]
    rfl
  have hcur : (k.sched.shouldReschedule k.tasks).current = some k.cpu :=
    MlfqScheduler.shouldReschedule_spec.2.trans hcurrent
  have hqueues : pickNext (k.sched.shouldReschedule k.tasks).queues = some (front, rest) := by
    rw [MlfqScheduler.shouldReschedule_spec.1]
    exact hpick
  rw [yields_iff_prepareSwitch hpc hpick, MlfqScheduler.prepareSwitch_yields_iff hcur hqueues,
    MlfqScheduler.shouldReschedule_needs hcurrent]
  rfl

/-- The slice of the boot task ends while a spinlock is held; then it yields to the idle task. -/
theorem yields_after_slice : ∃ k tr, exec (traced step) (boot, []) [.timer 1] = some (k, tr) ∧
    k.Yields := by
  have hfacts : ∃ s ∈ exec (traced step) (boot, []) [.timer 1],
      s.1.pc s.1.cpu = .run ∧ pickNext s.1.sched.queues = some (2, List.replicate 8 []) ∧
      s.1.sched.needsReschedule = true ∧ (s.1.tasks s.1.cpu).priority + 1 < 2 ^ 8 ∧
      (s.1.tasks 2).priority < numQueues := by decide +kernel
  obtain ⟨⟨k, tr⟩, hrun, hpc, hpick, hneeds, hup, hlt⟩ := hfacts
  exact ⟨k, tr, hrun, (yields_iff hrun hpc hpick).mpr (.inl ⟨.inl hneeds, hup, fun _ => hlt⟩)⟩

/-- Right after boot a yield does nothing: the idle task stays in its queue. -/
theorem yield_keeps_running : exec (traced step) (boot, []) [] = some (boot, []) ∧
    boot.pc boot.cpu = .run ∧ 2 ∈ boot.sched.queued ∧ ¬ boot.Yields := by
  refine ⟨rfl, rfl, by decide, ?_⟩
  have hfacts : ∀ s₁, boot.step (.call .yield) = some s₁ → ∀ s₂, s₁.1.step (.next 0) = some s₂ →
      ∀ s₃, s₂.1.step (.next 0) = some s₃ → s₃.1.sched.current = some 1 := by decide +kernel
  intro ⟨front, rest, k₁, k₂, k₃, es, hpick, hstep₁, hstep₂, hstep₃, hcur, _⟩
  have hone := hfacts _ hstep₁ _ hstep₂ _ hstep₃
  obtain rfl : 1 = front := some.inj (hone.symm.trans hcur)
  have htwo : pickNext boot.sched.queues = some (2, List.replicate 8 []) := rfl
  cases hpick.symm.trans htwo

end Kernel

end AlaphiOS.Sched
