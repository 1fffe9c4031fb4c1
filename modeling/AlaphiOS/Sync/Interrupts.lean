import AlaphiOS.Sync.Spinlock

/-!
# Interrupts and spinlocks

Two things a `Spinlock` is meant to give on one processor, and the interrupts at which it
does not.

**No switch with a lock held.** `lock` raises the counter one step after it has taken the
lock. A timer interrupt between the two finds the counter at 0 and switches
(`switched_while_held`). If no interrupt comes there, no task is ever switched away from
with a `Spinlock` held (`no_switch_while_held`).

**No handler waits for what it interrupted.** A `Spinlock` keeps the scheduler away, not the
interrupts: a timer interrupt in a stretch under `SCHEDULER` spins in `tick` for ever
(`handler_spins`). If interrupts come only where the code they interrupt has none of the
locks that the handlers take, a handler finds each of its locks free
(`handlers_never_spin`).
-/

namespace AlaphiOS.Sync.Machine

open Lib List

variable {m : Machine} {ops : List Op}

instance (Q : Frame → Prop) [DecidablePred Q] (m : Machine) : (op : Op) → Decidable (Permits Q m op)
  | .interrupt _ =>
    inferInstanceAs (Decidable (Q m.running.own ∧ m.shared.preemptCount + 1 < 2 ^ 32))
  | .call _ | .next => inferInstanceAs (Decidable (True ∧ m.shared.preemptCount + 1 < 2 ^ 32))

/-! ## Switches -/

/-- Not between a `compare_exchange` and its `preempt_disable`. -/
def Settled (f : Frame) : Prop := f.phase ≠ .disabling

instance : DecidablePred Settled := fun f => inferInstanceAs (Decidable (f.phase ≠ .disabling))

/-- Outside of that moment a `Spinlock` counts. -/
theorem spins_le_depth {f : Frame} (h : Settled f) : spins f.guards ≤ f.depth := by
  unfold Frame.depth
  cases hphase : f.phase with
  | ready => exact Nat.le_refl _
  | disabling => exact absurd hphase h
  | enabling => exact Nat.le_succ _

theorem spins_pos {g : List Lock} {l : Lock} (hl : l ∈ g) (hspin : l.isSpinlock = true) : 0 < spins g :=
  countP_pos_iff.mpr ⟨l, hl, hspin⟩

theorem suffices_settled : Suffices Settled Lock.isSpinlock := by
  intro f hfits hsettled l hl
  by_contra hspin
  have hpos := spins_pos hl (eq_true_of_ne_false hspin)
  have hle := spins_le_depth hsettled
  have hcounted := hfits.counted
  omega

/-- **No context switch while a spinlock is held.** -/
theorem no_switch_while_held (hguard : Along step (Permits Settled) boot ops)
    (hrun : exec step boot ops = some m) :
    (m.AtSwitch → ∀ l ∈ m.running.guards, l.isSpinlock = false) ∧
    (Settled m.running.top → ∀ l, l.isSpinlock = true → m.shared.locked l = true →
      0 < m.shared.preemptCount) := by
  have hinv : Inv Settled Lock.isSpinlock m := inv_of_exec suffices_settled hguard hrun
  refine ⟨hinv.clear_of_atSwitch suffices_settled, fun hsettled l hspin hlocked => ?_⟩
  rw [hinv.running.top.counted]
  rcases Context.mem_guards.mp (hinv.held l hspin hlocked) with htop | ⟨hsome, hown⟩
  · have hpos := spins_pos htop hspin
    have hle := spins_le_depth hsettled
    omega
  · have hpos := spins_pos hown hspin
    have hle := spins_le_depth (hinv.below hsome)
    unfold Context.base
    rw [if_pos hsome]
    omega

/-- A task takes a lock, a timer interrupt comes, and its `schedule` finds a task to switch
to. The first number is how often the task goes on before the interrupt. -/
def lockThenTimer (steps afterwards : Nat) : List Op :=
  .call (.lock (.other 0)) :: (replicate steps .next ++
    .interrupt (.timer [] ⟨[], [], some (some 0, 1)⟩) :: replicate afterwards .next)

/-- The interrupt comes behind `preempt_disable`. -/
theorem no_switch_while_held_counted :
    Along step (Permits Settled) boot (lockThenTimer 2 6) ∧
    ∃ m, exec step boot (lockThenTimer 2 6) = some m ∧ m.shared.locked (.other 0) = true ∧
      (m.AtSwitch → ∀ l ∈ m.running.guards, l.isSpinlock = false) ∧
      (Settled m.running.top → ∀ l, l.isSpinlock = true → m.shared.locked l = true →
        0 < m.shared.preemptCount) := by
  have hguard : Along step (Permits Settled) boot (lockThenTimer 2 6) := by decide +kernel
  obtain ⟨m, hrun, hlocked⟩ : ∃ m ∈ exec step boot (lockThenTimer 2 6),
      m.shared.locked (.other 0) = true := by
    decide +kernel
  exact ⟨hguard, m, hrun, hlocked, no_switch_while_held hguard hrun⟩

/-- The interrupt comes between the `compare_exchange` and `preempt_disable`. -/
theorem switched_while_held :
    ∃ m, exec step boot (lockThenTimer 1 15) = some m ∧ m.AtSwitch ∧
      (∃ l ∈ m.running.guards, l.isSpinlock = true) ∧ m.shared.preemptCount = 0 := by
  obtain ⟨m, hrun, hready, htodo, hheld, hcount⟩ : ∃ m ∈ exec step boot (lockThenTimer 1 15),
      m.running.top.phase = .ready ∧ m.running.top.todo = [.switch (some 0) 1] ∧
      .other 0 ∈ m.running.guards ∧ m.shared.preemptCount = 0 := by
    decide +kernel
  exact ⟨m, hrun, ⟨hready, some 0, 1, [], htodo⟩, ⟨.other 0, hheld, rfl⟩, hcount⟩

/-! ## Handlers -/

/-- Code that has none of the locks the handlers take. -/
def OffHandlers (f : Frame) : Prop := ∀ l ∈ f.guards, l.inHandlers = false

instance : DecidablePred OffHandlers :=
  fun f => inferInstanceAs (Decidable (∀ l ∈ f.guards, l.inHandlers = false))

/-- The handler `f` is about to take the lock `l`. -/
structure AboutToLock (m : Machine) (f : Frame) (l : Lock) (rest : List Act) : Prop where
  irq : m.running.irq = some f
  ready : f.phase = .ready
  todo : f.todo = .lock l :: rest

variable {f : Frame} {l : Lock} {rest : List Act}

theorem AboutToLock.top (h : m.AboutToLock f l rest) : m.running.top = f := by
  unfold Context.top
  rw [h.irq]
  rfl

/-- What the next step does: the `compare_exchange`. -/
theorem AboutToLock.step_next (h : m.AboutToLock f l rest) :
    m.step .next = some (if m.shared.locked l then m
      else ⟨m.shared.set l true, ⟨m.running.own, some (f.took l rest)⟩, m.saved⟩) := by
  obtain ⟨shared, ⟨own, irq⟩, saved⟩ := m
  obtain rfl : irq = some f := h.irq
  obtain ⟨phase, todo, g⟩ := f
  obtain rfl : phase = .ready := h.ready
  obtain rfl : todo = .lock l :: rest := h.todo
  show some _ = some _
  cases shared.locked l <;> rfl

/-- **Interrupt handlers never spin on a lock of the code they interrupted**: what a handler is
about to take, that code does not hold, and nobody else does; so it gets it at once. -/
theorem handlers_never_spin (hguard : Along step (Permits OffHandlers) boot ops)
    (hrun : exec step boot ops = some m) (hlock : m.AboutToLock f l rest) :
    l ∉ m.running.own.guards ∧ m.shared.locked l = false ∧
      ∃ m', m.step .next = some m' ∧ m'.running.irq = some (f.took l rest) := by
  have hinv : Inv OffHandlers Lock.inHandlers m :=
    inv_of_exec (fun _ _ hoff => hoff) hguard hrun
  have hsome : m.running.irq.isSome = true := by
    rw [hlock.irq]
    rfl
  have hsafe := hinv.running.top.safe
  rw [hlock.top, hsome, hlock.todo] at hsafe
  obtain ⟨hnot, hin⟩ := hsafe.1 rfl
  have hown : l ∉ m.running.own.guards := fun hl => by
    rw [hinv.below hsome l hl] at hin
    cases hin
  have hfree : m.shared.locked l = false := by
    refine Bool.eq_false_iff.mpr fun hlocked => ?_
    rcases Context.mem_guards.mp (hinv.held l hin hlocked) with hl | ⟨-, hl⟩
    · rw [hlock.top] at hl
      exact hnot hl
    · exact hown hl
  refine ⟨hown, hfree, _, hlock.step_next, ?_⟩
  rw [if_neg (by simp [hfree])]

/-- A handler whose lock is taken spins for ever: nothing else can happen on this processor. -/
theorem AboutToLock.spins (h : m.AboutToLock f l rest) (hlocked : m.shared.locked l = true) :
    ∀ n, exec step m (replicate n .next) = some m
  | 0 => rfl
  | n + 1 => by
    rw [replicate_succ, exec, h.step_next, if_pos hlocked]
    exact h.spins hlocked n

theorem exists_aboutToLock
    (h : m.running.irq.any (fun f => f.phase = .ready ∧ f.todo.head? = some (.lock l)) = true) :
    ∃ f rest, m.AboutToLock f l rest := by
  obtain ⟨f, hirq, hf⟩ := (Option.any_eq_true _ _).mp h
  obtain ⟨hready, hhead⟩ := of_decide_eq_true hf
  obtain ⟨rest, htodo⟩ := head?_eq_some_iff.mp hhead
  exact ⟨f, rest, hirq, hready, htodo⟩

/-- A task that has taken `l`, and a timer interrupt that goes on for two steps. -/
def timerUnder (l : Lock) : List Op :=
  [.call (.lock l), .next, .next, .interrupt (.timer [] ⟨[], [], none⟩), .next, .next]

/-- With a lock that no handler takes. -/
theorem handlers_never_spin_other :
    Along step (Permits OffHandlers) boot (timerUnder (.other 0)) ∧
    ∃ m f rest, exec step boot (timerUnder (.other 0)) = some m ∧ m.AboutToLock f .scheduler rest ∧
      .scheduler ∉ m.running.own.guards ∧ m.shared.locked .scheduler = false ∧
      ∃ m', m.step .next = some m' ∧ m'.running.irq = some (f.took .scheduler rest) := by
  have hguard : Along step (Permits OffHandlers) boot (timerUnder (.other 0)) := by decide +kernel
  obtain ⟨m, hrun, hirq⟩ : ∃ m ∈ exec step boot (timerUnder (.other 0)), m.running.irq.any (fun f =>
      f.phase = .ready ∧ f.todo.head? = some (.lock .scheduler)) = true := by
    decide +kernel
  obtain ⟨f, rest, hlock⟩ := exists_aboutToLock hirq
  exact ⟨hguard, m, f, rest, hrun, hlock, handlers_never_spin hguard hrun hlock⟩

/-- Under `SCHEDULER`: `tick` spins, and goes on to. -/
theorem handler_spins :
    ∃ m f rest, exec step boot (timerUnder .scheduler) = some m ∧ m.AboutToLock f .scheduler rest ∧
      .scheduler ∈ m.running.own.guards ∧ ∀ n, exec step m (replicate n .next) = some m := by
  obtain ⟨m, hrun, hirq, hheld, hlocked⟩ : ∃ m ∈ exec step boot (timerUnder .scheduler),
      m.running.irq.any (fun f => f.phase = .ready ∧ f.todo.head? = some (.lock .scheduler)) = true ∧
      .scheduler ∈ m.running.own.guards ∧ m.shared.locked .scheduler = true := by
    decide +kernel
  obtain ⟨f, rest, hlock⟩ := exists_aboutToLock hirq
  exact ⟨m, f, rest, hrun, hlock, hheld, hlock.spins hlocked⟩

end AlaphiOS.Sync.Machine
