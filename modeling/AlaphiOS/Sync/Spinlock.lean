import Mathlib.Algebra.Group.Nat.Defs
import Mathlib.Data.List.Count
import Mathlib.Logic.Function.Basic
import AlaphiOS.Lib.Run

/-!
# Spinlocks, step by step

The single processor with `kernel/src/sync/spinlock.rs`, the `PREEMPT_COUNT` of
`kernel/src/process/task.rs`, `schedule` and `tick` of `kernel/src/scheduler/mod.rs`, and
the two interrupt handlers of `kernel/src/arch/idt.rs` with `push_scancode`,
`pop_scancode` and `end_of_interrupt` of `kernel/src/arch/interrupts.rs`.

A step is one access to a flag or to the counter. `lock` is two of them, the
`compare_exchange` and `preempt_disable`, and so is the drop of a guard; `Phase` is where a
task is between the two. An interrupt may arrive between any two steps of a task.

`Inv` is what holds along every run in which the interrupts come only where `Q` holds of
the code they interrupt: the counter counts the guards, a task that does not run holds
none of the locks `P`, and so the running one has all of these that are locked.

Mirroring notes:
- A task's own code is arbitrary: it takes, tries and drops any `Spinlock`s in any order,
  calls `schedule` and `pop_scancode`. A handler runs on the stack of the task it
  interrupts, with interrupts disabled, as one more frame.
- Under `SCHEDULER` the locks of some tasks and of the heap are taken; which ones, and which
  task is switched to, is arbitrary.
- `switch_to` saves what runs in the outgoing task, if there is one, and goes on with what
  is saved in the incoming one. It does not restore the interrupt flag, so an interrupt may
  also come to a handler that was switched back to. That one has only its return left, and
  the new handler stands in its place.
- `PICS` and `SCANCODE_BUF` are `spin::Mutex`es: their guards do not count.
-/

namespace AlaphiOS.Sync

open Lib Function List Option

/-! ## Code -/

/-- The locks. -/
inductive Lock where
  | scheduler
  | task (t : Nat)
  | heap
  /-- Any other `Spinlock`. -/
  | other (n : Nat)
  | pics
  | scancodeBuf
  deriving DecidableEq

/-- Not a plain `Mutex`. -/
def Lock.isSpinlock : Lock → Bool
  | .pics | .scancodeBuf => false
  | _ => true

/-- Whether a handler takes it. -/
def Lock.inHandlers : Lock → Bool
  | .other _ => false
  | _ => true

/-- One access. -/
inductive Act where
  | lock (l : Lock)
  | tryLock (l : Lock)
  /-- The guard is dropped. -/
  | unlock (l : Lock)
  /-- The test of `preempt_count` in `schedule`; the rest is left out if it is positive. -/
  | test
  | switch (out : Option Nat) (incoming : Nat)
  deriving DecidableEq

/-- A guard that is alive during `body`. -/
def guarded (l : Lock) (body : List Act) : List Act := .lock l :: (body ++ [.unlock l])

/-- What is taken for a moment under `SCHEDULER`. -/
inductive Inner where
  | task (t : Nat)
  | heap

def Inner.lock : Inner → Lock
  | .task t => .task t
  | .heap => .heap

def inner (is : List Inner) : List Act := is.flatMap fun i => guarded i.lock []

/-- How one call of `schedule` goes. -/
structure Pick where
  /-- What `should_reschedule` takes. -/
  looks : List Inner
  /-- What `prepare_switch` takes. -/
  swaps : List Inner
  /-- What `prepare_switch` returns. -/
  pair : Option (Option Nat × Nat)

/-- `schedule`. -/
def schedule (p : Pick) : List Act :=
  .test :: (guarded .scheduler (inner p.looks) ++ guarded .scheduler (inner p.swaps) ++
    match p.pair with
    | some (out, incoming) => [.switch out incoming]
    | none => [])

/-- `timer_handler`: `end_of_interrupt`, `tick`, `schedule`. -/
def timerHandler (boosted : List Inner) (p : Pick) : List Act :=
  guarded .pics [] ++ guarded .scheduler (inner boosted) ++ schedule p

/-- `keyboard_handler`: `push_scancode`, which leaves the buffer alone if it is full, and
`end_of_interrupt`. -/
def keyboardHandler (full : Bool) : List Act :=
  (if full then [] else guarded .scancodeBuf []) ++ guarded .pics []

/-! ## The machine -/

/-- Between the two steps of `lock` or of a drop. -/
inductive Phase where
  | ready
  /-- After the `compare_exchange`, before `preempt_disable`. -/
  | disabling
  /-- After the `store`, before `preempt_enable`. -/
  | enabling
  deriving DecidableEq

/-- Code under way. -/
structure Frame where
  phase : Phase
  todo : List Act
  /-- The locks it has taken. -/
  guards : List Lock

/-- A task's stack: its own code and, on top of it, a handler. -/
structure Context where
  own : Frame
  irq : Option Frame

open Context

/-- The locks and the count. -/
structure Shared where
  locked : Lock → Bool
  /-- `PREEMPT_COUNT`, a `u32`. -/
  preemptCount : Nat

/-- The processor. -/
structure Machine where
  shared : Shared
  running : Context
  /-- Where each task was when it was switched away from. -/
  saved : Nat → Context

def Shared.set (s : Shared) (l : Lock) (b : Bool) : Shared :=
  { s with locked := update s.locked l b }

theorem Shared.set_locked_self (s : Shared) (l : Lock) (b : Bool) : (s.set l b).locked l = b :=
  update_self ..

variable {l : Lock} {f' : Frame} {s s' : Shared}

theorem Shared.set_locked_of_ne (s : Shared) {l' : Lock} (b : Bool) (h : l' ≠ l) :
    (s.set l b).locked l' = s.locked l' :=
  update_of_ne h ..

/-- `preempt_disable`. -/
def Shared.preemptDisable (s : Shared) : Shared :=
  { s with preemptCount := (s.preemptCount + 1) % 2 ^ 32 }

/-- `preempt_enable`. -/
def Shared.preemptEnable (s : Shared) : Shared :=
  { s with preemptCount := (s.preemptCount + (2 ^ 32 - 1)) % 2 ^ 32 }

/-- After a `compare_exchange` that succeeded. -/
def Frame.took (f : Frame) (l : Lock) (rest : List Act) : Frame :=
  ⟨if l.isSpinlock then .disabling else .ready, rest, l :: f.guards⟩

/-- After the `store` of a drop. -/
def Frame.dropped (f : Frame) (l : Lock) (rest : List Act) : Frame :=
  ⟨if l.isSpinlock then .enabling else .ready, rest, f.guards.erase l⟩

/-- The next step of a frame, other than a switch. -/
def Frame.step (f : Frame) (s : Shared) : Option (Frame × Shared) :=
  match f.phase with
  | .disabling => some ({ f with phase := .ready }, s.preemptDisable)
  | .enabling => some ({ f with phase := .ready }, s.preemptEnable)
  | .ready =>
    match f.todo with
    | .lock l :: rest => some (if s.locked l then (f, s) else (f.took l rest, s.set l true))
    | .tryLock l :: rest =>
      some (if s.locked l then ({ f with todo := rest }, s) else (f.took l rest, s.set l true))
    | .unlock l :: rest => some (f.dropped l rest, s.set l false)
    | .test :: rest => some ({ f with todo := if s.preemptCount > 0 then [] else rest }, s)
    | .switch _ _ :: _ => none
    | [] => none

namespace Context

/-- The frame that runs. -/
def top (c : Context) : Frame := c.irq.getD c.own

def setTop (c : Context) (f : Frame) : Context :=
  match c.irq with
  | some _ => { c with irq := some f }
  | none => { c with own := f }

/-- All locks that the context has. -/
def guards (c : Context) : List Lock := c.own.guards ++ ((c.irq.map Frame.guards).getD [])

/-- No handler runs, or only the return of one is left. -/
def interruptible (c : Context) : Bool :=
  match c.irq with
  | some f => f.phase = .ready ∧ f.todo = []
  | none => true

end Context

/-- What a task's own code begins. -/
inductive Call where
  | lock (l : Lock)
  | tryLock (l : Lock)
  | drop (l : Lock)
  | schedule (p : Pick)
  | popScancode

/-- The accesses of a call. -/
def Call.code : Call → List Act
  | .lock l => [.lock l]
  | .tryLock l => [.tryLock l]
  | .drop l => [.unlock l]
  | .schedule p => Sync.schedule p
  | .popScancode => guarded .scancodeBuf []

def Call.allowed (guards : List Lock) : Call → Bool
  | .lock l | .tryLock l => l.isSpinlock
  | .drop l => l ∈ guards
  | .schedule _ | .popScancode => true

/-- An interrupt. -/
inductive Irq where
  | timer (boosted : List Inner) (p : Pick)
  | keyboard (full : Bool)

/-- Its handler. -/
def Irq.code : Irq → List Act
  | .timer boosted p => timerHandler boosted p
  | .keyboard full => keyboardHandler full

/-- What can happen next. -/
inductive Op where
  | call (c : Call)
  | next
  | interrupt (i : Irq)

namespace Machine

/-- `switch_to`; `ctx` is what runs, behind the switch. -/
def switchTo (m : Machine) (out : Option Nat) (incoming : Nat) (ctx : Context) : Machine :=
  let saved := match out with
    | some t => update m.saved t ctx
    | none => m.saved
  { m with running := saved incoming, saved := saved }

/-- The next step of what runs. A handler that has nothing left returns. -/
def next (m : Machine) : Option Machine :=
  let f := m.running.top
  match f.phase, f.todo with
  | .ready, [] =>
    if m.running.irq.isSome then some { m with running := { m.running with irq := none } } else none
  | .ready, .switch out incoming :: rest =>
    some (m.switchTo out incoming (m.running.setTop { f with todo := rest }))
  | _, _ => (f.step m.shared).map fun (f', s') =>
      { m with shared := s', running := m.running.setTop f' }

/-- One step of the processor. -/
def step (m : Machine) : Op → Option Machine
  | .call c =>
    if m.running.irq.isNone ∧ m.running.own.phase = .ready ∧ m.running.own.todo = [] ∧
        c.allowed m.running.own.guards then
      some { m with running := ⟨{ m.running.own with todo := c.code }, none⟩ }
    else none
  | .next => m.next
  | .interrupt i =>
    if m.running.interruptible then
      some { m with running := { m.running with irq := some ⟨.ready, i.code, []⟩ } }
    else none

/-- Nothing is locked and every task is at the beginning of its code. -/
def boot : Machine :=
  ⟨⟨fun _ => false, 0⟩, ⟨⟨.ready, [], []⟩, none⟩, fun _ => ⟨⟨.ready, [], []⟩, none⟩⟩

/-- The next step is a switch. -/
def AtSwitch (m : Machine) : Prop :=
  m.running.top.phase = .ready ∧ ∃ out incoming rest, m.running.top.todo = .switch out incoming :: rest

end Machine

/-! ## What a step of a frame does -/

/-- What one access does. -/
inductive Moves : Frame → Shared → Frame → Shared → Prop
  | disable (todo : List Act) (g : List Lock) (s : Shared) :
    Moves ⟨.disabling, todo, g⟩ s ⟨.ready, todo, g⟩ s.preemptDisable
  | enable (todo : List Act) (g : List Lock) (s : Shared) :
    Moves ⟨.enabling, todo, g⟩ s ⟨.ready, todo, g⟩ s.preemptEnable
  /-- `compare_exchange` fails. -/
  | spin (f : Frame) (s : Shared) : Moves f s f s
  | fail (l : Lock) (rest : List Act) (g : List Lock) (s : Shared) :
    Moves ⟨.ready, .tryLock l :: rest, g⟩ s ⟨.ready, rest, g⟩ s
  | take (a : Act) (l : Lock) (rest : List Act) (g : List Lock) (s : Shared)
    (ha : a = .lock l ∨ a = .tryLock l) :
    Moves ⟨.ready, a :: rest, g⟩ s (Frame.took ⟨.ready, a :: rest, g⟩ l rest) (s.set l true)
  | drop (l : Lock) (rest : List Act) (g : List Lock) (s : Shared) :
    Moves ⟨.ready, .unlock l :: rest, g⟩ s (Frame.dropped ⟨.ready, .unlock l :: rest, g⟩ l rest)
      (s.set l false)
  | stay (rest : List Act) (g : List Lock) (s : Shared) (h : s.preemptCount > 0) :
    Moves ⟨.ready, .test :: rest, g⟩ s ⟨.ready, [], g⟩ s
  | pass (rest : List Act) (g : List Lock) (s : Shared) (h : s.preemptCount = 0) :
    Moves ⟨.ready, .test :: rest, g⟩ s ⟨.ready, rest, g⟩ s

/-- A step of a frame is a move. -/
theorem Frame.step_moves {f : Frame} (h : f.step s = some (f', s')) : Moves f s f' s' := by
  obtain ⟨phase, todo, g⟩ := f
  unfold Frame.step at h
  dsimp only at h
  split at h
  · cases some.inj h
    exact .disable todo g s
  · cases some.inj h
    exact .enable todo g s
  · split at h
    · split at h
      · cases some.inj h
        exact .spin _ s
      · cases some.inj h
        exact .take _ _ _ g s (.inl rfl)
    · split at h
      · cases some.inj h
        exact .fail _ _ g s
      · cases some.inj h
        exact .take _ _ _ g s (.inr rfl)
    · cases some.inj h
      exact .drop _ _ g s
    · cases some.inj h
      split
      next hpos => exact .stay _ g s hpos
      next hzero => exact .pass _ g s (Nat.eq_zero_of_not_pos hzero)
    · cases h
    · cases h

/-! ## What code may do -/

/-- The `Spinlock`s among the guards. -/
def spins (g : List Lock) : Nat := g.countP Lock.isSpinlock

/-- A handler (`irq`) ends without a guard, a task's code between two calls has guards of
`Spinlock`s only. -/
def AtEnd (irq : Bool) (g : List Lock) : Prop := ∀ l ∈ g, irq = false ∧ l.isSpinlock = true

/-- What is left to do is in order, with these guards. A handler takes no lock that it has,
and only those that `inHandlers` has. A switch comes without a guard of the frame, and only
if the code below it, which counts for `base`, has none either. -/
def Safe (irq : Bool) (base : Nat) : List Lock → List Act → Prop
  | g, [] => AtEnd irq g
  | g, .lock l :: rest =>
    (irq = true → l ∉ g ∧ l.inHandlers = true) ∧ Safe irq base (l :: g) rest
  | g, .tryLock l :: rest => irq = false ∧ Safe irq base g rest ∧ Safe irq base (l :: g) rest
  | g, .unlock l :: rest => l ∈ g ∧ Safe irq base (g.erase l) rest
  | g, .test :: rest => AtEnd irq g ∧ (g = [] → base = 0 → Safe irq base g rest)
  | g, .switch _ _ :: rest => g = [] ∧ base = 0 ∧ Safe irq base g rest

section

variable {irq : Bool} {base : Nat} {g : List Lock} {rest : List Act}

theorem safe_guarded {body : List Act} (hl : irq = true → l ∉ g ∧ l.inHandlers = true)
    (hbody : ∀ rest, Safe irq base (l :: g) rest → Safe irq base (l :: g) (body ++ rest))
    (hrest : Safe irq base g rest) : Safe irq base g (guarded l body ++ rest) := by
  show _ ∧ Safe irq base (l :: g) ((body ++ [.unlock l]) ++ rest)
  refine ⟨hl, ?_⟩
  rw [append_assoc]
  refine hbody _ (And.intro mem_cons_self ?_)
  rw [erase_cons_head]
  exact hrest

theorem safe_inner {is : List Inner} (hg : ∀ i : Inner, i.lock ∉ g) (hrest : Safe irq base g rest) :
    Safe irq base g (inner is ++ rest) := by
  induction is with
  | nil => exact hrest
  | cons i is ih =>
    unfold inner
    rw [flatMap_cons, append_assoc]
    refine safe_guarded (fun _ => ⟨hg i, ?_⟩) (fun _ h => h) ih
    cases i <;> rfl

/-- A stretch under `SCHEDULER`. -/
theorem safe_scheduler {is : List Inner} (hrest : Safe irq base [] rest) :
    Safe irq base [] (guarded .scheduler (inner is) ++ rest) := by
  refine safe_guarded (fun _ => ⟨not_mem_nil, rfl⟩) (fun _ h => safe_inner (fun i => ?_) h) hrest
  cases i <;> simp [Inner.lock]

/-- `schedule` is safe. -/
theorem safe_schedule (p : Pick) (hg : AtEnd irq g) : Safe irq base g (schedule p) := by
  refine And.intro hg ?_
  rintro rfl rfl
  rw [append_assoc]
  refine safe_scheduler (safe_scheduler ?_)
  split
  · exact And.intro rfl ⟨rfl, hg⟩
  · exact hg

/-- So are the handlers. -/
theorem safe_irq (i : Irq) : Safe true base [] i.code := by
  have hend : AtEnd true [] := nofun
  cases i with
  | timer boosted p =>
    show Safe true base [] (guarded .pics [] ++ guarded .scheduler (inner boosted) ++ schedule p)
    rw [append_assoc]
    refine safe_guarded (fun _ => ⟨not_mem_nil, rfl⟩) (fun _ h => h) ?_
    exact safe_scheduler (safe_schedule p hend)
  | keyboard full =>
    have heoi : Safe true base [] (guarded .pics [] ++ []) :=
      safe_guarded (fun _ => ⟨not_mem_nil, rfl⟩) (fun _ h => h) hend
    cases full with
    | true => exact heoi
    | false => exact safe_guarded (fun _ => ⟨not_mem_nil, rfl⟩) (fun _ h => h) heoi

/-- So is every call that is allowed. -/
theorem safe_call {c : Call} (hg : AtEnd false g) (hc : c.allowed g = true) :
    Safe false 0 g c.code := by
  have hcons {l : Lock} (hl : l.isSpinlock = true) : AtEnd false (l :: g) := by
    intro l' hl'
    rcases mem_cons.mp hl' with rfl | hl'
    · exact ⟨rfl, hl⟩
    · exact hg l' hl'
  cases c with
  | lock l => exact And.intro (fun h => nomatch h) (hcons hc)
  | tryLock l => exact And.intro rfl ⟨hg, hcons hc⟩
  | drop l =>
    exact And.intro (of_decide_eq_true hc) fun l' hl' => hg l' (mem_of_mem_erase hl')
  | schedule p => exact safe_schedule p hg
  | popScancode =>
    have hempty : Safe false 0 g (guarded .scancodeBuf [] ++ []) :=
      safe_guarded (fun h => nomatch h) (fun _ h => h) hg
    exact hempty

end

/-! ## The counter -/

/-- What a frame counts for in `PREEMPT_COUNT`. -/
def Frame.depth (f : Frame) : Nat :=
  match f.phase with
  | .ready => spins f.guards
  | .disabling => spins f.guards - 1
  | .enabling => spins f.guards + 1

/-- A frame that counts for its part of `count`, the code below it for `base`. -/
structure Frame.Fits (irq : Bool) (base : Nat) (f : Frame) (count : Nat) : Prop where
  taken : f.phase = .disabling → 0 < spins f.guards
  counted : count = f.depth + base
  safe : Safe irq base f.guards f.todo

theorem spins_cons {g : List Lock} :
    spins (l :: g) = spins g + if l.isSpinlock then 1 else 0 := countP_cons

theorem spins_erase {g : List Lock} (h : l ∈ g) :
    spins g = spins (g.erase l) + if l.isSpinlock then 1 else 0 := by
  rw [← spins_cons]
  exact ((perm_cons_erase h).countP_eq _)

theorem eq_nil_of_atEnd {irq : Bool} {g : List Lock} (h : AtEnd irq g) (hspins : spins g = 0) :
    g = [] := by
  rw [eq_nil_iff_forall_not_mem]
  intro l hl
  exact countP_eq_zero.mp hspins l hl (h l hl).2

/-- The two steps of `lock` count for one guard with the second of them. -/
theorem Frame.took_fits {irq : Bool} {base count : Nat} {rest : List Act} {f : Frame}
    (hready : f.phase = .ready) (hcounted : count = f.depth + base)
    (hsafe : Safe irq base (l :: f.guards) rest) : (f.took l rest).Fits irq base count := by
  unfold depth at hcounted
  rw [hready] at hcounted
  cases hl : l.isSpinlock with
  -- Taken and not yet counted: that is the phase `disabling`.
  | true =>
    refine ⟨fun _ => ?_, ?_, hsafe⟩
    · show 0 < spins (l :: f.guards)
      rw [spins_cons, if_pos hl]
      exact Nat.succ_pos _
    · simp [hcounted, took, depth, spins_cons, hl]
  | false =>
    refine ⟨?_, ?_, hsafe⟩
    · simp [took, hl]
    · simp [hcounted, took, depth, spins_cons, hl]

/-- A guard that is dropped counts until the second step. -/
theorem Frame.dropped_fits {irq : Bool} {base count : Nat} {rest : List Act} {f : Frame}
    (hready : f.phase = .ready) (hcounted : count = f.depth + base) (hl : l ∈ f.guards)
    (hsafe : Safe irq base (f.guards.erase l) rest) : (f.dropped l rest).Fits irq base count := by
  unfold depth at hcounted
  rw [hready] at hcounted
  dsimp only at hcounted
  rw [spins_erase hl] at hcounted
  cases hspin : l.isSpinlock with
  | true | false =>
      exact ⟨by simp [dropped, hspin], by simp [hcounted, dropped, depth, hspin], hsafe⟩

/-- A move keeps the count in step with the guards. -/
theorem Moves.fits {irq : Bool} {base : Nat} {f : Frame} (h : Moves f s f' s')
    (hcount : s.preemptCount + 1 < 2 ^ 32) (hfits : f.Fits irq base s.preemptCount) :
    f'.Fits irq base s'.preemptCount := by
  obtain ⟨htaken, hcounted, hsafe⟩ := hfits
  cases h with
  | disable todo g =>
    have hpos : 0 < spins g := htaken rfl
    have hdepth : s.preemptCount = spins g - 1 + base := hcounted
    refine ⟨(fun h => nomatch h), ?_, hsafe⟩
    show (s.preemptCount + 1) % 2 ^ 32 = spins g + base
    rw [Nat.mod_eq_of_lt hcount]
    omega
  | enable todo g =>
    have hdepth : s.preemptCount = spins g + 1 + base := hcounted
    refine ⟨(fun h => nomatch h), ?_, hsafe⟩
    show (s.preemptCount + (2 ^ 32 - 1)) % 2 ^ 32 = spins g + base
    omega
  | spin => exact ⟨htaken, hcounted, hsafe⟩
  | fail l rest g => exact ⟨(fun h => nomatch h), hcounted, hsafe.2.1⟩
  | take a l rest g _ ha =>
    refine Frame.took_fits rfl hcounted ?_
    rcases ha with rfl | rfl
    · exact hsafe.2
    · exact hsafe.2.2
  | drop l rest g => exact Frame.dropped_fits rfl hcounted hsafe.1 hsafe.2
  | stay rest g => exact ⟨(fun h => nomatch h), hcounted, hsafe.1⟩
  | pass rest g _ hzero =>
    -- A counter of 0 says that neither this frame nor the code below it has a guard.
    have hdepth : s.preemptCount = spins g + base := hcounted
    refine ⟨(fun h => nomatch h), hcounted, hsafe.2 (eq_nil_of_atEnd hsafe.1 ?_) ?_⟩
    · show spins g = 0
      omega
    · omega

/-- What is locked after a step, the frame has, or it was locked before and the frame has
not dropped it. -/
theorem Moves.locked {f : Frame} (h : Moves f s f' s') (hl : s'.locked l = true) :
    l ∈ f'.guards ∨ (s.locked l = true ∧ (l ∈ f.guards → l ∈ f'.guards)) := by
  cases h with
  | disable | enable | spin | fail | stay | pass => exact .inr ⟨hl, id⟩
  | take a l' rest g =>
    by_cases heq : l = l'
    · exact .inl (heq ▸ mem_cons_self)
    · rw [Shared.set_locked_of_ne s true heq] at hl
      exact .inr ⟨hl, mem_cons_of_mem l'⟩
  | drop l' rest g =>
    by_cases heq : l = l'
    · rw [heq, Shared.set_locked_self] at hl
      cases hl
    · rw [Shared.set_locked_of_ne s false heq] at hl
      exact .inr ⟨hl, (mem_erase_of_ne heq).mpr⟩

/-! ## Contexts -/

namespace Context

/-- What the code below the running frame counts for. -/
def base (c : Context) : Nat := if c.irq.isSome then c.own.depth else 0

/-- A context that counts for `count`. Code that is interrupted waits in order. -/
structure Fits (c : Context) (count : Nat) : Prop where
  top : c.top.Fits c.irq.isSome c.base count
  own : c.irq.isSome = true → c.own.Fits false 0 c.own.depth

variable {c : Context} {f : Frame} {count : Nat}

theorem top_setTop : (c.setTop f).top = f := by
  obtain ⟨own, _ | irq⟩ := c <;> rfl

theorem isSome_setTop : (c.setTop f).irq.isSome = c.irq.isSome := by
  obtain ⟨own, _ | irq⟩ := c <;> rfl

theorem own_setTop (h : c.irq.isSome = true) : (c.setTop f).own = c.own := by
  obtain ⟨own, _ | irq⟩ := c
  · cases h
  · rfl

/-- The guards of a context. -/
theorem mem_guards :
    l ∈ c.guards ↔ l ∈ c.top.guards ∨ (c.irq.isSome = true ∧ l ∈ c.own.guards) := by
  obtain ⟨own, _ | irq⟩ := c
  · simp [guards, top]
  · simp [guards, top, or_comm]

section

variable (h : c.Fits count)

include h

theorem Fits.setTop {count' : Nat} (hf : f.Fits c.irq.isSome c.base count') :
    (c.setTop f).Fits count' := by
  obtain ⟨own, _ | irq⟩ := c
  · exact ⟨hf, fun h => nomatch h⟩
  · exact ⟨hf, h.own⟩

/-- A handler that has returned has left nothing behind. -/
theorem Fits.pop (hirq : c.irq = some f) (hready : f.phase = .ready)
    (hdone : f.todo = []) : f.guards = [] ∧ Fits ⟨c.own, none⟩ count := by
  obtain ⟨own, irq⟩ := c
  obtain rfl : irq = some f := hirq
  have htop : f.Fits true own.depth count := h.top
  have hend : AtEnd true f.guards := by
    have hsafe := htop.safe
    rwa [hdone] at hsafe
  have hnil : f.guards = [] :=
    eq_nil_iff_forall_not_mem.mpr fun l hl => nomatch (hend l hl).1
  have hdepth : f.depth = 0 := by
    unfold Frame.depth
    rw [hready, hnil]
    rfl
  have hcount : count = own.depth := by
    have hcounted := htop.counted
    rw [hdepth] at hcounted
    omega
  refine ⟨hnil, ⟨?_, fun h => nomatch h⟩⟩
  rw [hcount]
  exact h.own rfl

/-- Where an interrupt may come, only the task's own code counts. -/
theorem Fits.interruptible (hc : c.interruptible = true) :
    c.guards = c.own.guards ∧ c.own.Fits false 0 count := by
  unfold Context.interruptible at hc
  split at hc
  next f hirq =>
    obtain ⟨hready, hdone⟩ := of_decide_eq_true hc
    obtain ⟨hnil, hfits⟩ := h.pop hirq hready hdone
    refine ⟨?_, hfits.top⟩
    unfold guards
    rw [hirq]
    show c.own.guards ++ f.guards = c.own.guards
    rw [hnil, append_nil]
  next hirq =>
    obtain ⟨own, irq⟩ := c
    obtain rfl : irq = none := hirq
    exact ⟨append_nil _, h.top⟩

theorem Fits.interrupt (hc : c.interruptible = true) (i : Irq) :
    Fits ⟨c.own, some ⟨.ready, i.code, []⟩⟩ count := by
  have hown := (h.interruptible hc).2
  have hcount : count = c.own.depth := hown.counted
  refine ⟨⟨(fun h => nomatch h), ?_, safe_irq i⟩, fun _ => hcount ▸ hown⟩
  show count = 0 + c.own.depth
  omega

theorem Fits.call (hnone : c.irq = none) (hidle : c.own.todo = []) {call : Call}
    (hallowed : call.allowed c.own.guards = true) :
    Fits ⟨{ c.own with todo := call.code }, none⟩ count := by
  obtain ⟨own, irq⟩ := c
  obtain rfl : irq = none := hnone
  have htop : own.Fits false 0 count := h.top
  have hend : AtEnd false own.guards := by
    have hsafe := htop.safe
    rwa [show own.todo = [] from hidle] at hsafe
  exact ⟨⟨htop.taken, htop.counted, safe_call hend hallowed⟩, fun h => nomatch h⟩

/-- At a switch the counter is 0, and so is what the code below the running frame counts for. -/
theorem Fits.atSwitch (hready : c.top.phase = .ready) {out : Option Nat}
    {incoming : Nat} {rest : List Act} (htodo : c.top.todo = .switch out incoming :: rest) :
    count = 0 ∧ c.top.guards = [] ∧ c.base = 0 ∧ (c.setTop { c.top with todo := rest }).Fits 0 := by
  have hsafe : c.top.guards = [] ∧ c.base = 0 ∧ Safe c.irq.isSome c.base c.top.guards rest := by
    have hsafe := h.top.safe
    rwa [htodo] at hsafe
  obtain ⟨hnil, hbase, hrest⟩ := hsafe
  have hdepth : c.top.depth = 0 := by
    unfold Frame.depth
    rw [hready, hnil]
    rfl
  have hcount : count = 0 := by
    rw [h.top.counted, hdepth, hbase]
  subst hcount
  exact ⟨rfl, hnil, hbase, h.setTop ⟨h.top.taken, h.top.counted, hrest⟩⟩

end

end Context

/-! ## Runs -/

namespace Machine

variable {m m' : Machine}

/-- What `next` does. -/
theorem next_cases (h : m.next = some m') :
    (∃ f, m.running.irq = some f ∧ f.phase = .ready ∧ f.todo = [] ∧
      m' = { m with running := ⟨m.running.own, none⟩ }) ∨
    (∃ out incoming rest, m.running.top.phase = .ready ∧
      m.running.top.todo = .switch out incoming :: rest ∧
      m' = m.switchTo out incoming (m.running.setTop { m.running.top with todo := rest })) ∨
    ∃ f' s', Moves m.running.top m.shared f' s' ∧
      m' = { m with shared := s', running := m.running.setTop f' } := by
  unfold next at h
  dsimp only at h
  split at h
  next hready hdone =>
    split at h
    next hsome =>
      obtain ⟨f, hirq⟩ := isSome_iff_exists.mp hsome
      have htop : m.running.top = f := by
        unfold top
        rw [hirq]
        rfl
      exact .inl ⟨f, hirq, htop ▸ hready, htop ▸ hdone, (some.inj h).symm⟩
    · cases h
  next out incoming rest hready htodo =>
    exact .inr (.inl ⟨out, incoming, rest, hready, htodo, (some.inj h).symm⟩)
  · obtain ⟨⟨f', s'⟩, hstep, rfl⟩ := map_inv h
    exact .inr (.inr ⟨f', s', Frame.step_moves hstep, rfl⟩)

/-- A context that does not run: it counts for nothing, holds none of the locks `P`, and `Q`
holds of the code below a handler. -/
structure Rests (Q : Frame → Prop) (P : Lock → Bool) (c : Context) : Prop where
  fits : c.Fits 0
  below : c.irq.isSome = true → Q c.own
  clear : ∀ l ∈ c.guards, P l = false

/-- The counter counts what runs. The locks `P` that are locked are held by what runs. -/
structure Inv (Q : Frame → Prop) (P : Lock → Bool) (m : Machine) : Prop where
  running : m.running.Fits m.shared.preemptCount
  below : m.running.irq.isSome = true → Q m.running.own
  held : ∀ l, P l = true → m.shared.locked l = true → l ∈ m.running.guards
  saved : ∀ t, Rests Q P (m.saved t)

/-- Interrupts come where `Q` holds of the code that runs, and the counter is not about to
wrap around. -/
def Permits (Q : Frame → Prop) (m : Machine) (op : Op) : Prop :=
  (match op with
    | .interrupt _ => Q m.running.own
    | .call _ | .next => True) ∧ m.shared.preemptCount + 1 < 2 ^ 32

/-- Code that counts for nothing, and of which `Q` holds, has none of the locks `P`. -/
def Suffices (Q : Frame → Prop) (P : Lock → Bool) : Prop :=
  ∀ f : Frame, f.Fits false 0 0 → Q f → ∀ l ∈ f.guards, P l = false

section

variable {Q : Frame → Prop} {P : Lock → Bool}

/-- Nothing of `P` is held at a switch. -/
theorem Inv.clear_of_atSwitch (h : Inv Q P m) (hQ : Suffices Q P) (hat : m.AtSwitch) :
    ∀ l ∈ m.running.guards, P l = false := by
  obtain ⟨hready, out, incoming, rest, htodo⟩ := hat
  obtain ⟨-, hnil, hbase, -⟩ := h.running.atSwitch hready htodo
  intro l hl
  rcases mem_guards.mp hl with htop | ⟨hsome, hown⟩
  · rw [hnil] at htop
    cases htop
  · have hdepth : m.running.own.depth = 0 := by
      unfold base at hbase
      rwa [if_pos hsome] at hbase
    have hfits := h.running.own hsome
    rw [hdepth] at hfits
    exact hQ _ hfits (h.below hsome) l hown

/-- A switch keeps the invariant. -/
theorem Inv.switch (h : Inv Q P m) (hQ : Suffices Q P) {out : Option Nat} {incoming : Nat}
    {rest : List Act} (hready : m.running.top.phase = .ready)
    (htodo : m.running.top.todo = .switch out incoming :: rest) :
    Inv Q P (m.switchTo out incoming (m.running.setTop { m.running.top with todo := rest })) := by
  have hclear := h.clear_of_atSwitch hQ ⟨hready, out, incoming, rest, htodo⟩
  obtain ⟨hcount, -, -, hfits⟩ := h.running.atSwitch hready htodo
  -- What is switched away from rests: at a switch it has nothing of `P`.
  have hrests : Rests Q P (m.running.setTop { m.running.top with todo := rest }) := by
    refine ⟨hfits, fun hsome => ?_, fun l hl => hclear l ?_⟩
    · rw [isSome_setTop] at hsome
      rw [own_setTop hsome]
      exact h.below hsome
    · rw [mem_guards, top_setTop, isSome_setTop] at hl
      rcases hl with htop | ⟨hsome, hown⟩
      · exact mem_guards.mpr (.inl htop)
      · rw [own_setTop hsome] at hown
        exact mem_guards.mpr (.inr ⟨hsome, hown⟩)
  -- It is saved in the outgoing task, if there is one.
  have hsaved : ∀ t, Rests Q P ((match out with
      | some t => update m.saved t (m.running.setTop { m.running.top with todo := rest })
      | none => m.saved) t) := by
    intro t
    cases out with
    | none => exact h.saved t
    | some t' =>
      by_cases heq : t = t'
      · rw [heq]
        show Rests Q P (update m.saved t' _ t')
        rw [update_self]
        exact hrests
      · show Rests Q P (update m.saved t' _ t)
        rw [update_of_ne heq]
        exact h.saved t
  refine ⟨?_, (hsaved incoming).below, fun l hP hl => ?_, hsaved⟩
  · show Context.Fits _ m.shared.preemptCount
    rw [hcount]
    exact (hsaved incoming).fits
  · -- Whatever of `P` is locked was held by what ran, which holds none of it.
    exact absurd hP (by simp [hclear l (h.held l hP hl)])

/-- So does a move. -/
theorem Inv.moves (h : Inv Q P m) (hcount : m.shared.preemptCount + 1 < 2 ^ 32)
    (hm : Moves m.running.top m.shared f' s') :
    Inv Q P { m with shared := s', running := m.running.setTop f' } := by
  refine ⟨h.running.setTop (hm.fits hcount h.running.top), fun hsome => ?_, fun l hP hl => ?_, h.saved⟩
  · rw [isSome_setTop] at hsome
    rw [own_setTop hsome]
    exact h.below hsome
  · rw [mem_guards, top_setTop, isSome_setTop]
    rcases hm.locked hl with hnew | ⟨hold, hkeep⟩
    · exact .inl hnew
    · rcases mem_guards.mp (h.held l hP hold) with htop | ⟨hsome, hown⟩
      · exact .inl (hkeep htop)
      · exact .inr ⟨hsome, by rwa [own_setTop hsome]⟩

theorem Inv.next (h : Inv Q P m) (hQ : Suffices Q P) (hcount : m.shared.preemptCount + 1 < 2 ^ 32)
    (hnext : m.next = some m') : Inv Q P m' := by
  rcases next_cases hnext with ⟨f, hirq, hready, hdone, rfl⟩ |
    ⟨out, incoming, rest, hready, htodo, rfl⟩ | ⟨f', s', hm, rfl⟩
  -- The handler returns, and leaves no guard behind.
  · obtain ⟨hnil, hfits⟩ := h.running.pop hirq hready hdone
    refine ⟨hfits, (fun h => nomatch h), fun l hP hl => ?_, h.saved⟩
    have hmem := h.held l hP hl
    unfold guards at hmem ⊢
    rw [hirq] at hmem
    simpa [hnil] using hmem
  · exact h.switch hQ hready htodo
  · exact h.moves hcount hm

/-- **So does every step.** -/
theorem Inv.step (h : Inv Q P m) (hQ : Suffices Q P) {op : Op} (hop : m.Permits Q op)
    (hstep : m.step op = some m') : Inv Q P m' := by
  cases op with
  | next => exact h.next hQ hop.2 hstep
  | call c =>
    simp only [Machine.step] at hstep
    split at hstep
    next hcall =>
      cases some.inj hstep
      obtain ⟨hnone, -, hidle, hallowed⟩ := hcall
      have hirq := isNone_iff_eq_none.mp hnone
      refine ⟨h.running.call hirq hidle hallowed, (fun h => nomatch h), fun l hP hl => ?_, h.saved⟩
      have hmem := h.held l hP hl
      unfold guards at hmem
      rw [hirq] at hmem
      exact hmem
    · cases hstep
  -- A handler begins without guards; `Q` holds of what it interrupts.
  | interrupt i =>
    simp only [Machine.step] at hstep
    split at hstep
    next hc =>
      cases some.inj hstep
      refine ⟨h.running.interrupt hc i, fun _ => hop.1, fun l hP hl => ?_, h.saved⟩
      have hmem := h.held l hP hl
      rw [(h.running.interruptible hc).1] at hmem
      exact mem_append_left _ hmem
    · cases hstep

theorem inv_boot : Inv Q P boot := by
  have hfits : Context.Fits ⟨⟨.ready, [], []⟩, none⟩ 0 :=
    ⟨⟨(fun h => nomatch h), rfl, nofun⟩, fun h => nomatch h⟩
  refine ⟨hfits, (fun h => nomatch h), (fun _ _ hl => nomatch hl), fun t => ⟨hfits, ?_, nofun⟩⟩
  exact fun h => nomatch h

theorem inv_of_exec (hQ : Suffices Q P) {ops : List Op} (hguard : Along step (Permits Q) boot ops)
    (hrun : exec step boot ops = some m) : Inv Q P m :=
  exec_induction (I := Inv Q P) (fun _ _ _ hI hop hs => hI.step hQ hop hs) inv_boot hguard hrun

end

end Machine

end AlaphiOS.Sync
