import AlaphiOS.Lib.Checked
import AlaphiOS.Lib.Run
import Mathlib.Data.Multiset.Count
import Mathlib.Logic.Function.Basic

/-!
# The multi-level feedback queue

`kernel/src/scheduler/mlfq.rs`. Eight ready queues, a current task, and a flag
that asks for a switch. A task in the scheduler is an `Arc` to the one task
object that `TASK_TABLE` has too, so the scheduler works on task ids, and the
task objects (`Tasks`) go through its functions as state.

Mirroring notes:
- `TIME_SLICES[priority]` stops the kernel when the priority is not below
  `NUM_QUEUES`, and so do `total_ticks += 1` and `priority + 1` when they
  overflow; `none` is that panic.
- `queues` is an array of eight; `length_queues` keeps it that way.
- Of a task only what scheduling, waiting and exiting use is modelled.
-/

namespace AlaphiOS.Sched

open Lib Function List Option

/-- `TaskState`. -/
inductive TaskState where
  | running
  | ready
  | blocked
  | zombie
  deriving DecidableEq

/-- What the scheduler reads of a task. -/
structure Task where
  pid : Nat
  state : TaskState
  priority : Nat
  parent : Option Nat
  exitCode : Option Int
  deriving DecidableEq

/-- The task objects, by `tid`. -/
abbrev Tasks := Nat → Task

/-- `NUM_QUEUES`. -/
def numQueues : Nat := 8

/-- `BOOST_PERIOD`. -/
def boostPeriod : Nat := 100

/-- `TIME_SLICES[i]`. -/
def timeSlice (i : Nat) : Option Nat := if i < numQueues then some ((i + 1) * (i + 1)) else none

variable {qs : List (List Nat)} {i : Nat}

theorem timeSlice_lt {n : Nat} (h : timeSlice i = some n) : i < numQueues := by
  unfold timeSlice at h
  split at h
  next hlt => exact hlt
  · cases h

/-- `MlfqScheduler`. -/
structure MlfqScheduler where
  queues : List (List Nat)
  length_queues : queues.length = numQueues
  current : Option Nat
  ticksRemaining : Nat
  totalTicks : Nat
  needsReschedule : Bool

/-- `pick_next`: pop the front of the first queue that is not empty. -/
def pickNext : List (List Nat) → Option (Nat × List (List Nat))
  | [] => none
  | [] :: qs => (pickNext qs).map fun r => (r.1, [] :: r.2)
  | (t :: q) :: qs => some (t, q :: qs)

/-- The queues after `boost_priorities`: everything moves up by one. -/
def boostQueues : List (List Nat) → List (List Nat)
  | q₀ :: q₁ :: qs => (q₀ ++ q₁) :: (qs ++ [[]])
  | qs => qs

/-- `task.priority = p`. -/
def setPriority (p : Nat) (ts : Tasks) (t : Nat) : Tasks :=
  update ts t { ts t with priority := p }

/-- The priorities `boost_priorities` assigns, queue after queue. -/
def boostTasks (queues : List (List Nat)) (ts : Tasks) : Tasks :=
  (queues.zipIdx.drop 1).foldl (fun ts q => q.1.foldl (setPriority (q.2 - 1)) ts) ts

/-! ## Queues as lists -/

variable {qs qs' : List (List Nat)}

/-- `pick_next` takes the first task off the queues. -/
theorem pickNext_spec {t : Nat} (h : pickNext qs = some (t, qs')) :
    qs'.length = qs.length ∧ qs.flatten = t :: qs'.flatten := by
  induction qs generalizing qs' t with
  | nil => exact absurd h (by simp [pickNext])
  | cons q qs ih =>
    cases q with
    | nil =>
      obtain ⟨⟨t', qs₁⟩, h₁, heq⟩ := map_inv h
      cases heq
      obtain ⟨hlength, hflatten⟩ := ih h₁
      exact ⟨congrArg (· + 1) hlength, hflatten⟩
    | cons x q =>
      cases h
      exact ⟨rfl, rfl⟩

theorem flatten_of_pickNext_none : ∀ {qs : List (List Nat)}, pickNext qs = none → qs.flatten = []
  | [], _ => rfl
  | [] :: qs, h => by
    unfold pickNext at h
    show qs.flatten = []
    exact flatten_of_pickNext_none (map_eq_none_iff.mp h)

theorem boostQueues_length : (boostQueues qs).length = qs.length := by
  unfold boostQueues
  split
  · simp
  · rfl

theorem boostQueues_flatten : (boostQueues qs).flatten = qs.flatten := by
  unfold boostQueues
  split
  · simp
  · rfl

theorem flatten_modify_perm {t : Nat} (h : i < qs.length) :
    (qs.modify i (· ++ [t])).flatten.Perm (t :: qs.flatten) := by
  induction qs generalizing i with
  | nil => cases h
  | cons q qs ih =>
    cases i with
    | zero =>
      rw [modify_zero_cons, flatten_cons, flatten_cons, append_assoc]
      exact perm_middle
    | succ i =>
      rw [modify_succ_cons, flatten_cons, flatten_cons]
      refine ((ih (Nat.lt_of_succ_lt_succ h)).append_left q).trans perm_middle

/-! ## Priorities -/

/-- The tasks are the same up to their priorities. -/
def Relabelled (ts ts' : Tasks) : Prop :=
  ∀ t, (ts' t).pid = (ts t).pid ∧ (ts' t).state = (ts t).state ∧
    (ts' t).parent = (ts t).parent ∧ (ts' t).exitCode = (ts t).exitCode

theorem Relabelled.refl (ts : Tasks) : Relabelled ts ts := fun _ => ⟨rfl, rfl, rfl, rfl⟩

theorem Relabelled.trans {ts ts' ts'' : Tasks} (h : Relabelled ts ts') (h' : Relabelled ts' ts'') :
    Relabelled ts ts'' := fun t =>
  ⟨(h' t).1.trans (h t).1, (h' t).2.1.trans (h t).2.1, (h' t).2.2.1.trans (h t).2.2.1,
    (h' t).2.2.2.trans (h t).2.2.2⟩

theorem setPriority_relabelled (p : Nat) (ts : Tasks) (t : Nat) :
    Relabelled ts (setPriority p ts t) := by
  intro x
  unfold setPriority
  by_cases hx : x = t
  · subst hx
    rw [update_self]
    exact ⟨rfl, rfl, rfl, rfl⟩
  · rw [update_of_ne hx]
    exact ⟨rfl, rfl, rfl, rfl⟩

theorem foldl_relabelled {α : Type} {f : Tasks → α → Tasks} (hf : ∀ ts a, Relabelled ts (f ts a)) :
    ∀ (l : List α) (ts : Tasks), Relabelled ts (l.foldl f ts) := by
  intro l
  induction l with
  | nil => exact Relabelled.refl
  | cons a l ih => exact fun ts => (hf ts a).trans (ih (f ts a))

theorem boostTasks_relabelled (qs : List (List Nat)) (ts : Tasks) :
    Relabelled ts (boostTasks qs ts) := by
  refine foldl_relabelled (fun ts q => ?_) _ ts
  exact foldl_relabelled (setPriority_relabelled _) q.1 ts

namespace MlfqScheduler

/-- `MlfqScheduler::new`. -/
def new : MlfqScheduler := ⟨replicate numQueues [], rfl, none, 1, 0, false⟩

/-- Everything in the ready queues. -/
def queued (m : MlfqScheduler) : Multiset Nat := m.queues.flatten

/-- `set_current`. -/
def setCurrent (m : MlfqScheduler) (ts : Tasks) (t : Nat) : Option (MlfqScheduler × Tasks) := do
  let ts := update ts t { ts t with state := .running }
  let slice ← timeSlice (ts t).priority
  some ({ m with current := some t, ticksRemaining := slice }, ts)

/-- `remove_current`. -/
def removeCurrent (m : MlfqScheduler) : MlfqScheduler :=
  if m.current.isSome then { m with ticksRemaining := 0, needsReschedule := true, current := none }
  else m

/-- Append to queue `i`. -/
def enqueue (m : MlfqScheduler) (i t : Nat) : MlfqScheduler :=
  { m with
    queues := m.queues.modify i (· ++ [t])
    length_queues := by rw [length_modify]; exact m.length_queues }

/-- `push`. -/
def push (m : MlfqScheduler) (ts : Tasks) (t : Nat) : MlfqScheduler :=
  if (ts t).priority < numQueues then m.enqueue (ts t).priority t else m.enqueue (numQueues - 1) t

/-- `boost_priorities`. -/
def boostPriorities (m : MlfqScheduler) (ts : Tasks) : MlfqScheduler × Tasks :=
  ({ m with
    queues := boostQueues m.queues
    length_queues := by rw [boostQueues_length]; exact m.length_queues },
   boostTasks m.queues ts)

/-- The second half of `tick`: the time slice of the current task. -/
def countDown (m : MlfqScheduler) : MlfqScheduler :=
  if m.current.isSome then
    { m with
      ticksRemaining := m.ticksRemaining - 1
      needsReschedule := m.needsReschedule || m.ticksRemaining - 1 == 0 }
  else m

/-- `tick`. -/
def tick (m : MlfqScheduler) (ts : Tasks) : Option (MlfqScheduler × Tasks) := do
  let total ← u32Add m.totalTicks 1
  let m := { m with totalTicks := total }
  let (m, ts) := if total % boostPeriod = 0 then m.boostPriorities ts else (m, ts)
  some (m.countDown, ts)

/-- `should_reschedule`. -/
def shouldReschedule (m : MlfqScheduler) (ts : Tasks) : MlfqScheduler :=
  match m.current with
  | some t =>
    match (ts t).state with
    | .blocked | .zombie => { m with needsReschedule := true }
    | .running | .ready => m
  | none => m

/-- The outgoing half of `prepare_switch`: whatever the current task was, it is
Ready now and at the back of the queue below its own. -/
def retire (m : MlfqScheduler) (ts : Tasks) : Option (MlfqScheduler × Tasks) :=
  match m.current with
  | some t => (u8Add (ts t).priority 1).map fun up =>
      let p := min up (numQueues - 1)
      (m.enqueue p t, update ts t { ts t with priority := p, state := .ready })
  | none => some (m, ts)

/-- The queue of an outgoing task. -/
def demoted (ts : Tasks) (t : Nat) : Nat := min ((ts t).priority + 1) (numQueues - 1)

/-- `prepare_switch`, with the pair it returns: the outgoing task, if there is
one, and the incoming task. -/
def prepareSwitch (m : MlfqScheduler) (ts : Tasks) :
    Option (Option (Option Nat × Nat) × MlfqScheduler × Tasks) :=
  if !m.needsReschedule then some (none, m, ts)
  else
    match h : pickNext m.queues with
    | none => some (none, { m with needsReschedule := false }, ts)
    | some (incoming, queues) => do
      let (m', ts) ← retire { m with
        queues := queues
        length_queues := by rw [(pickNext_spec h).1]; exact m.length_queues } ts
      let (m', ts) ← m'.setCurrent ts incoming
      some (some (m.current, incoming), { m' with needsReschedule := false }, ts)

/-! ## What they do to the queues and the tasks -/

variable {m m' : MlfqScheduler} {ts ts' : Tasks} {t : Nat}

theorem enqueue_queued (hi : i < numQueues) : (m.enqueue i t).queued = t ::ₘ m.queued := by
  have hlt : i < m.queues.length := by rw [m.length_queues]; exact hi
  exact Quotient.sound (flatten_modify_perm hlt)

/-- `push` adds the task. -/
theorem push_queued : (m.push ts t).queued = t ::ₘ m.queued := by
  unfold push
  split
  next hlt => exact enqueue_queued hlt
  · exact enqueue_queued (by decide)

theorem push_current : (m.push ts t).current = m.current := by
  unfold push
  split <;> rfl

theorem countDown_spec : m.countDown.queues = m.queues ∧ m.countDown.current = m.current ∧
    m.countDown.totalTicks = m.totalTicks := by
  unfold countDown
  split <;> exact ⟨rfl, rfl, rfl⟩

/-- `tick` counts, and every `BOOST_PERIOD` ticks it boosts. -/
theorem tick_cases (h : m.tick ts = some (m', ts')) :
    m.totalTicks + 1 < 2 ^ 32 ∧ m'.totalTicks = m.totalTicks + 1 ∧ m'.current = m.current ∧
      ((m'.totalTicks % boostPeriod = 0 ∧ m'.queues = boostQueues m.queues ∧
        ts' = boostTasks m.queues ts) ∨
       (m'.totalTicks % boostPeriod ≠ 0 ∧ m'.queues = m.queues ∧ ts' = ts)) := by
  obtain ⟨total, htotal, h⟩ := bind_inv h
  obtain ⟨rfl, hlt⟩ := u32Add_eq htotal
  dsimp only at h
  cases h
  obtain ⟨hq, hc, ht⟩ := countDown_spec (m := (if (m.totalTicks + 1) % boostPeriod = 0
    then { m with totalTicks := m.totalTicks + 1 }.boostPriorities ts
    else ({ m with totalTicks := m.totalTicks + 1 }, ts)).1)
  rw [hq, hc, ht]
  by_cases hboost : (m.totalTicks + 1) % boostPeriod = 0
  · rw [if_pos hboost]
    exact ⟨hlt, rfl, rfl, .inl ⟨hboost, rfl, rfl⟩⟩
  · rw [if_neg hboost]
    exact ⟨hlt, rfl, rfl, .inr ⟨hboost, rfl, rfl⟩⟩

/-- `tick` moves tasks between queues only. -/
theorem tick_spec (h : m.tick ts = some (m', ts')) :
    m'.queued = m.queued ∧ m'.current = m.current ∧ Relabelled ts ts' := by
  obtain ⟨_, _, hc, ⟨_, hq, rfl⟩ | ⟨_, hq, rfl⟩⟩ := tick_cases h
  · refine ⟨?_, hc, boostTasks_relabelled _ _⟩
    rw [queued, hq, boostQueues_flatten]
    rfl
  · refine ⟨?_, hc, Relabelled.refl _⟩
    rw [queued, hq]
    rfl

theorem shouldReschedule_spec :
    (m.shouldReschedule ts).queues = m.queues ∧ (m.shouldReschedule ts).current = m.current := by
  unfold shouldReschedule
  repeat' split
  all_goals exact ⟨rfl, rfl⟩

theorem removeCurrent_spec :
    m.removeCurrent.queues = m.queues ∧ m.removeCurrent.current = none := by
  unfold removeCurrent
  split
  · exact ⟨rfl, rfl⟩
  next hnone => exact ⟨rfl, not_isSome_iff_eq_none.mp hnone⟩

/-- `set_current` makes the task run. -/
theorem setCurrent_spec (h : m.setCurrent ts t = some (m', ts')) :
    m'.queues = m.queues ∧ m'.current = some t ∧ m'.totalTicks = m.totalTicks ∧
      (ts t).priority < numQueues ∧
      ts' = update ts t { ts t with state := .running } := by
  obtain ⟨slice, hslice, h⟩ := bind_inv h
  injection some.inj h with hm hts
  subst hm
  have hlt := timeSlice_lt hslice
  rw [update_self] at hlt
  exact ⟨rfl, rfl, rfl, hlt, hts.symm⟩

/-- The outgoing task goes to the back of a queue. -/
theorem retire_cases (h : m.retire ts = some (m', ts')) :
    (m.current = none ∧ m' = m ∧ ts' = ts) ∨
    ∃ out, m.current = some out ∧ (ts out).priority + 1 < 2 ^ 8 ∧
      m' = m.enqueue (demoted ts out) out ∧
      ts' = update ts out { ts out with priority := demoted ts out, state := .ready } := by
  unfold retire at h
  split at h
  next t hc =>
    obtain ⟨up, hup, heq⟩ := map_inv h
    obtain ⟨rfl, hlt⟩ := u8Add_eq hup
    injection heq with hm hts
    exact .inr ⟨t, hc, hlt, hm.symm, hts.symm⟩
  next hc =>
    cases h
    exact .inl ⟨hc, rfl, rfl⟩

variable {r : Option (Option Nat × Nat)}

/-- `prepare_switch` finds nothing to do, or dispatches the first queued task
after it has put the current one, Ready, back into the queue below its own. -/
theorem prepareSwitch_cases (h : m.prepareSwitch ts = some (r, m', ts')) :
    m'.totalTicks = m.totalTicks ∧
    ((r = none ∧ (m.needsReschedule = false ∨ pickNext m.queues = none) ∧
      m'.queues = m.queues ∧ m'.current = m.current ∧ ts' = ts) ∨
    (m.needsReschedule = true ∧ ∃ incoming qs, pickNext m.queues = some (incoming, qs) ∧
      r = some (m.current, incoming) ∧ m'.current = some incoming ∧
      ((m.current = none ∧ m'.queues = qs ∧
        ts' = update ts incoming { ts incoming with state := .running }) ∨
       ∃ out ts₁, m.current = some out ∧
        m'.queues = qs.modify (demoted ts out) (· ++ [out]) ∧
        ts₁ = update ts out { ts out with priority := demoted ts out, state := .ready } ∧
        ts' = update ts₁ incoming { ts₁ incoming with state := .running }))) := by
  unfold prepareSwitch at h
  split at h
  next hneeds =>
    cases h
    exact ⟨rfl, .inl ⟨rfl, .inl (by simpa using hneeds), rfl, rfl, rfl⟩⟩
  next hneeds =>
    rw [Bool.not_eq_true', Bool.not_eq_false] at hneeds
    split at h
    next hnone =>
      cases h
      exact ⟨rfl, .inl ⟨rfl, .inr hnone, rfl, rfl, rfl⟩⟩
    next incoming queues hpick =>
      dsimp only at h
      obtain ⟨⟨m₁, ts₁⟩, hout, h⟩ := bind_inv h
      obtain ⟨⟨m₂, ts₂⟩, hin, h⟩ := bind_inv h
      cases h
      obtain ⟨hqueues, hcurrent, hticks, _, rfl⟩ := setCurrent_spec hin
      -- `remove_current` leaves no current task behind; otherwise it goes to the end of a
      -- queue.
      rcases retire_cases hout with ⟨hc, rfl, rfl⟩ | ⟨out, hc, _, rfl, rfl⟩
      · exact ⟨hticks, .inr ⟨hneeds, incoming, queues, hpick, rfl, hcurrent,
          .inl ⟨hc, hqueues, rfl⟩⟩⟩
      · exact ⟨hticks, .inr ⟨hneeds, incoming, queues, hpick, rfl, hcurrent,
          .inr ⟨out, _, hc, hqueues, rfl, rfl⟩⟩⟩

theorem demoted_lt (ts : Tasks) (t : Nat) : demoted ts t < numQueues := by
  unfold demoted numQueues
  omega

/-- The same, for the tasks in the queues together. -/
theorem prepareSwitch_spec (h : m.prepareSwitch ts = some (r, m', ts')) :
    (r = none ∧ m'.queued = m.queued ∧ m'.current = m.current ∧ ts' = ts) ∨
    (m.needsReschedule = true ∧ ∃ incoming rest, r = some (m.current, incoming) ∧
      m.queued = incoming ::ₘ rest ∧ m'.current = some incoming ∧
      ((m.current = none ∧ m'.queued = rest ∧
        ts' = update ts incoming { ts incoming with state := .running }) ∨
       ∃ out p ts₁, m.current = some out ∧ m'.queued = out ::ₘ rest ∧
        ts₁ = update ts out { ts out with priority := p, state := .ready } ∧
        ts' = update ts₁ incoming { ts₁ incoming with state := .running })) := by
  obtain ⟨_, ⟨rfl, _, hq, hc, rfl⟩ | ⟨hneeds, incoming, qs, hpick, rfl, hc, hcase⟩⟩ :=
    prepareSwitch_cases h
  · refine .inl ⟨rfl, ?_, hc, rfl⟩
    rw [queued, hq]
    rfl
  · refine .inr ⟨hneeds, incoming, (qs.flatten : Multiset Nat), rfl,
      congrArg _ (pickNext_spec hpick).2, hc, ?_⟩
    rcases hcase with ⟨hnone, hq, rfl⟩ | ⟨out, ts₁, hout, hq, rfl, rfl⟩
    · refine .inl ⟨hnone, ?_, rfl⟩
      rw [queued, hq]
    · refine .inr ⟨out, _, _, hout, ?_, rfl, rfl⟩
      have hlt : demoted ts out < qs.length := by
        rw [(pickNext_spec hpick).1, m.length_queues]
        exact demoted_lt ts out
      rw [queued, hq]
      exact Quotient.sound (flatten_modify_perm hlt)

theorem exists_setCurrent (h : (ts t).priority < numQueues) :
    ∃ r, m.setCurrent ts t = some r := by
  unfold setCurrent timeSlice
  dsimp only
  rw [update_self, if_pos h]
  exact ⟨_, rfl⟩

/-- That stops the kernel only by an overflow. -/
theorem exists_retire (h : ∀ t, m.current = some t → (ts t).priority + 1 < 2 ^ 8) :
    ∃ r, m.retire ts = some r := by
  unfold retire
  split
  next t hc =>
    unfold u8Add
    rw [if_pos (h t hc)]
    exact ⟨_, rfl⟩
  · exact ⟨_, rfl⟩

/-- A switch that is due stops the kernel only if the outgoing priority overflows or the incoming
one is not the number of a queue. -/
theorem prepareSwitch_isSome_iff (hneeds : m.needsReschedule = true)
    (hpick : pickNext m.queues = some (t, qs)) :
    (m.prepareSwitch ts).isSome ↔
      (∀ out, m.current = some out → (ts out).priority + 1 < 2 ^ 8) ∧
      (m.current ≠ some t → (ts t).priority < numQueues) := by
  unfold prepareSwitch
  rw [if_neg (by simp [hneeds])]
  split
  next hnone => cases hnone.symm.trans hpick
  next incoming queues hsome =>
    injection some.inj (hsome.symm.trans hpick) with ht hqs
    subst ht hqs
    dsimp only
    constructor
    · intro h
      obtain ⟨r, h⟩ := isSome_iff_exists.mp h
      obtain ⟨⟨m₁, ts₁⟩, hretire, h⟩ := bind_inv h
      obtain ⟨⟨m₂, ts₂⟩, hset, _⟩ := bind_inv h
      have hlt : (ts₁ incoming).priority < numQueues := (setCurrent_spec hset).2.2.2.1
      rcases retire_cases hretire with ⟨hnone, _, rfl⟩ | ⟨out, hout, hup, _, rfl⟩
      · exact ⟨fun out hout => absurd (hnone.symm.trans hout) (by simp), fun _ => hlt⟩
      · refine ⟨fun out' hout' => ?_, fun hne => ?_⟩
        · obtain rfl : out = out' := some.inj (hout.symm.trans hout')
          exact hup
        · have hne : incoming ≠ out := fun heq => hne (heq ▸ hout)
          rw [update_of_ne hne] at hlt
          exact hlt
    · intro ⟨hup, hlt⟩
      have hretire : ∃ r, retire { m with
          queues := queues
          length_queues := by rw [(pickNext_spec hsome).1]; exact m.length_queues } ts = some r :=
        exists_retire hup
      obtain ⟨⟨m₁, ts₁⟩, hretire⟩ := hretire
      -- Only the task that was put back has another priority, and that is in range, too.
      have hprio : (ts₁ incoming).priority < numQueues := by
        rcases retire_cases hretire with ⟨hnone, _, rfl⟩ | ⟨out, hout, _, _, rfl⟩
        · exact hlt fun h => absurd (hnone.symm.trans h) (by simp)
        · by_cases heq : incoming = out
          · rw [heq, update_self]
            exact demoted_lt ts out
          · rw [update_of_ne heq]
            exact hlt fun h => heq (some.inj (h.symm.trans hout))
      obtain ⟨⟨m₂, ts₂⟩, hset⟩ := exists_setCurrent (m := m₁) hprio
      rw [bind_of_eq hretire]
      dsimp only
      rw [hset]
      rfl

/-- With a task in the queues and all priorities in range, a switch that is due is made. -/
theorem exists_prepareSwitch (hneeds : m.needsReschedule = true) (hqueued : m.queued ≠ 0)
    (hcurrent : ∀ t, m.current = some t → (ts t).priority < numQueues)
    (hrange : ∀ t ∈ m.queued, (ts t).priority < numQueues) :
    ∃ incoming m' ts', incoming ∈ m.queued ∧
      m.prepareSwitch ts = some (some (m.current, incoming), m', ts') := by
  cases hpick : pickNext m.queues with
  | none => exact absurd (congrArg _ (flatten_of_pickNext_none hpick)) hqueued
  | some r =>
    obtain ⟨incoming, qs⟩ := r
    have hin : incoming ∈ m.queued := by
      have hflat : m.queued = incoming ::ₘ (qs.flatten : Multiset Nat) :=
        congrArg _ (pickNext_spec hpick).2
      rw [hflat]
      exact Multiset.mem_cons_self ..
    have hup : ∀ t, m.current = some t → (ts t).priority + 1 < 2 ^ 8 := fun t hc =>
      Nat.lt_trans (Nat.succ_lt_succ (hcurrent t hc)) (by decide)
    obtain ⟨⟨r, m', ts'⟩, hprep⟩ := isSome_iff_exists.mp
      ((prepareSwitch_isSome_iff hneeds hpick).mpr ⟨hup, fun _ => hrange incoming hin⟩)
    refine ⟨incoming, m', ts', hin, ?_⟩
    obtain ⟨_, ⟨_, hidle, _⟩ | ⟨_, x, qs', hpick', rfl, _⟩⟩ := prepareSwitch_cases hprep
    · rcases hidle with hidle | hidle
      · cases hneeds.symm.trans hidle
      · cases hpick.symm.trans hidle
    · injection some.inj (hpick'.symm.trans hpick) with hx _
      rw [hprep, hx]

end MlfqScheduler

end AlaphiOS.Sched
