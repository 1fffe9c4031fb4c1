import AlaphiOS.Lib.Trace
import AlaphiOS.Sched.Mlfq
import Mathlib.Data.Multiset.AddSub

/-!
# The scheduler on its own

Any sequence of `push`, `tick`, `prepare_switch` and `remove_current`, with what they do: a task
comes in, becomes current or is taken out (`mlfqStep`). The task object comes with `push`, since
nothing is known of a task that is not in the scheduler.

`InQueue` says in which queue a task waits. A push appends to one queue, a boost moves each queue
up by one and a switch takes the front of the first queue that is not empty: one equivalence each
(`inQueue_modify`, `inQueue_boost`, `inQueue_pickNext`). As long as the priorities of the tasks are
queue numbers, the scheduler stops only when `total_ticks` overflows (`InRange.run`).
-/

namespace AlaphiOS.Sched

open Lib Function List

/-! ## Where a task waits -/

/-- The task is in queue `i`. -/
def InQueue (qs : List (List Nat)) (i t : Nat) : Prop := ∃ q, qs[i]? = some q ∧ t ∈ q

section

variable {qs qs' : List (List Nat)} {q : List Nat} {i j t x : Nat}

@[simp] theorem inQueue_cons_zero : InQueue (q :: qs) 0 t ↔ t ∈ q := by
  simp [InQueue]

@[simp] theorem inQueue_cons_succ : InQueue (q :: qs) (j + 1) t ↔ InQueue qs j t := by
  simp [InQueue]

theorem mem_flatten_iff : t ∈ qs.flatten ↔ ∃ i, InQueue qs i t := by
  rw [mem_flatten]
  constructor
  · intro ⟨q, hq, ht⟩
    obtain ⟨i, hi⟩ := mem_iff_getElem?.mp hq
    exact ⟨i, q, hi, ht⟩
  · intro ⟨i, q, hi, ht⟩
    exact ⟨q, mem_of_getElem? hi, ht⟩

theorem InQueue.lt_length (h : InQueue qs i t) : i < qs.length := by
  obtain ⟨q, hq, _⟩ := h
  exact (List.getElem?_eq_some_iff.mp hq).1

/-- With no task twice, a task is in one queue. -/
theorem InQueue.unique (h : qs.flatten.Nodup) (hi : InQueue qs i t) (hj : InQueue qs j t) :
    i = j := by
  obtain ⟨q, hq, ht⟩ := hi
  obtain ⟨q', hq', ht'⟩ := hj
  obtain ⟨hilt, rfl⟩ := List.getElem?_eq_some_iff.mp hq
  obtain ⟨hjlt, rfl⟩ := List.getElem?_eq_some_iff.mp hq'
  have hdisj := pairwise_iff_getElem.mp (nodup_flatten.mp h).2
  rcases Nat.lt_trichotomy i j with hlt | heq | hlt
  · exact absurd ht' (hdisj i j hilt hjlt hlt ht)
  · exact heq
  · exact absurd ht (hdisj j i hjlt hilt hlt ht')

theorem inQueue_modify : InQueue (qs.modify i (· ++ [x])) j t ↔
    InQueue qs j t ∨ (j = i ∧ t = x ∧ i < qs.length) := by
  unfold InQueue
  rw [getElem?_modify]
  by_cases hj : j < qs.length
  · by_cases hij : i = j
    · subst hij
      simp [hj]
    · have hji : ¬ j = i := fun h => hij h.symm
      simp [hij, hji]
  · have hnone : qs[j]? = none := getElem?_eq_none (Nat.le_of_not_lt hj)
    rw [hnone]
    simp
    omega

theorem inQueue_boost (hlen : 2 ≤ qs.length) :
    InQueue (boostQueues qs) j t ↔ InQueue qs (j + 1) t ∨ (j = 0 ∧ InQueue qs 0 t) := by
  match qs, hlen with
  | q₀ :: q₁ :: qs, _ =>
    cases j with
    | zero => simp [boostQueues, or_comm]
    | succ j =>
      have hlast : InQueue (qs ++ [[]]) j t ↔ InQueue qs j t := by
        unfold InQueue
        rcases Nat.lt_trichotomy j qs.length with hlt | rfl | hgt
        · rw [getElem?_append_left hlt]
        · simp
        · rw [getElem?_eq_none (by simp; omega), getElem?_eq_none (by omega)]
      simp [boostQueues, hlast]

/-- The picked task was in one queue; the others are where they were. -/
theorem inQueue_pickNext {qs qs' : List (List Nat)} (h : pickNext qs = some (x, qs')) :
    ∃ i, ∀ j t, InQueue qs j t ↔ (j = i ∧ t = x) ∨ InQueue qs' j t := by
  induction qs generalizing qs' with
  | nil => exact absurd h (by simp [pickNext])
  | cons q qs ih =>
    cases q with
    | nil =>
      obtain ⟨⟨x', qs₁⟩, h₁, heq⟩ := map_inv h
      injection heq with hx hqs
      subst hx hqs
      obtain ⟨i, hi⟩ := ih h₁
      refine ⟨i + 1, fun j t => ?_⟩
      cases j with
      | zero => simp
      | succ j => simp [hi]
    | cons y q =>
      cases h
      refine ⟨0, fun j t => ?_⟩
      cases j with
      | zero => simp
      | succ j => simp

end

/-! ## The priorities after a boost -/

section

variable {ts : Tasks} {t : Nat} {P : Nat → Prop} {p : Nat} {qs : List (List Nat)}

theorem setPriority_priority {x : Nat} :
    (setPriority p ts x t).priority = if t = x then p else (ts t).priority := by
  unfold setPriority
  by_cases h : t = x
  · rw [if_pos h, h, update_self]
  · rw [if_neg h, update_of_ne h]

variable {q : List Nat}

theorem foldl_setPriority :
    (q.foldl (setPriority p) ts t).priority = if t ∈ q then p else (ts t).priority := by
  induction q generalizing ts with
  | nil => simp
  | cons x q ih =>
    rw [foldl_cons, ih, setPriority_priority]
    by_cases hx : t = x
    · simp [hx]
    · simp [hx]

/-- What is true of the numbers of all queues a task is in, less one, is true of its new priority,
if the task is in one of them or it was true before. -/
theorem priority_foldl {l : List (List Nat × Nat)}
    (hall : (∀ q ∈ l, t ∈ q.1 → P (q.2 - 1))) (hor : (P (ts t).priority ∨ ∃ q ∈ l, t ∈ q.1)) :
    P (l.foldl (fun ts q => q.1.foldl (setPriority (q.2 - 1)) ts) ts t).priority := by
  induction l generalizing ts with
  | nil =>
    exact hor.resolve_right fun ⟨_, hq, _⟩ => absurd hq not_mem_nil
  | cons q l ih =>
    rw [foldl_cons]
    refine ih (fun q' hq' => hall q' (mem_cons_of_mem _ hq')) ?_
    rw [foldl_setPriority]
    by_cases hq : t ∈ q.1
    · rw [if_pos hq]
      exact .inl (hall q mem_cons_self hq)
    · rw [if_neg hq]
      refine hor.imp_right fun ⟨q', hq', ht⟩ => ?_
      rcases mem_cons.mp hq' with rfl | hq'
      · exact absurd ht hq
      · exact ⟨q', hq', ht⟩

theorem mem_zipIdx_drop {i : Nat} : (q, i) ∈ qs.zipIdx.drop 1 ↔ 1 ≤ i ∧ qs[i]? = some q := by
  cases qs with
  | nil => simp
  | cons q₀ qs =>
    rw [zipIdx_cons, drop_one, tail_cons, mk_mem_zipIdx_iff_le_and_getElem?_sub]
    cases i with
    | zero => simp
    | succ i => simp

theorem boostTasks_priority (hall : ∀ i, 1 ≤ i → InQueue qs i t → P (i - 1))
    (hor : P (ts t).priority ∨ ∃ i, 1 ≤ i ∧ InQueue qs i t) : P (boostTasks qs ts t).priority := by
  refine priority_foldl ?_ ?_
  · intro (q, i) hq ht
    obtain ⟨hi, hq⟩ := mem_zipIdx_drop.mp hq
    exact hall i hi ⟨q, hq, ht⟩
  · refine hor.imp_right fun ⟨i, hi, q, hq, ht⟩ => ?_
    exact ⟨(q, i), mem_zipIdx_drop.mpr ⟨hi, hq⟩, ht⟩

end

/-! ## Calls in any order -/

/-- A call of the scheduler. -/
inductive MlfqOp where
  | push (t : Nat) (task : Task)
  | tick
  | prepareSwitch
  | removeCurrent

/-- What happens to a task. -/
inductive MlfqEvent where
  | pushed (t : Nat)
  | dispatched (t : Nat)
  | removed (t : Nat)
  deriving DecidableEq

/-- Make the call. -/
def mlfqStep : MlfqScheduler × Tasks → MlfqOp →
    Option ((MlfqScheduler × Tasks) × List MlfqEvent)
  | (m, ts), .push t task =>
    let ts := update ts t task
    some ((m.push ts t, ts), [.pushed t])
  | (m, ts), .tick => (m.tick ts).map fun s => (s, [])
  | (m, ts), .prepareSwitch =>
    (m.prepareSwitch ts).map fun r => (r.2, (r.1.map fun pair => .dispatched pair.2).toList)
  | (m, ts), .removeCurrent => some ((m.removeCurrent, ts), (m.current.map .removed).toList)

def MlfqOp.isTick : MlfqOp → Bool
  | .tick => true
  | .push _ _ | .prepareSwitch | .removeCurrent => false

/-- The pushed tasks, in order. -/
def pushedIn (es : List MlfqEvent) : List Nat :=
  es.filterMap fun
    | .pushed t => some t
    | .dispatched _ | .removed _ => none

/-- The incoming tasks of `prepare_switch`. -/
def dispatchedIn (es : List MlfqEvent) : List Nat :=
  es.filterMap fun
    | .dispatched t => some t
    | .pushed _ | .removed _ => none

/-- The tasks that `remove_current` took out. -/
def removedIn (es : List MlfqEvent) : List Nat :=
  es.filterMap fun
    | .removed t => some t
    | .pushed _ | .dispatched _ => none

/-- The number of calls of `tick`. -/
def ticksIn (ops : List MlfqOp) : Nat := ops.countP MlfqOp.isTick

/-- A pushed task has the number of a queue as its priority. -/
def MlfqOp.InRange : MlfqOp → Prop
  | .push _ task => task.priority < numQueues
  | .tick | .prepareSwitch | .removeCurrent => True

/-- The current task and those in the queues. -/
def MlfqScheduler.members (m : MlfqScheduler) : Multiset Nat :=
  (m.current.toList : Multiset Nat) + m.queued

/-- The priorities of all tasks in the scheduler are numbers of queues. -/
def MlfqScheduler.InRange (m : MlfqScheduler) (ts : Tasks) : Prop :=
  ∀ t ∈ m.members, (ts t).priority < numQueues

variable {m m' : MlfqScheduler} {ts ts' : Tasks} {t : Nat}

theorem MlfqScheduler.mem_members : t ∈ m.members ↔ m.current = some t ∨ t ∈ m.queued := by
  simp [members]

theorem InQueue.mem_members {i : Nat} (h : InQueue m.queues i t) : t ∈ m.members :=
  MlfqScheduler.mem_members.mpr (.inr (mem_flatten_iff.mpr ⟨i, h⟩))

namespace MlfqScheduler

theorem tick_members (h : m.tick ts = some (m', ts')) : m'.members = m.members := by
  obtain ⟨hq, hc, _⟩ := tick_spec h
  rw [members, hq, hc]
  rfl

theorem push_members : (m.push ts t).members = t ::ₘ m.members := by
  rw [members, push_queued, push_current, Multiset.add_cons]
  rfl

variable {x : Nat} {r : Option (Option Nat × Nat)}

/-- The incoming task comes from a queue and the outgoing one goes to one. -/
theorem prepareSwitch_members
    (h : m.prepareSwitch ts = some (r, m', ts')) : m'.members = m.members := by
  rcases prepareSwitch_spec h with ⟨rfl, hq, hc, rfl⟩ |
    ⟨_, incoming, rest, rfl, hq, hc, ⟨hnone, hq', _⟩ | ⟨out, p, ts₁, hout, hq', _⟩⟩
  · rw [members, hq, hc]
    rfl
  · rw [members, members, hq, hc, hnone, hq']
    simp
  · rw [members, members, hq, hc, hout, hq']
    exact Multiset.cons_swap ..

theorem removeCurrent_members :
    m.removeCurrent.members + (m.current.toList : Multiset Nat) = m.members := by
  rw [members, members, queued, removeCurrent_spec.1, removeCurrent_spec.2, Multiset.add_comm]
  simp [queued]

/-! ### What one call does to the tasks in the scheduler -/

variable {op : MlfqOp} {es : List MlfqEvent}

/-- The tasks in the scheduler are those that were there and the pushed one, less the removed
one. -/
theorem mlfqStep_members (h : mlfqStep (m, ts) op = some ((m', ts'), es)) :
    m'.members + (removedIn es : Multiset Nat) = m.members + (pushedIn es : Multiset Nat) := by
  cases op with
  | push t task =>
    cases h
    have hcons : t ::ₘ m.members = m.members + {t} := by
      rw [Multiset.add_comm, Multiset.singleton_add]
    rw [push_members]
    simpa [removedIn, pushedIn] using hcons
  | tick =>
    obtain ⟨⟨m₁, ts₁⟩, htick, heq⟩ := map_inv h
    cases heq
    rw [tick_members htick]
    rfl
  | prepareSwitch =>
    obtain ⟨⟨r, m₁, ts₁⟩, hprep, heq⟩ := map_inv h
    cases heq
    rw [prepareSwitch_members hprep]
    cases r <;> rfl
  | removeCurrent =>
    cases h
    have hremoved : removedIn (m.current.map .removed).toList = m.current.toList := by
      cases m.current <;> rfl
    have hpushed : pushedIn (m.current.map .removed).toList = [] := by
      cases m.current <;> rfl
    rw [hremoved, hpushed, removeCurrent_members]
    simp

/-- A task is changed in something else. -/
theorem priority_update_of {task : Task} (htask : task.priority = (ts x).priority) :
    (update ts x task t).priority = (ts t).priority := by
  by_cases h : t = x
  · rw [h, update_self]
    exact htask
  · rw [update_of_ne h]

theorem priority_update {state : TaskState} :
    (update ts x { ts x with state := state } t).priority = (ts t).priority :=
  priority_update_of rfl

/-- A switch changes the priority of the outgoing task only. -/
theorem prepareSwitch_priority (h : m.prepareSwitch ts = some (r, m', ts')) (t : Nat) :
    (ts' t).priority = (ts t).priority ∨
      (r.isSome ∧ m.current = some t ∧ (ts' t).priority = demoted ts t) := by
  obtain ⟨_, ⟨rfl, _, _, _, rfl⟩ | ⟨_, incoming, qs, _, rfl, _, hcase⟩⟩ := prepareSwitch_cases h
  · exact .inl rfl
  · rcases hcase with ⟨_, _, rfl⟩ | ⟨out, ts₁, hout, _, rfl, rfl⟩
    · exact .inl priority_update
    · rw [priority_update]
      by_cases ht : t = out
      · subst ht
        rw [update_self]
        exact .inr ⟨rfl, hout, rfl⟩
      · rw [update_of_ne ht]
        exact .inl rfl

/-- Every change of a priority is to the number of a queue. -/
theorem mlfqStep_priority (hop : op.InRange)
    (h : mlfqStep (m, ts) op = some ((m', ts'), es)) (t : Nat) :
    ((ts' t).priority = (ts t).priority ∧ t ∉ pushedIn es) ∨ (ts' t).priority < numQueues := by
  cases op with
  | push x task =>
    cases h
    by_cases hx : t = x
    · rw [hx, update_self]
      exact .inr hop
    · rw [update_of_ne hx]
      exact .inl ⟨rfl, by simpa [pushedIn] using hx⟩
  | tick =>
    obtain ⟨⟨m₁, ts₁⟩, htick, heq⟩ := map_inv h
    cases heq
    obtain ⟨_, _, _, ⟨_, _, rfl⟩ | ⟨_, _, rfl⟩⟩ := tick_cases htick
    · refine boostTasks_priority (P := fun p => (p = (ts t).priority ∧ t ∉ pushedIn []) ∨
        p < numQueues) (fun i _ hi => .inr ?_) (.inl (.inl ⟨rfl, not_mem_nil⟩))
      have hlt := hi.lt_length
      rw [m.length_queues] at hlt
      omega
    · exact .inl ⟨rfl, not_mem_nil⟩
  | prepareSwitch =>
    obtain ⟨⟨r, m₁, ts₁⟩, hprep, heq⟩ := map_inv h
    cases heq
    rcases prepareSwitch_priority hprep t with hsame | ⟨_, _, hdown⟩
    · refine .inl ⟨hsame, ?_⟩
      cases r <;> exact not_mem_nil
    · rw [hdown]
      exact .inr (demoted_lt ts t)
  | removeCurrent =>
    cases h
    refine .inl ⟨rfl, ?_⟩
    cases m.current <;> exact not_mem_nil

/-- Priorities stay numbers of queues. -/
theorem InRange.step (hm : m.InRange ts) (hop : op.InRange)
    (h : mlfqStep (m, ts) op = some ((m', ts'), es)) : m'.InRange ts' := by
  intro t ht
  rcases mlfqStep_priority hop h t with ⟨hsame, hpushed⟩ | hlt
  · rw [hsame]
    have hmem : t ∈ m.members + (pushedIn es : Multiset Nat) := by
      rw [← mlfqStep_members h]
      exact Multiset.mem_add.mpr (.inl ht)
    exact hm t ((Multiset.mem_add.mp hmem).resolve_right hpushed)
  · exact hlt

/-! ### When the scheduler stops -/

theorem InRange.prepareSwitch_isSome (hm : m.InRange ts) : (m.prepareSwitch ts).isSome := by
  by_cases hneeds : m.needsReschedule = true
  · by_cases hqueued : m.queued = 0
    · have hpick : pickNext m.queues = none := by
        cases h : pickNext m.queues with
        | none => rfl
        | some r =>
          have hflat : m.queued = r.1 ::ₘ (r.2.flatten : Multiset Nat) :=
            congrArg _ (pickNext_spec h).2
          exact absurd (hflat.symm.trans hqueued) (Multiset.cons_ne_zero)
      unfold prepareSwitch
      rw [if_neg (by simp [hneeds])]
      split
      · rfl
      next hsome => cases hpick.symm.trans hsome
    · obtain ⟨_, _, _, _, hprep⟩ := exists_prepareSwitch hneeds hqueued
        (fun t hc => hm t (mem_members.mpr (.inl hc)))
        (fun t ht => hm t (mem_members.mpr (.inr ht)))
      rw [hprep]
      rfl
  · unfold prepareSwitch
    rw [if_pos (by simp [hneeds])]
    rfl

theorem tick_isSome_iff : (m.tick ts).isSome ↔ m.totalTicks + 1 < 2 ^ 32 := by
  constructor
  · intro h
    obtain ⟨⟨m', ts'⟩, h⟩ := Option.isSome_iff_exists.mp h
    exact (tick_cases h).1
  · intro h
    unfold tick u32Add
    rw [if_pos h]
    rfl

/-- One call: only `tick` counts, and only `tick` can stop. -/
theorem InRange.step_ticks (hm : m.InRange ts) (op : MlfqOp) :
    ((mlfqStep (m, ts) op).isSome ↔ (op.isTick → m.totalTicks + 1 < 2 ^ 32)) ∧
    ∀ m' ts' es, mlfqStep (m, ts) op = some ((m', ts'), es) →
      m'.totalTicks = m.totalTicks + if op.isTick then 1 else 0 := by
  cases op with
  | push t task =>
    refine ⟨⟨(fun _ h => nomatch h), fun _ => rfl⟩, fun m' ts' es h => ?_⟩
    cases h
    unfold push
    split <;> rfl
  | tick =>
    refine ⟨?_, fun m' ts' es h => ?_⟩
    · unfold mlfqStep
      rw [Option.isSome_map, tick_isSome_iff]
      exact ⟨fun h _ => h, fun h => h rfl⟩
    · obtain ⟨⟨m₁, ts₁⟩, htick, heq⟩ := map_inv h
      cases heq
      exact (tick_cases htick).2.1
  | prepareSwitch =>
    refine ⟨⟨(fun _ h => nomatch h), fun _ => ?_⟩, fun m' ts' es h => ?_⟩
    · unfold mlfqStep
      rw [Option.isSome_map]
      exact hm.prepareSwitch_isSome
    · obtain ⟨⟨r, m₁, ts₁⟩, hprep, heq⟩ := map_inv h
      cases heq
      exact (prepareSwitch_cases hprep).1
  | removeCurrent =>
    refine ⟨⟨(fun _ h => nomatch h), fun _ => rfl⟩, fun m' ts' es h => ?_⟩
    cases h
    unfold removeCurrent
    split <;> rfl

/-- A run stops only when `total_ticks` overflows. -/
theorem InRange.run : ∀ {ops : List MlfqOp} {m : MlfqScheduler} {ts : Tasks}, m.InRange ts →
    (∀ op ∈ ops, op.InRange) → ∀ es,
    ((exec (traced mlfqStep) ((m, ts), es) ops).isSome ↔
      ticksIn ops = 0 ∨ m.totalTicks + ticksIn ops < 2 ^ 32) ∧
    ∀ m' ts' es', exec (traced mlfqStep) ((m, ts), es) ops = some ((m', ts'), es') →
      m'.totalTicks = m.totalTicks + ticksIn ops := by
  intro ops
  induction ops with
  | nil =>
    intro m ts _ _ es
    refine ⟨⟨fun _ => .inl rfl, fun _ => rfl⟩, fun m' ts' es' h => ?_⟩
    cases h
    rfl
  | cons op ops ih =>
    intro m ts hm hops es
    have hop := hops op mem_cons_self
    obtain ⟨hsome, hticks⟩ := hm.step_ticks op
    have hcount : ticksIn (op :: ops) = ticksIn ops + if op.isTick then 1 else 0 :=
      countP_cons
    cases hstep : mlfqStep (m, ts) op with
    | none =>
      -- only a tick can have stopped
      rw [hstep] at hsome
      have hstop : ¬ (op.isTick = true → m.totalTicks + 1 < 2 ^ 32) := fun h => nomatch hsome.mpr h
      obtain ⟨htick, hover⟩ := Classical.not_imp.mp hstop
      have hrun : exec (traced mlfqStep) ((m, ts), es) (op :: ops) = none := by
        rw [exec, traced, hstep]
        rfl
      rw [hrun, hcount, if_pos htick]
      refine ⟨⟨(fun h => nomatch h), fun h => ?_⟩, fun _ _ _ h => nomatch h⟩
      omega
    | some r =>
      obtain ⟨⟨m₁, ts₁⟩, es₁⟩ := r
      have hrun : exec (traced mlfqStep) ((m, ts), es) (op :: ops)
          = exec (traced mlfqStep) ((m₁, ts₁), es ++ es₁) ops := by
        rw [exec, traced, hstep]
        rfl
      have hle : op.isTick = true → m.totalTicks + 1 < 2 ^ 32 := by
        rw [hstep] at hsome
        exact hsome.mp rfl
      obtain ⟨ihsome, ihticks⟩ := ih (hm.step hop hstep)
        (fun o ho => hops o (mem_cons_of_mem _ ho)) (es ++ es₁)
      rw [hrun, ihsome, hcount, hticks m₁ ts₁ es₁ hstep]
      refine ⟨?_, fun m' ts' es' h => ?_⟩
      · split
        next htick =>
          have := hle htick
          omega
        · rfl
      · rw [ihticks m' ts' es' h, hticks m₁ ts₁ es₁ hstep]
        omega

end MlfqScheduler

end AlaphiOS.Sched
