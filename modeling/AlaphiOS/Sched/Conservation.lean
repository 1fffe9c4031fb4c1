import AlaphiOS.Sched.Queues
import Mathlib.Data.Multiset.UnionInter

/-!
# The scheduler keeps its tasks and their labels

From `new()`, with any calls of `push`, `tick`, `prepare_switch` and `remove_current`: no task is
lost or doubled, and every task in queue `i` has priority `i`, so that it gets the slice of its
queue.

The invariant is `Labelled`: no task is twice in the scheduler, the tasks of the queues have their
numbers as priorities, and the current task has some queue's. That no task is there twice is what
makes the labels stay: a boost writes the priorities queue after queue, and a task in two queues
would keep the number of the last one only.
-/

namespace AlaphiOS.Sched

open Lib Function List

namespace MlfqScheduler

variable {m m' : MlfqScheduler} {ts ts' : Tasks} {t : Nat}

/-- Each task is once in its own queue. -/
structure Labelled (m : MlfqScheduler) (ts : Tasks) : Prop where
  nodup : m.members.Nodup
  labels : ∀ {i t}, InQueue m.queues i t → (ts t).priority = i
  current : ∀ {t}, m.current = some t → (ts t).priority < numQueues

/-- A pushed task is not in the scheduler. -/
def Fresh (m : MlfqScheduler) : MlfqOp → Prop
  | .push t _ => t ∉ m.members
  | .tick | .prepareSwitch | .removeCurrent => True

instance (m : MlfqScheduler) : (op : MlfqOp) → Decidable (m.Fresh op)
  | .push _ _ => inferInstanceAs (Decidable (_ ∉ _))
  | .tick | .prepareSwitch | .removeCurrent => inferInstanceAs (Decidable True)

theorem not_inQueue_new (i t : Nat) : ¬ InQueue new.queues i t := by
  intro ⟨q, hq, ht⟩
  obtain rfl := (mem_replicate.mp (mem_of_getElem? hq)).2
  exact not_mem_nil ht

namespace Labelled

theorem queues_nodup (h : m.Labelled ts) : m.queues.flatten.Nodup :=
  Multiset.coe_nodup.mp (Multiset.nodup_add.mp h.nodup).2.1

/-- The current task waits in no queue. -/
theorem current_not_inQueue (h : m.Labelled ts) (hc : m.current = some t) (i : Nat) :
    ¬ InQueue m.queues i t := by
  intro hi
  have hdisj := (Multiset.nodup_add.mp h.nodup).2.2
  have hcur : t ∈ (m.current.toList : Multiset Nat) := by simp [hc]
  exact (Multiset.disjoint_left.mp hdisj) hcur (mem_flatten_iff.mpr ⟨i, hi⟩)

theorem inRange (h : m.Labelled ts) : m.InRange ts := by
  intro t ht
  rcases mem_members.mp ht with hc | hq
  · exact h.current hc
  · obtain ⟨i, hi⟩ := mem_flatten_iff.mp hq
    rw [h.labels hi, ← m.length_queues]
    exact hi.lt_length

theorem new (ts : Tasks) : MlfqScheduler.new.Labelled ts where
  nodup := by decide
  labels := fun {i t} hi => absurd hi (not_inQueue_new i t)
  current := fun h => nomatch h

/-! ### One call -/

section

variable (h : m.Labelled ts)

include h

/-- `push` of a new task. -/
theorem push {task : Task} (hprio : task.priority < numQueues)
    (hfresh : t ∉ m.members) :
    (m.push (update ts t task) t).Labelled (update ts t task) := by
  have hother : ∀ {x}, x ∈ m.members → update ts t task x = ts x := by
    intro x hx
    have hne : x ≠ t := fun heq => hfresh (heq ▸ hx)
    rw [update_of_ne hne]
  have htask : update ts t task t = task := update_self ..
  have hpush : m.push (update ts t task) t = m.enqueue task.priority t := by
    unfold MlfqScheduler.push
    rw [htask, if_pos hprio]
  refine ⟨?_, fun {i x} hi => ?_, fun {x} hc => ?_⟩
  · rw [push_members]
    exact Multiset.nodup_cons.mpr ⟨hfresh, h.nodup⟩
  · rw [hpush] at hi
    rcases inQueue_modify.mp hi with hi | ⟨rfl, rfl, _⟩
    · rw [hother hi.mem_members]
      exact h.labels hi
    · rw [htask]
  · rw [push_current] at hc
    rw [hother (mem_members.mpr (.inl hc))]
    exact h.current hc

theorem boost {i : Nat} (hi : InQueue (boostQueues m.queues) i t) :
    (boostTasks m.queues ts t).priority = i := by
  have hlen : 2 ≤ m.queues.length := by
    rw [m.length_queues]
    decide
  rcases (inQueue_boost hlen).mp hi with hi | ⟨rfl, hzero⟩
  · -- it was in the queue below, and nowhere else
    refine boostTasks_priority (P := (· = i)) (fun j _ hj => ?_) (.inr ⟨i + 1, by omega, hi⟩)
    have := InQueue.unique h.queues_nodup hj hi
    omega
  · -- it was in queue 0, which is not visited
    refine boostTasks_priority (P := (· = 0)) (fun j hj hjq => ?_) (.inl (h.labels hzero))
    have := InQueue.unique h.queues_nodup hjq hzero
    omega

/-- `tick`. -/
theorem tick (hr : m.tick ts = some (m', ts')) : m'.Labelled ts' := by
  have hmembers := tick_members hr
  obtain ⟨_, _, hc, ⟨_, hq, rfl⟩ | ⟨_, hq, rfl⟩⟩ := tick_cases hr
  · refine ⟨hmembers ▸ h.nodup, fun hi => h.boost (hq ▸ hi), fun {x} hx => ?_⟩
    rw [hc] at hx
    refine boostTasks_priority (P := (· < numQueues)) (fun i _ hi => ?_) (.inl (h.current hx))
    exact absurd hi (h.current_not_inQueue hx i)
  · exact ⟨hmembers ▸ h.nodup, fun hi => h.labels (hq ▸ hi), fun hx => h.current (hc ▸ hx)⟩

/-- `prepare_switch`. -/
theorem prepareSwitch {r : Option (Option Nat × Nat)}
    (hr : m.prepareSwitch ts = some (r, m', ts')) : m'.Labelled ts' := by
  have hnodup : m'.members.Nodup := prepareSwitch_members hr ▸ h.nodup
  obtain ⟨_, ⟨rfl, _, hq, hc, rfl⟩ | ⟨_, incoming, qs, hpick, rfl, hc, hcase⟩⟩ :=
    prepareSwitch_cases hr
  · exact ⟨hnodup, fun hi => h.labels (hq ▸ hi), fun hx => h.current (hc ▸ hx)⟩
  · obtain ⟨i₀, hqs⟩ := inQueue_pickNext hpick
    have hincoming : InQueue m.queues i₀ incoming := (hqs i₀ incoming).mpr (.inl ⟨rfl, rfl⟩)
    have hold : ∀ {i t}, InQueue qs i t → InQueue m.queues i t := fun {i t} hi =>
      (hqs i t).mpr (.inr hi)
    rcases hcase with ⟨_, hq, rfl⟩ | ⟨out, ts₁, hout, hq, rfl, rfl⟩
    · refine ⟨hnodup, fun {i x} hi => ?_, fun {x} hx => ?_⟩
      · rw [priority_update]
        exact h.labels (hold (hq ▸ hi))
      · rw [priority_update]
        obtain rfl : incoming = x := Option.some.inj (hc.symm.trans hx)
        exact h.inRange _ hincoming.mem_members
    · -- the outgoing task is in no queue, so the others keep their priorities
      have hother : ∀ {i x}, InQueue m.queues i x → x ≠ out := fun hi heq =>
        h.current_not_inQueue hout _ (heq ▸ hi)
      refine ⟨hnodup, fun {i x} hi => ?_, fun {x} hx => ?_⟩
      · rw [priority_update]
        rw [hq] at hi
        rcases inQueue_modify.mp hi with hi | ⟨rfl, rfl, _⟩
        · rw [update_of_ne (hother (hold hi))]
          exact h.labels (hold hi)
        · rw [update_self]
      · rw [priority_update]
        obtain rfl : incoming = x := Option.some.inj (hc.symm.trans hx)
        rw [update_of_ne (hother hincoming)]
        exact h.inRange _ hincoming.mem_members

/-- `remove_current`. -/
theorem removeCurrent : m.removeCurrent.Labelled ts where
  nodup := by
    have hnodup := h.nodup
    rw [← removeCurrent_members] at hnodup
    exact (Multiset.nodup_add.mp hnodup).1
  labels := fun hi => h.labels (removeCurrent_spec.1 ▸ hi)
  current := fun hc => absurd (removeCurrent_spec.2.symm.trans hc) (by simp)

/-- Every call keeps the labels. -/
theorem step {op : MlfqOp} {es : List MlfqEvent} (hop : op.InRange)
    (hfresh : m.Fresh op) (hr : mlfqStep (m, ts) op = some ((m', ts'), es)) : m'.Labelled ts' := by
  cases op with
  | push t task =>
    cases hr
    exact h.push hop hfresh
  | tick =>
    obtain ⟨⟨m₁, ts₁⟩, htick, heq⟩ := map_inv hr
    cases heq
    exact h.tick htick
  | prepareSwitch =>
    obtain ⟨⟨r, m₁, ts₁⟩, hprep, heq⟩ := map_inv hr
    cases heq
    exact h.prepareSwitch hprep
  | removeCurrent =>
    cases hr
    exact h.removeCurrent

end

end Labelled

/-! ## Runs -/

/-- A scheduler as `new()` makes it, or with a task set current, as `scheduler::init` does. -/
def start (ts : Tasks) : Option (Nat × Task) → Option (MlfqScheduler × Tasks)
  | none => some (new, ts)
  | some (t, task) => new.setCurrent (update ts t task) t

theorem start_labelled {boot : Option (Nat × Task)} (h : start ts boot = some (m, ts')) :
    m.Labelled ts' ∧ m.members = ((boot.map Prod.fst).toList : Multiset Nat) ∧
      m.totalTicks = 0 := by
  match boot with
  | none =>
    cases h
    exact ⟨Labelled.new ts, rfl, rfl⟩
  | some (t, task) =>
    obtain ⟨hq, hc, hticks, hlt, rfl⟩ := setCurrent_spec h
    have hmembers : m.members = {t} := by
      rw [members, queued, hq, hc]
      rfl
    refine ⟨⟨?_, fun {i x} hi => ?_, fun {x} hx => ?_⟩, hmembers, hticks⟩
    · rw [hmembers]
      exact Multiset.nodup_singleton t
    · exact absurd (hq ▸ hi) (not_inQueue_new i x)
    · obtain rfl : t = x := Option.some.inj (hc.symm.trans hx)
      rw [priority_update]
      exact hlt

/-- A boost appends each queue, in its order, to the one above. -/
theorem boostQueues_sublist {qs : List (List Nat)} {q : List Nat} {i : Nat}
    (hq : qs[i]? = some q) : ∃ q', (boostQueues qs)[i - 1]? = some q' ∧ q.Sublist q' := by
  match qs, i with
  | [q₀], 0 => exact ⟨q, hq, List.Sublist.refl q⟩
  | q₀ :: q₁ :: qs, 0 =>
    cases hq
    exact ⟨_, rfl, sublist_append_left ..⟩
  | q₀ :: q₁ :: qs, 1 =>
    cases hq
    exact ⟨_, rfl, sublist_append_right ..⟩
  | q₀ :: q₁ :: qs, i + 2 =>
    refine ⟨q, ?_, List.Sublist.refl q⟩
    have hq : qs[i]? = some q := hq
    have hlt : i < qs.length := (List.getElem?_eq_some_iff.mp hq).1
    exact (List.getElem?_append_left hlt).trans hq

/-- What a run has so far done to tasks. -/
def Conserved (boot : Option (Nat × Task)) (s : (MlfqScheduler × Tasks) × List MlfqEvent) : Prop :=
  s.1.1.members + (removedIn s.2 : Multiset Nat)
    = ((boot.map Prod.fst).toList : Multiset Nat) + (pushedIn s.2 : Multiset Nat)

/-- And no task is lost or doubled. -/
theorem Conserved.step {boot : Option (Nat × Task)}
    {s s' : (MlfqScheduler × Tasks) × List MlfqEvent} {op : MlfqOp}
    (h : Conserved boot s) (hr : traced mlfqStep s op = some s') :
    Conserved boot s' := by
  obtain ⟨es, hstep, hes⟩ := traced_inv hr
  have hmembers := mlfqStep_members hstep
  unfold Conserved at h ⊢
  rw [hes]
  have hremoved : removedIn (s.2 ++ es) = removedIn s.2 ++ removedIn es := filterMap_append
  have hpushed : pushedIn (s.2 ++ es) = pushedIn s.2 ++ pushedIn es := filterMap_append
  rw [hremoved, hpushed, ← Multiset.coe_add, ← Multiset.coe_add]
  calc s'.1.1.members + ((removedIn s.2 : Multiset Nat) + (removedIn es : Multiset Nat))
      = (s'.1.1.members + (removedIn es : Multiset Nat)) + (removedIn s.2 : Multiset Nat) := by
        rw [Multiset.add_comm (removedIn s.2 : Multiset Nat), Multiset.add_assoc]
    _ = (s.1.1.members + (removedIn s.2 : Multiset Nat)) + (pushedIn es : Multiset Nat) := by
        rw [hmembers, Multiset.add_assoc, Multiset.add_assoc,
          Multiset.add_comm (pushedIn es : Multiset Nat)]
    _ = _ := by rw [h, Multiset.add_assoc]

/-- **The scheduler conserves tasks and labels.** With pushed tasks that are not in it and have the
number of a queue as priority: the tasks of queue `i` have priority `i`; the current task and those
in the queues are those that were pushed, and the one it started with, less those that
`remove_current` took out; and a boost keeps the order of each queue. It stops only if `tick` is
called 2³² times. -/
theorem conserves_tasks_and_labels {s₀ : MlfqScheduler × Tasks} {boot : Option (Nat × Task)}
    {ops : List MlfqOp} (hstart : start ts boot = some s₀) (hrange : ∀ op ∈ ops, op.InRange)
    (hfresh : Along (traced mlfqStep) (fun s op => s.1.1.Fresh op) (s₀, []) ops) :
    ((exec (traced mlfqStep) (s₀, []) ops).isSome ↔ ticksIn ops < 2 ^ 32) ∧
    ∀ m ts' es, exec (traced mlfqStep) (s₀, []) ops = some ((m, ts'), es) →
      (∀ i t, InQueue m.queues i t → (ts' t).priority = i) ∧
      m.members + (removedIn es : Multiset Nat)
        = ((boot.map Prod.fst).toList : Multiset Nat) + (pushedIn es : Multiset Nat) ∧
      ∀ i q, m.queues[i]? = some q →
        ∃ q', (m.boostPriorities ts').1.queues[i - 1]? = some q' ∧ q.Sublist q' := by
  obtain ⟨m₀, ts₀⟩ := s₀
  obtain ⟨hlabelled, hmembers, hticks⟩ := start_labelled hstart
  refine ⟨?_, fun m ts' es hrun => ?_⟩
  · rw [(hlabelled.inRange.run hrange []).1, hticks]
    omega
  · have hI : m.Labelled ts' ∧ Conserved boot ((m, ts'), es) := by
      refine exec_induction (I := fun s => s.1.1.Labelled s.1.2 ∧ Conserved boot s)
        (fun s op s' hI hop hr => ?_) ⟨hlabelled, ?_⟩ (hfresh.and_forall hrange) hrun
      · obtain ⟨_, hstep, _⟩ := traced_inv hr
        exact ⟨hI.1.step hop.1 hop.2 hstep, hI.2.step hr⟩
      · unfold Conserved
        rw [hmembers]
        simp [removedIn, pushedIn]
    exact ⟨fun i t hi => hI.1.labels hi, hI.2, fun i q hq => boostQueues_sublist hq⟩

/-- A task with this priority. -/
def readyAt (priority : Nat) : Task := ⟨0, .ready, priority, none, none⟩

/-- Task 1 is current, 2 and 3 are pushed; 3 is dispatched and removed, and 1 comes back. -/
theorem conserves_three_tasks : ∃ s₀ m ts' es,
    start (fun _ => readyAt 0) (some (1, readyAt 0)) = some s₀ ∧
    exec (traced mlfqStep) (s₀, []) [.push 2 (readyAt 3), .push 3 (readyAt 0), .tick,
      .prepareSwitch, .removeCurrent, .prepareSwitch] = some ((m, ts'), es) ∧
    (∀ i t, InQueue m.queues i t → (ts' t).priority = i) ∧
    m.members + ([3] : Multiset Nat) = ([1] : Multiset Nat) + ([2, 3] : Multiset Nat) := by
  have hfacts : ∃ s₀ ∈ start (fun _ => readyAt 0) (some (1, readyAt 0)),
      Along (traced mlfqStep) (fun s op => s.1.1.Fresh op) (s₀, []) [.push 2 (readyAt 3),
        .push 3 (readyAt 0), .tick, .prepareSwitch, .removeCurrent, .prepareSwitch] ∧
      ∃ r ∈ exec (traced mlfqStep) (s₀, []) [.push 2 (readyAt 3), .push 3 (readyAt 0), .tick,
        .prepareSwitch, .removeCurrent, .prepareSwitch],
        removedIn r.2 = [3] ∧ pushedIn r.2 = [2, 3] := by decide +kernel
  obtain ⟨s₀, hstart, hfresh, ⟨⟨m, ts'⟩, es⟩, hr, hremoved, hpushed⟩ := hfacts
  have hrun := (conserves_tasks_and_labels hstart
    (by simp [MlfqOp.InRange, readyAt, numQueues]) hfresh).2
  obtain ⟨hlabels, hmembers, _⟩ := hrun m ts' es hr
  dsimp only at hremoved hpushed
  rw [hremoved, hpushed] at hmembers
  exact ⟨s₀, m, ts', es, hstart, hr, hlabels, hmembers⟩

end MlfqScheduler

end AlaphiOS.Sched
