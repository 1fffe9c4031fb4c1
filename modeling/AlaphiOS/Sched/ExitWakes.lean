import AlaphiOS.Sched.Waits
import AlaphiOS.Sched.RosterInv

/-!
# Who is woken by `exit`

`exit` calls `unblock_pid` on its parent, and `unblock_pid` calls `unblock_tid` on the first task of
the table with that pid. So one task at most is woken by an `exit`, whoever waits for it.
`Waking` follows the exiting task from the store of Zombie to `remove_current`, between any
steps of the others, and says what its scan has found and whom it has woken.

A thread has the parent of the task that made it (`Call.clone`), so the `exit` of a thread
wakes somebody in the process of its grandparent and not the task that joins it
(`joiner_not_woken`).

The events are tagged with the task that runs, to tell what `exit` itself does from what
others do meanwhile.
-/

namespace AlaphiOS.Sched

open Lib Function List

/-- What a task in `wait` or `wait_tid` waits for, while it gives way and before it looks again. -/
def Pc.waitsOn : Pc → Option Target
  | .schedule (.wait target) | .prepare (.wait target) | .wait target => some target
  | _ => none

/-- In `exit` behind `remove_current`, or without a context. -/
def Pc.gone (p : Pc) : Prop :=
  p = .schedule .halt ∨ p = .prepare .halt ∨ p = .halt ∨ p = .lost

namespace Roster

theorem unblockAll_unblocked : ∀ {ts : List Nat} {r : Roster} {w : Nat},
    .unblocked w ∈ (r.unblockAll ts).2 → w ∈ ts := by
  intro ts
  induction ts with
  | nil => exact nofun
  | cons t ts ih =>
    intro r w h
    rcases mem_append.mp h with h | h
    · have hev : .unblocked w ∈ [Event.unblocked t, Event.enqueued t] := by
        change _ ∈ (r.unblock t).2 at h
        unfold unblock at h
        split at h
        · exact h
        · exact mem_cons.mpr (.inl (mem_singleton.mp h))
      have hw : w = t := by simpa using hev
      exact hw ▸ mem_cons_self
    · exact mem_cons_of_mem _ (ih h)

end Roster

section Moves

open Roster

variable {r r' : Roster} {c : Entries} {es : List Event}

/-- Nobody else is woken. -/
theorem Move.unblocked {w : Nat} (hm : Move c r es r') (h : .unblocked w ∈ es) : w ∈ c.wakes := by
  cases hm with
  | wake => exact unblockAll_unblocked h
  | block | swap | take | exit | leave | remove | create | push | reap | miss => simp at h

/-- The place of a task that does not run stays the same. -/
theorem Move.pc_of_ne {t : Nat} (hm : Move c r es r') (hne : t ≠ r.cpu) (ht : t < r.created) :
    r'.pc t = r.pc t := by
  cases hm with
  | wake =>
    have hpc : (r.unblockAll c.wakes).1.pc = r.pc := unblockAll_frame.1
    have hcpu : (r.unblockAll c.wakes).1.cpu = r.cpu := unblockAll_frame.2.1
    rw [goto_pc_of_ne (hcpu ▸ hne), hpc]
  | create => exact (update_of_ne hne ..).trans (update_of_ne (Nat.ne_of_lt ht) ..)
  | block | swap | take | exit | leave | remove | push | reap | miss =>
    exact update_of_ne hne ..

theorem Move.created_le (hm : Move c r es r') : r.created ≤ r'.created := by
  cases hm with
  | wake =>
    have hcreated : (r.unblockAll c.wakes).1.created = r.created := unblockAll_frame.2.2.2.2.1
    exact Nat.le_of_eq hcreated.symm
  | create => exact Nat.le_succ _
  | block | swap | take | exit | leave | remove | push | reap | miss => exact le_rfl

end Moves

namespace Kernel

/-- A step, its events tagged with the task that runs. -/
def ownStep (k : Kernel) (op : Op) : Option (Kernel × List (Nat × Event)) :=
  (k.step op).map fun r => (r.1, r.2.map fun ev => (k.cpu, ev))

/-- Task `w` waits for task `e`, by its tid or by its pid. -/
def WaitsFor (k : Kernel) (w e : Nat) : Prop :=
  (k.pc w).waitsOn = some (.tid e) ∨ (k.pc w).waitsOn = some (.pid (k.tasks e).pid)

/-- The pid that `exit` looks for in this step. -/
def scans (k : Kernel) : Op → Option Nat
  | .next _ =>
    match k.pc k.cpu with
    | .exitWake parent => some parent
    | _ => none
  | _ => none

/-- If task `e` makes the scan of its `exit` in this step, it finds `found`. -/
def ScanFinds (e : Nat) (found : Option Nat) (k : Kernel) (op : Op) : Prop :=
  k.cpu = e → ∀ parent, k.scans op = some parent → k.findPid parent = found

instance (e : Nat) (found : Option Nat) (k : Kernel) (op : Op) : Decidable (ScanFinds e found k op) :=
  inferInstanceAs (Decidable (_ → _))

/-- How far task `e` is in its `exit`. -/
inductive Waking (e : Nat) (parent found : Option Nat) (k : Kernel) (tr : List (Nat × Event)) : Prop
  | scan {p : Nat} (hpc : k.pc e = .exitWake p) (hparent : parent = some p)
      (hnone : ∀ w, (e, .unblocked w) ∉ tr)
  | wake {t : Nat} (hpc : k.pc e = .wake t .exitRemove) (hfound : found = some t)
      (hnone : ∀ w, (e, .unblocked w) ∉ tr)
  | done (hpc : k.pc e = .exitRemove) (hwoken : ∀ w, (e, .unblocked w) ∈ tr ↔ found = some w)
  | gone (hpc : (k.pc e).gone)

variable {k k' : Kernel} {es : List Event} {e n : Nat} {parent found : Option Nat}
  {tr : List (Nat × Event)}

theorem next_exitWake {p : Nat} (hpc : k.pc k.cpu = .exitWake p) :
    k.next n = some (match k.findPid p with
      | some t => k.goto (.wake t .exitRemove)
      | none => k.goto .exitRemove, []) := by
  unfold next
  rw [hpc]
  dsimp only
  cases k.findPid p <;> rfl

theorem goto_pc {p : Pc} : (k.goto p).pc k.cpu = p := update_self ..

/-- Nothing of what matters here has changed. -/
theorem Waking.keep {tr' : List (Nat × Event)} (h : Waking e parent found k tr)
    (hpc : k'.pc e = k.pc e)
    (htr : ∀ w, (e, .unblocked w) ∈ tr' ↔ (e, .unblocked w) ∈ tr) :
    Waking e parent found k' tr' := by
  cases h with
  | scan hp hparent hnone => exact .scan (hpc.trans hp) hparent fun w hw => hnone w ((htr w).mp hw)
  | wake hp hfound hnone => exact .wake (hpc.trans hp) hfound fun w hw => hnone w ((htr w).mp hw)
  | done hp hwoken => exact .done (hpc.trans hp) fun w => (htr w).trans (hwoken w)
  | gone hp => exact .gone (hpc ▸ hp)

variable {t w : Nat} {op : Op} {code : Int}

theorem woken_append {c : Nat} : (e, .unblocked w) ∈ tr ++ es.map (fun ev => (c, ev)) ↔
      (e, .unblocked w) ∈ tr ∨ (c = e ∧ .unblocked w ∈ es) := by
  simp only [mem_append, mem_map, Prod.mk.injEq, exists_eq_right_right]
  exact or_congr_right and_comm

theorem mem_unblockTid : .unblocked w ∈ (k.unblockTid t).2 ↔ w = t := by
  unfold unblockTid
  split <;> simp

/-- From `remove_current` on there is no way back into the scan. -/
theorem gone_next (hpc : (k.pc k.cpu).gone) (hstep : k.next n = some (k', es)) :
    (k'.pc k.cpu).gone := by
  have hnext := next_inv hstep
  rcases hpc with hpc | hpc | hpc | hpc
  · rw [hpc] at hnext
    cases hnext with
    | scheduleLater => exact .inr (.inr (.inl goto_pc))
    | schedule => exact .inr (.inl goto_pc)
  · rw [hpc] at hnext
    cases hnext with
    | prepare _ hdispatch =>
      rcases (dispatch_frame hdispatch).2.2 with hpc' | hpc'
      · exact .inr (.inr (.inl (hpc' ▸ goto_pc)))
      · exact .inr (.inr (.inr (hpc' ▸ update_self ..)))
  all_goals
    rw [hpc] at hnext
    cases hnext

/-- A step of the exiting task inside `exit`. -/
theorem Waking.own (h : Waking k.cpu parent found k tr) (hscan : ScanFinds k.cpu found k (.next n))
    (hstep : k.next n = some (k', es)) :
    Waking k.cpu parent found k' (tr ++ es.map fun ev => (k.cpu, ev)) := by
  cases h with
  | @scan p hpc hparent hnone =>
    have hfinds : k.findPid p = found := hscan rfl p (by unfold scans; rw [hpc])
    rw [next_exitWake hpc, hfinds] at hstep
    cases hstep
    rw [map_nil, append_nil]
    cases found with
    | none => exact .done goto_pc fun w => iff_of_false (hnone w) (by simp)
    | some t => exact .wake goto_pc rfl hnone
  | @wake t hpc hfound hnone =>
    have hnext := next_inv hstep
    rw [hpc] at hnext
    cases hnext with
    | wake =>
      refine .done ?_ fun w => ?_
      · rw [← (unblockTid_frame k t).2.2.2]
        exact goto_pc
      · rw [woken_append, mem_unblockTid, hfound, Option.some.injEq]
        constructor
        · rintro (h | ⟨_, rfl⟩)
          · exact absurd h (hnone w)
          · rfl
        · rintro rfl
          exact .inr ⟨rfl, rfl⟩
  | done hpc hwoken =>
    have hnext := next_inv hstep
    rw [hpc] at hnext
    cases hnext with
    | exitRemove => exact .gone (.inl goto_pc)
  | gone hpc => exact .gone (gone_next hpc hstep)

/-- Any step. -/
theorem Waking.step (h : Waking e parent found k tr) (he : e < k.nextTid)
    (hscan : ScanFinds e found k op) (hstep : k.step op = some (k', es)) :
    Waking e parent found k' (tr ++ es.map fun ev => (k.cpu, ev)) := by
  have hmove := step_move hstep
  by_cases hcpu : k.cpu = e
  · subst hcpu
    cases op with
    | next n => exact h.own hscan hstep
    | timer n =>
      have htr : ∀ w, (k.cpu, .unblocked w) ∈ tr ++ es.map (fun ev => (k.cpu, ev)) ↔
          (k.cpu, .unblocked w) ∈ tr := by
        intro w
        rw [woken_append]
        exact or_iff_left fun hw => absurd (hmove.unblocked hw.2) not_mem_nil
      rcases (timer_frame (timer_of_step hstep)).2.2 with hpc | hpc
      · exact h.keep (by rw [hpc]) htr
      · exact .gone (.inr (.inr (.inr (hpc ▸ update_self ..))))
    | call c =>
      -- a call begins outside of `exit`
      obtain ⟨hrun, _⟩ := call_of_step hstep
      cases h with
      | scan hpc | wake hpc | done hpc => rw [hrun] at hpc; cases hpc
      | gone hpc => rw [hrun] at hpc; rcases hpc with hpc | hpc | hpc | hpc <;> cases hpc
  · refine h.keep (hmove.pc_of_ne (Ne.symm hcpu) he) fun w => ?_
    rw [woken_append]
    exact or_iff_left fun hw => hcpu hw.1

/-- The store of Zombie. -/
theorem Waking.start (hexit : k.step (.call (.exit code)) = some (k', es))
    (hes : .exited k.cpu code ∈ es) (hfound : (k.tasks k.cpu).parent = none → found = none) :
    Waking k.cpu (k.tasks k.cpu).parent found k' [] := by
  obtain ⟨_, rfl, rfl⟩ := call_of_step hexit
  dsimp only [call] at hes ⊢
  split
  next hin =>
    cases hparent : (k.tasks k.cpu).parent with
    | none =>
      refine .done goto_pc fun w => ?_
      rw [hfound hparent]
      simp
    | some p => exact .scan goto_pc rfl fun _ => not_mem_nil
  next hout =>
    rw [if_neg hout] at hes
    cases hes

theorem ownStep_inv {s s' : Kernel × List (Nat × Event)} (h : traced ownStep s op = some s') :
    ∃ es, s.1.step op = some (s'.1, es) ∧ s'.2 = s.2 ++ es.map fun ev => (s.1.cpu, ev) := by
  obtain ⟨_, hs, htr⟩ := traced_inv h
  obtain ⟨⟨k', es⟩, hstep, heq⟩ := map_inv hs
  cases heq
  exact ⟨es, hstep, htr⟩

theorem ownStep_next {k₁ : Kernel} (h : k.next n = some (k₁, es)) :
    traced ownStep (k, tr) (.next n) = some (k₁, tr ++ es.map fun ev => (k.cpu, ev)) := by
  simp only [traced, ownStep, Kernel.step, h, Option.map_some]

theorem wake_reaches_removal (tr : List (Nat × Event)) (hpc : k.pc k.cpu = .wake t .exitRemove) :
    ∃ k₂ tr₂, exec (traced ownStep) (k, tr) [.next 0] = some (k₂, tr₂) ∧
      k₂.pc k.cpu = .exitRemove := by
  have hnext : k.next 0 = some ((k.unblockTid t).1.goto .exitRemove, (k.unblockTid t).2) := by
    unfold next
    rw [hpc]
  refine ⟨_, _, by rw [exec, ownStep_next hnext]; rfl, ?_⟩
  rw [← (unblockTid_frame k t).2.2.2]
  exact goto_pc

/-- If it is not interrupted, the exiting task is at `remove_current` after two more steps at
most. -/
theorem exit_reaches_removal (hexit : k.step (.call (.exit code)) = some (k', es)) :
    ∃ ops k₂ tr, (∀ op ∈ ops, op = .next 0) ∧
      exec (traced ownStep) (k', []) ops = some (k₂, tr) ∧ k₂.pc k.cpu = .exitRemove := by
  have hscan : ∀ {k₁ : Kernel} {p : Nat}, k₁.pc k₁.cpu = .exitWake p →
      ∃ ops k₂ tr, (∀ op ∈ ops, op = .next 0) ∧
        exec (traced ownStep) (k₁, []) ops = some (k₂, tr) ∧ k₂.pc k₁.cpu = .exitRemove := by
    intro k₁ p hpc
    have hnext : k₁.next 0 = _ := next_exitWake hpc
    cases hfind : k₁.findPid p with
    | none =>
      rw [hfind] at hnext
      exact ⟨[.next 0], _, _, by simp, by rw [exec, ownStep_next hnext]; rfl, goto_pc⟩
    | some t =>
      rw [hfind] at hnext
      obtain ⟨k₂, tr₂, hrun, hend⟩ := wake_reaches_removal
        (k := k₁.goto (.wake t .exitRemove)) [] goto_pc
      exact ⟨[.next 0, .next 0], k₂, tr₂, by simp, by rw [exec, ownStep_next hnext]; exact hrun, hend⟩
  obtain ⟨_, rfl, _⟩ := call_of_step hexit
  dsimp only [call]
  split
  · cases (k.tasks k.cpu).parent with
    | none => exact ⟨[], _, _, by simp, rfl, goto_pc⟩
    | some p => exact hscan goto_pc
  · exact ⟨[], _, _, by simp, rfl, goto_pc⟩

/-- **Whom `exit` wakes**, whatever the others do meanwhile. The running task exits, with `found`
the task that its scan of the table finds; when it is at `remove_current`, it has called
`unblock_tid` on `found` and on nobody else. So all who wait for it are woken by it exactly if
there is no one but `found`. -/
theorem exit_wakes_waiters {k k₁ : Kernel} {code : Int} (found : Option Nat)
    (hcpu : k.cpu < k.nextTid)
    (hexit : k.step (.call (.exit code)) = some (k₁, [.exited k.cpu code]))
    (hparent : (k.tasks k.cpu).parent = none → found = none) :
    (∃ ops k₂ tr, (∀ op ∈ ops, op = .next 0) ∧
      exec (traced ownStep) (k₁, []) ops = some (k₂, tr) ∧ k₂.pc k.cpu = .exitRemove) ∧
    ∀ ops k₂ tr, Along (traced ownStep) (fun s op => ScanFinds k.cpu found s.1 op) (k₁, []) ops →
      exec (traced ownStep) (k₁, []) ops = some (k₂, tr) → k₂.pc k.cpu = .exitRemove →
      (∀ w, (k.cpu, .unblocked w) ∈ tr ↔ found = some w) ∧
      ((∀ w, k.WaitsFor w k.cpu → (k.cpu, .unblocked w) ∈ tr) ↔
        ∀ w, k.WaitsFor w k.cpu → found = some w) := by
  refine ⟨exit_reaches_removal hexit, fun ops k₂ tr halong hrun hdone => ?_⟩
  have hstart : Waking k.cpu (k.tasks k.cpu).parent found k₁ [] :=
    .start hexit (mem_singleton_self _) hparent
  have hcreated : k.cpu < k₁.nextTid := Nat.lt_of_lt_of_le hcpu (step_move hexit).created_le
  have hend := exec_induction (I := fun s : Kernel × List (Nat × Event) =>
      k.cpu < s.1.nextTid ∧ Waking k.cpu (k.tasks k.cpu).parent found s.1 s.2)
    (fun s op s' hI hscan hs => ?_)
    ⟨hcreated, hstart⟩ halong hrun
  · have hwoken : ∀ w, (k.cpu, .unblocked w) ∈ tr ↔ found = some w := by
      cases hend.2 with
      | scan hpc | wake hpc => rw [hdone] at hpc; cases hpc
      | done _ hwoken => exact hwoken
      | gone hpc => rw [hdone] at hpc; rcases hpc with hpc | hpc | hpc | hpc <;> cases hpc
    exact ⟨hwoken, forall₂_congr fun w _ => hwoken w⟩
  · obtain ⟨es, hstep, htr⟩ := ownStep_inv hs
    rw [htr]
    exact ⟨Nat.lt_of_lt_of_le hI.1 (step_move hstep).created_le, hI.2.step hI.1 hscan hstep⟩

/-- A child that its parent has forked and waits for runs. -/
def childAwaited : Kernel × List Event :=
  (exec (traced step) (boot, []) [.call .fork, .next 0, .call (.wait (.pid 3)), .next 0, .next 0,
    .next 0, .next 0]).get (by decide +kernel)

/-- It exits and wakes its parent, who is the only one to wait. -/
theorem exit_wakes_waiters_child : ∃ k₂ tr, exec (traced ownStep)
    ((childAwaited.1.call (.exit 7)).1, []) [.next 0, .next 0] = some (k₂, tr) ∧
      childAwaited.1.cpu = 3 ∧ childAwaited.1.WaitsFor 1 3 ∧ (3, .unblocked 1) ∈ tr := by
  have hexit : childAwaited.1.step (.call (.exit 7))
      = some ((childAwaited.1.call (.exit 7)).1, [.exited childAwaited.1.cpu 7]) := by
    have hes : (childAwaited.1.call (.exit 7)).2 = [.exited childAwaited.1.cpu 7] := by decide +kernel
    have hpc : childAwaited.1.pc childAwaited.1.cpu = .run := by decide +kernel
    dsimp only [step]
    rw [if_pos hpc, ← hes]
  have hcpu : childAwaited.1.cpu = 3 := by decide +kernel
  obtain ⟨⟨k₂, tr⟩, hrun, hdone⟩ : ∃ s ∈ exec (traced ownStep) ((childAwaited.1.call (.exit 7)).1, [])
      [.next 0, .next 0], s.1.pc childAwaited.1.cpu = .exitRemove := by decide +kernel
  have hwoken := ((exit_wakes_waiters (some 1) (by decide +kernel) hexit
    (by decide +kernel)).2 _ k₂ tr (by decide +kernel) hrun hdone).1 1
  rw [hcpu] at hwoken
  exact ⟨k₂, tr, hrun, hcpu, .inr (by decide +kernel), hwoken.mpr rfl⟩

/-- A forked process has made a thread and joins it; the thread runs. -/
def threadJoined : Kernel × List Event :=
  (exec (traced step) (boot, []) [.call .fork, .next 0, .timer 0, .call (.clone 0), .next 0,
    .call (.wait (.tid 4)), .next 0, .next 0, .next 0, .next 0]).get (by decide +kernel)

/-- Task `t` with another state. -/
def setState (k : Kernel) (t : Nat) (state : TaskState) : Kernel :=
  { k with tasks := update k.tasks t { k.tasks t with state := state } }

/-- The thread exits. The task that joins it has marked itself Blocked and nobody has called
`unblock_tid` on it since; `exit` does not either, but wakes the parent of the process. That is
so in the state the scheduler has made, where the waiting task is Ready again, and it would be
so if it were Blocked still. -/
theorem joiner_not_woken : threadJoined.1.cpu = 4 ∧ threadJoined.1.WaitsFor 3 4 ∧
    .blocked 3 ∈ threadJoined.2 ∧ .unblocked 3 ∉ threadJoined.2 ∧
    (threadJoined.1.tasks 3).state = .ready ∧
    ∀ state ∈ [TaskState.ready, TaskState.blocked], ∃ k₁ k₂ tr,
      (threadJoined.1.setState 3 state).step (.call (.exit 7)) = some (k₁, [.exited 4 7]) ∧
      exec (traced ownStep) (k₁, []) [.next 0, .next 0] = some (k₂, tr) ∧
      k₂.pc 4 = .exitRemove ∧ (4, .unblocked 1) ∈ tr ∧ (4, .unblocked 3) ∉ tr ∧
      (k₂.tasks 3).state = state := by
  refine ⟨by decide +kernel, .inl (by decide +kernel), by decide +kernel, by decide +kernel,
    by decide +kernel, ?_⟩
  have h : ∀ state ∈ [TaskState.ready, TaskState.blocked],
      ((threadJoined.1.setState 3 state).step (.call (.exit 7))).any (fun r =>
        decide (r.2 = [.exited 4 7]) &&
        (exec (traced ownStep) (r.1, []) [.next 0, .next 0]).any fun s =>
          decide (s.1.pc 4 = .exitRemove ∧ (4, .unblocked 1) ∈ s.2 ∧ (4, .unblocked 3) ∉ s.2 ∧
            (s.1.tasks 3).state = state)) = true := by
    decide +kernel
  intro state hstate
  have hs := h state hstate
  simp only [Option.any_eq_true, Bool.and_eq_true, decide_eq_true_eq] at hs
  obtain ⟨⟨k₁, es⟩, hexit, rfl, ⟨k₂, tr⟩, hrun, hend⟩ := hs
  exact ⟨k₁, k₂, tr, hexit, hrun, hend⟩

end Kernel

end AlaphiOS.Sched
