import AlaphiOS.Sched.RosterInv

/-!
# The exit code

`exit` stores Zombie and the code, wakes the parent, calls `remove_current` and
then `schedule`, each under its own lock. A timer interrupt in between finds a
current task that is a Zombie; `prepare_switch` marks it Ready and queues it like
any other (`exit_preempted`), and no `wait` sees the Zombie again.

Where no such switch is made, the task stays as `exit` left it until a `wait`
takes it out of the table, and that `wait` returns the code. `Kept` is the
invariant from the moment of the store on.
-/

namespace AlaphiOS.Sched

open Lib Function List

/-- The step does not switch away from `t` to another task. -/
def Kernel.KeepsCurrent (k : Kernel) (t : Nat) (op : Op) : Prop :=
  k.switches op = true → k.sched.current = some t → k.sched.queued = 0

instance (k : Kernel) (t : Nat) (op : Kernel.Op) : Decidable (k.KeepsCurrent t op) :=
  inferInstanceAs (Decidable (_ → _ → _))

namespace Roster

variable {r r' : Roster} {t : Nat} {code : Int} {tr es : List Event}

/-- Since the store of `code`: the table still has it, or a `wait` has returned
it. -/
structure Kept (r : Roster) (t : Nat) (code : Int) (tr : List Event) : Prop where
  ok : r.Ok
  exited : Exited r t
  stored : r.code t = some code
  returned : ∀ w c, .waited w (some t) c ∈ tr → c = code
  listed : r.listed t = true ∨ ∃ w, .waited w (some t) code ∈ tr
  notDispatched : .dispatched t ∉ tr

variable {c : Entries}

/-- What a move does with a stored exit code. -/
theorem Exited.move_code (h : Exited r t) (hm : Move c r es r') :
    r'.code t = r.code t ∧ (∀ w c, .waited w (some t) c ∈ es → c = (r.code t).getD (-1)) ∧
      (r'.listed t = r.listed t ∨ ∃ w, .waited w (some t) ((r.code t).getD (-1)) ∈ es) := by
  cases hm with
  | wake =>
    have hlisted : (r.unblockAll c.wakes).1.listed = r.listed := unblockAll_frame.2.2.2.1
    have hcode : (r.unblockAll c.wakes).1.code = r.code := unblockAll_frame.2.2.2.2.2
    refine ⟨congrFun hcode t, fun w c he => ?_, .inl (congrFun hlisted t)⟩
    obtain ⟨x, he | ⟨he, _⟩⟩ := unblockAll_events he <;> cases he
  | block | swap | take | leave | remove | push | miss => exact ⟨rfl, by simp, .inl rfl⟩
  -- A task that has exited runs no code that could exit once more.
  | exit _ _ hrun =>
    have hne : t ≠ r.cpu := h.ne_cpu (by rw [hrun]; rfl)
    exact ⟨update_of_ne hne .., by simp, .inl rfl⟩
  | create =>
    have hne : t ≠ r.created := Nat.ne_of_lt h.created
    exact ⟨update_of_ne hne .., by simp, .inl (update_of_ne hne ..)⟩
  -- The only event about a code is that of `wait`, and it hands out the one that is stored.
  | @reap x _ _ _ _ =>
    by_cases hx : x = t
    · subst hx
      refine ⟨rfl, fun w c he => ?_, .inr ⟨r.cpu, mem_singleton_self _⟩⟩
      exact (Event.waited.inj (mem_singleton.mp he)).2.2
    · refine ⟨rfl, fun w c he => ?_, .inl (update_of_ne (Ne.symm hx) ..)⟩
      exact absurd (Option.some.inj (Event.waited.inj (mem_singleton.mp he)).2.1).symm hx

theorem Kept.move (h : Kept r t code tr)
    (hswitches : c.switches → r.current = some t → r.queued = 0)
    (hm : Move c r es r') : Kept r' t code (tr ++ es) := by
  obtain ⟨hexited, _, hdisp⟩ := h.exited.move h.ok hswitches hm
  obtain ⟨hcode, hwaited, hlisted⟩ := h.exited.move_code hm
  rw [h.stored] at hwaited hlisted
  refine ⟨h.ok.move hm, hexited, hcode.trans h.stored, fun w c he => ?_, ?_, fun he => ?_⟩
  · rcases mem_append.mp he with he | he
    · exact h.returned w c he
    · exact hwaited w c he
  · rcases hlisted with hl | ⟨w, hw⟩
    · rcases h.listed with hl' | ⟨w, hw⟩
      · exact .inl (hl.trans hl')
      · exact .inr ⟨w, mem_append_left _ hw⟩
    · exact .inr ⟨w, mem_append_right _ hw⟩
  · rcases mem_append.mp he with he | he
    · exact h.notDispatched he
    · exact hdisp he

/-- The store itself. -/
theorem Kept.start (hok : r.Ok) (hm : Move c r es r') (hes : .exited r.cpu code ∈ es)
    (hq : r.cpu ∉ r.queued) : Kept r' r.cpu code [] := by
  have hok' := hok.move hm
  cases hm with
  | wake => obtain ⟨x, he | ⟨he, _⟩⟩ := unblockAll_events hes <;> cases he
  | @exit _ p _ hlisted _ hp =>
    obtain rfl := (Event.exited.inj (mem_singleton.mp hes)).2
    refine ⟨hok', ⟨update_self .., hq, ?_, hok.cpuCreated⟩, update_self ..,
      nofun, .inl hlisted, not_mem_nil⟩
    show ((r.goto p).pc r.cpu).phase ≠ .live
    rw [goto_pc_cpu, hp.1]
    decide
  | block | swap | take | leave | remove | create | push | reap | miss => simp at hes

end Roster

namespace Kernel

/-- **An exit code is never lost**, if no step switches away from the task between
the store and `remove_current`. `k` is any state in which a task that is in no
queue calls `exit`. -/
theorem exit_code_kept {before after : List Op} {k k₁ k₂ : Kernel} {tr₀ tr : List Event}
    {code : Int} (hbefore : exec (traced step) (boot, []) before = some (k, tr₀))
    (hqueued : k.cpu ∉ k.sched.queued)
    (hexit : k.step (.call (.exit code)) = some (k₁, [.exited k.cpu code]))
    (halong : Along (traced step) (fun s op => s.1.KeepsCurrent k.cpu op) (k₁, []) after)
    (hafter : exec (traced step) (k₁, []) after = some (k₂, tr)) :
    (k₂.tasks k.cpu).state = .zombie ∧ (k₂.tasks k.cpu).exitCode = some code ∧
      .dispatched k.cpu ∉ tr ∧ (∀ w c, .waited w (some k.cpu) c ∈ tr → c = code) ∧
      (k₂.inTable k.cpu = true ∨ ∃ w, .waited w (some k.cpu) code ∈ tr) := by
  have hstart : k₁.roster.Kept k.cpu code [] :=
    .start (run_ok hbefore) (step_move hexit) (mem_singleton_self _) hqueued
  have hend := exec_induction
    (I := fun s : Kernel × List Event => s.1.roster.Kept k.cpu code s.2)
    (fun s op s' hI hcond hs => ?_) hstart halong hafter
  · exact ⟨hend.exited.zombie, hend.stored, hend.notDispatched, hend.returned, hend.listed⟩
  · obtain ⟨es, hstep, htr⟩ := traced_inv hs
    rw [htr]
    exact hI.move (c := s.1.entries op) hcond (step_move hstep)

/-- A child that its parent has spawned and that runs now. -/
def childRuns : Kernel × List Event :=
  (exec (traced step) (boot, []) [.call (.spawn 0 (some 1)), .next 0, .timer 0]).get
    (by decide +kernel)

/-- It exits with 7, and its parent waits for it. -/
theorem exit_code_kept_child : ∃ k₂ tr, exec (traced step) ((childRuns.1.call (.exit 7)).1, [])
    [.next 0, .next 0, .next 0, .next 0, .next 0, .call (.wait (.pid 3)), .next 0] = some (k₂, tr) ∧
      .waited 1 (some 3) 7 ∈ tr ∧ (k₂.tasks childRuns.1.cpu).state = .zombie ∧
      .dispatched childRuns.1.cpu ∉ tr ∧ k₂.inTable childRuns.1.cpu = false := by
  have hbefore : exec (traced step) (boot, []) [.call (.spawn 0 (some 1)), .next 0, .timer 0]
      = some (childRuns.1, childRuns.2) := (Option.some_get (by decide +kernel)).symm
  have hexit : childRuns.1.step (.call (.exit 7))
      = some ((childRuns.1.call (.exit 7)).1, [.exited childRuns.1.cpu 7]) := by
    have hes : (childRuns.1.call (.exit 7)).2 = [.exited childRuns.1.cpu 7] := by decide +kernel
    have hpc : childRuns.1.pc childRuns.1.cpu = .run := by decide +kernel
    dsimp only [step]
    rw [if_pos hpc, ← hes]
  have h : (exec (traced step) ((childRuns.1.call (.exit 7)).1, [])
      [.next 0, .next 0, .next 0, .next 0, .next 0, .call (.wait (.pid 3)), .next 0]).map
        (fun s => (s.2, s.1.inTable childRuns.1.cpu))
        = some ([.unblocked 1, .dispatched 1, .waited 1 (some 3) 7], false) := by decide +kernel
  obtain ⟨⟨k₂, tr⟩, hafter, heq⟩ := map_inv h
  obtain ⟨hz, _, hd, _⟩ := exit_code_kept hbefore (by decide +kernel) hexit (by decide +kernel) hafter
  simp only [Prod.mk.injEq] at heq
  exact ⟨k₂, tr, hafter, heq.1 ▸ by simp, hz, hd, heq.2⟩

/-- The boot task exits with 7 and is preempted before `remove_current`: it is
Ready again, in the table, and the code has reached nobody. -/
theorem exit_preempted :
    ∃ k tr, exec (traced step) (boot, [])
      [.call (.spawn 0 none), .next 0, .call (.exit 7), .timer 0] = some (k, tr) ∧
        .exited 1 7 ∈ tr ∧ k.inTable 1 = true ∧ (k.tasks 1).state = .ready := by
  have h : (exec (traced step) (boot, [])
      [.call (.spawn 0 none), .next 0, .call (.exit 7), .timer 0]).map
        (fun s => (s.2, s.1.inTable 1, (s.1.tasks 1).state))
        = some ([.enqueued 3, .exited 1 7, .enqueued 1, .dispatched 3], true, .ready) := by
    decide +kernel
  obtain ⟨⟨k, tr⟩, hrun, heq⟩ := map_inv h
  simp only [Prod.mk.injEq] at heq
  obtain ⟨rfl, hin, hstate⟩ := heq
  exact ⟨k, _, hrun, by simp, hin, hstate⟩

end Kernel

end AlaphiOS.Sched
