import AlaphiOS.Sched.Waits
import AlaphiOS.Sched.Places
import AlaphiOS.Sched.Yield

/-!
# Tids left in wait queues

A wait queue should hold the tasks that are blocked in that wait, each once (`RealWaiters`). A task
puts its tid into the queue, marks itself Blocked and calls `schedule`; only `unlock`, `signal` and
`broadcast` take tids out. But `prepare_switch` makes the task Ready as it switches it out and
queues it again, so that a task is Blocked only while it runs (`BlockedRuns`): a waiter that makes
room for another task is none any more, and goes on before its tid was taken out. In `lock` it
tries again, and its tid is in `waiters` twice; when it has the mutex, its tid is there still
(`holder_in_waiters`), and the next `unlock` wakes nobody.

The queues are as they should be exactly in the runs in which no task is switched out, or goes on,
while its tid is in a queue (`real_waiters`).
-/

namespace AlaphiOS.Sched

open Lib Function List MlfqScheduler

namespace Roster

variable {r r' : Roster} {t : Nat} {p : Pc} {es : List Event} {c : Entries}

/-! ## Live tasks -/

/-- The scheduler has the task, or will have it as soon as `spawn` pushes it. -/
def Known (r : Roster) (t : Nat) : Prop :=
  t ∈ r.queued ∨ t = r.cpu ∨ ∃ q, (r.pc q).spawns = some t

/-- Such a task is in the table and no Zombie, as long as it has not begun `exit`. -/
def Standing (r : Roster) : Prop :=
  ∀ t, r.Known t → (r.pc t).phase = .live → r.listed t = true ∧ r.state t ≠ .zombie

section

variable (h : r.Standing)

include h

theorem Standing.goto (hlive : p.phase = .live → (r.pc r.cpu).phase = .live)
    (hspawns : ∀ {t}, p.spawns = some t → (r.pc r.cpu).spawns = some t) : (r.goto p).Standing := by
  intro t hknown hl
  refine h t ?_ (goto_live hlive hl)
  rcases hknown with hq | hcpu | ⟨q, hq⟩
  · exact .inl hq
  · exact .inr (.inl hcpu)
  · exact .inr (.inr ⟨q, goto_spawns hspawns hq⟩)

theorem Standing.goto_like (hp : p.Like (r.pc r.cpu)) : (r.goto p).Standing :=
  h.goto (fun hl => hp.1.symm.trans hl) fun hs => hp.2.symm.trans hs

theorem Standing.unblock (hlisted : r.listed t = true) :
    { r with state := update r.state t .ready, queued := t ::ₘ r.queued }.Standing := by
  intro x hknown hl
  show r.listed x = true ∧ update r.state t .ready x ≠ .zombie
  by_cases hx : x = t
  · subst hx
    rw [update_self]
    exact ⟨hlisted, by decide⟩
  · rw [update_of_ne hx]
    refine h x ?_ hl
    rcases hknown with hq | hrest
    · exact .inl ((Multiset.mem_cons.mp hq).resolve_left hx)
    · exact .inr hrest

/-- Setting a state other than Zombie does no harm. -/
theorem Standing.setState {t : Nat} {state : TaskState} (hstate : state ≠ .zombie) :
    { r with state := update r.state t state }.Standing := by
  intro x hknown hl
  refine ⟨(h x hknown hl).1, fun hz => ?_⟩
  rcases update_inv hz with ⟨_, hz⟩ | ⟨_, hz⟩
  · exact (h x hknown hl).2 hz
  · exact absurd hz hstate

/-- Another task gets the processor. -/
theorem Standing.dispatch {incoming : Nat} {queued : Multiset Nat}
    {current : Option Nat} (hin : incoming ∈ r.queued)
    (hqueued : ∀ x ∈ queued, x ∈ r.queued ∨ x = r.cpu) :
    { r with queued := queued, current := current, cpu := incoming }.Standing := by
  intro x hknown hl
  refine h x ?_ hl
  rcases hknown with hq | rfl | hs
  · exact (hqueued x hq).imp_right .inl
  · exact .inl hin
  · exact .inr (.inr hs)

theorem Standing.create (hrun : r.pc r.cpu = .run) : r.create.Standing := by
  intro x hknown hl
  show update r.listed r.created true x = true ∧
    update r.state r.created .ready x ≠ .zombie
  -- The new task is live and Ready; all others are as they were.
  by_cases hx : x = r.created
  · rw [hx, update_self, update_self]
    exact ⟨rfl, by decide⟩
  · rw [update_of_ne hx, update_of_ne hx]
    refine h x ?_ ?_
    · rcases hknown with hq | hcpu | ⟨q, hq⟩
      · exact .inl hq
      · exact .inr (.inl hcpu)
      · refine .inr (.inr ⟨q, ?_⟩)
        have hq : (update (update r.pc r.created .run) r.cpu
          (.spawnPush r.created) q).spawns = some x := hq
        by_cases hqc : q = r.cpu
        · rw [hqc, update_self] at hq
          exact absurd (Option.some.inj hq).symm hx
        · rw [update_of_ne hqc] at hq
          by_cases hqn : q = r.created
          · rw [hqn, update_self] at hq
            exact absurd hq (by simp [Pc.spawns])
          · rwa [update_of_ne hqn] at hq
    · by_cases hxc : x = r.cpu
      · rw [hxc, hrun]
        rfl
      · have hl : (update (update r.pc r.created .run) r.cpu
          (.spawnPush r.created) x).phase = .live := hl
        rwa [update_of_ne hxc, update_of_ne hx] at hl

theorem Standing.move (hok : r.Ok) (hm : Move c r es r') : r'.Standing := by
  cases hm with
  | wake hp =>
    have hstanding : (r.unblockAll c.wakes).1.Standing :=
      unblockAll_rule (fun _ _ _ h hlisted _ => h.unblock hlisted) h
    refine hstanding.goto_like ?_
    rw [unblockAll_frame.1, unblockAll_frame.2.1]
    exact hp
  | block _ _ hp => exact (h.setState (by decide)).goto_like hp
  -- Who is switched out becomes Ready and goes to a queue: it was the running one.
  | @swap out incoming rest p _ hout hq hp =>
    have hset : ({ r.goto p with
        state := update (update r.state out .ready) incoming .running }).Standing :=
      ((h.goto_like hp).setState (by decide)).setState (by decide)
    refine hset.dispatch (hq ▸ Multiset.mem_cons_self ..) fun x hx => ?_
    rcases Multiset.mem_cons.mp hx with rfl | hx
    · exact .inr (hok.cpu_of_current hout).symm
    · exact .inl (hq ▸ Multiset.mem_cons_of_mem hx)
  | @take incoming rest hout hq =>
    have hlost : (r.goto .lost).Standing :=
      h.goto (fun hl => absurd hl (by decide)) fun hs => absurd hs (by simp [Pc.spawns])
    have hset : ({ r.goto .lost with
        state := update r.state incoming .running }).Standing := hlost.setState (by decide)
    exact hset.dispatch (hq ▸ Multiset.mem_cons_self ..)
      fun x hx => .inl (hq ▸ Multiset.mem_cons_of_mem hx)
  | @exit code p _ _ hrun hp =>
    have hgo : (r.goto p).Standing :=
      h.goto (fun hl => absurd (hp.1.symm.trans hl) (by decide))
        fun hs => absurd (hp.2.symm.trans hs) (by simp)
    intro x hknown hl
    refine ⟨(hgo x hknown hl).1, fun hz => ?_⟩
    -- the Zombie is no longer live
    rcases update_inv hz with ⟨_, hs⟩ | ⟨hx, _⟩
    · exact (hgo x hknown hl).2 hs
    · rw [hx] at hl
      exact absurd ((congrArg Pc.phase (goto_pc_cpu (r := r))).symm.trans hl) (by rw [hp.1]; decide)
  | leave | remove =>
    exact h.goto (fun hl => absurd hl (by decide)) fun hs => absurd hs (by simp [Pc.spawns])
  | create hrun => exact h.create hrun
  | @push t hpc =>
    intro x hknown hl
    refine h x ?_ (goto_live (fun _ => by rw [hpc]; rfl) hl)
    rcases hknown with hq | hcpu | ⟨q, hq⟩
    · rcases Multiset.mem_cons.mp hq with rfl | hq
      · exact .inr (.inr ⟨r.cpu, by rw [hpc]; rfl⟩)
      · exact .inl hq
    · exact .inr (.inl hcpu)
    · exact .inr (.inr ⟨q, goto_spawns (fun hs => absurd hs (by simp [Pc.spawns])) hq⟩)
  -- What is reaped is a Zombie, which a live task is not.
  | @reap t target hpc hlisted hz =>
    have hgo : (r.goto .run).Standing :=
      h.goto (fun _ => by rw [hpc]; rfl) fun hs => absurd hs (by simp [Pc.spawns])
    intro x hknown hl
    obtain ⟨hlx, hzx⟩ := hgo x hknown hl
    refine ⟨?_, hzx⟩
    have hx : x ≠ t := by
      rintro rfl
      exact hzx hz
    exact (update_of_ne hx ..).trans hlx
  | miss hpc =>
    exact h.goto (fun _ => by rw [hpc]; rfl) fun hs => absurd hs (by simp [Pc.spawns])

end

/-- Has run, and has not begun `exit`. -/
structure Running (r : Roster) (t : Nat) : Prop where
  live : (r.pc t).phase = .live
  placed : t ∈ r.queued ∨ t = r.cpu

theorem Running.listed (h : r.Running t) (hs : r.Standing) : r.listed t = true :=
  (hs t (h.placed.imp_right .inl) h.live).1

theorem Running.created (h : r.Running t) (hok : r.Ok) : t < r.created := by
  rcases h.placed with hq | rfl
  · exact hok.queuedCreated hq
  · exact hok.cpuCreated

theorem Running.goto (h : r.Running t) (hp : t = r.cpu → p.phase = .live) :
    (r.goto p).Running t := by
  refine ⟨?_, h.placed⟩
  by_cases ht : t = r.cpu
  · rw [ht, goto_pc_cpu]
    exact hp ht
  · rw [goto_pc_of_ne ht]
    exact h.live

/-- **It goes on being so until it calls `exit`.** -/
theorem Running.move (h : r.Running t) (hok : r.Ok) (hs : r.Standing)
    (hexit : t = r.cpu → ¬ c.exits) (hm : Move c r es r') : r'.Running t := by
  have hlike : ∀ {p : Pc}, p.Like (r.pc r.cpu) → t = r.cpu → p.phase = .live := by
    rintro p hp rfl
    exact hp.1.trans h.live
  cases hm with
  | wake hp =>
    have hwoken : (r.unblockAll c.wakes).1.Running t := by
      refine unblockAll_rule (P := fun r => r.Running t) (fun r' x _ h' _ _ => ?_) h
      exact ⟨h'.live, h'.placed.imp_left fun hq => Multiset.mem_cons_of_mem hq⟩
    exact hwoken.goto fun ht => hlike hp (ht.trans unblockAll_frame.2.1)
  | block _ _ hp => exact ⟨(h.goto (hlike hp)).live, h.placed⟩
  | @swap out incoming rest p _ hout hq hp =>
    refine ⟨(h.goto (hlike hp)).live, ?_⟩
    rcases h.placed with hqueued | rfl
    · rw [hq] at hqueued
      rcases Multiset.mem_cons.mp hqueued with hin | hrest
      · exact .inr hin
      · exact .inl (Multiset.mem_cons_of_mem hrest)
    · -- who is switched out is queued
      rw [hok.cpu_of_current hout]
      exact .inl (Multiset.mem_cons_self ..)
  -- A live task that runs is the current one, so there is none to be lost here.
  | @take incoming rest hout hq =>
    have hne : t ≠ r.cpu := by
      rintro rfl
      cases hout.symm.trans (hok.current_of_live h.live)
    refine ⟨(h.goto fun ht => absurd ht hne).live, ?_⟩
    have hqueued := h.placed.resolve_right hne
    rw [hq] at hqueued
    rcases Multiset.mem_cons.mp hqueued with hin | hrest
    · exact .inr hin
    · exact .inl hrest
  | exit he => exact ⟨(h.goto fun ht => absurd he (hexit ht)).live, h.placed⟩
  -- Only a task that is not in the table leaves like this.
  | leave hunlisted =>
    refine h.goto fun ht => ?_
    rw [ht] at h
    exact absurd ((h.listed hs).symm.trans hunlisted) (by simp)
  | remove _ hpc =>
    refine ⟨(h.goto fun ht => ?_).live, h.placed⟩
    rw [ht] at h
    exact absurd ((congrArg Pc.phase hpc).symm.trans h.live) (by decide)
  | create hrun =>
    have ht : t ≠ r.created := Nat.ne_of_lt (h.created hok)
    refine ⟨?_, h.placed⟩
    show (update (update r.pc r.created .run) r.cpu _ t).phase = .live
    by_cases htc : t = r.cpu
    · rw [htc, update_self]
      rfl
    · rw [update_of_ne htc, update_of_ne ht]
      exact h.live
  | push hpc =>
    exact ⟨(h.goto fun _ => rfl).live, h.placed.imp_left fun hq => Multiset.mem_cons_of_mem hq⟩
  | reap hpc => exact ⟨(h.goto fun _ => rfl).live, h.placed⟩
  | miss hpc => exact h.goto fun _ => rfl

theorem pc_other (hm : Move c r es r') (ht : t ≠ r.cpu) (hcreated : t < r.created) :
    r'.pc t = r.pc t := by
  cases hm with
  | wake =>
    refine (goto_pc_of_ne ?_).trans (congrFun unblockAll_frame.1 t)
    rwa [unblockAll_frame.2.1]
  | block | exit | leave | remove | push | reap | miss => exact goto_pc_of_ne ht
  | swap | take => exact update_of_ne ht ..
  | create =>
    exact (update_of_ne ht ..).trans (update_of_ne (Nat.ne_of_lt hcreated) ..)

/-- Only the task that runs is Blocked, and it has not begun `exit`. -/
def BlockedRuns (r : Roster) : Prop := ∀ t, r.state t = .blocked → t = r.cpu ∧ (r.pc t).phase = .live

theorem BlockedRuns.goto (h : r.BlockedRuns) (hp : (r.pc r.cpu).phase = .live → p.phase = .live) :
    (r.goto p).BlockedRuns := by
  intro t hb
  obtain ⟨rfl, hlive⟩ := h t hb
  refine ⟨rfl, ?_⟩
  rw [goto_pc_cpu]
  exact hp hlive

/-- **A task marks itself Blocked, and whoever switches it out makes it Ready.** -/
theorem BlockedRuns.move (h : r.BlockedRuns) (hok : r.Ok) (hs : r.Standing) (hm : Move c r es r') :
    r'.BlockedRuns := by
  cases hm with
  | wake hp =>
    have hwoken : (r.unblockAll c.wakes).1.BlockedRuns := by
      refine unblockAll_rule (fun r' x _ h' _ _ t hb => ?_) h
      rcases update_inv hb with ⟨_, hb⟩ | ⟨_, hb⟩
      · exact h' t hb
      · cases hb
    refine hwoken.goto fun hlive => ?_
    rw [unblockAll_frame.1, unblockAll_frame.2.1] at hlive
    exact hp.1.trans hlive
  | block _ hlive hp =>
    intro t hb
    have ht : t = r.cpu := (update_inv hb).elim (fun hb => (h t hb.2).1) fun hb => hb.1
    refine ⟨ht, ?_⟩
    rw [ht]
    exact (congrArg Pc.phase goto_pc_cpu).trans (hp.1.trans hlive)
  | swap _ hout =>
    intro t hb
    rcases update_inv hb with ⟨_, hb⟩ | ⟨_, hb⟩
    · rcases update_inv hb with ⟨hne, hb⟩ | ⟨_, hb⟩
      · exact absurd ((h t hb).1.trans (hok.cpu_of_current hout)) hne
      · cases hb
    · cases hb
  | take hout =>
    intro t hb
    rcases update_inv hb with ⟨_, hb⟩ | ⟨_, hb⟩
    -- with no current task, what runs is at the end of `exit`
    · obtain ⟨rfl, hlive⟩ := h t hb
      cases hout.symm.trans (hok.current_of_live hlive)
    · cases hb
  | exit =>
    intro t hb
    rcases update_inv hb with ⟨hne, hb⟩ | ⟨_, hb⟩
    · exact absurd (h t hb).1 hne
    · cases hb
  | leave hlisted =>
    intro t hb
    obtain ⟨rfl, hlive⟩ := h t hb
    exact absurd (hlisted.symm.trans (hs _ (.inr (.inl rfl)) hlive).1) (by simp)
  | remove _ hpc =>
    intro t hb
    obtain ⟨rfl, hlive⟩ := h t hb
    rw [hpc] at hlive
    cases hlive
  | create =>
    intro t hb
    rcases update_inv hb with ⟨_, hb⟩ | ⟨_, hb⟩
    · obtain ⟨rfl, _⟩ := h t hb
      refine ⟨rfl, ?_⟩
      show (update (update r.pc r.created .run) r.cpu (.spawnPush r.created)
        r.cpu).phase = .live
      rw [update_self]
      rfl
    · cases hb
  | push | reap | miss => exact h.goto fun _ => rfl

/-- Neither Blocked nor a Zombie, and the scheduler has it. -/
def Runnable (r : Roster) (t : Nat) : Prop :=
  r.state t ≠ .blocked ∧ r.state t ≠ .zombie ∧ (t ∈ r.queued ∨ r.current = some t)

/-- **`unblock_tid` makes such a task runnable.** -/
theorem Running.unblock (h : r.Running t) (hok : r.Ok) (hs : r.Standing) :
    (r.unblock t).1.Runnable t := by
  obtain ⟨hlisted, hz⟩ := hs t (h.placed.imp_right .inl) h.live
  unfold Roster.unblock
  split
  · refine ⟨?_, ?_, .inl (Multiset.mem_cons_self ..)⟩
    · exact fun hb => absurd ((update_self ..).symm.trans hb) (by decide)
    · exact fun hb => absurd ((update_self ..).symm.trans hb) (by decide)
  next hnot =>
    refine ⟨fun hb => hnot ⟨hlisted, hb⟩, hz, h.placed.imp_right fun ht => ?_⟩
    rw [ht]
    exact hok.current_of_live (ht ▸ h.live)

end Roster

/-- The wait that a task at this place is in. -/
def Pc.waitsIn : Pc → Option Wait
  | .lock r => some (.mutex r)
  | .condMark r | .condUnlock r | .condLock r => some (.cond r)
  | .cvReturn c => some (.condvar c)
  | .wake _ next | .schedule next | .prepare next => next.waitsIn
  | _ => none

/-- In a wait, before it marks itself Blocked. -/
def Pc.marking : Pc → Bool
  | .condMark _ => true
  | .wake _ next | .schedule next | .prepare next => next.marking
  | _ => false

namespace Kernel

variable {k k' : Kernel} {es : List Event} {op : Op} {w : Wait} {t : Nat}

/-! ## Waits -/

/-- A step, without its events. -/
def advance (k : Kernel) (op : Op) : Option Kernel := (k.step op).map Prod.fst

/-- The task is in this wait and Blocked. In `QueuedResource::wait` it is in the queue before it is
Blocked. -/
def Waiting (k : Kernel) (t : Nat) (w : Wait) : Prop :=
  (k.pc t).waitsIn = some w ∧ ((k.tasks t).state = .blocked ∨ (k.pc t).marking = true)

/-- The wait queues hold real waiters, and waking up the first one works. -/
structure RealWaiters (k : Kernel) : Prop where
  once : ∀ w, (k.queue w).Nodup
  waiting : ∀ w, ∀ t ∈ k.queue w, k.Waiting t w
  /-- `unlock`, also the one in `wait`, with the wake-up that follows. -/
  unlocked : ∀ op r t ts k₁ es, k.releases r op = true → (k.resources r).waiters = t :: ts →
    k.step op = some (k₁, es) → (k₁.resources r).waiters = ts ∧
      ∃ k₂ es₂, k₁.step (.next 0) = some (k₂, es₂) ∧ k₂.roster.Runnable t
  signalled : ∀ r t ts k₁ es, (k.resources r).condWaiters = t :: ts →
    k.step (.call (.signal r)) = some (k₁, es) →
      (k₁.resources r).condWaiters = ts ∧ k₁.roster.Runnable t
  cvSignalled : ∀ c t ts k₁ es, k.condvars c = t :: ts →
    k.step (.call (.cvSignal c)) = some (k₁, es) → k₁.condvars c = ts ∧ k₁.roster.Runnable t

/-- The running task goes on from its wait: to the next round of `lock`, to the `lock` in `wait`, out
of `CondVar::wait`; or it wakes itself. -/
def leaves (k : Kernel) : Op → Bool
  | .next _ =>
    match k.pc k.cpu with
    | .lock _ | .condLock _ | .cvReturn _ => true
    | .wake t _ => t == k.cpu
    | _ => false
  | _ => false

/-- If the running task has marked itself in a wait and its tid is in the queue, it is not switched
out and does not go on. -/
def StaysWaiting (k : Kernel) (op : Op) : Prop :=
  ∀ w, (k.pc k.cpu).waitsIn = some w → k.cpu ∈ k.queue w → (k.pc k.cpu).marking = false →
    (k.switches op = true → k.sched.queued = 0) ∧ k.leaves op = false

instance (k : Kernel) (op : Op) : Decidable (k.StaysWaiting op) :=
  inferInstanceAs (Decidable (∀ w, (k.pc k.cpu).waitsIn = some w → _))

/-! ## Switches -/

/-- `prepare_switch` switches the current task out, which is then not Blocked, or changes no task. -/
theorem dispatch_running (hcur : k.sched.current = some k.cpu) (h : k.dispatch = some (k', es)) :
    k'.pc = k.pc ∧
      ((k.sched.needsReschedule = true ∧ k.sched.queued ≠ 0 ∧
          (k'.tasks k.cpu).state ≠ .blocked) ∨
        ((k.sched.needsReschedule = true → k.sched.queued = 0) ∧ k'.tasks = k.tasks)) := by
  obtain ⟨⟨pair, sched, tasks⟩, hprep, h⟩ := bind_inv h
  obtain ⟨_, ⟨rfl, hidle, _, _, rfl⟩ | ⟨hneeds, incoming, qs, hpick, rfl, _, hcase⟩⟩ :=
    prepareSwitch_cases hprep
  · cases h
    refine ⟨rfl, .inr ⟨fun hneeds => ?_, rfl⟩⟩
    rcases hidle with hidle | hidle
    · cases hneeds.symm.trans hidle
    · exact congrArg _ (flatten_of_pickNext_none hidle)
  · cases h
    rcases hcase with ⟨hnone, _⟩ | ⟨out, ts₁, hout, _, rfl, rfl⟩
    · cases hcur.symm.trans hnone
    cases hcur.symm.trans hout
    refine ⟨?_, .inl ⟨hneeds, fun hzero => ?_, fun hb => ?_⟩⟩
    · rw [switchTo, hcur]
      rfl
    · have hflat : k.sched.queued = incoming ::ₘ (qs.flatten : Multiset Nat) :=
        congrArg _ (pickNext_spec hpick).2
      exact Multiset.cons_ne_zero (hflat.symm.trans hzero)
    · rcases Roster.update_inv ((congrFun (states_update _ incoming _) k.cpu).symm.trans hb)
        with ⟨_, hb⟩ | ⟨_, hb⟩
      · exact absurd ((congrArg Task.state (update_self ..)).symm.trans hb) (by simp)
      · cases hb

/-- The same for the timer, which calls `should_reschedule` first. -/
theorem timer_running {n : Nat} (hcur : k.sched.current = some k.cpu)
    (h : k.timer n = some (k', es)) :
    k'.pc = k.pc ∧
      ((n = 0 ∧ k.sched.queued ≠ 0 ∧ (k'.tasks k.cpu).state ≠ .blocked) ∨
        ((n = 0 → (k.tasks k.cpu).state = .blocked → k.sched.queued = 0) ∧
          (k'.tasks k.cpu).state = (k.tasks k.cpu).state)) := by
  obtain ⟨⟨sched, tasks⟩, htick, h⟩ := bind_inv h
  obtain ⟨hq, hc, hts⟩ := tick_spec htick
  have hstate : (tasks k.cpu).state = (k.tasks k.cpu).state := (hts k.cpu).2.1
  have hcur' : sched.current = some k.cpu := hc.trans hcur
  dsimp only at h
  split at h
  next hn =>
    cases h
    exact ⟨rfl, .inr ⟨fun hzero => by omega, hstate⟩⟩
  next hn =>
    have hqueued : (sched.shouldReschedule tasks).queued = k.sched.queued := by
      rw [← hq, queued, shouldReschedule_spec.1]
      rfl
    obtain ⟨hpc, hrest⟩ := dispatch_running
      (k := { k with sched := sched, tasks := tasks }.shouldReschedule)
      (shouldReschedule_spec.2.trans hcur') h
    refine ⟨hpc, ?_⟩
    rcases hrest with ⟨_, hne, hb⟩ | ⟨hidle, hsame⟩
    · exact .inl ⟨by omega, hqueued ▸ hne, hb⟩
    · refine .inr ⟨fun _ hb => ?_, (congrArg (fun ts => (ts k.cpu).state) hsame).trans hstate⟩
      rw [← hqueued]
      exact hidle ((shouldReschedule_needs hcur').mpr (.inr (.inl (hstate.trans hb))))

theorem markBlocked_state (h : k.inTable t = true) :
    ((k.markBlocked t).1.tasks t).state = .blocked := by
  rw [markBlocked, if_pos h]
  show (update k.tasks t { k.tasks t with state := .blocked } t).state = .blocked
  rw [update_self]

theorem unblockTid_other {x : Nat} (h : x ≠ t) : (k.unblockTid t).1.tasks x = k.tasks x := by
  unfold unblockTid
  split
  · exact update_of_ne h ..
  · rfl

/-! ## One step -/

theorem live_of_enters (h : k.enters op = some w) (hstep : k.step op = some (k', es)) :
    (k.pc k.cpu).phase = .live := by
  cases op with
  | timer => exact absurd h (by simp [enters])
  | call c =>
    rw [(call_of_step hstep).1]
    rfl
  | next n =>
    cases hpc : k.pc k.cpu with
    | lock | condLock => rfl
    | _ =>
      rw [enters, hpc] at h
      cases h

theorem not_exits_of_enters (h : k.enters op = some w) : exits op = false := by
  unfold enters at h
  split at h
  · rfl
  · rfl
  · rfl
  · cases h

theorem not_exits_of_releases {r : Nat} (h : k.releases r op = true) : exits op = false := by
  unfold releases at h
  split at h
  · rfl
  · rfl
  · cases h

/-- The queues are as they should be, with what keeps them so. -/
structure Watched (k : Kernel) : Prop where
  ok : k.roster.Ok
  standing : k.roster.Standing
  blockedRuns : k.roster.BlockedRuns
  once : ∀ w, (k.queue w).Nodup
  waiting : ∀ w, ∀ t ∈ k.queue w, k.Waiting t w ∧ k.roster.Running t

/-- Who begins a wait is in it, and marked where the source does both in one go. -/
theorem Watched.entered (h : Watched k) (he : k.enters op = some w)
    (hstep : k.step op = some (k', es)) : k'.Waiting k.cpu w := by
  have hin : k.inTable k.cpu = true :=
    (h.standing k.cpu (.inr (.inl rfl)) (live_of_enters he hstep)).1
  unfold enters at he
  split at he
  next r =>
    cases he
    obtain ⟨_, rfl, _⟩ := call_of_step hstep
    have hpc : (k.call (.condWait r)).1.pc k.cpu = .condMark r := goto_pc_at rfl
    exact ⟨by rw [hpc]; rfl, .inr (by rw [hpc]; rfl)⟩
  next c =>
    cases he
    obtain ⟨_, rfl, _⟩ := call_of_step hstep
    have hpc : (k.call (.cvWait c)).1.pc k.cpu = .schedule (.cvReturn c) :=
      goto_pc_at (markBlocked_frame _ _).2.2.2
    exact ⟨by rw [hpc]; rfl, .inl (markBlocked_state hin)⟩
  next n =>
    split at he
    next r hlocks =>
      split at he
      next hlocked =>
        cases he
        have hlock : k' = (k.lockStep r).1 := by
          have hnext := next_inv hstep
          generalize k.pc k.cpu = place at hlocks hnext
          cases hnext <;> cases hlocks <;> rfl
        rw [lockStep, if_pos hlocked] at hlock
        have hpc : k'.pc k.cpu = .schedule (.lock r) := by
          rw [hlock]
          exact goto_pc_at (markBlocked_frame _ _).2.2.2
        refine ⟨by rw [hpc]; rfl, .inl ?_⟩
        rw [hlock]
        exact markBlocked_state hin
      · cases he
    · cases he
  · cases he

/-- The running task stays in its wait through every later step that the condition allows. -/
theorem Watched.next_waiting {n : Nat} (h : Watched k) (hguard : k.StaysWaiting (.next n))
    (hmem : k.cpu ∈ k.queue w) (hstep : k.next n = some (k', es)) : k'.Waiting k.cpu w := by
  obtain ⟨⟨hwaits, hmarked⟩, hrunning⟩ := h.waiting w _ hmem
  have hguard := hguard w hwaits hmem
  have hnext := next_inv hstep
  unfold leaves switches at hguard
  generalize hpc : k.pc k.cpu = place at hguard hnext hwaits hmarked
  -- a step from one place in the wait to another
  have hmoves : ∀ {k₁ : Kernel} {p : Pc}, k₁.cpu = k.cpu → p.waitsIn = some w →
      ((k₁.tasks k.cpu).state = .blocked ∨ p.marking = true) → (k₁.goto p).Waiting k.cpu w := by
    intro k₁ p hcpu hp hstate
    rw [Waiting, goto_pc_at hcpu]
    exact ⟨hp, hstate⟩
  cases hnext with
  | lock | condLock | cvReturn => exact absurd (hguard rfl).2 (by simp)
  | condMark r =>
    exact hmoves (k.markBlocked_frame _).2.2.2 hwaits
      (.inl (markBlocked_state (hrunning.listed h.standing)))
  | condUnlock r =>
    unfold unlockStep
    dsimp only
    split <;> exact hmoves rfl hwaits (.inl (hmarked.resolve_right (by simp [Pc.marking])))
  | wake t next =>
    refine hmoves (k.unblockTid_frame t).2.2.2 hwaits ?_
    cases hmark : next.marking with
    | true => exact .inr rfl
    | false =>
      have hne : k.cpu ≠ t := Ne.symm (beq_eq_false_iff_ne.mp (hguard hmark).2)
      rw [unblockTid_other hne]
      exact .inl (hmarked.resolve_right (by rw [Pc.marking, hmark]; simp))
  | scheduleLater next => exact hmoves rfl hwaits hmarked
  | schedule next => exact hmoves (show k.shouldReschedule.cpu = _ from rfl) hwaits hmarked
  | prepare next hdispatch =>
    have hcur : k.sched.current = some k.cpu := h.ok.current_of_live hrunning.live
    obtain ⟨hsame, hrest⟩ := dispatch_running (k := k.goto next) hcur hdispatch
    rw [Waiting, hsame, goto_pc_at rfl]
    refine ⟨hwaits, ?_⟩
    cases hmark : next.marking with
    | true => exact .inr rfl
    | false =>
      rcases hrest with ⟨hneeds, hqueued, _⟩ | ⟨_, htasks⟩
      · exact absurd ((hguard hmark).1 hneeds) hqueued
      · rw [htasks]
        exact .inl (hmarked.resolve_right (by rw [Pc.marking, hmark]; simp))
  | broadcast | wait | waitMark | exitWake | exitAlone | exitRemove | spawnPush => cases hwaits

/-- Who begins a wait was not in its queue. -/
theorem Watched.not_mem_of_enters (h : Watched k) (hguard : k.StaysWaiting op)
    (he : k.enters op = some w) (hstep : k.step op = some (k', es)) : k.cpu ∉ k.queue w := by
  intro hmem
  have hwaits := (h.waiting w _ hmem).1.1
  cases op with
  | timer => cases he
  | call =>
    rw [(call_of_step hstep).1] at hwaits
    cases hwaits
  | next n =>
    have hguard := hguard w hwaits hmem
    unfold leaves at hguard
    unfold enters at he
    generalize k.pc k.cpu = place at hguard he
    cases place with
    | lock | condLock => exact absurd (hguard rfl).2 (by simp)
    | _ => cases he

/-- Whoever is in a queue stays in its wait. -/
theorem Watched.stays (h : Watched k) (hguard : k.StaysWaiting op) (hmem : t ∈ k.queue w)
    (hstep : k.step op = some (k', es)) : k'.Waiting t w ∧ k'.roster.Running t := by
  obtain ⟨⟨hwaits, hmarked⟩, hrunning⟩ := h.waiting w t hmem
  have hmove := step_move hstep
  -- a call is begun in no wait
  have hcall : ∀ {c : Call}, op = .call c → t ≠ k.cpu := by
    rintro c rfl rfl
    rw [(call_of_step hstep).1] at hwaits
    cases hwaits
  refine ⟨?_, hrunning.move h.ok h.standing (fun ht => ?_) hmove⟩
  · by_cases ht : t = k.cpu
    · subst ht
      cases op with
      | timer n =>
        have hcur : k.sched.current = some k.cpu := h.ok.current_of_live hrunning.live
        obtain ⟨hpc, hrest⟩ := timer_running hcur (timer_of_step hstep)
        rw [Waiting, hpc]
        refine ⟨hwaits, ?_⟩
        cases hmark : (k.pc k.cpu).marking with
        | true => exact .inr rfl
        | false =>
          rcases hrest with ⟨rfl, hqueued, _⟩ | ⟨_, hstate⟩
          · exact absurd ((hguard w hwaits hmem hmark).1 rfl) hqueued
          · rw [hstate]
            exact .inl (hmarked.resolve_right (by rw [hmark]; simp))
      | call c => exact absurd rfl (hcall rfl)
      | next n => exact h.next_waiting hguard hmem hstep
    -- Only the running task is Blocked, and the others stay where they are.
    · have hpc : k'.pc t = k.pc t := Roster.pc_other hmove ht (hrunning.created h.ok)
      rw [Waiting, hpc]
      exact ⟨hwaits, .inr (hmarked.resolve_left fun hb => ht (h.blockedRuns t hb).1)⟩
  · cases op with
    | timer | next => simp [entries, exits]
    | call => exact absurd ht (hcall rfl)

theorem Watched.step (h : Watched k) (hguard : k.StaysWaiting op)
    (hstep : k.step op = some (k', es)) : Watched k' := by
  have hmove := step_move hstep
  have htouch := step_touch hstep
  refine ⟨h.ok.move hmove, h.standing.move h.ok hmove, h.blockedRuns.move h.ok h.standing hmove,
    fun w => ?_, fun w t ht => ?_⟩
  -- A queue grows by the running task only, which was not in it.
  · rcases htouch.queue w with ⟨he, hq⟩ | hq
    · show (queueOf k'.resources k'.condvars w).Nodup
      rw [hq]
      refine nodup_append.mpr ⟨h.once w, nodup_singleton _, fun x hx y hy => ?_⟩
      rintro rfl
      rw [mem_singleton.mp hy] at hx
      exact h.not_mem_of_enters hguard he hstep hx
    · exact hq.nodup (h.once w)
  · rcases htouch.queue w with ⟨he, hq⟩ | hq
    · rcases mem_append.mp (hq ▸ ht : t ∈ k.queue w ++ [k.cpu]) with hmem | hnew
      · exact h.stays hguard hmem hstep
      · rw [mem_singleton.mp hnew]
        refine ⟨h.entered he hstep, ?_⟩
        have hrunning : k.roster.Running k.cpu := ⟨live_of_enters he hstep, .inr rfl⟩
        refine hrunning.move h.ok h.standing (fun _ => ?_) hmove
        show ¬ exits op = true
        rw [not_exits_of_enters he]
        simp
    · exact h.stays hguard (hq.subset ht) hstep

/-! ## What breaks the queues -/

/-- A round of `lock` queues the task once more, or is the last one. -/
theorem lockStep_queue (k : Kernel) (r : Nat) :
    (k.lockStep r).1.queue (.cond r) = k.queue (.cond r) ∧
    ((k.lockStep r).1.queue (.mutex r) = k.queue (.mutex r) ++ [k.cpu] ∧
        (k.lockStep r).1.pc k.cpu = .schedule (.lock r) ∨
      (k.lockStep r).1.queue (.mutex r) = k.queue (.mutex r) ∧
        (k.lockStep r).1.pc k.cpu = .run) := by
  have hself : ∀ {β : Type} (f : Resource → β) (res : Resource),
      f (update k.resources r res r) = f res := fun f res => by rw [update_self]
  unfold lockStep
  dsimp only
  split
  · let res : Resource := { k.resources r with waiters := (k.resources r).waiters ++ [k.cpu] }
    obtain ⟨hr, _, _, hcpu⟩ :=
      markBlocked_frame { k with resources := update k.resources r res } k.cpu
    refine ⟨?_, .inl ⟨?_, goto_pc_at hcpu⟩⟩
    · exact (congrArg (fun rs => (rs r).condWaiters) hr).trans (hself _ res)
    · exact (congrArg (fun rs => (rs r).waiters) hr).trans (hself _ res)
  · let res : Resource := { k.resources r with locked := true }
    exact ⟨hself Resource.condWaiters res, .inr ⟨hself Resource.waiters res, goto_pc_at rfl⟩⟩

theorem unblockTid_unblocks (h : k.inTable t = true) :
    ((k.unblockTid t).1.tasks t).state ≠ .blocked := by
  unfold unblockTid
  split
  · show (update k.tasks t { k.tasks t with state := .ready } t).state ≠ .blocked
    rw [update_self]
    simp
  next hnot => exact fun hb => hnot ⟨h, hb⟩

/-- After any other step the running task is in a queue and does not wait there. -/
theorem Watched.breaks (h : Watched k) (hnot : ¬ k.StaysWaiting op)
    (hstep : k.step op = some (k', es)) : ¬ RealWaiters k' := by
  intro hreal
  refine hnot fun w hwaits hmem hmark => ?_
  obtain ⟨⟨_, hmarked⟩, hrunning⟩ := h.waiting w _ hmem
  have hblocked : (k.tasks k.cpu).state = .blocked :=
    hmarked.resolve_right (by rw [hmark]; simp)
  have hcur : k.sched.current = some k.cpu := h.ok.current_of_live hrunning.live
  have hout : ∀ {p : Pc}, k'.queue w = k.queue w → k'.pc k.cpu = p → p.waitsIn = some w ∧
      ((k'.tasks k.cpu).state = .blocked ∨ p.marking = true) := by
    rintro p hq rfl
    exact hreal.waiting w k.cpu (by rw [hq]; exact hmem)
  cases op with
  | call c =>
    rw [(call_of_step hstep).1] at hwaits
    cases hwaits
  | timer n =>
    refine ⟨fun hswitch => ?_, rfl⟩
    obtain ⟨hr, hc, _⟩ := timer_frame (timer_of_step hstep)
    obtain ⟨hpc, ⟨_, _, hb⟩ | ⟨hidle, _⟩⟩ := timer_running hcur (timer_of_step hstep)
    · have hq : k'.queue w = k.queue w := by rw [queue, hr, hc]; rfl
      exact absurd ((hout hq (congrFun hpc _)).2.resolve_right (by rw [hmark]; simp)) hb
    · exact hidle (beq_iff_eq.mp hswitch) hblocked
  | next n =>
    have hnext := next_inv hstep
    unfold leaves switches
    generalize hpc : k.pc k.cpu = place at hnext hwaits hmark
    cases hnext with
    | lock r =>
      cases hwaits
      obtain ⟨_, ⟨hq, _⟩ | ⟨hq, hrun⟩⟩ := k.lockStep_queue r
      · have honce := hreal.once (.mutex r)
        rw [hq] at honce
        exact absurd rfl ((nodup_append.mp honce).2.2 _ hmem _ (mem_singleton_self _))
      · cases (hout hq hrun).1
    | condLock r =>
      cases hwaits
      obtain ⟨hq, ⟨_, hrun⟩ | ⟨_, hrun⟩⟩ := k.lockStep_queue r
      · cases (hout hq hrun).1
      · cases (hout hq hrun).1
    | cvReturn c => cases (hout rfl (goto_pc_at rfl)).1
    | wake t next =>
      refine ⟨nofun, beq_eq_false_iff_ne.mpr ?_⟩
      rintro rfl
      obtain ⟨hr, hc, _, hcpu⟩ := k.unblockTid_frame k.cpu
      have hq : ((k.unblockTid k.cpu).1.goto next).queue w = k.queue w := by
        show queueOf (k.unblockTid k.cpu).1.resources _ w = _
        rw [hr]
        show queueOf _ (k.unblockTid k.cpu).1.condvars w = _
        rw [hc]
        rfl
      have hmark : next.marking = false := hmark
      have hb := (hout hq (goto_pc_at hcpu)).2.resolve_right (by rw [hmark]; simp)
      exact unblockTid_unblocks (hrunning.listed h.standing) hb
    | prepare next hdispatch =>
      refine ⟨fun hneeds => ?_, rfl⟩
      obtain ⟨hr, hc, _⟩ := dispatch_frame hdispatch
      obtain ⟨hsame, ⟨_, _, hb⟩ | ⟨hidle, _⟩⟩ := dispatch_running (k := k.goto next) hcur hdispatch
      · have hq : k'.queue w = k.queue w := by rw [queue, hr, hc]; rfl
        have hpc' : k'.pc k.cpu = next := by rw [hsame]; exact goto_pc_at rfl
        have hmark : next.marking = false := hmark
        exact absurd ((hout hq hpc').2.resolve_right (by rw [hmark]; simp)) hb
      · exact hidle hneeds
    | condMark | condUnlock | scheduleLater | schedule =>
      exact ⟨nofun, rfl⟩
    | broadcast | wait | waitMark | exitWake | exitAlone | exitRemove | spawnPush => cases hwaits

/-! ## Wake-ups -/

variable {r : Nat} {ts : List Nat}

theorem Watched.unlocked (h : Watched k) (hrel : k.releases r op = true)
    (hw : (k.resources r).waiters = t :: ts) (hstep : k.step op = some (k', es)) :
    (k'.resources r).waiters = ts ∧
      ∃ k₂ es₂, k'.step (.next 0) = some (k₂, es₂) ∧ k₂.roster.Runnable t := by
  have hmove := step_move hstep
  have hmem : t ∈ k.queue (.mutex r) := by
    show t ∈ (k.resources r).waiters
    rw [hw]
    exact mem_cons_self
  have hnot : ¬ (k.entries op).exits := by
    show ¬ exits op = true
    rw [not_exits_of_releases hrel]
    simp
  have hrunning := (h.waiting _ t hmem).2.move h.ok h.standing (fun _ => hnot) hmove
  have hrunnable := hrunning.unblock (h.ok.move hmove) (h.standing.move h.ok hmove)
  rw [← (roster_unblockTid k' t).1] at hrunnable
  -- The pop and the wake-up are two steps; between them the task is still blocked.
  obtain ⟨next, rfl⟩ := step_releases hrel hstep
  obtain ⟨hts, hpc⟩ := unlockStep_cons (p := next) hw
  exact ⟨hts, _, _, step_wake hpc, hrunnable⟩

/-- `signal` calls `unblock_tid` at once. -/
theorem Watched.popped (h : Watched k) {k₁ : Kernel} {p : Pc}
    (hmem : t ∈ k.queue w) (hroster : k₁.roster = k.roster) :
    ((k₁.unblockTid t).1.goto p).roster.Runnable t := by
  have hrunnable := (h.waiting w t hmem).2.unblock h.ok h.standing
  rwa [← hroster, ← (roster_unblockTid k₁ t).1] at hrunnable

theorem Watched.signalled (h : Watched k) (hw : (k.resources r).condWaiters = t :: ts)
    (hstep : k.step (.call (.signal r)) = some (k', es)) :
    (k'.resources r).condWaiters = ts ∧ k'.roster.Runnable t := by
  have hmem : t ∈ k.queue (.cond r) := by
    show t ∈ (k.resources r).condWaiters
    rw [hw]
    exact mem_cons_self
  obtain ⟨_, rfl, _⟩ := call_of_step hstep
  dsimp only [call, signalStep]
  simp only [hw]
  refine ⟨?_, h.popped hmem rfl⟩
  show ((Kernel.unblockTid _ t).1.resources r).condWaiters = ts
  rw [(unblockTid_frame _ t).1]
  show (update k.resources r _ r).condWaiters = ts
  rw [update_self]

theorem Watched.cvSignalled {c : Nat} (h : Watched k) (hw : k.condvars c = t :: ts)
    (hstep : k.step (.call (.cvSignal c)) = some (k', es)) :
    k'.condvars c = ts ∧ k'.roster.Runnable t := by
  have hmem : t ∈ k.queue (.condvar c) := by
    show t ∈ k.condvars c
    rw [hw]
    exact mem_cons_self
  obtain ⟨_, rfl, _⟩ := call_of_step hstep
  dsimp only [call]
  simp only [hw]
  refine ⟨?_, h.popped hmem rfl⟩
  show (Kernel.unblockTid _ t).1.condvars c = ts
  rw [(unblockTid_frame _ t).2.1]
  exact update_self ..

theorem Watched.realWaiters (h : Watched k) : RealWaiters k where
  once := h.once
  waiting := fun w t ht => (h.waiting w t ht).1
  unlocked := fun _ _ _ _ _ _ hrel hw hstep => h.unlocked hrel hw hstep
  signalled := fun _ _ _ _ _ hw hstep => h.signalled hw hstep
  cvSignalled := fun _ _ _ _ _ hw hstep => h.cvSignalled hw hstep

/-! ## Runs -/

theorem boot_standing : boot.roster.Standing := by
  intro t hknown _
  rcases hknown with hq | rfl | ⟨q, hq⟩
  · have hq : t ∈ ({2} : Multiset Nat) := hq
    rw [Multiset.mem_singleton.mp hq]
    exact ⟨rfl, by decide⟩
  · exact ⟨rfl, by decide⟩
  · exact absurd hq (by simp [roster, boot, Pc.spawns])

theorem watched_boot : Watched boot where
  ok := boot_ok
  standing := boot_standing
  blockedRuns := by
    intro t hb
    have hb : (if t = 1 then TaskState.running else .ready) = .blocked := hb
    split at hb <;> cases hb
  once := by
    intro w
    cases w with
    | mutex | cond | condvar => exact nodup_nil
  waiting := by
    intro w t ht
    cases w with
    | mutex | cond | condvar => cases ht

/-- Task 1 begins to wait for a signal; task 3 signals before it is Blocked, and then it waits with
its tid in no queue. -/
def signalledEarly : List Op :=
  [.call (.spawn 0 none), .next 0, .call (.lock 0), .next 0, .call (.condWait 0), .timer 0,
    .call (.signal 0), .timer 0] ++ replicate 4 (.next 0)

end Kernel

end AlaphiOS.Sched
